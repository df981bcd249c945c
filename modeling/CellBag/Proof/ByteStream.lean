import CellBag.Proof.ByteCoder
import CellBag.Proof.Packing

/-!
The byte strings that `decode_8` reads to the end mark are those that `encode_8` writes.
-/

namespace CellBag.Huffman
open BitString CodeTree HuffmanEncoderDecoder

namespace HuffmanEncoderDecoder

/-- Without a cutoff the loop ends only behind a walk to a leaf. -/
theorem decodeLoop_walk {bits : List Bool} {initialOffs : Nat} {tree : CodeTree Nat} {offs next : Nat}
    {answer : Option Nat} (read : decodeLoop bits initialOffs none tree offs = some (answer, next)) :
    ∃ found, tree.walk (bits.drop offs) = some found ∧ answer = some found.1 ∧
      next = offs + found.2 := by
  induction tree generalizing offs with
  | leaf symbol =>
      simp only [decodeLoop, Option.not_mem_none, false_implies, implies_true, check_of,
        Option.bind_eq_bind, Option.bind_some, Option.some.injEq, Prod.mk.injEq] at read
      exact ⟨(symbol, 0), by rw [walk], read.1.symm, read.2.symm⟩
  | fork left right ihLeft ihRight =>
      simp only [decodeLoop, Option.not_mem_none, false_and, exists_false, if_false] at read
      obtain ⟨bit, here, read⟩ := Option.bind_eq_some_iff.mp read
      rw [getBit_eq] at here
      obtain ⟨inRange, value⟩ := List.getElem?_eq_some_iff.mp here
      rw [List.drop_eq_getElem_cons inRange, value, walk]
      cases bit with
      | false =>
          obtain ⟨found, walked, symbol, count⟩ := ihLeft read
          exact ⟨(found.1, found.2 + 1), by simp [walked], symbol, by omega⟩
      | true =>
          obtain ⟨found, walked, symbol, count⟩ := ihRight read
          exact ⟨(found.1, found.2 + 1), by simp [walked], symbol, by omega⟩

/-- A read symbol is one of the table, and its codeword stands at the offset. -/
theorem Codec.decodeSymbol_sound {coder : HuffmanEncoderDecoder} {size : Nat}
    (codec : Codec coder size) {bits : List Bool} {offs next : Nat} {answer : Option Nat}
    (read : coder.decodeSymbol bits offs none = some (answer, next)) :
    ∃ s < size, answer = some s ∧ next = offs + (coder.word s).length ∧
      coder.word s <+: bits.drop offs := by
  obtain ⟨⟨s, count⟩, walked, symbol, reached⟩ := decodeLoop_walk read
  obtain ⟨inside, member⟩ := walk_sound walked
  have word : coder.word s = (bits.drop offs).take count := codec.word_of_mem member
  have length : (coder.word s).length = count := by rw [word, List.length_take, Nat.min_eq_left inside]
  exact ⟨s, codec.lt_size member, symbol, by rw [length, reached], word ▸ List.take_prefix _ _⟩

end HuffmanEncoderDecoder

section Bytes
variable {coder : HuffmanEncoderDecoder}

/-- What the loop of `decode_8` has read are the codewords of its result. -/
theorem decode8Loop_sound (codec : Codec coder 256) {bits : List Bool} {cntBits fuel offs last : Nat}
    {data : List UInt8} (read : decode8Loop coder bits cntBits fuel offs = some (data, last)) :
    byteWords coder data <+: bits.drop offs ∧ last = offs + (byteWords coder data).length := by
  induction fuel generalizing offs data with
  | zero => cases read
  | succ fuel ih =>
      rw [decode8Loop] at read
      split_ifs at read with more
      · obtain ⟨⟨answer, next⟩, decoded, read⟩ := Option.bind_eq_some_iff.mp read
        obtain ⟨symbol, same, read⟩ := Option.bind_eq_some_iff.mp read
        obtain ⟨⟨rest, final⟩, loop, read⟩ := Option.bind_eq_some_iff.mp read
        obtain ⟨rfl, rfl⟩ := Prod.mk.inj (Option.some.inj read)
        obtain ⟨s, small, found, reached, after, split⟩ := codec.decodeSymbol_sound decoded
        obtain rfl := Option.some.inj (found.symm.trans same)
        obtain ⟨tail, count⟩ := ih loop
        have byte : (UInt8.ofNat s).toNat = s := by
          rw [UInt8.toNat_ofNat', Nat.mod_eq_of_lt small]
        have words : byteWords coder (UInt8.ofNat s :: rest) = coder.word s ++ byteWords coder rest := by
          rw [byteWords, List.flatMap_cons, byte, ← byteWords]
        rw [reached, ← List.drop_drop, ← split, List.drop_left] at tail
        rw [words, List.length_append, ← split]
        exact ⟨(List.prefix_append_right_inj _).mpr tail, by omega⟩
      · obtain ⟨rfl, rfl⟩ := Prod.mk.inj (Option.some.inj read)
        exact ⟨List.nil_prefix, rfl⟩

/-- `decode_8` accepts only byte strings with an end mark. -/
theorem decode8_marked {bytes data : List UInt8} {last : Nat}
    (read : decode8 bytes = some (data, last)) : ∃ payload, bytes = markedBytes payload := by
  rw [decode8] at read
  obtain ⟨_, _, read⟩ := Option.bind_eq_some_iff.mp read
  obtain ⟨back, ends, read⟩ := Option.bind_eq_some_iff.mp read
  obtain ⟨_, nonzero, _⟩ := Option.bind_eq_some_iff.mp read
  exact exists_markedBytes ends (check_eq_some.mp nonzero)

end Bytes

/-- `encode_8` writes a byte string exactly if the string is short enough for its offsets and `decode_8` reads it to
its end mark, and then `decode_8` returns the encoded data. -/
theorem encode8_eq_some_iff (data bytes : List UInt8) : encode8 data = some bytes ↔
    data ≠ [] ∧ bytes.length < 2 ^ 28 ∧ ∃ payload, bytesStrToBitStr bytes true = some payload ∧
      decode8 bytes = some (data, payload.length) := by
  obtain ⟨coder, built, codec, lengths⟩ := byteCoder_spec
  rw [encode8_eq built codec lengths]
  constructor
  · intro written
    split_ifs at written with defined
    obtain rfl := Option.some.inj written
    have size := length_byteWords lengths data
    have bytes := length_markedBytes (byteWords coder data)
    have small := defined.2
    have tail : markTail (byteWords coder data).length ≤ 7 := Nat.sub_le _ _
    exact ⟨defined.1, by omega, _, bytesStrToBitStr_markedBytes (by omega),
      decode8_words built codec (size ▸ small)⟩
  · rintro ⟨nonempty, short, payload, unpacked, read⟩
    obtain ⟨bits, rfl⟩ := decode8_marked read
    have size := length_markedBytes bits
    have small : bits.length + 8 < 2 ^ 31 := by rw [markTail] at size; omega
    rw [bytesStrToBitStr_markedBytes (by omega), Option.some.injEq] at unpacked
    subst unpacked
    obtain ⟨after, buffer⟩ := readable_markedBytes small
    rw [decode8_markedBytes built, Nat.mod_eq_of_lt (by omega), buffer] at read
    obtain ⟨starts, count⟩ := decode8Loop_sound codec read
    rw [Nat.zero_add] at count
    -- both are the bits before the mark
    rw [List.drop_zero] at starts
    have whole : byteWords coder data <+: bits :=
      List.prefix_of_prefix_length_le starts (List.prefix_append _ _) count.ge
    have same : byteWords coder data = bits := whole.eq_of_length count.symm
    rw [← length_byteWords lengths, same, if_pos ⟨nonempty, small⟩]

end CellBag.Huffman
