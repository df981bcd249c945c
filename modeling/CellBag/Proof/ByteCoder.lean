import CellBag.Proof.CodeLengths
import CellBag.Proof.Utils

/-!
The outer byte coder: decoding inverts encoding while the offsets are an `int`.
-/

namespace CellBag.Huffman
open BitString CodeTree HuffmanEncoderDecoder

/-- The bits that the codeword of a byte takes. -/
def byteCodeLength (byte : Nat) : Nat :=
  if byte = 0 then 6
  else if byte ∈ [1, 128, 255] then 7
  else if byte ∈ [74, 85, 93, 105, 106, 118, 139, 155, 177, 179, 211, 217] then 9
  else 8

/-- No byte takes more than 9 bits. -/
theorem byteCodeLength_le (byte : Nat) : byteCodeLength byte ≤ 9 := by
  unfold byteCodeLength
  split_ifs <;> decide

theorem bytesFreq_length : bytesFreq.length = 256 := by decide +kernel

theorem bytesFreq_sum : sumFreq bytesFreq = 1321255 := by decide +kernel

/-- The lengths of the codes, checked for the source's table. -/
theorem bytesFreq_passes :
    tablePasses (fun s depth => Nat.beq (byteCodeLength s) depth) bytesFreq = true := by
  decide +kernel

/-- The coder of the byte table has codewords of these lengths. -/
theorem byteCoder_spec :
    ∃ coder, ofFreq bytesFreq = some coder ∧ Codec coder 256 ∧
      ∀ byte : UInt8, (coder.word byte.toNat).length = byteCodeLength byte.toNat := by
  obtain ⟨coder, built, codec, -⟩ := ofFreq_spec bytesFreq
    (by rw [bytesFreq_length]; decide) (by rw [bytesFreq_sum]; decide)
  rw [bytesFreq_length] at codec
  refine ⟨coder, built, codec, fun byte => ?_⟩
  have length := codec.length_word_passes bytesFreq_passes built _ byte.toNat_lt
  exact (Nat.eq_of_beq_eq_true length).symm

/-- The codewords of the bytes. -/
def byteWords (coder : HuffmanEncoderDecoder) (data : List UInt8) : List Bool :=
  data.flatMap fun byte => coder.word byte.toNat

/-- The bits that the codewords of the bytes take. -/
def wordsLength (data : List UInt8) : Nat := (data.map fun byte => byteCodeLength byte.toNat).sum

section Bytes
variable {coder : HuffmanEncoderDecoder}

/-- The bits of the code words, counted. -/
theorem length_byteWords
    (lengths : ∀ byte : UInt8, (coder.word byte.toNat).length = byteCodeLength byte.toNat)
    (data : List UInt8) : (byteWords coder data).length = wordsLength data := by
  simp only [byteWords, wordsLength, List.length_flatMap, lengths]

/-- Each byte takes at most nine bits. -/
theorem wordsLength_le (data : List UInt8) : wordsLength data ≤ 9 * data.length := by
  rw [wordsLength, Nat.mul_comm, ← smul_eq_mul]
  refine (List.sum_le_card_nsmul _ 9 ?_).trans (by simp)
  intro length member
  obtain ⟨byte, _, rfl⟩ := List.mem_map.mp member
  exact byteCodeLength_le _

/-- Each codeword has a bit. -/
theorem length_le_byteWords (codec : Codec coder 256) (data : List UInt8) :
    data.length ≤ (byteWords coder data).length := by
  have ones : (data.map fun _ => 1).sum ≤ (data.map fun byte => (coder.word byte.toNat).length).sum :=
    List.sum_le_sum fun byte _ => codec.word_pos byte.toNat_lt
  simpa [byteWords, List.length_flatMap] using ones

/-- The stores of `encode_8` are the codewords of the bytes and the end mark. -/
theorem encode8Bits_eq (built : ofFreq bytesFreq = some coder) (codec : Codec coder 256)
    (data : List UInt8) : encode8Bits data =
      some ((BitPtr.start (8 * (data.length * 2))).push (byteWords coder data ++ [true])) := by
  have run (ptr : BitPtr) :
      data.foldlM (fun bits byte => (coder.encodeSymbol bits byte.toNat).map Prod.snd) ptr =
        some (ptr.push (byteWords coder data)) := by
    rw [byteWords]
    induction data generalizing ptr with
    | nil => simp
    | cons byte data ih =>
        rw [List.foldlM_cons, codec.encodeSymbol_eq byte.toNat_lt]
        simp [ih]
  rw [encode8Bits, built]
  simp only [Option.bind_eq_bind, Option.bind_some, run, BitPtr.storeUint_eq_push, BitPtr.push_push]
  rfl

/-- The stores of `encode_8` stay inside its buffer. -/
theorem encode8Bits_inside (built : ofFreq bytesFreq = some coder) (codec : Codec coder 256)
    (lengths : ∀ byte : UInt8, (coder.word byte.toNat).length = byteCodeLength byte.toNat)
    {data : List UInt8} (nonempty : data ≠ []) :
    ∃ bits, encode8Bits data = some bits ∧ bits.inside = true ∧ bits.offs = wordsLength data + 1 := by
  have positive : 0 < data.length := List.length_pos_iff.mpr nonempty
  have bound := wordsLength_le data
  refine ⟨_, encode8Bits_eq built codec data, ?_, ?_⟩
  · rw [BitPtr.start_push_inside, List.length_append, List.length_singleton, length_byteWords lengths]
    omega
  · simp [length_byteWords lengths]

/-- `encode_8` writes the codewords and an end mark if its offsets are an `int`; its buffer has no room for
the mark alone. -/
theorem encode8_eq (built : ofFreq bytesFreq = some coder) (codec : Codec coder 256)
    (lengths : ∀ byte : UInt8, (coder.word byte.toNat).length = byteCodeLength byte.toNat)
    (data : List UInt8) :
    encode8 data = if data ≠ [] ∧ wordsLength data + 8 < 2 ^ 31 then
      some (markedBytes (byteWords coder data)) else none := by
  have stored := encode8Bits_eq built codec data
  have size := length_byteWords lengths data
  have bound := wordsLength_le data
  have offs : ((BitPtr.start (8 * (data.length * 2))).push (byteWords coder data ++ [true])).offs =
      wordsLength data + 1 := by simp [size]
  rw [encode8, stored, Option.bind_eq_bind, Option.bind_some, offs]
  split_ifs with defined
  · have positive : 0 < data.length := List.length_pos_iff.mpr defined.1
    have room : data.length * 2 ≥ (wordsLength data + 1 + 7) / 8 := by omega
    rw [check_of (by omega), Option.bind_eq_bind, Option.bind_some]
    simp only [check_of room, Option.bind_some, markedBytes, size]
    rfl
  · rw [not_and_or, not_not] at defined
    rcases defined with rfl | large
    · rfl
    · rw [check, if_neg (by omega)]
      rfl

/-- `decode_8` reads as many of the bits before the end mark as a 32-bit count tells. -/
theorem decode8_markedBytes (built : ofFreq bytesFreq = some coder) (payload : List Bool) :
    decode8 (markedBytes payload) = decode8Loop coder (readable (markedBytes payload))
      (payload.length % 2 ^ 32) (payload.length % 2 ^ 32 + 1) 0 := by
  obtain ⟨back, last, nonzero, mark, clear⟩ := markedBytes_getLast payload
  have size := length_markedBytes payload
  have cntBits : wrapSub ((markedBytes payload).length * 8) (markTail payload.length + 1) =
      payload.length % 2 ^ 32 := by
    rw [wrapSub]
    omega
  rw [decode8, built, Option.bind_eq_bind, Option.bind_some, last, Option.bind_eq_bind, Option.bind_some,
    check_of nonzero, Option.bind_eq_bind, Option.bind_some, find_mark 8 (Nat.le_refl 8) mark clear]
  dsimp only
  rw [cntBits]

/-- The zero byte behind the buffer continues the zeros behind the mark. -/
theorem readable_markedBytes {payload : List Bool} (small : payload.length + 8 < 2 ^ 31) :
    ∃ after, readable (markedBytes payload) = payload ++ after := by
  rw [readable, ofBytes_append, ofBytes_markedBytes, List.append_assoc, List.take_append,
    List.take_of_length_le (by omega)]
  exact ⟨_, rfl⟩

/-- The reading loop returns the bytes and stops behind the last codeword. -/
theorem decode8Loop_words {coder : HuffmanEncoderDecoder} (codec : Codec coder 256)
    (data : List UInt8) (before after : List Bool) (fuel : Nat) (enough : data.length < fuel) :
    let words := byteWords coder data
    decode8Loop coder (before ++ (words ++ after)) (before.length + words.length) fuel
      before.length = some (data, before.length + words.length) := by
  induction data generalizing before fuel with
  | nil =>
      obtain ⟨fuel, rfl⟩ : ∃ less, fuel = less + 1 := ⟨fuel - 1, by simp at enough; omega⟩
      simp [byteWords, decode8Loop]
  | cons byte data ih =>
      obtain ⟨fuel, rfl⟩ : ∃ less, fuel = less + 1 := ⟨fuel - 1, by simp at enough; omega⟩
      have positive := codec.word_pos (s := byte.toNat) byte.toNat_lt
      have rest := ih (before ++ coder.word byte.toNat) fuel (by simpa using enough)
      simp only [List.append_assoc, List.length_append] at rest
      rw [byteWords, List.flatMap_cons, ← byteWords]
      simp only [List.append_assoc, List.length_append]
      rw [decode8Loop, if_pos (by omega), codec.decodeSymbol_word byte.toNat_lt]
      simp only [Option.bind_eq_bind, Option.bind_some]
      rw [← Nat.add_assoc, rest]
      simp

/-- The codewords of bytes are read back up to the end mark. -/
theorem decode8_words (built : ofFreq bytesFreq = some coder) (codec : Codec coder 256)
    {data : List UInt8} (small : (byteWords coder data).length + 8 < 2 ^ 31) :
    decode8 (markedBytes (byteWords coder data)) = some (data, (byteWords coder data).length) := by
  obtain ⟨after, buffer⟩ := readable_markedBytes small
  have atLeast := length_le_byteWords codec data
  have run := decode8Loop_words codec data [] after ((byteWords coder data).length + 1) (by omega)
  rw [decode8_markedBytes built, Nat.mod_eq_of_lt (by omega), buffer]
  simpa only [List.nil_append, List.length_nil, Nat.zero_add] using run

end Bytes

/-- `encode_8` stays in its buffer, its result ends with a nonzero byte, and `decode_8` returns the data from it
and stops at the end mark. -/
def Coded (data : List UInt8) : Prop :=
  ∃ bits bytes, encode8Bits data = some bits ∧ bits.inside = true ∧ encode8 data = some bytes ∧
    (∃ back, bytes.getLast? = some back ∧ back ≠ 0) ∧ decode8 bytes = some (data, bits.offs - 1)

/-- The bytes come back exactly if their codewords and the end mark keep `bits.offs + 7` an `int`. -/
theorem coded_iff (data : List UInt8) (nonempty : data ≠ []) :
    Coded data ↔ wordsLength data + 8 < 2 ^ 31 := by
  obtain ⟨coder, built, codec, lengths⟩ := byteCoder_spec
  have written := encode8_eq built codec lengths data
  have size := length_byteWords lengths data
  constructor
  · rintro ⟨bits, bytes, -, -, encoded, -⟩
    by_contra large
    rw [written, if_neg fun defined => large defined.2] at encoded
    cases encoded
  · intro small
    obtain ⟨bits, stored, inside, offs⟩ := encode8Bits_inside built codec lengths nonempty
    obtain ⟨back, last, nonzero, -⟩ := markedBytes_getLast (byteWords coder data)
    rw [if_pos ⟨nonempty, small⟩] at written
    have decoded := decode8_words built codec (size ▸ small)
    rw [size, ← Nat.add_sub_cancel (wordsLength data) 1, ← offs] at decoded
    exact ⟨bits, _, stored, inside, written, ⟨back, last, nonzero⟩, decoded⟩

theorem coded_iff_bytes : Coded [0, 1, 74, 200, 255, 200, 0] ∧
    wordsLength [0, 1, 74, 200, 255, 200, 0] + 8 < 2 ^ 31 :=
  ⟨(coded_iff [0, 1, 74, 200, 255, 200, 0] (by decide)).mpr (by decide), by decide⟩

/-- The codewords of `2 ^ 28` bytes with eight bits each leave no `int` for the offset behind them. -/
theorem coded_large : ¬ Coded (List.replicate (2 ^ 28) 200) := by
  obtain ⟨coder, built, codec, lengths⟩ := byteCoder_spec
  have total : wordsLength (List.replicate (2 ^ 28) 200) = 2 ^ 31 := by
    rw [wordsLength, List.map_replicate, List.sum_replicate, smul_eq_mul]
    decide
  rintro ⟨_, bytes, -, -, encoded, -⟩
  rw [encode8_eq built codec lengths, if_neg (by omega)] at encoded
  cases encoded

end CellBag.Huffman
