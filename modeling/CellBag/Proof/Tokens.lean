import CellBag.Proof.Coders
import CellBag.Proof.Utils
import CellBag.Model.Deserializer

/-!
The numbers of a token: a symbol of a coder, with an escape for the numbers above a threshold.
-/

namespace CellBag.Serializator
open BitString Huffman

/-- The bits from an offset on. -/
structure Ahead (bits : List Bool) (offs : Nat) (rest : List Bool) : Prop where
  le : offs ≤ bits.length
  drop : bits.drop offs = rest

section Ahead
variable {bits word rest : List Bool} {offs : Nat}

/-- What stands behind a prefix is ahead of its end. -/
theorem ahead_append (before rest : List Bool) : Ahead (before ++ rest) before.length rest :=
  ⟨by simp, List.drop_left⟩

/-- A word that is ahead stands inside the bits. -/
theorem Ahead.fits (ahead : Ahead bits offs (word ++ rest)) : offs + word.length ≤ bits.length := by
  have size := congrArg List.length ahead.drop
  have := ahead.le
  rw [List.length_drop, List.length_append] at size
  omega

/-- Behind the word the rest is ahead. -/
theorem Ahead.next (ahead : Ahead bits offs (word ++ rest)) : Ahead bits (offs + word.length) rest :=
  ⟨ahead.fits, by rw [← List.drop_drop, ahead.drop, List.drop_left]⟩

/-- The bits are a prefix and what is ahead of it. -/
theorem Ahead.split (ahead : Ahead bits offs rest) :
    ∃ before, bits = before ++ rest ∧ offs = before.length :=
  ⟨bits.take offs, by rw [← ahead.drop, List.take_append_drop],
    by rw [List.length_take, min_eq_left ahead.le]⟩

/-- A number that is ahead is read. -/
theorem Ahead.getUint {width value : Nat} (fits : value < 2 ^ width)
    (ahead : Ahead bits offs (ofNat width value ++ rest)) : getUint bits offs width = some value := by
  obtain ⟨before, rfl, rfl⟩ := ahead.split
  exact getUint_ofNat fits before rest

/-- The bits of a word that is ahead are read one by one. -/
theorem Ahead.getBits (ahead : Ahead bits offs (word ++ rest)) :
    ((List.range word.length).mapM fun j => getBit bits (offs + j)) = some word := by
  apply OptionList.mapM_range_getElem?
  intro index inRange
  rw [getBit_eq, ← List.getElem?_drop, ahead.drop, List.getElem?_append_left inRange]

/-- A code word that is ahead is decoded as its symbol. -/
theorem Ahead.decodeSymbol {coder : HuffmanEncoderDecoder} {symbols s : Nat}
    (usable : Usable coder symbols) (inRange : s < symbols)
    (ahead : Ahead bits offs (coder.word s ++ rest)) :
    coder.decodeSymbol bits offs none = some (some s, offs + (coder.word s).length) := by
  obtain ⟨before, rfl, rfl⟩ := ahead.split
  exact usable.decodeSymbol_word inRange before rest

end Ahead

/-- The bits of a dumped number: as many full words as fit, and the remainder. -/
def numBits (blen num : Nat) : List Bool :=
  (List.replicate (num / (2 ^ blen - 1)) (ofNat blen (2 ^ blen - 1))).flatten ++
    ofNat blen (num % (2 ^ blen - 1))

/-- A dumped number takes a word for each multiple of the largest one and a last one. -/
@[simp] theorem length_numBits (blen num : Nat) :
    (numBits blen num).length = blen * (num / (2 ^ blen - 1) + 1) := by
  simp [numBits, Nat.mul_comm, Nat.mul_add]

/-- A positive width has at least two numbers. -/
theorem two_le_two_pow {blen : Nat} (wide : 0 < blen) : 2 ≤ 2 ^ blen := by
  calc 2 = 2 ^ 1 := rfl
    _ ≤ 2 ^ blen := Nat.pow_le_pow_right (by omega) wide

/-- A number below the largest one is its own last word. -/
theorem numBits_of_lt {blen num : Nat} (small : num < 2 ^ blen - 1) :
    numBits blen num = ofNat blen num := by
  rw [numBits, Nat.div_eq_of_lt small, Nat.mod_eq_of_lt small]
  rfl

/-- Any other number starts with a full word. -/
theorem numBits_of_le {blen num : Nat} (wide : 0 < blen) (large : 2 ^ blen - 1 ≤ num) :
    numBits blen num = ofNat blen (2 ^ blen - 1) ++ numBits blen (num - (2 ^ blen - 1)) := by
  have two := two_le_two_pow wide
  have count : num / (2 ^ blen - 1) = (num - (2 ^ blen - 1)) / (2 ^ blen - 1) + 1 := by
    rw [Nat.div_eq_sub_div (by omega) large]
  have rest : num % (2 ^ blen - 1) = (num - (2 ^ blen - 1)) % (2 ^ blen - 1) :=
    Nat.mod_eq_sub_mod large
  rw [numBits, numBits, count, rest, List.replicate_succ, List.flatten_cons, List.append_assoc]

/-- The loop of `dump_num` stores the words of the number. -/
theorem dumpNumLoop_eq {blen : Nat} (wide : 0 < blen) (fuel : Nat) (ptr : BitPtr) (num : Nat)
    (enough : num < fuel) : dumpNumLoop blen fuel ptr num = some (ptr.push (numBits blen num)) := by
  have two := two_le_two_pow wide
  induction fuel generalizing ptr num with
  | zero => omega
  | succ fuel ih =>
      rw [dumpNumLoop]
      by_cases small : num < 2 ^ blen - 1
      · rw [Nat.min_eq_left (by omega)]
        simp only [small, if_true, numBits_of_lt small, BitPtr.storeUint_eq_push]
      · rw [Nat.min_eq_right (by omega)]
        simp only [Nat.lt_irrefl, if_false]
        rw [ih _ _ (by omega), BitPtr.storeUint_eq_push, BitPtr.push_push,
          ← numBits_of_le wide (by omega)]

/-- `dump_num` stores the words of the number. -/
theorem dumpNum_eq {blen : Nat} (wide : 0 < blen) (ptr : BitPtr) (num : Nat) :
    dumpNum ptr num blen = some (ptr.push (numBits blen num)) :=
  dumpNumLoop_eq wide (num + 1) ptr num (Nat.lt_succ_self num)

/-- The loop of `read_dumped_num` adds up the words of the number and stops behind them. -/
theorem readDumpedLoop_eq {bits rest : List Bool} {blen : Nat} (wide : 0 < blen) (fuel : Nat)
    (offs num : Nat) (small : num < 2 ^ 32) (enough : num / (2 ^ blen - 1) < fuel)
    (ahead : Ahead bits offs (numBits blen num ++ rest)) :
    readDumpedLoop bits blen fuel offs = some (num, offs + (numBits blen num).length) := by
  have two := two_le_two_pow wide
  induction fuel generalizing offs num with
  | zero => exact absurd enough (Nat.not_lt_zero _)
  | succ fuel ih =>
      rw [readDumpedLoop]
      by_cases last : num < 2 ^ blen - 1
      · rw [numBits_of_lt last] at ahead ⊢
        rw [ahead.getUint (by omega)]
        simp [last]
      · have more : 2 ^ blen - 1 ≤ num := by omega
        rw [numBits_of_le wide more, List.append_assoc] at ahead
        have next := ahead.next
        rw [length_ofNat] at next
        have count : num / (2 ^ blen - 1) = (num - (2 ^ blen - 1)) / (2 ^ blen - 1) + 1 := by
          rw [Nat.div_eq_sub_div (by omega) more]
        have run := ih _ _ (by omega) (by omega) next
        have sum : (2 ^ blen - 1 + (num - (2 ^ blen - 1))) % 2 ^ 32 = num := by
          rw [Nat.add_sub_cancel' more, Nat.mod_eq_of_lt small]
        rw [ahead.getUint (by omega), numBits_of_le wide more, List.length_append, length_ofNat]
        simp only [Option.bind_eq_bind, Option.bind_some, Nat.lt_irrefl, if_false, run, sum,
          Nat.add_assoc]

/-- `read_dumped_num` reads the number back, whatever follows it. -/
theorem readDumpedNum_eq {bits rest : List Bool} {blen offs num : Nat} (wide : 0 < blen)
    (small : num < 2 ^ 32) (ahead : Ahead bits offs (numBits blen num ++ rest)) :
    readDumpedNum bits offs blen = some (num, offs + (numBits blen num).length) := by
  refine readDumpedLoop_eq wide _ offs num small ?_ ahead
  -- every word of the number takes a bit of the buffer
  have fits := ahead.fits
  rw [length_numBits] at fits
  have := Nat.le_mul_of_pos_left (num / (2 ^ blen - 1) + 1) wide
  omega

/-- The bits of a number with an escape. -/
def symbolBits (coder : HuffmanEncoderDecoder) (threshold blen num : Nat) : List Bool :=
  coder.word (min threshold num) ++ if threshold ≤ num then numBits blen (num - threshold) else []

section Symbol
variable {coder : HuffmanEncoderDecoder} {threshold blen num : Nat}

/-- A number is stored as its symbol and, from the threshold on, its excess. -/
theorem dumpSymbol_eq (usable : Usable coder (threshold + 1)) (wide : 0 < blen) (num : Nat)
    (ptr : BitPtr) :
    dumpSymbol coder threshold blen num ptr = some (ptr.push (symbolBits coder threshold blen num)) := by
  rw [dumpSymbol, usable.encodeSymbol_eq (by omega)]
  simp only [Option.bind_eq_bind, Option.bind_some, symbolBits]
  by_cases escape : threshold ≤ num
  · rw [if_pos (Nat.min_eq_left escape), dumpNum_eq wide, BitPtr.push_push, if_pos escape]
  · rw [if_neg (by omega), if_neg escape, List.append_nil]

/-- A stored number takes at least a bit. -/
theorem symbolBits_pos (usable : Usable coder (threshold + 1)) (blen num : Nat) :
    0 < (symbolBits coder threshold blen num).length := by
  have := usable.word_pos (s := min threshold num) (by omega)
  rw [symbolBits, List.length_append]
  omega

/-- A stored number is read back, also at the threshold, where the excess is zero. -/
theorem readSymbol_eq (usable : Usable coder (threshold + 1)) (wide : 0 < blen)
    (small : num < 2 ^ 32) {bits rest : List Bool} {offs : Nat}
    (ahead : Ahead bits offs (symbolBits coder threshold blen num ++ rest)) :
    readSymbol coder threshold blen bits offs =
      some (num, offs + (symbolBits coder threshold blen num).length) := by
  rw [symbolBits, List.append_assoc] at ahead
  have next := ahead.next
  rw [readSymbol, ahead.decodeSymbol usable (by omega), symbolBits, List.length_append]
  simp only [Option.bind_eq_bind, Option.bind_some]
  by_cases escape : threshold ≤ num
  · rw [if_pos escape] at next
    have sum : (min threshold num + (num - threshold)) % 2 ^ 32 = num := by
      rw [Nat.min_eq_left escape, Nat.add_sub_cancel' escape, Nat.mod_eq_of_lt small]
    rw [if_pos (Nat.min_eq_left escape), if_pos escape,
      readDumpedNum_eq wide (by omega) next]
    simp only [Option.bind_some, sum, Nat.add_assoc]
  · rw [if_neg (by omega), if_neg escape, Nat.min_eq_right (by omega), List.length_nil, Nat.add_zero]

end Symbol

/-- The bits of the offset of a cell. -/
def cellIdOffsetBits (coder : HuffmanEncoderDecoder) (nCells cellIdOffset : Nat) : List Bool :=
  coder.word (min cellIdOffset CELL_ID_OFFSET_TH) ++ if CELL_ID_OFFSET_TH ≤ cellIdOffset then
    ofNat (lenInBits (nCells - 1 - CELL_ID_OFFSET_TH)) (cellIdOffset - CELL_ID_OFFSET_TH) else []

/-- The offset of a cell is stored as its symbol and, from the threshold on, its excess. -/
theorem dumpCellIdOffset_eq {context : LzContext}
    (usable : Usable context.cellIdOffsetEncoder (CELL_ID_OFFSET_TH + 1)) (ptr : BitPtr)
    (cellIdOffset : Nat) :
    context.dumpCellIdOffset ptr cellIdOffset = some (ptr.push
      (cellIdOffsetBits context.cellIdOffsetEncoder context.nCells cellIdOffset)) := by
  rw [LzContext.dumpCellIdOffset, usable.encodeSymbol_eq (by omega)]
  simp only [Option.bind_eq_bind, Option.bind_some, cellIdOffsetBits]
  by_cases escape : CELL_ID_OFFSET_TH ≤ cellIdOffset
  · rw [if_pos (Nat.min_eq_right escape), if_pos escape, BitPtr.storeUint_eq_push, BitPtr.push_push]
  · rw [if_neg (by omega), if_neg escape, List.append_nil]

/-- The offset of a cell is read back; the width of its excess fits all offsets below the number of cells. -/
theorem readCellIdOffset_eq {reader : LzReader}
    (usable : Usable reader.cellIdOffsetDecoder (CELL_ID_OFFSET_TH + 1))
    (few : reader.nCells < 2 ^ 32) {cellIdOffset offs : Nat} (small : cellIdOffset < reader.nCells)
    {rest : List Bool} (ahead : Ahead reader.lzBits offs
      (cellIdOffsetBits reader.cellIdOffsetDecoder reader.nCells cellIdOffset ++ rest)) :
    reader.readCellIdOffset offs = some (cellIdOffset, offs +
      (cellIdOffsetBits reader.cellIdOffsetDecoder reader.nCells cellIdOffset).length) := by
  rw [cellIdOffsetBits, List.append_assoc] at ahead
  have next := ahead.next
  rw [LzReader.readCellIdOffset, ahead.decodeSymbol usable (by omega), cellIdOffsetBits,
    List.length_append]
  simp only [Option.bind_eq_bind, Option.bind_some]
  by_cases escape : CELL_ID_OFFSET_TH ≤ cellIdOffset
  · rw [if_pos escape] at next
    have wrap : wrapSub (reader.nCells - 1) CELL_ID_OFFSET_TH =
        reader.nCells - 1 - CELL_ID_OFFSET_TH := wrapSub_eq (by omega) (by omega)
    have fits : cellIdOffset - CELL_ID_OFFSET_TH <
        2 ^ lenInBits (reader.nCells - 1 - CELL_ID_OFFSET_TH) :=
      Nat.lt_of_le_of_lt (by omega)
        (lt_two_pow_lenInBits (show reader.nCells - 1 - CELL_ID_OFFSET_TH < 2 ^ 64 by omega))
    have sum : (min cellIdOffset CELL_ID_OFFSET_TH + (cellIdOffset - CELL_ID_OFFSET_TH)) % 2 ^ 32 =
        cellIdOffset := by
      rw [Nat.min_eq_right escape, Nat.add_sub_cancel' escape, Nat.mod_eq_of_lt (by omega)]
    rw [if_pos (Nat.min_eq_right escape), if_pos escape, wrap, next.getUint fits]
    simp only [Option.bind_some, sum, length_ofNat, Nat.add_assoc]
  · rw [if_neg (by omega), if_neg escape, Nat.min_eq_left (by omega), List.length_nil, Nat.add_zero]

/-- The bits of a literal with its length. -/
def literalBits (coder : HuffmanEncoderDecoder) (literal : List Bool) : List Bool :=
  symbolBits coder LITERAL_LEN_TH BITS_TO_DUMP_LITERAL_LEN literal.length ++ literal

/-- A stored literal takes at least a bit, also when it is empty. -/
theorem literalBits_pos {coder : HuffmanEncoderDecoder} (usable : Usable coder (LITERAL_LEN_TH + 1))
    (literal : List Bool) : 0 < (literalBits coder literal).length := by
  rw [literalBits, List.length_append]
  exact Nat.lt_of_lt_of_le (symbolBits_pos usable _ _) (Nat.le_add_right ..)

/-- `dump_literal` stores the length and the bits of the literal. -/
theorem dumpLiteral_eq (context : LzContext)
    (usable : Usable context.literalLenEncoder (LITERAL_LEN_TH + 1)) (ptr : BitPtr)
    {literalLen start : Nat} (fits : start + literalLen ≤ context.bits.length) :
    context.dumpLiteral ptr literalLen start = some (ptr.push
      (literalBits context.literalLenEncoder ((context.bits.drop start).take literalLen))) := by
  have size : ((context.bits.drop start).take literalLen).length = literalLen :=
    length_chunk (by omega)
  have literal : (List.range literalLen).mapM (fun j => context.bits[start + j]?) =
      some ((context.bits.drop start).take literalLen) := by
    conv_lhs => rw [← size]
    apply OptionList.mapM_range_getElem?
    intro index inRange
    rw [List.getElem?_take_of_lt (by omega), List.getElem?_drop]
  rw [LzContext.dumpLiteral, dumpSymbol_eq usable (by decide)]
  simp only [Option.bind_eq_bind, Option.bind_some, literal, literalBits, size, BitPtr.push_push]

end CellBag.Serializator
