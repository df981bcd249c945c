import CellBag.Library.OptionList
import CellBag.Model.Utils

/-!
Bit lengths of numbers, moved bit ranges, and bit strings that end with a mark.
-/

namespace CellBag
open BitString

/-- A number fits in `k` bits exactly when its bit length is at most `k`. -/
theorem lenInBits_le_iff {num k : Nat} (fits : num < 2 ^ 64) (positive : 0 < k) :
    lenInBits num ≤ k ↔ num < 2 ^ k := by
  unfold lenInBits countLeadingZeroes64
  split
  · rename_i zero
    simp [zero]
    omega
  · rename_i nonzero
    have small : num.log2 < 64 := (Nat.log2_lt nonzero).mpr fits
    rw [← Nat.log2_lt nonzero]
    omega

/-- A number takes at least a bit. -/
theorem lenInBits_pos (num : Nat) : 0 < lenInBits num := by
  unfold lenInBits
  omega

/-- A number takes at most 64 bits. -/
theorem lenInBits_le (num : Nat) : lenInBits num ≤ 64 := by
  unfold lenInBits
  omega

/-- A number fits its own width. -/
theorem lt_two_pow_lenInBits {num : Nat} (fits : num < 2 ^ 64) : num < 2 ^ lenInBits num :=
  (lenInBits_le_iff fits (lenInBits_pos num)).mp (Nat.le_refl _)

/-- The zero bits behind the end mark of a bit string with the given length. -/
def markTail (length : Nat) : Nat := 7 - length % 8

/-- The bytes of a zeroed buffer up to the end mark behind the bits. -/
def markedBytes (bits : List Bool) : List UInt8 :=
  toBytes ((bits.length + 1 + 7) / 8) (bits ++ [true])

/-- The bytes hold the bits, the mark and the zeros behind it. -/
theorem length_markedBytes (bits : List Bool) :
    8 * (markedBytes bits).length = bits.length + 1 + markTail bits.length := by
  rw [markedBytes, length_toBytes, markTail]
  omega

/-- The bits of the bytes are the bits, the mark and the zeros behind it. -/
theorem ofBytes_markedBytes (bits : List Bool) :
    ofBytes (markedBytes bits) = bits ++ (true :: List.replicate (markTail bits.length) false) := by
  have whole : (bits ++ [true]).take (8 * ((bits.length + 1 + 7) / 8)) = bits ++ [true] :=
    List.take_of_length_le (by simp; omega)
  rw [markedBytes, ofBytes_toBytes, whole, List.append_assoc, List.singleton_append]
  congr 3
  simp only [List.length_append, List.length_singleton, markTail]
  omega

/-- The last byte holds the mark above its zero bits. -/
theorem markedBytes_getLast (bits : List Bool) :
    ∃ back, (markedBytes bits).getLast? = some back ∧ back ≠ 0 ∧
      back.toNat.testBit (markTail bits.length) = true ∧
      ∀ index < markTail bits.length, back.toNat.testBit index = false := by
  have size := length_markedBytes bits
  have tail : markTail bits.length ≤ 7 := by rw [markTail]; omega
  have inRange : (markedBytes bits).length - 1 < (markedBytes bits).length := by omega
  let back := (markedBytes bits)[(markedBytes bits).length - 1]
  have last : (markedBytes bits)[(markedBytes bits).length - 1]? = some back :=
    List.getElem?_eq_getElem inRange
  have read (index : Nat) (small : index ≤ 7) :
      some (back.toNat.testBit index) =
        (ofBytes (markedBytes bits))[8 * (markedBytes bits).length - 1 - index]? := by
    rw [getElem?_ofBytes,
      show (8 * (markedBytes bits).length - 1 - index) / 8 = (markedBytes bits).length - 1 by omega,
      last, Option.map_some]
    congr 2
    omega
  have mark : back.toNat.testBit (markTail bits.length) = true := by
    have found := read _ tail
    rw [ofBytes_markedBytes, List.getElem?_append_right (by omega)] at found
    rw [show 8 * (markedBytes bits).length - 1 - markTail bits.length - bits.length = 0 by omega] at found
    simpa using found
  refine ⟨back, List.getLast?_eq_getElem?.trans last, ?_, mark, ?_⟩
  · intro zero
    simp [zero] at mark
  · intro index below
    have found := read index (by omega)
    rw [ofBytes_markedBytes, List.getElem?_append_right (by omega)] at found
    rw [show 8 * (markedBytes bits).length - 1 - index - bits.length =
      (markTail bits.length - 1 - index) + 1 by omega, List.getElem?_cons_succ,
      List.getElem?_replicate_of_lt (by omega)] at found
    simpa using found

/-- A scan of the last byte from the low end finds the mark. -/
theorem find_mark {bits : List Bool} {back : UInt8} (width : Nat) (wide : 8 ≤ width)
    (mark : back.toNat.testBit (markTail bits.length) = true)
    (clear : ∀ index < markTail bits.length, back.toNat.testBit index = false) :
    (List.range width).find? (fun index => back.toNat.testBit index) =
      some (markTail bits.length) := by
  rw [List.find?_range_eq_some]
  refine ⟨mark, List.mem_range.mpr ?_, fun index below => by simp [clear index below]⟩
  rw [markTail]
  omega

/-- The trailing zeros of the last byte are those behind the mark. -/
theorem countTrailingZeroes_mark {bits : List Bool} {back : UInt8} {width : Nat} (wide : 8 ≤ width)
    (mark : back.toNat.testBit (markTail bits.length) = true)
    (clear : ∀ index < markTail bits.length, back.toNat.testBit index = false) :
    countTrailingZeroes width back.toNat = markTail bits.length := by
  rw [countTrailingZeroes, find_mark _ wide mark clear]
  rfl

/-- Unpacking strips the mark, and keeps as many bits as a 32-bit count tells. -/
theorem bytesStrToBitStr_marked (bits : List Bool) :
    bytesStrToBitStr (markedBytes bits) true = some (bits.take (bits.length % 2 ^ 32)) := by
  obtain ⟨back, last, nonzero, mark, clear⟩ := markedBytes_getLast bits
  have trailing : countTrailingZeroes64 back.toNat = markTail bits.length :=
    countTrailingZeroes_mark (by decide) mark clear
  have size := length_markedBytes bits
  have tail : markTail bits.length ≤ 7 := by rw [markTail]; omega
  have count : wrapSub ((markedBytes bits).length * 8) (markTail bits.length + 1) =
      bits.length % 2 ^ 32 := by
    rw [wrapSub]
    omega
  have read : (List.range (bits.length % 2 ^ 32)).mapM (fun index =>
      (markedBytes bits)[index / 8]?.map fun byte => byte.toNat.testBit (7 - index % 8)) =
      some (bits.take (bits.length % 2 ^ 32)) := by
    generalize kept : bits.length % 2 ^ 32 = count
    have within : count ≤ bits.length := kept ▸ Nat.mod_le _ _
    have bit (index : Nat) (inRange : index < (bits.take count).length) :
        ((markedBytes bits)[index / 8]?.map fun byte => byte.toNat.testBit (7 - index % 8)) =
          (bits.take count)[index]? := by
      rw [List.length_take_of_le within] at inRange
      rw [← getElem?_ofBytes, ofBytes_markedBytes, List.getElem?_append_left (by omega),
        List.getElem?_take_of_lt inRange]
    have run := OptionList.mapM_range_getElem? (bits.take count) bit
    rwa [List.length_take_of_le within] at run
  rw [bytesStrToBitStr, if_pos rfl, last]
  rw [Option.bind_eq_bind, Option.bind_eq_bind, Option.bind_some, check_of nonzero, Option.bind_some,
    trailing, check_of tail, Option.bind_eq_bind, Option.bind_some, count]
  exact read

/-- Fewer than `2 ^ 32` marked bits are read back. -/
theorem bytesStrToBitStr_markedBytes {bits : List Bool} (short : bits.length < 2 ^ 32) :
    bytesStrToBitStr (markedBytes bits) true = some bits := by
  rw [bytesStrToBitStr_marked, Nat.mod_eq_of_lt short, List.take_length]

end CellBag
