import CellBag.Library.BitString

/-!
The bit pointers and the helpers of `utils.h`. A failed `CHECK`, a read outside a buffer
and an uncaught error all end the program; the model returns `none` there.
-/

namespace CellBag
open BitString

/-- `CHECK(condition)`. -/
def check (condition : Prop) [Decidable condition] : Option Unit :=
  if condition then some () else none

/-- A check passes exactly if its condition holds. -/
@[simp] theorem check_eq_some {condition : Prop} [Decidable condition] {result : Unit} :
    check condition = some result ↔ condition := by
  simp [check]

/-- A condition that holds passes its check. -/
theorem check_of {condition : Prop} [Decidable condition] (holds : condition) :
    check condition = some () := check_eq_some.mpr holds

/-- `a - b` of two `unsigned`. -/
def wrapSub (a b : Nat) : Nat := (a + 2 ^ 32 - b % 2 ^ 32) % 2 ^ 32

/-- Without an underflow the difference is that of the numbers. -/
theorem wrapSub_of_le {a b : Nat} (le : b ≤ a % 2 ^ 32) : wrapSub a b = a % 2 ^ 32 - b := by
  rw [wrapSub]
  omega

/-- A difference of two `unsigned` in this order does not wrap. -/
theorem wrapSub_eq {a b : Nat} (le : b ≤ a) (small : a < 2 ^ 32) : wrapSub a b = a - b := by
  rw [← Nat.mod_eq_of_lt small] at le
  rw [wrapSub_of_le le, Nat.mod_eq_of_lt small]

/-- A writing `td::BitPtr`: the size of its zeroed buffer in bits, the bits stored before its
offset, and whether every store stayed inside the buffer; only then the stores have an outcome. -/
@[ext] structure BitPtr where
  size : Nat
  bits : List Bool
  inside : Bool
  inside_iff : inside = true ↔ bits.length ≤ size
deriving DecidableEq

namespace BitPtr

/-- A pointer to the first bit of a zeroed buffer. -/
def start (size : Nat) : BitPtr := ⟨size, [], true, by simp⟩

/-- `offs`. -/
def offs (ptr : BitPtr) : Nat := ptr.bits.length

/-- `ptr.store_uint(value, width); ptr.offs += width`. -/
def storeUint (ptr : BitPtr) (value width : Nat) : BitPtr where
  size := ptr.size
  bits := ptr.bits ++ ofNat width value
  inside := ptr.inside && decide (ptr.offs + width ≤ ptr.size)
  inside_iff := by
    have before := ptr.inside_iff
    rw [Bool.and_eq_true, before, decide_eq_true_iff, List.length_append, length_ofNat, offs]
    omega

/-- The same stores in one: the bits go behind the offset. -/
def push (ptr : BitPtr) (more : List Bool) : BitPtr where
  size := ptr.size
  bits := ptr.bits ++ more
  inside := decide (ptr.bits.length + more.length ≤ ptr.size)
  inside_iff := by simp

@[simp] theorem start_size (size : Nat) : (start size).size = size := rfl
@[simp] theorem start_bits (size : Nat) : (start size).bits = [] := rfl
@[simp] theorem start_offs (size : Nat) : (start size).offs = 0 := rfl
@[simp] theorem push_size (ptr : BitPtr) (more : List Bool) : (ptr.push more).size = ptr.size := rfl
@[simp] theorem push_bits (ptr : BitPtr) (more : List Bool) :
    (ptr.push more).bits = ptr.bits ++ more := rfl

/-- Stores move the offset by their widths. -/
@[simp] theorem push_offs (ptr : BitPtr) (more : List Bool) :
    (ptr.push more).offs = ptr.offs + more.length := by simp [offs]

/-- The size and the stored bits determine the pointer. -/
theorem ext_bits {first second : BitPtr} (size : first.size = second.size)
    (bits : first.bits = second.bits) : first = second := by
  apply BitPtr.ext size bits
  rw [Bool.eq_iff_iff, first.inside_iff, second.inside_iff, size, bits]

/-- A stored number is its bits in the given width. -/
theorem storeUint_eq_push (ptr : BitPtr) (value width : Nat) :
    ptr.storeUint value width = ptr.push (ofNat width value) := ext_bits rfl rfl

/-- Two stores are one. -/
@[simp] theorem push_push (ptr : BitPtr) (first second : List Bool) :
    (ptr.push first).push second = ptr.push (first ++ second) :=
  ext_bits rfl (List.append_assoc _ _ _)

@[simp] theorem push_nil (ptr : BitPtr) : ptr.push [] = ptr :=
  ext_bits rfl (List.append_nil _)

/-- The stores into a new buffer stay inside if the buffer has their bits. -/
@[simp] theorem start_push_inside (size : Nat) (bits : List Bool) :
    ((start size).push bits).inside = true ↔ bits.length ≤ size := by
  simpa using ((start size).push bits).inside_iff

end BitPtr

/-- `ptr.get_uint(width)` at an offset of a buffer with the given bits. -/
def getUint (bits : List Bool) (offs width : Nat) : Option Nat :=
  if offs + width ≤ bits.length then some (toNat ((bits.drop offs).take width)) else none

/-- `bool bit = ptr.get_uint(1)`. -/
def getBit (bits : List Bool) (offs : Nat) : Option Bool :=
  (getUint bits offs 1).map fun value => value != 0

/-- A word is read as its number. -/
theorem getUint_append (before word after : List Bool) :
    getUint (before ++ (word ++ after)) before.length word.length = some (toNat word) := by
  rw [getUint, if_pos (by simp), List.drop_left, List.take_left]

/-- A stored number is read back. -/
theorem getUint_ofNat {width value : Nat} (fits : value < 2 ^ width) (before after : List Bool) :
    getUint (before ++ (ofNat width value ++ after)) before.length width = some value := by
  have read := getUint_append before (ofNat width value) after
  rwa [length_ofNat, toNat_ofNat_of_lt fits] at read

/-- A bit is read at its index. -/
theorem getBit_eq (bits : List Bool) (offs : Nat) : getBit bits offs = bits[offs]? := by
  by_cases inRange : offs < bits.length
  · rw [getBit, getUint, if_pos (by omega), List.getElem?_eq_getElem inRange,
      List.drop_eq_getElem_cons inRange]
    cases bits[offs] <;> simp [BitString.toNat]
  · rw [getBit, getUint, if_neg (by omega), List.getElem?_eq_none (by omega)]
    rfl

/-- `td::count_leading_zeroes64`. -/
def countLeadingZeroes64 (num : Nat) : Nat := if num = 0 then 64 else 63 - num.log2

/-- `td::count_trailing_zeroes32` and `td::count_trailing_zeroes64` differ in the width. -/
def countTrailingZeroes (width num : Nat) : Nat :=
  ((List.range width).find? fun index => num.testBit index).getD width

/-- `td::count_trailing_zeroes32`. -/
def countTrailingZeroes32 (num : Nat) : Nat := countTrailingZeroes 32 num

/-- `td::count_trailing_zeroes64`. -/
def countTrailingZeroes64 (num : Nat) : Nat := countTrailingZeroes 64 num

/-- `len_in_bits`. -/
def lenInBits (num : Nat) : Nat := max 1 (64 - countLeadingZeroes64 num)

/-- `len_in_bytes`. -/
def lenInBytes (num : Nat) : Nat := (lenInBits num + 7) / 8

/-- The loop of `push_bit_range` moves at most 64 bits at a time. -/
def pushBitRange (source : List Bool) (data : BitPtr) (offs cnt : Nat) : Option BitPtr :=
  if cnt = 0 then some data
  else do
    let value ← getUint source offs (min cnt 64)
    pushBitRange source (data.storeUint value (min cnt 64)) (offs + min cnt 64) (cnt - min cnt 64)
termination_by cnt

/-- `bytes_str_to_bit_str(bytes, marked_end)`. -/
def bytesStrToBitStr (bytes : List UInt8) (markedEnd : Bool) : Option (List Bool) := do
  let cntBits ←
    if markedEnd then do
      let byte ← bytes.getLast?
      check (byte ≠ 0)
      check (countTrailingZeroes64 byte.toNat ≤ 7)
      some (wrapSub (bytes.length * 8) (countTrailingZeroes64 byte.toNat + 1))
    else some (bytes.length * 8 % 2 ^ 32)
  (List.range cntBits).mapM fun index =>
    bytes[index / 8]?.map fun byte => byte.toNat.testBit (7 - index % 8)

end CellBag
