import CellBag.Model.UtilsLocal
import CellBag.Proof.Utils

/-!
Packing with an end mark: bit strings are the byte strings whose last byte is not zero.
-/

namespace CellBag
open BitString

/-- The mask of a bit within its byte. -/
theorem testBit_mask {place : Nat} (inside : place ≤ 7) (byte : UInt8) (index : Nat) :
    (byte ^^^ (1 <<< UInt8.ofNat place)).toNat.testBit index =
      (byte.toNat.testBit index != decide (place = index)) := by
  have mask : (1 <<< UInt8.ofNat place : UInt8).toNat = 2 ^ place := by
    interval_cases place <;> rfl
  rw [UInt8.toNat_xor, mask, Nat.testBit_xor, Nat.testBit_two_pow]

/-- Flipping a bit of a byte string flips that bit only. -/
theorem flipBit_spec {out : List UInt8} {i : Nat} (inside : i < 8 * out.length) :
    ∃ flipped, flipBit out i = some flipped ∧ flipped.length = out.length ∧
      ofBytes flipped = (ofBytes out).modify i fun bit => !bit := by
  have within : i / 8 < out.length := by omega
  refine ⟨out.set (i / 8) (out[i / 8] ^^^ (1 <<< UInt8.ofNat (7 - i % 8))), ?_, by simp, ?_⟩
  · simp [flipBit, List.getElem?_eq_getElem within]
  · apply List.ext_getElem?
    intro j
    rw [getElem?_ofBytes, List.getElem?_modify, getElem?_ofBytes, List.getElem?_set]
    by_cases byte : i / 8 = j / 8
    · have withinJ : j / 8 < out.length := byte ▸ within
      have place : 7 - i % 8 = 7 - j % 8 ↔ i = j := by omega
      have shape : out[i / 8] = out[j / 8] := by simp only [byte]
      simp only [byte, if_true, withinJ, List.getElem?_eq_getElem withinJ, Option.map_some,
        testBit_mask (by omega : 7 - i % 8 ≤ 7), place]
      by_cases same : i = j
      · simp [same]
      · simp [same]
    · have other : i ≠ j := fun same => byte (congrArg (· / 8) same)
      simp [byte, other]

/-- The bit at a known place is changed. -/
theorem modify_middle (before after : List Bool) (bit : Bool) (f : Bool → Bool) :
    (before ++ bit :: after).modify before.length f = before ++ f bit :: after := by
  induction before with
  | nil => rfl
  | cons first before ih => simp [List.modify_succ_cons, ih]

/-- The `0` and `1` bytes of a bit string. -/
def expandBits (bits : List Bool) : List UInt8 := bits.map fun bit => if bit then 1 else 0

/-- Binary bytes are expanded bits. -/
theorem exists_expandBits {data : List UInt8} (binary : ∀ bit ∈ data, bit ≤ 1) :
    ∃ bits, data = expandBits bits := by
  refine ⟨data.map fun bit => decide (bit ≠ 0), ?_⟩
  rw [expandBits, List.map_map]
  refine (List.map_id data).symm.trans (List.map_congr_left fun bit member => ?_)
  have small := binary bit member
  by_cases zero : bit = 0
  · simp [zero]
  · have one : bit = 1 := UInt8.toNat_inj.mp (by
      have positive : bit.toNat ≠ 0 := fun same => zero (UInt8.toNat_inj.mp same)
      have := UInt8.le_iff_toNat_le.mp small
      simp at this ⊢
      omega)
    simp [one]

/-- The loop stores the bits at its index. -/
theorem packLoop_spec (bits : List Bool) (done : List Bool) (room : Nat) (out : List UInt8)
    (stored : ofBytes out = done ++ List.replicate (bits.length + room) false) :
    ∃ packed, packLoop (expandBits bits) done.length out = some packed ∧
      packed.length = out.length ∧ ofBytes packed = done ++ bits ++ List.replicate room false := by
  induction bits generalizing done out with
  | nil => exact ⟨out, rfl, rfl, by simpa using stored⟩
  | cons bit bits ih =>
      have size := congrArg List.length stored
      simp only [length_ofBytes, List.length_append, List.length_replicate, List.length_cons] at size
      rw [List.length_cons, Nat.add_right_comm, List.replicate_succ] at stored
      have turn : ∃ next, (if (if bit then (1 : UInt8) else 0) ≠ 0 then flipBit out done.length
          else some out) = some next ∧ next.length = out.length ∧
          ofBytes next = (done ++ [bit]) ++ List.replicate (bits.length + room) false := by
        cases bit with
        | false => exact ⟨out, by simp, rfl, by simpa using stored⟩
        | true =>
            obtain ⟨flipped, run, long, flip⟩ := flipBit_spec (by omega : done.length < 8 * out.length)
            refine ⟨flipped, by simpa using run, long, ?_⟩
            rw [flip, stored, modify_middle]
            simp
      obtain ⟨next, step, long, stored'⟩ := turn
      obtain ⟨packed, run, long', all⟩ := ih (done ++ [bit]) next stored'
      refine ⟨packed, ?_, long'.trans long, by simpa using all⟩
      have digit : (0 : UInt8) ≤ (if bit then 1 else 0) ∧ (if bit then (1 : UInt8) else 0) ≤ 1 := by
        cases bit <;> decide
      rw [List.length_append, List.length_singleton] at run
      simp only [expandBits, List.map_cons, packLoop, check_of digit, Option.bind_eq_bind,
        Option.bind_some, step]
      exact run

/-- Byte strings with the same bits are equal. -/
theorem ofBytes_injective {first second : List UInt8} (same : ofBytes first = ofBytes second) :
    first = second := by
  have long := congrArg List.length same
  rw [length_ofBytes, length_ofBytes] at long
  rw [← toBytes_ofBytes first, ← toBytes_ofBytes second, same, show first.length = second.length by omega]

/-- Zero bytes are zero bits. -/
theorem ofBytes_zeros (count : Nat) :
    ofBytes (List.replicate count 0) = List.replicate (8 * count) false := by
  induction count with
  | zero => rfl
  | succ count ih =>
      rw [List.replicate_succ, ofBytes_cons, ih, Nat.mul_succ, Nat.add_comm, List.replicate_add]
      rfl

/-- Packing puts the mark behind the bits, if an `unsigned` counts them. -/
theorem packExpandedBitsToBytes_eq (bits : List Bool) : packExpandedBitsToBytes (expandBits bits) =
    if bits.length < 2 ^ 32 then some (markedBytes bits) else none := by
  have room : 8 * (bits.length / 8 + 1) = bits.length + (1 + markTail bits.length) := by
    rw [markTail]
    omega
  have zeros : ofBytes (List.replicate (bits.length / 8 + 1) 0) =
      [] ++ List.replicate (bits.length + (1 + markTail bits.length)) false := by
    rw [ofBytes_zeros, room, List.nil_append]
  obtain ⟨packed, run, long, stored⟩ := packLoop_spec bits [] (1 + markTail bits.length) _ zeros
  rw [List.length_replicate] at long
  obtain ⟨flipped, mark, _, flip⟩ := flipBit_spec (by omega : bits.length < 8 * packed.length)
  have marked : ofBytes flipped = ofBytes (markedBytes bits) := by
    rw [flip, stored, ofBytes_markedBytes, List.nil_append, Nat.add_comm 1, List.replicate_succ,
      modify_middle]
    rfl
  have length : (expandBits bits).length = bits.length := by simp [expandBits]
  rw [List.length_nil] at run
  simp only [packExpandedBitsToBytes, length, run, Option.bind_eq_bind, Option.bind_some, mark,
    ofBytes_injective marked, check]
  split_ifs <;> rfl

/-- A byte string whose last byte is not zero ends with a mark. -/
theorem exists_markedBytes {bytes : List UInt8} {back : UInt8} (last : bytes.getLast? = some back)
    (nonzero : back ≠ 0) : ∃ bits, bytes = markedBytes bits := by
  obtain ⟨front, rfl⟩ := List.getLast?_eq_some_iff.mp last
  -- the mark is the lowest bit of the last byte
  have found : ∃ tail, back.toNat.testBit tail = true ∧
      ∀ index < tail, back.toNat.testBit index = false := by
    have positive : ∃ index, back.toNat.testBit index = true := by
      by_contra clear
      push Not at clear
      exact nonzero (UInt8.toNat_inj.mp (Nat.eq_of_testBit_eq fun index => by simp [clear index]))
    refine ⟨Nat.find positive, Nat.find_spec positive, fun index below => ?_⟩
    simpa using Nat.find_min positive below
  obtain ⟨tail, mark, clear⟩ := found
  have small : tail ≤ 7 := by
    by_contra large
    have bound : back.toNat < 2 ^ tail :=
      back.toNat_lt.trans_le (Nat.pow_le_pow_right (by decide) (by omega))
    rw [Nat.testBit_lt_two_pow bound] at mark
    cases mark
  have split : ofNat 8 back.toNat =
      (ofNat 8 back.toNat).take (7 - tail) ++ (true :: List.replicate tail false) := by
    apply List.ext_getElem?
    intro index
    by_cases inside : index < 8
    · rw [getElem?_ofNat inside]
      rcases Nat.lt_trichotomy index (7 - tail) with before | here | after
      · rw [List.getElem?_append_left (by simp; omega), List.getElem?_take_of_lt before,
          getElem?_ofNat inside]
      · rw [List.getElem?_append_right (by simp; omega), show 8 - 1 - index = tail by omega, mark]
        simp only [List.length_take, length_ofNat, Nat.min_eq_left (by omega : 7 - tail ≤ 8)]
        rw [show index - (7 - tail) = 0 by omega, List.getElem?_cons_zero]
      · rw [List.getElem?_append_right (by simp; omega), clear _ (by omega)]
        simp only [List.length_take, length_ofNat, Nat.min_eq_left (by omega : 7 - tail ≤ 8)]
        rw [show index - (7 - tail) = index - (7 - tail) - 1 + 1 by omega, List.getElem?_cons_succ,
          List.getElem?_replicate_of_lt (by omega)]
    · rw [List.getElem?_eq_none (by simp; omega), List.getElem?_eq_none (by simp; omega)]
  let bits := ofBytes front ++ (ofNat 8 back.toNat).take (7 - tail)
  have length : bits.length = 8 * front.length + (7 - tail) := by
    simp only [bits, List.length_append, length_ofBytes, List.length_take, length_ofNat]
    omega
  have rest : markTail bits.length = tail := by
    rw [markTail, length]
    omega
  refine ⟨bits, ofBytes_injective ?_⟩
  rw [ofBytes_markedBytes, rest, List.append_assoc, ← split]
  simp [ofBytes, List.flatMap_append]

/-- Packing and unpacking with a mark are inverse to each other exactly on bits that an `unsigned` counts: on fewer
than `2 ^ 32` bits, and on at most `2 ^ 29` bytes. -/
theorem packExpandedBitsToBytes_inverse_iff (data : List UInt8) (binary : ∀ bit ∈ data, bit ≤ 1)
    (bytes : List UInt8) (marked : ∃ back, bytes.getLast? = some back ∧ back ≠ 0) :
    (((packExpandedBitsToBytes data).bind fun packed => bytesStrToBitStr packed true).map expandBits =
      some data ↔ data.length < 2 ^ 32) ∧
    ((bytesStrToBitStr bytes true).bind (fun bits => packExpandedBitsToBytes (expandBits bits)) =
      some bytes ↔ bytes.length ≤ 2 ^ 29) := by
  constructor
  · obtain ⟨bits, rfl⟩ := exists_expandBits binary
    have length : (expandBits bits).length = bits.length := by simp [expandBits]
    rw [packExpandedBitsToBytes_eq, length]
    split_ifs with short
    · simp only [Option.bind_some, bytesStrToBitStr_markedBytes short, Option.map_some, short]
    · simp only [Option.bind_none, Option.map_none, reduceCtorEq, short]
  · obtain ⟨back, last, nonzero⟩ := marked
    obtain ⟨bits, rfl⟩ := exists_markedBytes last nonzero
    have size := length_markedBytes bits
    have tail : markTail bits.length ≤ 7 := Nat.sub_le _ _
    have fewer : (bits.take (bits.length % 2 ^ 32)).length = bits.length % 2 ^ 32 :=
      List.length_take_of_le (Nat.mod_le _ _)
    have counted : bits.length % 2 ^ 32 < 2 ^ 32 := Nat.mod_lt _ (by decide)
    rw [bytesStrToBitStr_marked, Option.bind_some, packExpandedBitsToBytes_eq, fewer, if_pos counted,
      Option.some.injEq]
    constructor
    · intro same
      have packed := length_markedBytes (bits.take (bits.length % 2 ^ 32))
      have tail' : markTail (bits.length % 2 ^ 32) ≤ 7 := Nat.sub_le _ _
      rw [same, fewer] at packed
      omega
    · intro small
      rw [Nat.mod_eq_of_lt (by rw [markTail] at size; omega), List.take_length]

theorem packExpandedBitsToBytes_inverse_iff_byte :
    (((packExpandedBitsToBytes [0, 1, 1]).bind fun bytes =>
      bytesStrToBitStr bytes true).map expandBits = some [0, 1, 1]) ∧
    (bytesStrToBitStr [0x61, 0x80] true).bind (fun bits =>
      packExpandedBitsToBytes (expandBits bits)) = some [0x61, 0x80] := by
  obtain ⟨bits, bytes⟩ := packExpandedBitsToBytes_inverse_iff [0, 1, 1] (by simp) [0x61, 0x80]
    ⟨0x80, rfl, by decide⟩
  exact ⟨bits.mpr (by decide), bytes.mpr (by decide)⟩

/-- The bytes of zero bits and the mark behind them. -/
theorem markedBytes_zeros (count : Nat) :
    markedBytes (List.replicate (8 * count) false) = List.replicate count 0 ++ [0x80] := by
  have tail : markTail (8 * count) = 7 := by rw [markTail]; omega
  apply ofBytes_injective
  rw [ofBytes_markedBytes, ofBytes_append, ofBytes_zeros, List.length_replicate, tail]
  rfl

/-- Of `2 ^ 29` zero bytes in front of the mark, the `2 ^ 32` bits are counted as none. -/
theorem packExpandedBitsToBytes_uncounted :
    (∃ back, (List.replicate (2 ^ 29) (0 : UInt8) ++ [0x80]).getLast? = some back ∧ back ≠ 0) ∧
    (bytesStrToBitStr (List.replicate (2 ^ 29) 0 ++ [0x80]) true).bind (fun bits =>
      packExpandedBitsToBytes (expandBits bits)) = some [0x80] ∧
    [0x80] ≠ List.replicate (2 ^ 29) (0 : UInt8) ++ [0x80] := by
  have none : 8 * 2 ^ 29 % 2 ^ 32 = 0 := by decide
  refine ⟨⟨0x80, List.getLast?_concat, by decide⟩, ?_, fun same => ?_⟩
  · rw [← markedBytes_zeros, bytesStrToBitStr_marked, List.length_replicate, none, List.take_zero,
      Option.bind_some]
    decide
  · have lengths := congrArg List.length same
    rw [List.length_append, List.length_replicate] at lengths
    simp at lengths

end CellBag
