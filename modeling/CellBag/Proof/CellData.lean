import CellBag.Model.Cells
import CellBag.Proof.Utils

/-!
The bits of a cell: squeezed by `MyCell(cell)` and restored for `store_bits`.
-/

namespace CellBag
open BitString

/-- `push_bit_range` appends the range. -/
theorem pushBitRange_eq {source : List Bool} {offs cnt : Nat} (inRange : offs + cnt ≤ source.length)
    (data : BitPtr) : pushBitRange source data offs cnt =
      some (data.push ((source.drop offs).take cnt)) := by
  induction cnt using Nat.strongRecOn generalizing offs data with
  | ind cnt ih =>
      rw [pushBitRange]
      by_cases done : cnt = 0
      · simp [done]
      · have read : getUint source offs (min cnt 64) =
            some (toNat ((source.drop offs).take (min cnt 64))) := by
          rw [getUint, if_pos (by omega)]
        have chunk : ((source.drop offs).take (min cnt 64)).length = min cnt 64 :=
          length_chunk (by omega)
        have stored := ofNat_toNat ((source.drop offs).take (min cnt 64))
        rw [chunk] at stored
        rw [if_neg done, read]
        simp only [Option.bind_eq_bind, Option.bind_some]
        rw [ih (cnt - min cnt 64) (by omega) (by omega), BitPtr.storeUint_eq_push, BitPtr.push_push,
          stored, ← List.drop_drop, ← List.take_add]
        congr 4
        omega

end CellBag

namespace CellBag.Serializator
open BitString

namespace Cell

/-- The first byte of a special cell. -/
def typeByte (cell : Cell) : Nat := toNat (cell.bits.take 8)

/-- The limits of the cell library: at most four refs and 1023 bits, and a type byte in a special
cell. -/
structure Valid (cell : Cell) : Prop where
  refs : cell.refs.length ≤ 4
  bits : cell.bits.length ≤ 1023
  typeByte : cell.isSpecial = true → 8 ≤ cell.bits.length ∧ 1 ≤ cell.typeByte ∧ cell.typeByte ≤ 4

/-- A cell whose payload is computed from its refs. -/
def isMerkle (cell : Cell) : Bool := cell.isSpecial && decide (3 ≤ cell.typeByte)

/-- The bits with the type byte squeezed to two bits. -/
def squeezed (cell : Cell) : List Bool :=
  if cell.isSpecial then ofNat 2 (cell.typeByte - 1) ++ cell.bits.drop 8 else cell.bits

/-- The bits that are sent for a cell. -/
def payload (cell : Cell) : List Bool :=
  if cell.isMerkle then ofNat 2 (cell.typeByte - 1) else cell.squeezed

end Cell

/-- The fields of a `MyCell` are those of a cell. -/
structure Holds (myCell : MyCell) (cell : Cell) : Prop where
  cntRefs : myCell.cntRefs = cell.refs.length
  isSpecial : myCell.isSpecial = cell.isSpecial
  cntBits : myCell.cntBits = cell.payload.length
  bytes : myCell.data.length = (myCell.cntBits + 7) / 8
  data : (ofBytes myCell.data).take myCell.cntBits = cell.payload

namespace MyCell

/-- After the type byte the loop copies its slice. -/
theorem fetchLoop_copy {isSpecial : Bool} {fuel : Nat} {slice : List Bool} {buf : BitPtr}
    (enough : slice.length < fuel) (pastType : isSpecial = true → buf.offs ≠ 0) (cntBits : Nat) :
    fetchLoop isSpecial fuel slice cntBits buf = some (cntBits, buf.push slice) := by
  induction fuel generalizing slice buf with
  | zero => omega
  | succ fuel ih =>
      have copy : ¬ (isSpecial = true ∧ buf.offs = 0) := fun first => pastType first.1 first.2
      rw [fetchLoop]
      by_cases some_ : slice.length > 0
      · have chunk : (slice.take (min slice.length 8)).length = min slice.length 8 := by
          rw [List.length_take]
          omega
        have stored := ofNat_toNat (slice.take (min slice.length 8))
        rw [chunk] at stored
        rw [if_pos some_]
        simp only [copy, if_false, BitPtr.storeUint_eq_push, stored]
        rw [ih (by rw [List.length_drop]; omega)
          (fun _ => by rw [BitPtr.push_offs, chunk]; omega), BitPtr.push_push, List.take_append_drop]
      · rw [if_neg some_, List.length_eq_zero_iff.mp (Nat.eq_zero_of_not_pos some_), BitPtr.push_nil]

/-- The loop squeezes the type byte. -/
theorem fetchLoop_cell {cell : Cell} (valid : cell.Valid) (size : Nat) :
    fetchLoop cell.isSpecial (cell.bits.length + 1) cell.bits cell.bits.length (BitPtr.start size) =
      some (cell.squeezed.length, (BitPtr.start size).push cell.squeezed) := by
  cases special : cell.isSpecial with
  | false =>
      rw [fetchLoop_copy (by omega) (by simp), Cell.squeezed, special]
      simp
  | true =>
      obtain ⟨long, first, last⟩ := valid.typeByte special
      have chunk : min cell.bits.length 8 = 8 := by omega
      rw [fetchLoop, if_pos (by omega)]
      simp only [true_and, BitPtr.start_offs, if_true, chunk]
      rw [← Cell.typeByte, check_of (by omega), check_of (by omega), check_of (by omega)]
      simp only [Option.bind_eq_bind, Option.bind_some]
      rw [fetchLoop_copy (by rw [List.length_drop]; omega)
        (by simp [BitPtr.storeUint_eq_push]), BitPtr.storeUint_eq_push, BitPtr.push_push,
        Cell.squeezed, if_pos special]
      congr 2
      simp
      omega

end MyCell

theorem Cell.Valid.specialType {cell : Cell} (valid : cell.Valid) :
    ∃ cellType, cell.specialType = some cellType ∧
      decide (cellType ≠ .ordinary) = cell.isSpecial ∧
      (cellType = .merkleUpdate ∨ cellType = .merkleProof ↔ cell.isMerkle = true) := by
  rw [Cell.specialType, Cell.isMerkle]
  cases special : cell.isSpecial with
  | false => exact ⟨.ordinary, by simp, by simp, by simp⟩
  | true =>
      obtain ⟨-, first, last⟩ := valid.typeByte special
      rw [← Cell.typeByte]
      interval_cases cell.typeByte <;> exact ⟨_, rfl, by decide, by decide⟩

theorem Cell.squeezed_prefix {cell : Cell} (merkle : cell.isMerkle = true) :
    cell.squeezed = cell.payload ++ cell.bits.drop 8 := by
  rw [Cell.isMerkle, Bool.and_eq_true] at merkle
  rw [Cell.squeezed, if_pos merkle.1, Cell.payload, Cell.isMerkle, merkle.1, merkle.2]
  rfl

theorem Cell.length_squeezed {cell : Cell} (valid : cell.Valid) :
    cell.squeezed.length ≤ cell.bits.length := by
  rw [Cell.squeezed]
  split_ifs with special
  · have long := (valid.typeByte special).1
    simp
    omega
  · exact Nat.le_refl _

/-- `MyCell(cell)` of a valid cell passes its checks and holds the cell. -/
theorem MyCell.ofCell_holds {cell : Cell} (valid : cell.Valid) :
    ∃ myCell, MyCell.ofCell cell = some myCell ∧ Holds myCell cell ∧
      myCell.refs = List.replicate 4 0 ∧ myCell.refsAsCells = cell.refs := by
  obtain ⟨cellType, typed, special, merkle⟩ := valid.specialType
  have fits : cell.squeezed.length ≤ 8 * ((cell.squeezed.length + 7) / 8) := by omega
  simp only [MyCell.ofCell, typed, special, fetchLoop_cell valid, check_of valid.refs,
    Option.bind_eq_bind, Option.bind_some, BitPtr.push_bits, BitPtr.start_bits, List.nil_append, merkle]
  refine ⟨_, rfl, ⟨rfl, rfl, ?_, ?_, ?_⟩, rfl, rfl⟩
  · cases isMerkle : cell.isMerkle <;> simp [Cell.payload, isMerkle]
  · cases isMerkle : cell.isMerkle <;> simp
    omega
  · cases isMerkle : cell.isMerkle with
    | false =>
        simp only [Bool.false_eq_true, if_false, Cell.payload, isMerkle]
        rw [ofBytes_toBytes_of_le fits, List.take_left]
    | true =>
        have split := Cell.squeezed_prefix isMerkle
        rw [Cell.payload, isMerkle, if_pos rfl] at split ⊢
        obtain ⟨count, bytes⟩ : ∃ count, (cell.squeezed.length + 7) / 8 = count + 1 :=
          Nat.exists_eq_succ_of_ne_zero (by rw [split, List.length_append, length_ofNat]; omega)
        rw [if_pos rfl, if_pos rfl, bytes, toBytes, List.take_succ_cons, List.take_zero,
          List.length_cons, Nat.sub_eq_zero_of_le (by omega), List.replicate_zero, List.append_nil,
          ofBytes_cons, ofBytes_nil, List.append_nil, ofNat_toByte _ (by simp), split,
          List.take_append_of_le_length (by simp), List.take_take]
        exact List.take_left' (length_ofNat 2 _)

/-- The two bits that `data[0]` starts with. -/
theorem Holds.firstBits {myCell : MyCell} {cell : Cell} (holds : Holds myCell cell) (valid : cell.Valid)
    (special : cell.isSpecial = true) :
    ∃ byte rest, myCell.data = byte :: rest ∧ byte.toNat / 2 ^ 6 + 1 = cell.typeByte ∧
      2 ≤ myCell.cntBits := by
  obtain ⟨-, first, last⟩ := valid.typeByte special
  have start : ∃ more, cell.payload = ofNat 2 (cell.typeByte - 1) ++ more := by
    rw [Cell.payload, Cell.squeezed, if_pos special]
    split_ifs
    · exact ⟨[], (List.append_nil _).symm⟩
    · exact ⟨_, rfl⟩
  obtain ⟨more, payload⟩ := start
  have two : 2 ≤ myCell.cntBits := by rw [holds.cntBits, payload]; simp
  have bytes := holds.bytes
  cases split : myCell.data with
  | nil => rw [split, List.length_nil] at bytes; omega
  | cons byte rest =>
      refine ⟨byte, rest, rfl, ?_, two⟩
      have data := congrArg (List.take 2) holds.data
      rw [split, List.take_take, Nat.min_eq_left two, payload, List.take_left' (length_ofNat 2 _),
        ofBytes_cons, List.take_append_of_le_length (by simp), show 8 = 2 + 6 from rfl, ofNat_add,
        List.take_left' (length_ofNat 2 _)] at data
      have value := congrArg toNat data
      have small := byte.toNat_lt
      rw [toNat_ofNat_of_lt (by omega), toNat_ofNat_of_lt (by omega)] at value
      omega

theorem Holds.getType {myCell : MyCell} {cell : Cell} (holds : Holds myCell cell) (valid : cell.Valid) :
    myCell.getType = cell.specialType := by
  rw [MyCell.getType, Cell.specialType, holds.isSpecial]
  cases special : cell.isSpecial with
  | false => rfl
  | true =>
      obtain ⟨-, first, last⟩ := valid.typeByte special
      obtain ⟨byte, rest, data, value, -⟩ := holds.firstBits valid special
      rw [if_pos rfl, if_pos rfl, data, ← Cell.typeByte]
      simp only [List.getElem?_cons_zero, Option.bind_eq_bind, Option.bind_some, value]
      interval_cases cell.typeByte <;> rfl

/-- The type byte is restored, and the bits after it. -/
theorem Holds.restoreType {myCell : MyCell} {cell : Cell} (holds : Holds myCell cell)
    (valid : cell.Valid) (special : cell.isSpecial = true) :
    restoreType myCell = some (toBytes ((myCell.cntBits + 6 + 7) / 8)
      (ofNat 8 cell.typeByte ++ cell.payload.drop 2), myCell.cntBits + 6) := by
  obtain ⟨byte, rest, data, value, two⟩ := holds.firstBits valid special
  have bytes := holds.bytes
  have short : cell.payload.length ≤ 1023 := by
    have squeezed := Cell.length_squeezed valid
    have bits := valid.bits
    rw [Cell.payload]
    split_ifs
    · simp
    · omega
  have cntBits := holds.cntBits
  have range : (((ofBytes myCell.data).drop 2).take (myCell.cntBits - 2)) = cell.payload.drop 2 := by
    rw [← holds.data, List.drop_take]
  have length : (cell.payload.drop 2).length = myCell.cntBits - 2 := by
    rw [List.length_drop, cntBits]
  have whole : (myCell.cntBits + 6) % 2 ^ 32 = myCell.cntBits + 6 := Nat.mod_eq_of_lt (by omega)
  have left : (myCell.cntBits + 6 + 2 ^ 32 - 8) % 2 ^ 32 = myCell.cntBits - 2 := by omega
  have fits : (ofNat 8 cell.typeByte ++ cell.payload.drop 2).length = myCell.cntBits + 6 := by
    rw [List.length_append, length_ofNat, length]
    omega
  have pushed := pushBitRange_eq
    (show 2 + (myCell.cntBits - 2) ≤ (ofBytes myCell.data).length by rw [length_ofBytes]; omega)
    ((BitPtr.start (8 * ((myCell.cntBits + 6 + 7) / 8))).storeUint cell.typeByte 8)
  rw [range, BitPtr.storeUint_eq_push, BitPtr.push_push] at pushed
  have first : myCell.data[0]? = some byte := by rw [data, List.getElem?_cons_zero]
  simp only [Serializator.restoreType, first, Option.bind_eq_bind, Option.bind_some, value, whole, left,
    BitPtr.storeUint_eq_push, pushed]
  rw [check_of ((BitPtr.start_push_inside _ _).mpr (by omega)), BitPtr.push_offs, BitPtr.start_offs,
    Nat.zero_add, check_of fits, fits]
  rfl

/-- A cell that is no Merkle cell is handed to `store_bits` as it was. -/
theorem Holds.storedBits_plain {myCell : MyCell} {cell : Cell} (holds : Holds myCell cell)
    (valid : cell.Valid) (plain : cell.isMerkle = false) (library : CellLibrary) (nCells : Nat)
    (refs : List VmCell) :
    ∃ data, storedBits library nCells myCell refs = some (data, cell.bits.length) ∧
      cell.bits.length ≤ 8 * data.length ∧ (ofBytes data).take cell.bits.length = cell.bits := by
  obtain ⟨cellType, typed, -, merkle⟩ := valid.specialType
  have noMerkle : ¬ (cellType = .merkleUpdate ∨ cellType = .merkleProof) := by simp [merkle, plain]
  rw [storedBits, holds.getType valid, typed, holds.isSpecial]
  simp only [Option.bind_eq_bind, Option.bind_some, noMerkle, if_false]
  cases special : cell.isSpecial with
  | false =>
      have payload : cell.payload = cell.bits := by
        rw [Cell.payload, plain, Cell.squeezed, special]
        rfl
      have cntBits := holds.cntBits
      have data := holds.data
      have bytes := holds.bytes
      rw [payload] at cntBits data
      rw [cntBits] at data bytes
      refine ⟨myCell.data, by simp [cntBits], by omega, data⟩
  | true =>
      obtain ⟨long, first, last⟩ := valid.typeByte special
      have payload : cell.payload = ofNat 2 (cell.typeByte - 1) ++ cell.bits.drop 8 := by
        rw [Cell.payload, plain, Cell.squeezed, if_pos special]
        rfl
      have cntBits : myCell.cntBits + 6 = cell.bits.length := by
        rw [holds.cntBits, payload, List.length_append, length_ofNat, List.length_drop]
        omega
      have type : ofNat 8 cell.typeByte = cell.bits.take 8 := by
        have whole := ofNat_toNat (cell.bits.take 8)
        rwa [List.length_take, Nat.min_eq_left long] at whole
      have restored := holds.restoreType valid special
      rw [cntBits, payload, List.drop_left' (length_ofNat _ _), type, List.take_append_drop] at restored
      rw [if_pos rfl, restored]
      refine ⟨_, rfl, by rw [length_toBytes]; omega, ?_⟩
      rw [ofBytes_toBytes_of_le (by omega), List.take_left]

end CellBag.Serializator
