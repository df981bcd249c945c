import CellBag.Proof.CellOrder
import CellBag.Proof.Rebuild

/-!
What `serialize` hands to `run_lz`: the bits of all cells of the bag, in an order of its own.
-/

namespace CellBag.Serializator
open BitString Huffman

section Listed
variable {root : Cell} {cells : List Cell} {myCells : List MyCell}

/-- Each cell that `convert_to_my_cells` lists has its array of four refs. -/
theorem convertToMyCells_slots (valid : ∀ cell, root.Reaches cell → cell.Valid)
    (converted : convertToMyCells root = some myCells) :
    ∀ myCell ∈ myCells, myCell.refs.length = 4 := by
  obtain ⟨state, ran, numbered⟩ := Option.bind_eq_some_iff.mp converted
  obtain ⟨cells, again, found, listed, visit⟩ :=
    convertDfs_spec root valid [] ⟨[], []⟩ ⟨.nil, List.nodup_nil, by simp⟩
  obtain rfl := Option.some.inj (ran.symm.trans found)
  rw [List.nil_append] at listed
  intro myCell member
  obtain ⟨index, entry⟩ := List.getElem?_of_mem member
  obtain ⟨old, inState, numbers⟩ :=
    OptionList.forall₂_getElem? (OptionList.forall₂_of_mapM numbered).flip entry
  obtain ⟨cell, inCells, built⟩ := OptionList.forall₂_getElem? listed.myCells inState
  have cellValid := valid cell (visit.below cell (List.mem_of_getElem? inCells))
  obtain ⟨same, rebuilt, -, slots, refsAsCells⟩ := MyCell.ofCell_holds cellValid
  obtain rfl := Option.some.inj (built.symm.trans rebuilt)
  obtain ⟨refs, looked, numbers⟩ := Option.bind_eq_some_iff.mp numbers
  obtain rfl := Option.some.inj numbers
  have few := cellValid.refs
  have count := (OptionList.forall₂_of_mapM looked).length_eq
  rw [refsAsCells] at count
  rw [List.length_append, List.length_drop, slots, List.length_replicate]
  omega

/-- A numbered list of cells is a table. -/
theorem Numbering.table (numbering : Numbering cells myCells) (few : cells.length < 2 ^ 32)
    (valid : ∀ cell ∈ cells, cell.Valid) (slots : ∀ myCell ∈ myCells, myCell.refs.length = 4) :
    Table myCells where
  few := numbering.length_eq ▸ few
  slots := slots
  count := by
    intro myCell member
    obtain ⟨index, entry⟩ := List.getElem?_of_mem member
    obtain ⟨cell, inCells, numbered⟩ := OptionList.forall₂_getElem? numbering entry
    exact numbered.holds.cntRefs ▸ (valid cell (List.mem_of_getElem? inCells)).refs
  inside := by
    intro i ref member
    by_cases inRange : i < myCells.length
    · exact (numbering.next_lt inRange member).1
    · rw [refsOf_outside (Nat.le_of_not_lt inRange)] at member
      cases member

/-- It has no cycle. -/
theorem Numbering.acyclic (numbering : Numbering cells myCells) : Acyclic myCells := by
  have descends {i j : Nat}
      (path : Relation.TransGen (fun i ref => ref ∈ refsOf myCells i) i j) :
      rank cells j < rank cells i := by
    have step {v w : Nat} (edge : w ∈ refsOf myCells v) : rank cells w < rank cells v := by
      by_cases inRange : v < myCells.length
      · exact (numbering.next_lt inRange edge).2
      · rw [refsOf_outside (Nat.le_of_not_lt inRange)] at edge
        cases edge
    induction path with
    | single edge => exact step edge
    | tail _ edge lower => exact (step edge).trans lower
  exact fun i cycle => Nat.lt_irrefl _ (descends cycle)

end Listed

/-- In any order the listed cells of a bag can be written. -/
theorem reordered_spec {root : Cell} (coherent : root.Coherent)
    (valid : ∀ cell, root.Reaches cell → cell.Valid) :
    ∃ cells myCells, convertToMyCells root = some myCells ∧ Flattened root cells ∧
      (cells.length < 2 ^ 32 → Table myCells) ∧ Acyclic myCells ∧ myCells.length = cells.length ∧
      ∀ order, order.Perm (List.range cells.length) → ∃ newCells newMyCells,
        applyOrder myCells order = some newMyCells ∧ newCells.Perm cells ∧
        Numbering newCells newMyCells ∧ WritableCells newMyCells := by
  obtain ⟨cells, listed, converted, flattened, numbering⟩ := convertToMyCells_spec coherent valid
  have table (few : cells.length < 2 ^ 32) := numbering.table few
    (fun cell member => valid cell ((flattened.mem_iff cell).mp member))
    (convertToMyCells_slots valid converted)
  refine ⟨cells, listed, converted, flattened, table, numbering.acyclic, numbering.length_eq,
    fun order perm => ?_⟩
  obtain ⟨newCells, myCells, applied, reordered, newNumbering⟩ :=
    applyOrder_spec numbering (numbering.length_eq ▸ perm)
  have same : newCells.Perm cells := reordered_perm perm reordered
  have nonempty : newCells ≠ [] := List.ne_nil_of_mem
    (same.mem_iff.mpr ((flattened.mem_iff root).mpr root.reaches_refl))
  exact ⟨newCells, myCells, applied, same, newNumbering, newNumbering.writable nonempty
    fun cell member => valid cell ((flattened.mem_iff cell).mp (same.mem_iff.mp member))⟩

/-- `serialize` hands the bits and metas of a list of all cells to `run_lz`. -/
theorem serializeBits_spec {tables : Tables} (coders : Coders tables) {root : Cell}
    (coherent : root.Coherent) (valid : ∀ cell, root.Reaches cell → cell.Valid) :
    ∃ cells newCells myCells, Flattened root cells ∧ newCells.Perm cells ∧
      Numbering newCells myCells ∧ (cells.length < 2 ^ BITS_FOR_N_CELLS → ValidCells myCells ∧
        serializeBits tables root = some (streamBits coders myCells, streamMetas coders myCells)) := by
  obtain ⟨cells, listed, converted, flattened, table, acyclic, count, reorders⟩ :=
    reordered_spec coherent valid
  by_cases few : cells.length < 2 ^ 20
  case neg =>
    obtain ⟨newCells, myCells, -, same, numbering, -⟩ := reorders _ (List.Perm.refl _)
    exact ⟨cells, newCells, myCells, flattened, same, numbering, fun fits => absurd fits few⟩
  rcases initialCellOrder_spec (table (few.trans (by decide))) with
    ⟨⟨last, ordered, -⟩, -⟩ | ⟨-, cyclic⟩
  · obtain ⟨newCells, myCells, applied, same, newNumbering, writable⟩ :=
      reorders _ (count ▸ initialCellOrder_perm ordered)
    refine ⟨cells, newCells, myCells, flattened, same, newNumbering, fun few => ?_⟩
    have sent : ValidCells myCells := ⟨writable, by rwa [newNumbering.length_eq, same.length_eq]⟩
    refine ⟨sent, ?_⟩
    simp only [serializeBits, converted, ordered, applied, myCellsToBitStr_eq coders writable.storable,
      bytesStrToBitStr_streamBits coders sent, Option.bind_eq_bind, Option.bind_some]
  · exact absurd acyclic cyclic

end CellBag.Serializator
