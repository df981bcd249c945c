import CellBag.Library.Evaluation
import CellBag.Proof.Merkle

/-!
A bag with Merkle cells is rebuilt to its root exactly in bags whose number of cells has two bytes.
-/

namespace CellBag.Serializator
open BitString

/-- The library on the cells of a bag: it knows their hashes and depths, and it builds them. A cell that
it builds has the stored bits and refs. -/
structure Rebuilds (library : CellLibrary) (original : LevelZero) (root : Cell) : Prop where
  hash : ∀ cell, root.Reaches cell → library.getHash cell.toVm = original.hash cell
  depth : ∀ cell, root.Reaches cell → library.getDepth cell.toVm = original.depth cell
  builds : ∀ cell, root.Reaches cell →
    library.finalizeNovm cell.isSpecial cell.bits (cell.refs.map Cell.toVm) = some cell.toVm
  stored : ∀ isSpecial bits refs vmCell,
    library.finalizeNovm isSpecial bits refs = some vmCell → vmCell = .mk isSpecial bits refs

/-- A bag that `MyCell(cell)` does not lose anything of but hashes and depths. -/
structure Bag (original : LevelZero) (root : Cell) : Prop where
  coherent : root.Coherent
  valid : ∀ cell, root.Reaches cell → cell.Valid
  merkle : ∀ cell, root.Reaches cell → cell.isMerkle = true → MerkleCell original cell

/-- A number of cells with two bytes, if there is a Merkle cell. -/
def DepthsFit (root : Cell) (nCells : Nat) : Prop :=
  (∃ cell, root.Reaches cell ∧ cell.isMerkle = true) → 256 ≤ nCells ∧ nCells < 65536

section Merkle
variable {library : CellLibrary} {original : LevelZero} {root cell : Cell} {nCells : Nat}

/-- A Merkle cell with rebuilt refs is stored as it was if the number of cells has two bytes. -/
theorem Bag.storedBits_eq (bag : Bag original root) (rebuilds : Rebuilds library original root)
    (fit : DepthsFit root nCells) (reaches : root.Reaches cell) {myCell : MyCell}
    (holds : Holds myCell cell) :
    ∃ data, storedBits library nCells myCell (cell.refs.map Cell.toVm) =
        some (data, cell.bits.length) ∧
      cell.bits.length ≤ 8 * data.length ∧ (ofBytes data).take cell.bits.length = cell.bits := by
  cases merkle : cell.isMerkle with
  | false => exact holds.storedBits_plain (bag.valid cell reaches) merkle library _ _
  | true =>
      obtain ⟨shape, bits⟩ := bag.merkle cell reaches merkle
      have few : (cell.refs.map Cell.toVm).length ≤ 2 := by
        rw [List.length_map]
        rcases shape with ⟨-, one⟩ | ⟨-, two⟩ <;> omega
      have below {ref : Cell} (member : ref ∈ cell.refs) : root.Reaches ref := reaches.ref member
      have hashes : (cell.refs.map Cell.toVm).map library.getHash = cell.refs.map original.hash := by
        rw [List.map_map]
        exact List.map_congr_left fun ref member => rebuilds.hash ref (below member)
      have depths : (cell.refs.map Cell.toVm).map library.getDepth = cell.refs.map original.depth := by
        rw [List.map_map]
        exact List.map_congr_left fun ref member => rebuilds.depth ref (below member)
      have two := lenInBytes_eq_two.mpr (fit ⟨cell, reaches, merkle⟩)
      obtain ⟨data, stored, long, taken⟩ :=
        holds.storedBits_merkle (bag.valid cell reaches) merkle library nCells few
      rw [hashes, depths, two, ← bits] at stored long taken
      exact ⟨data, stored, long, taken⟩

/-- A Merkle cell that is stored at its old length tells that the number of cells has two bytes. -/
theorem Bag.two_bytes (bag : Bag original root) (reaches : root.Reaches cell)
    (merkle : cell.isMerkle = true) {myCell : MyCell} (holds : Holds myCell cell) {refs : List VmCell}
    (count : refs.length = cell.refs.length) {data : List UInt8}
    (stored : storedBits library nCells myCell refs = some (data, cell.bits.length)) :
    256 ≤ nCells ∧ nCells < 65536 := by
  obtain ⟨shape, bits⟩ := bag.merkle cell reaches merkle
  have few : refs.length ≤ 2 := by
    rcases shape with ⟨-, one⟩ | ⟨-, two⟩ <;> omega
  obtain ⟨other, again, -⟩ :=
    holds.storedBits_merkle (bag.valid cell reaches) merkle library nCells few
  rw [stored, Option.some.injEq, Prod.mk.injEq] at again
  have length := again.2
  have rebuilt : ∀ hash ∈ refs.map library.getHash, hash.length = 256 / 8 := by
    simp [library.length_getHash]
  have whole : ∀ hash ∈ cell.refs.map original.hash, hash.length = 256 / 8 := by
    simp [original.length_hash]
  rw [bits, length_merkleBits whole, length_merkleBits rebuilt] at length
  simp only [List.length_map, count] at length
  rw [← lenInBytes_eq_two]
  rcases shape with ⟨-, one⟩ | ⟨-, two⟩
  · rw [one] at length
    omega
  · rw [two] at length
    omega

end Merkle

/-- The cell that `my_cells_to_vm_root` makes of an entry and its finished refs. -/
def assemble (library : CellLibrary) (myCells : List MyCell) (i : Nat) (refs : List VmCell) :
    Option VmCell := do
  let myCell ← myCells[i]?
  let (data, cntBits) ← storedBits library myCells.length myCell refs
  check (cntBits ≤ 8 * data.length)
  let cell ← library.finalizeNovm myCell.isSpecial ((ofBytes data).take cntBits) refs
  check (cell.isSpecial = myCell.isSpecial)
  check (cell.bits.length = cntBits)
  some cell

section Build
variable {library : CellLibrary} {myCells : List MyCell}

/-- A turn of the building loop evaluates an entry of the graph of refs. -/
theorem buildCell_eq {i : Nat} {myCell : MyCell} (look : myCells[i]? = some myCell)
    (used : myCell.usedRefs = some (nextOf myCells i)) (cells : List (Option VmCell)) :
    buildCell library myCells cells i =
      evalEntry (nextOf myCells) (assemble library myCells) cells i := by
  simp only [buildCell, evalEntry, assemble, look, used, setAt, Option.bind_eq_bind,
    Option.bind_some, Option.bind_assoc]

/-- The building loop runs through exactly if its order is topological and all cells can be made of their
refs. -/
theorem buildCells_eq_some_iff {order : List Nat} (perm : order.Perm (List.range myCells.length))
    (used : ∀ i < myCells.length, ∃ myCell, myCells[i]? = some myCell ∧
      myCell.usedRefs = some (nextOf myCells i)) {built : List (Option VmCell)} :
    order.foldlM (buildCell library myCells) (List.replicate myCells.length none) = some built ↔
      TopologicalOrder (nextOf myCells) order ∧ ∃ cellOf : Nat → VmCell,
        (∀ i < myCells.length,
          assemble library myCells i ((nextOf myCells i).map cellOf) = some (cellOf i)) ∧
        built = storeOf myCells.length order cellOf := by
  have mem_iff (i : Nat) : i ∈ order ↔ i < myCells.length := perm.mem_iff.trans List.mem_range
  have sameLoop : order.foldlM (buildCell library myCells) (List.replicate myCells.length none) =
      order.foldlM (evalEntry (nextOf myCells) (assemble library myCells))
        (List.replicate myCells.length none) :=
    OptionList.foldlM_congr (fun i member cells => by
      obtain ⟨myCell, look, refs⟩ := used i ((mem_iff i).mp member)
      exact buildCell_eq look refs cells) _
  rw [sameLoop, foldlM_evalEntry_iff (perm.nodup_iff.mpr List.nodup_range)
    (fun i member => (mem_iff i).mp member) fun _ => .mk false [] []]
  simp only [mem_iff]

theorem assemble_eq_some
    (stored : ∀ isSpecial bits refs vmCell,
      library.finalizeNovm isSpecial bits refs = some vmCell → vmCell = .mk isSpecial bits refs)
    {i : Nat} {refs : List VmCell} {vmCell : VmCell}
    (made : assemble library myCells i refs = some vmCell) :
    vmCell.refs = refs ∧ ∃ myCell data, myCells[i]? = some myCell ∧
      storedBits library myCells.length myCell refs = some (data, vmCell.bits.length) := by
  obtain ⟨myCell, look, made⟩ := Option.bind_eq_some_iff.mp made
  obtain ⟨⟨data, cntBits⟩, restored, made⟩ := Option.bind_eq_some_iff.mp made
  obtain ⟨_, _, made⟩ := Option.bind_eq_some_iff.mp made
  obtain ⟨built, finalized, made⟩ := Option.bind_eq_some_iff.mp made
  obtain ⟨_, _, made⟩ := Option.bind_eq_some_iff.mp made
  obtain ⟨_, length, made⟩ := Option.bind_eq_some_iff.mp made
  rw [check_eq_some] at length
  obtain rfl := Option.some.inj made
  obtain rfl := stored _ _ _ _ finalized
  exact ⟨rfl, myCell, data, look, by rw [length]; exact restored⟩

/-- Below a root that has been rebuilt, all cells have been. -/
theorem rebuilt_below {cells : List Cell} (numbering : Numbering cells myCells) {cellOf : Nat → VmCell}
    (refs : ∀ v < myCells.length, (cellOf v).refs = (nextOf myCells v).map cellOf)
    {root cell : Cell} (reaches : root.Reaches cell) {r : Nat} (rootEntry : cells[r]? = some root)
    (rootBuilt : cellOf r = root.toVm) :
    ∃ v : Nat, cells[v]? = some cell ∧ cellOf v = cell.toVm := by
  induction reaches with
  | refl => exact ⟨r, rootEntry, rootBuilt⟩
  | @tail parent child _ member ih =>
      obtain ⟨v, entry, rebuilt⟩ := ih
      have inside : v < myCells.length := by
        rw [numbering.length_eq]
        exact (List.getElem?_eq_some_iff.mp entry).1
      obtain ⟨_, parent_, -, inCells, -, -, related⟩ := numbering.entry inside
      obtain rfl := Option.some.inj (entry.symm.trans inCells)
      have same := refs v inside
      rw [rebuilt, Cell.toVm_eq, VmCell.refs] at same
      obtain ⟨index, inRefs⟩ := List.getElem?_of_mem member
      obtain ⟨id, inNext, refEntry⟩ := OptionList.forall₂_getElem? related.flip inRefs
      have atIndex := congrArg (fun list => list[index]?) same
      simp only [List.getElem?_map, inRefs, inNext, Option.map_some, Option.some.injEq] at atIndex
      exact ⟨id, refEntry, atIndex.symm⟩

end Build

/-- The root comes last in a topological order of the cells below it. -/
theorem Numbering.root_last {root : Cell} {cells : List Cell} {myCells : List MyCell}
    (numbering : Numbering cells myCells) (nodup : cells.Nodup)
    (mem_iff : ∀ cell, cell ∈ cells ↔ root.Reaches cell) {order : List Nat}
    (perm : order.Perm (List.range myCells.length))
    (topological : TopologicalOrder (nextOf myCells) order) {r : Nat}
    (rootEntry : cells[r]? = some root) : order.getLast? = some r := by
  have rootInside : r < myCells.length := by
    rw [numbering.length_eq]
    exact (List.getElem?_eq_some_iff.mp rootEntry).1
  refine topological.getLast?_root (perm.mem_iff.mpr (List.mem_range.mpr rootInside)) fun v member => ?_
  obtain ⟨_, cell, -, inCells, -, -, -⟩ :=
    numbering.entry (List.mem_range.mp (perm.mem_iff.mp member))
  obtain ⟨w, entry, path⟩ :=
    numbering.reaches ((mem_iff cell).mp (List.mem_of_getElem? inCells)) rootEntry
  have inside := (List.getElem?_eq_some_iff.mp inCells).1
  rwa [← (List.getElem?_inj inside nodup).mp (inCells.trans entry.symm)] at path

/-- The list of a bag's cells is rebuilt to the root exactly if the depths of its Merkle cells fit. -/
theorem Bag.rebuilt_iff {library : CellLibrary} {original : LevelZero} {root : Cell}
    (bag : Bag original root) (rebuilds : Rebuilds library original root) {cells : List Cell}
    {myCells : List MyCell} (numbering : Numbering cells myCells) (nodup : cells.Nodup)
    (mem_iff : ∀ cell, cell ∈ cells ↔ root.Reaches cell) :
    myCellsToVmRoot library myCells = some root.toVm ↔ DepthsFit root myCells.length := by
  constructor
  · rintro run ⟨cell, reaches, merkle⟩
    obtain ⟨order, sorted, perm, topological⟩ := topSort_spec numbering
    rw [myCellsToVmRoot, sorted, Option.bind_eq_bind, Option.bind_some] at run
    obtain ⟨built, ran, run⟩ := Option.bind_eq_some_iff.mp run
    obtain ⟨back, last, found⟩ := Option.bind_eq_some_iff.mp run
    have used : ∀ i < myCells.length, ∃ myCell, myCells[i]? = some myCell ∧
        myCell.usedRefs = some (nextOf myCells i) := fun i inside => by
      obtain ⟨myCell, _, look, -, -, refs, -⟩ := numbering.entry inside
      exact ⟨myCell, look, refs⟩
    obtain ⟨-, cellOf, solves, rfl⟩ := (buildCells_eq_some_iff perm used).mp ran
    obtain ⟨r, rootEntry⟩ := List.getElem?_of_mem ((mem_iff root).mpr root.reaches_refl)
    rw [numbering.root_last nodup mem_iff perm topological rootEntry, Option.some.injEq] at last
    subst last
    obtain ⟨v, entry, rebuilt⟩ := rebuilt_below numbering
      (fun v inside => (assemble_eq_some rebuilds.stored (solves v inside)).1) reaches rootEntry
      (storeOf_eq_some found).2
    have inside : v < myCells.length := by
      rw [numbering.length_eq]
      exact (List.getElem?_eq_some_iff.mp entry).1
    obtain ⟨-, myCell, data, look, stored⟩ := assemble_eq_some rebuilds.stored (solves v inside)
    obtain ⟨_, inCells, numbered⟩ := OptionList.forall₂_getElem? numbering look
    obtain rfl := Option.some.inj (entry.symm.trans inCells)
    obtain ⟨_, _, -, inCells', -, -, related⟩ := numbering.entry inside
    obtain rfl := Option.some.inj (entry.symm.trans inCells')
    rw [rebuilt, Cell.toVm_eq] at stored
    exact bag.two_bytes reaches merkle numbered.holds (by simp [related.length_eq]) stored
  · intro fit
    obtain ⟨_, _, _, _, rebuilt⟩ := myCellsToVmRoot_spec numbering nodup mem_iff
      (fun myCell cell member holds =>
        bag.storedBits_eq rebuilds fit ((mem_iff cell).mp member) holds)
      fun cell member => rebuilds.builds cell ((mem_iff cell).mp member)
    exact rebuilt

end CellBag.Serializator
