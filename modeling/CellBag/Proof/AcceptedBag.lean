import CellBag.Proof.ReaderSafety
import CellBag.Proof.TopSort

/-!
The inputs that `deserialise` accepts, and the cell that it makes of them.
-/

namespace CellBag.Serializator
open BitString Huffman

section Build
variable {library : CellLibrary} {myCells : List MyCell}

/-- The root is built from a table exactly if the table has no cycle and all cells can be made of their
refs. The result is the cell of the last root. -/
theorem myCellsToVmRoot_eq_some_iff (table : Table myCells) {vmCell : VmCell} :
    myCellsToVmRoot library myCells = some vmCell ↔ Acyclic myCells ∧
      ∃ (cellOf : Nat → VmCell) (root : Nat),
        (∀ i < myCells.length,
          assemble library myCells i ((refsOf myCells i).map cellOf) = some (cellOf i)) ∧
        LastRoot myCells root ∧ cellOf root = vmCell := by
  obtain ⟨order, sorted, perm, topological_iff, last_iff⟩ := topSort_explores table
  have run_iff (built : List (Option VmCell)) :
      order.foldlM (buildCell library myCells) (List.replicate myCells.length none) = some built ↔ _ :=
    buildCells_eq_some_iff perm fun i inside =>
      ⟨_, List.getElem?_eq_getElem inside, table.usedRefs (List.getElem?_eq_getElem inside)⟩
  rw [myCellsToVmRoot, sorted, Option.bind_eq_bind, Option.bind_some]
  constructor
  · intro run
    obtain ⟨built, ran, run⟩ := Option.bind_eq_some_iff.mp run
    obtain ⟨root, ends, found⟩ := Option.bind_eq_some_iff.mp run
    obtain ⟨topological, cellOf, solves, rfl⟩ := (run_iff built).mp ran
    exact ⟨topological_iff.mp topological, cellOf, root, solves, (last_iff root).mp ends,
      (storeOf_eq_some found).2⟩
  · rintro ⟨acyclic, cellOf, root, solves, lastRoot, rfl⟩
    have ran := (run_iff _).mpr ⟨topological_iff.mpr acyclic, cellOf, solves, rfl⟩
    have member := perm.mem_iff.mpr (List.mem_range.mpr lastRoot.inside)
    simp only [ran, (last_iff root).mpr lastRoot, Option.bind_eq_bind, Option.bind_some,
      storeOf_entry lastRoot.inside, if_pos member]

end Build

section Checks
variable {myCells : List MyCell}

/-- A call of `dfs` that passes its checks keeps the marks and sets its own. It marks only cells with as
many refs as slots. -/
theorem topDfs_marks {fuel v : Nat} {was was' : List Bool} {order order' : List Nat}
    (run : topDfs myCells fuel v (was, order) = some (was', order')) :
    (∀ u, Marked was u → Marked was' u) ∧ Marked was' v ∧
      ∀ u, Marked was' u → Marked was u ∨ ∃ refs, myCells[u]?.bind MyCell.usedRefs = some refs := by
  induction fuel generalizing v was order was' order' with
  | zero => cases run
  | succ fuel ih =>
      obtain ⟨_, -, run⟩ := Option.bind_eq_some_iff.mp run
      obtain ⟨seen, look, run⟩ := Option.bind_eq_some_iff.mp run
      obtain ⟨_, -, run⟩ := Option.bind_eq_some_iff.mp run
      obtain ⟨myCell, entry, run⟩ := Option.bind_eq_some_iff.mp run
      obtain ⟨refs, used, run⟩ := Option.bind_eq_some_iff.mp run
      obtain ⟨⟨final, finished⟩, loop, run⟩ := Option.bind_eq_some_iff.mp run
      obtain ⟨rfl, -⟩ := by simpa using run
      have room := (List.getElem?_eq_some_iff.mp look).1
      obtain ⟨grown, new⟩ := OptionList.foldlM_preserves
        (fun state : List Bool × List Nat => (∀ u, Marked (was.set v true) u → Marked state.1 u) ∧
          ∀ u, Marked state.1 u → Marked (was.set v true) u ∨
            ∃ refs, myCells[u]?.bind MyCell.usedRefs = some refs)
        (by
          rintro w - ⟨before, order⟩ ⟨after, order'⟩ ⟨grown, new⟩ turn
          obtain ⟨seen, -, turn⟩ := Option.bind_eq_some_iff.mp turn
          cases seen with
          | true =>
              obtain ⟨rfl, -⟩ := by simpa using turn
              exact ⟨grown, new⟩
          | false =>
              obtain ⟨kept, -, added⟩ := ih turn
              refine ⟨fun u marked => kept u (grown u marked), fun u marked => ?_⟩
              exact (added u marked).elim (new u) .inr)
        ⟨fun u marked => marked, fun u marked => .inl marked⟩ loop
      rw [marked_set room] at grown new
      refine ⟨fun u marked => grown u (.inr marked), grown v (.inl rfl), fun u marked => ?_⟩
      rcases new u marked with (rfl | earlier) | found
      · exact .inr ⟨refs, by simp [entry, used]⟩
      · exact .inl earlier
      · exact .inr found

/-- The cells that a top sort has passed have no more refs than slots. -/
theorem usedRefs_of_topSort {order : List Nat} (run : topSort myCells = some order) :
    ∀ u < myCells.length, ∃ refs, myCells[u]?.bind MyCell.usedRefs = some refs := by
  obtain ⟨⟨was, finished⟩, loop, -⟩ := Option.bind_eq_some_iff.mp run
  have marks : ∀ vertices : List Nat, ∀ start final : List Bool × List Nat,
      vertices.foldlM (fun state v => do
        let seen ← state.1[v]?
        if seen then some state else topDfs myCells (myCells.length + 1) v state) start = some final →
      (∀ u, Marked start.1 u → Marked final.1 u) ∧ (∀ u ∈ vertices, Marked final.1 u) ∧
        ∀ u, Marked final.1 u → Marked start.1 u ∨
          ∃ refs, myCells[u]?.bind MyCell.usedRefs = some refs := by
    intro vertices
    induction vertices with
    | nil =>
        intro start final ran
        obtain rfl := Option.some.inj ran
        exact ⟨fun u marked => marked, by simp, fun u marked => .inl marked⟩
    | cons v vertices ih =>
        intro start final ran
        rw [List.foldlM_cons] at ran
        obtain ⟨middle, turn, ran⟩ := Option.bind_eq_some_iff.mp ran
        obtain ⟨seen, look, turn⟩ := Option.bind_eq_some_iff.mp turn
        obtain ⟨kept, all, new⟩ := ih middle final ran
        cases seen with
        | true =>
            obtain rfl := by simpa using turn
            exact ⟨kept, List.forall_mem_cons.mpr ⟨kept v look, all⟩, new⟩
        | false =>
            obtain ⟨grown, marked, added⟩ := topDfs_marks turn
            exact ⟨fun u earlier => kept u (grown u earlier),
              List.forall_mem_cons.mpr ⟨kept v marked, all⟩,
              fun u later => (new u later).elim (added u) .inr⟩
  obtain ⟨-, all, new⟩ := marks _ _ _ loop
  intro u inside
  refine (new u (all u (List.mem_range.mpr inside))).resolve_left fun marked => ?_
  simp [Marked, inside] at marked

/-- What the reader leaves is a table if the top sort passes its checks. -/
theorem table_of_topSort {order : List Nat} (few : myCells.length < 2 ^ 32)
    (run : topSort myCells = some order)
    (inTable : ∀ myCell ∈ myCells, myCell.InTable myCells.length) : Table myCells where
  few := few
  slots myCell member := (inTable myCell member).slots
  count := by
    intro myCell member
    obtain ⟨i, look⟩ := List.getElem?_of_mem member
    obtain ⟨refs, used⟩ := usedRefs_of_topSort run i (List.getElem?_eq_some_iff.mp look).1
    rw [look, Option.bind_some, MyCell.usedRefs] at used
    split_ifs at used with few
    rwa [(inTable myCell member).slots] at few
  inside := by
    intro i ref member
    cases look : myCells[i]? with
    | none => simp [refsOf, look] at member
    | some myCell =>
        rw [refsOf, look, Option.bind_some, MyCell.usedRefs] at member
        split_ifs at member with few
        · exact (inTable myCell (List.mem_of_getElem? look)).refs ref (List.mem_of_mem_take member)
        · cases member

end Checks

/-- `deserialise` accepts an input exactly if its cells can be read, the stores stay inside `out_bytes`, and the cells
have no cycle and can all be made of their refs. -/
theorem deserialise_eq_some_iff (library : CellLibrary) (tables : Tables) (lz : List UInt8)
    (vmCell : VmCell) : deserialise library tables lz = some vmCell ↔
      ∃ reader parser offs, readLz tables lz = some (reader, parser, offs) ∧ parser.outBits.inside = true ∧
        Table parser.myCells ∧ Acyclic parser.myCells ∧ ∃ (cellOf : Nat → VmCell) (root : Nat),
          (∀ i < parser.myCells.length, assemble library parser.myCells i
            ((refsOf parser.myCells i).map cellOf) = some (cellOf i)) ∧
          LastRoot parser.myCells root ∧ cellOf root = vmCell := by
  constructor
  · intro run
    obtain ⟨⟨reader, parser, offs⟩, read, run⟩ := Option.bind_eq_some_iff.mp run
    obtain ⟨_, checked, run⟩ := Option.bind_eq_some_iff.mp run
    obtain ⟨order, sorted, -⟩ := Option.bind_eq_some_iff.mp run
    have few : parser.myCells.length < 2 ^ 20 := readLz_cells read
    have table := table_of_topSort (few.trans (by decide)) sorted
      (reached_settled (readLz_reached read)).1.references.table
    exact ⟨reader, parser, offs, read, check_eq_some.mp checked, table,
      (myCellsToVmRoot_eq_some_iff table).mp run⟩
  · rintro ⟨reader, parser, offs, read, inside, table, rest⟩
    rw [deserialise, read, Option.bind_eq_bind, Option.bind_some]
    dsimp only
    rw [check_of inside, Option.bind_eq_bind, Option.bind_some]
    exact (myCellsToVmRoot_eq_some_iff table).mpr rest

end CellBag.Serializator
