import CellBag.Library.TopologicalOrder
import CellBag.Proof.CellSet
import CellBag.Proof.Vectors

/-!
`initial_cell_order` finds a topological order exactly when the references have no cycle.
-/

namespace CellBag.Serializator
open OrderedSet

/-- The refs of a cell, in their slots. -/
def refsOf (myCells : List MyCell) (i : Nat) : List Nat :=
  (myCells[i]?.bind MyCell.usedRefs).getD []

/-- A list of cells with an array of four refs each, of which the used ones are in the list. The number of
cells fits the source's `unsigned`. -/
structure Table (myCells : List MyCell) : Prop where
  few : myCells.length < 2 ^ 32
  slots : ∀ myCell ∈ myCells, myCell.refs.length = 4
  count : ∀ myCell ∈ myCells, myCell.cntRefs ≤ 4
  inside : ∀ i, ∀ ref ∈ refsOf myCells i, ref < myCells.length

/-- No cell reaches itself along refs. -/
def Acyclic (myCells : List MyCell) : Prop :=
  ∀ i, ¬ Relation.TransGen (fun i ref => ref ∈ refsOf myCells i) i i

/-- The number of refs to a cell, repeated ones counted each time. -/
def cntReferrers (myCells : List MyCell) (j : Nat) : Nat :=
  ((List.range myCells.length).map fun i => (refsOf myCells i).count j).sum

section Referrers
variable {myCells : List MyCell}

theorem Table.cntRefs_le (table : Table myCells) {i : Nat} {myCell : MyCell}
    (look : myCells[i]? = some myCell) : myCell.cntRefs ≤ myCell.refs.length := by
  have member := List.mem_of_getElem? look
  rw [table.slots myCell member]
  exact table.count myCell member

/-- The used references of a cell of the table. -/
theorem Table.usedRefs (table : Table myCells) {i : Nat} {myCell : MyCell}
    (look : myCells[i]? = some myCell) : myCell.usedRefs = some (refsOf myCells i) := by
  simp [refsOf, look, MyCell.usedRefs, table.cntRefs_le look]

/-- There are `cntRefs` of them. -/
theorem Table.length_refsOf (table : Table myCells) {i : Nat} {myCell : MyCell}
    (look : myCells[i]? = some myCell) : (refsOf myCells i).length = myCell.cntRefs := by
  simp [refsOf, look, MyCell.usedRefs, table.cntRefs_le look]

theorem refsOf_outside {i : Nat} (outside : myCells.length ≤ i) : refsOf myCells i = [] := by
  simp [refsOf, List.getElem?_eq_none outside]

/-- The cells that refer to a cell, once for each ref. -/
def referrersOf (myCells : List MyCell) (j : Nat) : List Nat :=
  (List.range myCells.length).flatMap fun i => List.replicate ((refsOf myCells i).count j) i

/-- `whoRefersTo` lists the referrers of each cell. -/
theorem whoRefersTo_eq (table : Table myCells) :
    whoRefersTo myCells = some (tabulate myCells.length (referrersOf myCells)) := by
  have zeros : List.replicate myCells.length [] = tabulate myCells.length fun _ => ([] : List Nat) := by
    simp [tabulate]
  unfold whoRefersTo
  rw [zeros]
  obtain ⟨final, run, filled⟩ := OptionList.foldlM_invariant myCells.zipIdx
    (tabulate myCells.length fun _ => []) (fun whoRefers entry => do
      let refs ← entry.1.usedRefs
      refs.foldlM (fun whoRefers ref => do
          let referrers ← whoRefers[ref]?
          setAt whoRefers ref (referrers ++ [entry.2])) whoRefers)
    (fun done whoRefers => whoRefers = tabulate myCells.length fun j =>
      (List.range done.length).flatMap fun i => List.replicate ((refsOf myCells i).count j) i)
    (by simp) (by
      intro done entry rest state split filled
      obtain ⟨index, look⟩ := OptionList.zipIdx_split split
      refine ⟨_, ?_, rfl⟩
      rw [table.usedRefs look, filled]
      simp only [Option.bind_eq_bind, Option.bind_some]
      rw [← Option.bind_eq_bind, foldlM_push _ _ _ (table.inside done.length), index]
      simp [List.range_succ])
  rw [run, filled, List.length_zipIdx]
  rfl

/-- A cell refers as often as it is listed. -/
theorem count_referrersOf (i j : Nat) :
    (referrersOf myCells j).count i = (refsOf myCells i).count j := by
  have counted : ∀ n, ((List.range n).flatMap fun i =>
      List.replicate ((refsOf myCells i).count j) i).count i =
        if i < n then (refsOf myCells i).count j else 0 := by
    intro n
    induction n with
    | zero => simp
    | succ n ih =>
        rw [List.range_succ, List.flatMap_append, List.count_append, ih]
        by_cases here : n = i
        · subst here
          simp
        · have range : i < n + 1 ↔ i < n := by omega
          simp [List.count_replicate, here, range]
  rw [referrersOf, counted]
  split_ifs with inside
  · rfl
  · rw [refsOf_outside (Nat.le_of_not_lt inside), List.count_nil]

/-- The referrers, counted. -/
theorem length_referrersOf (j : Nat) :
    (referrersOf myCells j).length = cntReferrers myCells j := by
  rw [referrersOf, cntReferrers, List.length_flatMap]
  simp

end Referrers

/-- The refs of a cell that are not placed yet. -/
def openRefs (myCells : List MyCell) (order : List Nat) (i : Nat) : Nat :=
  (refsOf myCells i).countP fun ref => ref ∉ order

/-- The cell to place after the given ones: among the cells whose refs are placed, the one with the most
refs to it and then the least index. -/
structure Chosen (myCells : List MyCell) (before : List Nat) (i : Nat) : Prop where
  fresh : i < myCells.length ∧ i ∉ before
  ready : ∀ ref ∈ refsOf myCells i, ref ∈ before
  most : ∀ k < myCells.length, k ∉ before → (∀ ref ∈ refsOf myCells k, ref ∈ before) → k ≠ i →
    cntReferrers myCells k < cntReferrers myCells i ∨
      cntReferrers myCells k = cntReferrers myCells i ∧ i < k

/-- The state of the loop: the degrees count the open refs, and every placed cell was chosen. -/
structure Placing (myCells : List MyCell) (state : Ordering) : Prop
    extends Ordered myCells.length state where
  open_ : state.outDegree = tabulate myCells.length (openRefs myCells state.order)
  topological : TopologicalOrder (refsOf myCells) state.order
  chosen : ∀ before i after, state.order = before ++ i :: after → Chosen myCells before i

section Loop
variable {myCells : List MyCell} {state : Ordering}

/-- No reference is open exactly if all are placed. -/
theorem openRefs_eq_zero {order : List Nat} {i : Nat} :
    openRefs myCells order i = 0 ↔ ∀ ref ∈ refsOf myCells i, ref ∈ order := by
  simp [openRefs, List.countP_eq_zero]

/-- A placed cell closes the refs to it. -/
theorem openRefs_place {order : List Nat} {i k : Nat} (fresh : i ∉ order) :
    openRefs myCells (order ++ [i]) k = openRefs myCells order k - (refsOf myCells k).count i := by
  have split : ∀ refs : List Nat, refs.countP (fun ref => ref ∉ order) =
      refs.countP (fun ref => ref ∉ order ++ [i]) + refs.count i := by
    intro refs
    induction refs with
    | nil => rfl
    | cons ref refs ih =>
        rw [List.countP_cons, List.countP_cons, List.count_cons, ih]
        by_cases here : ref = i
        · subst here
          simp [fresh]
          omega
        · by_cases placed : ref ∈ order
          · simp [here, placed]
          · simp [here, placed]
            omega
  rw [openRefs, openRefs, split]
  omega

/-- The releases lower each degree by the number of times the cell refers. -/
theorem releaseAll_eq {n : Nat} (referrers : List Nat) (degrees : Nat → Nat) (cells order : List Nat)
    (inside : ∀ from_ ∈ referrers, from_ < n) (enough : ∀ from_, referrers.count from_ ≤ degrees from_) :
    ∃ cells', referrers.foldlM releaseCell ⟨tabulate n degrees, cells, order⟩ =
      some ⟨tabulate n fun i => degrees i - referrers.count i, cells', order⟩ := by
  induction referrers generalizing degrees cells with
  | nil => exact ⟨cells, by simp⟩
  | cons from_ referrers ih =>
      have within := inside from_ List.mem_cons_self
      have positive : degrees from_ > 0 := by
        have := enough from_
        rw [List.count_cons_self] at this
        omega
      obtain ⟨cells', run⟩ := ih (Function.update degrees from_ (degrees from_ - 1))
        (from_ :: cells.erase from_) (fun other member => inside other (List.mem_cons_of_mem _ member))
        (by
          intro i
          have := enough i
          by_cases same : i = from_
          · subst same
            rw [List.count_cons_self] at this
            rw [Function.update_self]
            omega
          · rw [List.count_cons_of_ne (Ne.symm same)] at this
            rwa [Function.update_of_ne same])
      refine ⟨cells', ?_⟩
      rw [List.foldlM_cons]
      simp only [releaseCell, tabulate_at within, check_of positive, Option.bind_eq_bind,
        Option.bind_some, tabulate_set]
      rw [run]
      congr 2
      apply List.map_congr_left
      intro i _
      by_cases same : i = from_
      · subst same
        rw [Function.update_self, List.count_cons_self]
        omega
      · rw [Function.update_of_ne same, List.count_cons_of_ne (Ne.symm same)]

/-- The first element of the set is the cell to place, if it has no open ref. -/
theorem Placing.chosen_first (placing : Placing myCells state) {i : Nat}
    (first : firstCell (orderCmp state.outDegree (tabulate myCells.length (referrersOf myCells)))
      state.cells = some i) (free : openRefs myCells state.order i = 0) :
    Chosen myCells state.order i := by
  have inside {k : Nat} (member : k ∈ state.cells) : k < myCells.length :=
    List.mem_range.mp (placing.perm.subset (List.mem_append_right _ member))
  have apart : ∀ k ∈ state.cells, k ∉ state.order := by
    have nodup : (state.order ++ state.cells).Nodup := placing.perm.nodup_iff.mpr List.nodup_range
    intro k member placed
    exact (List.nodup_append.mp nodup).2.2 k placed k member rfl
  have member := firstCell_mem first
  refine ⟨⟨inside member, apart i member⟩, openRefs_eq_zero.mp free, ?_⟩
  intro k insideK unplaced ready different
  have waiting : k ∈ state.cells := by
    have all := placing.perm.mem_iff.mpr (List.mem_range.mpr insideK)
    exact (List.mem_append.mp all).resolve_left unplaced
  have least := firstCell_least (orderCmp_total _ _) first k waiting
  have before := ((orderCmp_total _ _).total k i different).resolve_left
    (by rw [least]; exact Bool.false_ne_true)
  rw [orderCmp_iff, placing.open_] at before
  simp only [List.getD_eq_getElem?_getD, tabulate_at insideK, tabulate_at (inside member),
    Option.getD_some, length_referrersOf, free, openRefs_eq_zero.mpr ready] at before
  omega

/-- A turn places the chosen cell. -/
theorem Placing.place (placing : Placing myCells state) {i : Nat}
    (waiting : i ∈ state.cells) (chosen : Chosen myCells state.order i) :
    ∃ next, (referrersOf myCells i).foldlM releaseCell
        { state with cells := state.cells.erase i, order := state.order ++ [i] } = some next ∧
      Placing myCells next ∧ next.order = state.order ++ [i] := by
  have free := openRefs_eq_zero.mpr chosen.ready
  have degree : state.outDegree[i]? = some 0 := by
    rw [placing.open_, tabulate_at chosen.fresh.1, free]
  have ordered := placing.toOrdered.place waiting degree
  have inside : ∀ from_ ∈ referrersOf myCells i, from_ < myCells.length := by
    intro from_ member
    obtain ⟨k, inRange, repeated⟩ := List.mem_flatMap.mp member
    rw [List.eq_of_mem_replicate repeated]
    exact List.mem_range.mp inRange
  have enough : ∀ from_, (referrersOf myCells i).count from_ ≤ openRefs myCells state.order from_ := by
    intro from_
    rw [count_referrersOf, openRefs, List.count]
    apply List.countP_mono_left
    intro ref _ same
    rw [beq_iff_eq] at same
    simpa [same] using chosen.fresh.2
  obtain ⟨cells, run⟩ := releaseAll_eq (referrersOf myCells i) _ (state.cells.erase i)
    (state.order ++ [i]) inside enough
  rw [← placing.open_] at run
  refine ⟨_, run, ⟨ordered.releaseAll _ run, ?_, ?_, ?_⟩, rfl⟩
  · apply List.map_congr_left
    intro k _
    rw [openRefs_place chosen.fresh.2, count_referrersOf]
  · exact .snoc placing.topological chosen.fresh.2 chosen.ready
  · intro before j after split
    rcases List.eq_nil_or_concat' after with rfl | ⟨others, last, rfl⟩
    · obtain ⟨rfl, rfl⟩ := List.append_singleton_inj.mp split
      exact chosen
    · simp only at split
      rw [← List.cons_append, ← List.append_assoc] at split
      exact placing.chosen before j others (List.append_singleton_inj.mp split).1

/-- The loop places all cells, or it stops where every cell left has a ref left. -/
theorem orderLoop_spec (table : Table myCells) (fuel : Nat) (placing : Placing myCells state)
    (enough : state.cells.length < fuel) :
    (∃ last, orderLoop (tabulate myCells.length (referrersOf myCells)) fuel state = some last.order ∧
      Placing myCells last ∧ last.cells = []) ∨
    orderLoop (tabulate myCells.length (referrersOf myCells)) fuel state = none ∧
      ∃ stuck : List Nat, stuck ≠ [] ∧ ∀ k ∈ stuck, ∃ ref ∈ stuck, ref ∈ refsOf myCells k := by
  induction fuel generalizing state with
  | zero => omega
  | succ fuel ih =>
      rw [orderLoop]
      cases first : firstCell (orderCmp state.outDegree
          (tabulate myCells.length (referrersOf myCells))) state.cells with
      | none => exact .inl ⟨state, rfl, placing, firstCell_eq_none first⟩
      | some i =>
          have member := firstCell_mem first
          have inside : i < myCells.length :=
            List.mem_range.mp (placing.perm.subset (List.mem_append_right _ member))
          have degree : state.outDegree[i]? = some (openRefs myCells state.order i) := by
            rw [placing.open_, tabulate_at inside]
          simp only [degree, Option.bind_eq_bind, Option.bind_some]
          by_cases free : openRefs myCells state.order i = 0
          · obtain ⟨next, run, placing', order⟩ :=
              placing.place member (placing.chosen_first first free)
            have shorter : next.cells.length < fuel := by
              have all := placing.perm.length_eq
              have all' := placing'.perm.length_eq
              rw [order] at all'
              simp only [List.length_append, List.length_range, List.length_singleton] at all all'
              omega
            simp only [check_of free, Option.bind_some, tabulate_at inside, run]
            exact ih placing' shorter
          · refine .inr ⟨by simp [check, free], state.cells, List.ne_nil_of_mem member, ?_⟩
            intro k waiting
            have insideK : k < myCells.length :=
              List.mem_range.mp (placing.perm.subset (List.mem_append_right _ waiting))
            have notFree : openRefs myCells state.order k ≠ 0 := by
              intro zero
              have least := firstCell_least (orderCmp_total _ _) first k waiting
              rw [← Bool.not_eq_true, orderCmp_iff, placing.open_] at least
              simp only [List.getD_eq_getElem?_getD, tabulate_at insideK, tabulate_at inside,
                Option.getD_some] at least
              omega
            rw [Ne, openRefs_eq_zero] at notFree
            push Not at notFree
            obtain ⟨ref, inRefs, unplaced⟩ := notFree
            have all := placing.perm.mem_iff.mpr (List.mem_range.mpr (table.inside k ref inRefs))
            exact ⟨ref, (List.mem_append.mp all).resolve_left unplaced, inRefs⟩

/-- Before the first turn nothing is placed. -/
theorem placing_start (table : Table myCells) :
    Placing myCells ⟨myCells.map fun myCell => myCell.cntRefs % 2 ^ 8,
      List.range myCells.length, []⟩ where
  degrees := by simp
  perm := by simp
  placed := by simp
  open_ := by
    apply List.ext_getElem?
    intro i
    cases look : myCells[i]? with
    | none =>
        have outside := List.getElem?_eq_none_iff.mp look
        simp [tabulate, outside]
    | some myCell =>
        have inside := (List.getElem?_eq_some_iff.mp look).1
        have few := table.count myCell (List.mem_of_getElem? look)
        have all : openRefs myCells [] i = (refsOf myCells i).length := by simp [openRefs]
        rw [List.getElem?_map, look, tabulate_at inside, all, table.length_refsOf look, Option.map_some,
          Nat.mod_eq_of_lt (by omega)]
  topological := .nil
  chosen := by simp

/-- The order exists exactly for acyclic refs. -/
theorem initialCellOrder_spec (table : Table myCells) :
    (∃ last, initialCellOrder myCells = some last.order ∧ Placing myCells last ∧ last.cells = []) ∧
        Acyclic myCells ∨
      initialCellOrder myCells = none ∧ ¬ Acyclic myCells := by
  unfold initialCellOrder
  rw [whoRefersTo_eq table]
  simp only [Option.bind_eq_bind, Option.bind_some]
  rcases orderLoop_spec table (myCells.length + 1) (placing_start table) (by simp) with
    ⟨last, run, placing, done⟩ | ⟨stopped, stuck, nonempty, left⟩
  · refine .inl ⟨⟨last, run, placing, done⟩, fun i cycle => ?_⟩
    have perm := placing.perm
    rw [done, List.append_nil] at perm
    by_cases inside : i < myCells.length
    · exact placing.topological.acyclic (perm.mem_iff.mpr (List.mem_range.mpr inside)) cycle
    · obtain ⟨ref, edge, _⟩ := Relation.TransGen.head'_iff.mp cycle
      rw [refsOf_outside (Nat.le_of_not_lt inside)] at edge
      cases edge
  · obtain ⟨i, cycle⟩ := exists_cycle nonempty left
    exact .inr ⟨stopped, fun acyclic => acyclic i cycle⟩

end Loop

/-- The loop of `initial_cell_order` passes its checks exactly when no cell reaches itself. Then each
cell is the chosen one after the cells before it, `apply_order` moves each cell to its place with its
refs renumbered by place, all refs are smaller, and a root comes last. -/
theorem initialCellOrder_topological (myCells : List MyCell) (table : Table myCells) :
    initialCellOrderInSet myCells = initialCellOrder myCells ∧
    ((∃ order, initialCellOrder myCells = some order) ↔ Acyclic myCells) ∧
    ∀ order, initialCellOrder myCells = some order →
      order.Perm (List.range myCells.length) ∧
      (∀ before i after, order = before ++ i :: after → Chosen myCells before i) ∧
      (∃ newMyCells, applyOrder myCells order = some newMyCells ∧
        newMyCells.length = myCells.length ∧
        ∀ i myCell, myCells[i]? = some myCell →
          newMyCells[order.idxOf i]? = some (relabel order myCell) ∧
          (relabel order myCell).usedRefs =
            some ((refsOf myCells i).map fun ref => order.idxOf ref) ∧
          ∀ ref ∈ refsOf myCells i, order.idxOf ref < order.idxOf i) ∧
      ∀ root < myCells.length, (∀ i < myCells.length,
        Relation.ReflTransGen (fun i ref => ref ∈ refsOf myCells i) root i) →
        order.idxOf root + 1 = myCells.length := by
  refine ⟨initialCellOrderInSet_eq myCells, ?_, ?_⟩
  · rcases initialCellOrder_spec table with ⟨⟨last, run, _⟩, acyclic⟩ | ⟨stopped, cyclic⟩
    · exact ⟨fun _ => acyclic, fun _ => ⟨_, run⟩⟩
    · rw [stopped]
      exact ⟨fun found => by simp at found, fun acyclic => absurd acyclic cyclic⟩
  · intro order found
    rcases initialCellOrder_spec table with ⟨⟨last, run, placing, done⟩, _⟩ | ⟨stopped, _⟩
    · obtain rfl := Option.some.inj (run.symm.trans found)
      have perm := placing.perm
      rw [done, List.append_nil] at perm
      have size : last.order.length = myCells.length := by simpa using perm.length_eq
      refine ⟨perm, placing.chosen, ?_, ?_⟩
      · obtain ⟨newMyCells, applied, moved⟩ := applyOrder_relabels perm fun myCell member => by
          obtain ⟨i, look⟩ := List.getElem?_of_mem member
          exact ⟨_, table.usedRefs look, table.inside i⟩
        refine ⟨newMyCells, applied, moved.length_eq.trans size, ?_⟩
        intro i myCell look
        have inside := (List.getElem?_eq_some_iff.mp look).1
        have entry := (idxOf_eq_iff perm inside).mp rfl
        obtain ⟨newMyCell, inNew, same⟩ := OptionList.forall₂_getElem? moved.flip entry
        rw [look, Option.map_some] at same
        refine ⟨inNew.trans same.symm, relabel_usedRefs (table.usedRefs look), ?_⟩
        intro ref member
        obtain ⟨before, after, split⟩ := List.append_of_mem (List.mem_of_getElem? entry)
        have chosen := placing.chosen before i after split
        rw [split, List.idxOf_append_of_mem (chosen.ready ref member),
          List.idxOf_append_of_notMem chosen.fresh.2, List.idxOf_cons_self]
        exact Nat.lt_add_right _ (List.idxOf_lt_length_of_mem (chosen.ready ref member))
      · intro root inside reaches
        have last_ := placing.topological.getLast?_root (perm.mem_iff.mpr (List.mem_range.mpr inside))
          fun i member => reaches i (List.mem_range.mp (perm.subset member))
        rw [List.getLast?_eq_getElem?] at last_
        rw [(idxOf_eq_iff perm inside).mpr last_, size]
        omega
    · rw [stopped] at found
      cases found

/-- A cell with two refs to a leaf. -/
def sharedPair : List MyCell :=
  [⟨2, [1, 1, 0, 0], [], false, [], 0⟩, ⟨0, [0, 0, 0, 0], [], false, [], 0⟩]

/-- The refs lead to the leaf. -/
theorem sharedPair_table : Table sharedPair where
  few := by decide
  slots := by simp [sharedPair]
  count := by simp [sharedPair]
  inside := by
    intro i ref member
    match i with
    | 0 => simp_all [sharedPair, refsOf, MyCell.usedRefs]
    | 1 => simp_all [sharedPair, refsOf, MyCell.usedRefs]
    | i + 2 => simp_all [sharedPair, refsOf]

/-- The leaf comes first, and its cell is relabelled with refs to place 0. -/
theorem initialCellOrder_topological_pair : Acyclic sharedPair ∧
    initialCellOrderInSet sharedPair = some [1, 0] ∧ initialCellOrder sharedPair = some [1, 0] ∧
    [1, 0].Perm (List.range sharedPair.length) ∧
    Chosen sharedPair [] 1 ∧ Chosen sharedPair [1] 0 ∧
    (∃ newMyCells, applyOrder sharedPair [1, 0] = some newMyCells ∧ newMyCells.length = 2 ∧
      ∀ i myCell, sharedPair[i]? = some myCell →
        newMyCells[[1, 0].idxOf i]? = some (relabel [1, 0] myCell) ∧
        (relabel [1, 0] myCell).usedRefs = some ((refsOf sharedPair i).map fun ref => [1, 0].idxOf ref) ∧
        ∀ ref ∈ refsOf sharedPair i, [1, 0].idxOf ref < [1, 0].idxOf i) ∧
    ∀ root < sharedPair.length, (∀ i < sharedPair.length,
      Relation.ReflTransGen (fun i ref => ref ∈ refsOf sharedPair i) root i) →
      [1, 0].idxOf root + 1 = sharedPair.length := by
  have run : initialCellOrder sharedPair = some [1, 0] := by decide
  obtain ⟨same, exists_iff, each⟩ := initialCellOrder_topological sharedPair sharedPair_table
  obtain ⟨perm, chosen, relabelled, last⟩ := each [1, 0] run
  exact ⟨exists_iff.mp ⟨_, run⟩, same.trans run, run, perm, chosen [] 1 [0] rfl, chosen [1] 0 [] rfl,
    relabelled, last⟩

end CellBag.Serializator
