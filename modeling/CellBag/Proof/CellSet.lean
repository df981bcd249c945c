import CellBag.Model.CellSet
import CellBag.Proof.Ordering

/-!
The set of `initial_cell_order` stays in order: its searches find what they look for.
-/

namespace CellBag.Serializator
open OrderedSet

/-- The comparator looks at the open refs, the referring cells and the index, in this order. -/
theorem orderCmp_iff {outDegree : List Nat} {whoRefers : List (List Nat)} {i j : Nat} :
    orderCmp outDegree whoRefers i j = true ↔
      outDegree.getD i 0 < outDegree.getD j 0 ∨ outDegree.getD i 0 = outDegree.getD j 0 ∧
        ((whoRefers.getD i []).length > (whoRefers.getD j []).length ∨
          (whoRefers.getD i []).length = (whoRefers.getD j []).length ∧ i < j) := by
  unfold orderCmp
  split_ifs with degrees counts
  · rw [decide_eq_true_iff]
    omega
  · rw [decide_eq_true_iff]
    omega
  · rw [decide_eq_true_iff]
    omega

/-- The comparator is a total order of the indices. -/
theorem orderCmp_total (outDegree : List Nat) (whoRefers : List (List Nat)) :
    Total (orderCmp outDegree whoRefers) where
  irrefl := by
    intro i
    rw [← Bool.not_eq_true, orderCmp_iff]
    omega
  trans := by
    intro i j k
    rw [orderCmp_iff, orderCmp_iff, orderCmp_iff]
    omega
  total := by
    intro i j
    rw [orderCmp_iff, orderCmp_iff]
    omega

/-- The comparison of other elements does not see a changed degree. -/
theorem orderCmp_set {outDegree : List Nat} {whoRefers : List (List Nat)} {i j k degree : Nat}
    (otherI : i ≠ k) (otherJ : j ≠ k) :
    orderCmp (outDegree.set k degree) whoRefers i j = orderCmp outDegree whoRefers i j := by
  unfold orderCmp
  simp only [List.getD_eq_getElem?_getD, List.getElem?_set_ne (Ne.symm otherI),
    List.getElem?_set_ne (Ne.symm otherJ)]

/-- The set holds the cells of the list, in order. -/
structure InSet (whoRefers : List (List Nat)) (set list : Ordering) : Prop where
  outDegree : set.outDegree = list.outDegree
  order : set.order = list.order
  perm : set.cells.Perm list.cells
  sorted : Sorted (orderCmp set.outDegree whoRefers) set.cells

section Step
variable {whoRefers : List (List Nat)} {set list : Ordering}

/-- The set holds each cell once. -/
theorem InSet.nodup (inSet : InSet whoRefers set list) : set.cells.Nodup :=
  inSet.sorted.nodup (orderCmp_total _ _)

/-- A released element finds its new place. -/
theorem InSet.release (inSet : InSet whoRefers set list) (referrer : Nat) :
    releaseInSet whoRefers set referrer = none ∧ releaseCell list referrer = none ∨
      ∃ set' list', releaseInSet whoRefers set referrer = some set' ∧
        releaseCell list referrer = some list' ∧ InSet whoRefers set' list' := by
  unfold releaseInSet releaseCell
  rw [inSet.outDegree]
  cases list.outDegree[referrer]? with
  | none => exact .inl ⟨rfl, rfl⟩
  | some degree =>
      by_cases positive : degree > 0
      · have sorted := inSet.outDegree ▸ inSet.sorted
        have fresh : referrer ∉ set.cells.erase referrer := by
          rw [inSet.nodup.mem_erase_iff]
          exact fun found => found.1 rfl
        have still : Sorted (orderCmp (list.outDegree.set referrer (degree - 1)) whoRefers)
            (set.cells.erase referrer) := by
          have kept : Sorted (orderCmp list.outDegree whoRefers) (set.cells.erase referrer) :=
            List.Pairwise.sublist List.erase_sublist sorted
          apply kept.congr
          intro i memberI j memberJ
          exact orderCmp_set (fun same => fresh (same ▸ memberI)) (fun same => fresh (same ▸ memberJ))
        simp only [Option.bind_eq_bind, Option.bind_some, check_of positive,
          erase_eq (orderCmp_total _ _) sorted]
        refine .inr ⟨_, _, rfl, rfl, rfl, inSet.order, ?_, ?_⟩
        · exact (insert_perm (orderCmp_total _ _) _ fresh).trans
            ((inSet.perm.erase referrer).cons referrer)
        · exact insert_sorted (orderCmp_total _ _) still fresh
      · simp [check, positive]

/-- The releases of all referring cells go alike over the set and over the list. -/
theorem InSet.releaseAll (referrers : List Nat) (inSet : InSet whoRefers set list) :
    referrers.foldlM (releaseInSet whoRefers) set = none ∧ referrers.foldlM releaseCell list = none ∨
      ∃ set' list', referrers.foldlM (releaseInSet whoRefers) set = some set' ∧
        referrers.foldlM releaseCell list = some list' ∧ InSet whoRefers set' list' := by
  induction referrers generalizing set list with
  | nil => exact .inr ⟨set, list, rfl, rfl, inSet⟩
  | cons referrer referrers ih =>
      rw [List.foldlM_cons, List.foldlM_cons]
      rcases inSet.release referrer with ⟨none, none'⟩ | ⟨set', list', some, some', inSet'⟩
      · rw [none, none']
        exact .inl ⟨rfl, rfl⟩
      · rw [some, some']
        exact ih inSet'

/-- The first element of the set is the least cell of the list. -/
theorem firstCell_sorted {cmp : Nat → Nat → Bool} (total : Total cmp) {i : Nat} {cells list : List Nat}
    (sorted : Sorted cmp (i :: cells)) (perm : (i :: cells).Perm list) :
    firstCell cmp list = some i := by
  have least : ∀ j ∈ list, cmp j i = false := by
    intro j member
    rcases List.mem_cons.mp (perm.mem_iff.mpr member) with rfl | member
    · exact total.irrefl j
    · exact total.asymm (List.rel_of_pairwise_cons sorted member)
  cases first : firstCell cmp list with
  | none =>
      rw [firstCell_eq_none first] at perm
      exact absurd perm.length_eq (by simp)
  | some j =>
      have later : cmp i j = false := firstCell_least total first i (perm.subset List.mem_cons_self)
      have earlier := least j (firstCell_mem first)
      by_contra different
      rcases total.total i j (fun same => different (same ▸ rfl)) with before | before
      · rw [later] at before
        cases before
      · rw [earlier] at before
        cases before

/-- The loop over the set is the loop over the list. -/
theorem orderSetLoop_eq (fuel : Nat) (inSet : InSet whoRefers set list) :
    orderSetLoop whoRefers fuel set = orderLoop whoRefers fuel list := by
  induction fuel generalizing set list with
  | zero => rfl
  | succ fuel ih =>
      obtain ⟨outDegree, cells, order⟩ := set
      obtain ⟨rfl, rfl, perm, sorted⟩ := inSet
      rw [orderSetLoop, orderLoop]
      cases cells with
      | nil =>
          rw [perm.symm.eq_nil]
          rfl
      | cons i cells =>
          rw [firstCell_sorted (orderCmp_total _ _) sorted perm]
          simp only
          cases list.outDegree[i]? with
          | none => rfl
          | some degree =>
              by_cases zero : degree = 0
              · simp only [Option.bind_eq_bind, Option.bind_some, check_of zero]
                cases whoRefers[i]? with
                | none => rfl
                | some referrers =>
                    have placed : InSet whoRefers
                        ⟨list.outDegree, cells, list.order ++ [i]⟩
                        { list with cells := list.cells.erase i, order := list.order ++ [i] } := by
                      refine ⟨rfl, rfl, ?_, (List.pairwise_cons.mp sorted).2⟩
                      have erased := perm.erase i
                      rwa [List.erase_cons_head] at erased
                    simp only [Option.bind_some]
                    rcases placed.releaseAll referrers with ⟨none, none'⟩ | ⟨_, _, some, some', inSet'⟩
                    · rw [none, none']
                      rfl
                    · rw [some, some']
                      exact ih inSet'
              · simp [check, zero]

end Step

/-- The set of `initial_cell_order` is never out of order. -/
theorem initialCellOrderInSet_eq (myCells : List MyCell) :
    initialCellOrderInSet myCells = initialCellOrder myCells := by
  unfold initialCellOrderInSet initialCellOrder
  cases whoRefersTo myCells with
  | none => rfl
  | some whoRefers =>
      simp only [Option.bind_eq_bind, Option.bind_some]
      apply orderSetLoop_eq
      have inserted : ∀ n, let cells := (List.range n).foldl (fun cells i => OrderedSet.insert
            (orderCmp (myCells.map fun myCell => myCell.cntRefs % 2 ^ 8) whoRefers) i cells) []
          cells.Perm (List.range n) ∧
            Sorted (orderCmp (myCells.map fun myCell => myCell.cntRefs % 2 ^ 8) whoRefers) cells := by
        intro n
        induction n with
        | zero => exact ⟨List.Perm.refl _, List.Pairwise.nil⟩
        | succ n ih =>
            obtain ⟨perm, sorted⟩ := ih
            have fresh := mt perm.mem_iff.mp (@List.not_mem_range_self n)
            rw [List.range_succ, List.foldl_append, List.foldl_cons, List.foldl_nil]
            refine ⟨?_, insert_sorted (orderCmp_total _ _) sorted fresh⟩
            exact (insert_perm (orderCmp_total _ _) _ fresh).trans
              ((perm.cons n).trans (@List.perm_append_comm _ [n] (List.range n)))
      obtain ⟨perm, sorted⟩ := inserted myCells.length
      exact ⟨rfl, rfl, perm, sorted⟩

end CellBag.Serializator
