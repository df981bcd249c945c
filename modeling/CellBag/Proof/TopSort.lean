import CellBag.Proof.BagRebuild
import CellBag.Proof.CellOrder

/-!
The top sort of `my_cells_to_vm_root` on any table of cells, with cycles or without.
-/

namespace CellBag.Serializator

/-- There is a path of refs, maybe an empty one. -/
def Leads (myCells : List MyCell) (v w : Nat) : Prop :=
  Relation.ReflTransGen (fun v w => w ∈ refsOf myCells v) v w

/-- The cell that the top sort ends with: the greatest index to which no lesser one leads. -/
structure LastRoot (myCells : List MyCell) (root : Nat) : Prop where
  inside : root < myCells.length
  fresh : ∀ u < root, ¬ Leads myCells u root
  last : ∀ v < myCells.length, root < v → ∃ u < v, Leads myCells u v

theorem LastRoot.unique {myCells : List MyCell} {root other : Nat} (first : LastRoot myCells root)
    (second : LastRoot myCells other) : root = other := by
  rcases Nat.lt_trichotomy root other with less | same | greater
  · obtain ⟨u, below, leads⟩ := first.last other second.inside less
    exact absurd leads (second.fresh u below)
  · exact same
  · obtain ⟨u, below, leads⟩ := second.last root first.inside greater
    exact absurd leads (first.fresh u below)

section Table
variable {myCells : List MyCell}

/-- The state of a call of `dfs` for `v` behind the refs in `done`: each of them is finished, or it is still
open. -/
structure Visiting (myCells : List MyCell) (was : List Bool) (order opened : List Nat) (v : Nat)
    (done : List Nat) (state : List Bool × List Nat) : Prop where
  sized : state.1.length = myCells.length
  explored : Exploration (refsOf myCells) (Marked state.1) state.2 (v :: opened)
  grown : order <+: state.2
  below : ∀ w ∈ state.2, w ∈ order ∨ Leads myCells v w
  known : ∀ w ∈ done, w ∈ state.2 ∨ w ∈ v :: opened
  count : state.1.count false ≤ (was.set v true).count false

section Visiting
variable {was : List Bool} {order opened done : List Nat} {v w : Nat} {state : List Bool × List Nat}

theorem Visiting.start (sized : was.length = myCells.length)
    (explored : Exploration (refsOf myCells) (Marked was) order opened) (inRange : v < myCells.length)
    (unmarked : ¬ Marked was v) :
    Visiting myCells was order opened v [] (was.set v true, order) where
  sized := by simpa using sized
  explored := by
    rw [marked_set (sized ▸ inRange)]
    exact explored.enter unmarked
  grown := List.prefix_refl _
  below := fun _ member => .inl member
  known := by simp
  count := Nat.le_refl _

/-- A marked ref is finished or open. -/
theorem Visiting.skip (visiting : Visiting myCells was order opened v done state)
    (seen : state.1[w]? = some true) : Visiting myCells was order opened v (done ++ [w]) state where
  sized := visiting.sized
  explored := visiting.explored
  grown := visiting.grown
  below := visiting.below
  known := by
    intro u inDone
    rcases List.mem_append.mp inDone with inDone | last
    · exact visiting.known u inDone
    · rw [List.mem_singleton.mp last]
      exact (visiting.explored.visited_iff w).mp seen
  count := visiting.count

/-- The call for a ref finishes it. -/
theorem Visiting.call (visiting : Visiting myCells was order opened v done state)
    (member : w ∈ refsOf myCells v) {was' : List Bool} {order' : List Nat} (sized : was'.length = myCells.length)
    (explored : Exploration (refsOf myCells) (Marked was') (order' ++ [w]) (v :: opened))
    (longer : state.2 <+: order') (belowW : ∀ u ∈ order', u ∈ state.2 ∨ Leads myCells w u)
    (fewer : was'.count false ≤ state.1.count false) :
    Visiting myCells was order opened v (done ++ [w]) (was', order' ++ [w]) := by
  have kept : state.2 <+: order' ++ [w] := longer.trans (List.prefix_append _ _)
  constructor
  case sized => exact sized
  case explored => exact explored
  case grown => exact visiting.grown.trans kept
  case below =>
    intro u finished
    rcases List.mem_append.mp finished with finished | last
    · rcases belowW u finished with earlier | leads
      · exact visiting.below u earlier
      · exact .inr (.head member leads)
    · exact .inr (List.mem_singleton.mp last ▸ .single member)
  case known =>
    intro u inDone
    rcases List.mem_append.mp inDone with inDone | last
    · exact (visiting.known u inDone).imp_left fun finished => kept.subset finished
    · exact .inl (List.mem_singleton.mp last ▸ by simp)
  case count => exact fewer.trans visiting.count

end Visiting

/-- A call of `dfs` finishes its vertex and keeps the open ones, which lead to the vertex. Each nested
call has one vertex less to mark, so the fuel lasts. -/
theorem topDfs_explores (table : Table myCells) {fuel v : Nat} {was : List Bool} {order opened : List Nat}
    (sized : was.length = myCells.length)
    (explored : Exploration (refsOf myCells) (Marked was) order opened) (inRange : v < myCells.length)
    (fresh : was[v]? = some false) (above : ∀ u ∈ opened, Leads myCells u v)
    (enough : was.count false < fuel) :
    ∃ was' order', topDfs myCells fuel v (was, order) = some (was', order' ++ [v]) ∧
      was'.length = myCells.length ∧
      Exploration (refsOf myCells) (Marked was') (order' ++ [v]) opened ∧ order <+: order' ∧
      (∀ w ∈ order', w ∈ order ∨ Leads myCells v w) ∧ was'.count false ≤ was.count false := by
  induction fuel generalizing v was order opened with
  | zero => omega
  | succ fuel ih =>
      have entry : myCells[v]? = some myCells[v] := List.getElem?_eq_getElem inRange
      have unmarked : ¬ Marked was v := by simp [Marked, fresh]
      have fewer := count_false_set fresh
      obtain ⟨⟨was', order'⟩, ran, visited⟩ :=
        OptionList.foldlM_invariant (refsOf myCells v) (was.set v true, order)
          (fun state next => do
            let seen ← state.1[next]?
            if seen then some state else topDfs myCells fuel next state)
          (Visiting myCells was order opened v) (Visiting.start sized explored inRange unmarked) (by
            rintro done w rest ⟨was', order'⟩ split visiting
            have member : w ∈ refsOf myCells v := by simp [split]
            have inside := table.inside v w member
            obtain ⟨seen, look⟩ : ∃ seen, was'[w]? = some seen :=
              ⟨_, List.getElem?_eq_getElem (visiting.sized ▸ inside)⟩
            cases seen with
            | true => exact ⟨(was', order'), by simp [look], visiting.skip look⟩
            | false =>
                have aboveW : ∀ u ∈ v :: opened, Leads myCells u w := by
                  intro u isOpen
                  rcases List.mem_cons.mp isOpen with rfl | isOpen
                  · exact .single member
                  · exact (above u isOpen).tail member
                have smaller := visiting.count
                obtain ⟨was'', order'', ran, sized'', explored'', longer, belowW, fewerW⟩ :=
                  ih visiting.sized visiting.explored inside look aboveW
                    (show was'.count false < fuel by simp only at smaller; omega)
                exact ⟨(was'', order'' ++ [w]), by simp [look, ran],
                  visiting.call member sized'' explored'' longer belowW fewerW⟩)
      have once : v ∉ opened := fun isOpen => unmarked ((explored.visited_iff v).mpr (.inr isOpen))
      refine ⟨was', order', ?_, visited.sized, visited.explored.leave once above visited.known, visited.grown,
        visited.below, ?_⟩
      · simp only [topDfs, check_of inRange, fresh, entry, table.usedRefs entry, Option.bind_eq_bind,
          Option.bind_some] at ran ⊢
        rw [check_of trivial, Option.bind_some, ran]
        rfl
      · have smaller := visited.count
        simp only at smaller
        omega

/-- The state of the outer loop of the top sort behind the calls for the indices below `k`. -/
structure Sorting (myCells : List MyCell) (k : Nat) (state : List Bool × List Nat) : Prop where
  sized : state.1.length = myCells.length
  explored : Exploration (refsOf myCells) (Marked state.1) state.2 []
  mem_iff : ∀ v, v ∈ state.2 ↔ ∃ u < k, Leads myCells u v
  root : 0 < k → ∃ root < k, state.2.getLast? = some root ∧ (∀ u < root, ¬ Leads myCells u root) ∧
    ∀ v < k, root < v → ∃ u < v, Leads myCells u v

theorem Sorting.start : Sorting myCells 0 (List.replicate myCells.length false, []) where
  sized := List.length_replicate
  explored := by
    have unmarked : Marked (List.replicate myCells.length false) = fun _ => False := by
      funext v
      simp [Marked, List.getElem?_replicate]
    rw [unmarked]
    exact Exploration.start
  mem_iff := by simp
  root := by simp

/-- A turn of the outer loop; it calls `dfs` exactly for an index to which no lesser one leads. -/
theorem Sorting.turn (table : Table myCells) {k : Nat} {was : List Bool} {order : List Nat}
    (sorting : Sorting myCells k (was, order)) (inside : k < myCells.length) :
    ∃ next, (do
      let seen ← was[k]?
      if seen then some (was, order) else topDfs myCells (myCells.length + 1) k (was, order)) =
        some next ∧ Sorting myCells (k + 1) next := by
  have sized : was.length = myCells.length := sorting.sized
  obtain ⟨seen, look⟩ : ∃ seen, was[k]? = some seen := ⟨_, List.getElem?_eq_getElem (sized ▸ inside)⟩
  have marked_iff : was[k]? = some true ↔ ∃ u < k, Leads myCells u k := by
    rw [← sorting.mem_iff k]
    exact (sorting.explored.visited_iff k).trans (or_iff_left (by simp))
  cases seen with
  | true =>
      obtain ⟨u, below, leads⟩ := marked_iff.mp look
      refine ⟨(was, order), by simp [look], sized, sorting.explored, fun v => ?_, fun _ => ?_⟩
      · rw [sorting.mem_iff]
        constructor
        · rintro ⟨w, less, path⟩
          exact ⟨w, by omega, path⟩
        · rintro ⟨w, less, path⟩
          rcases Nat.lt_succ_iff_lt_or_eq.mp less with less | rfl
          · exact ⟨w, less, path⟩
          · exact ⟨u, below, leads.trans path⟩
      · obtain ⟨root, inRange, last, new, later⟩ := sorting.root (by omega)
        refine ⟨root, by omega, last, new, fun v less greater => ?_⟩
        rcases Nat.lt_succ_iff_lt_or_eq.mp less with less | rfl
        · exact later v less greater
        · exact ⟨u, below, leads⟩
  | false =>
      have enough : was.count false < myCells.length + 1 :=
        Nat.lt_succ_of_le (List.count_le_length.trans_eq sized)
      obtain ⟨was', order', ran, sized', explored', longer, below, -⟩ :=
        topDfs_explores table sized sorting.explored inside look (by simp) enough
      refine ⟨(was', order' ++ [k]), by simp [look, ran], sized', explored', fun v => ?_, fun _ => ?_⟩
      · constructor
        · intro member
          rcases List.mem_append.mp member with member | last
          · rcases below v member with earlier | leads
            · obtain ⟨u, less, path⟩ := (sorting.mem_iff v).mp earlier
              exact ⟨u, by omega, path⟩
            · exact ⟨k, by omega, leads⟩
          · exact ⟨k, by omega, List.mem_singleton.mp last ▸ .refl⟩
        · rintro ⟨u, less, path⟩
          refine explored'.reachable_mem ?_ path
          rcases Nat.lt_succ_iff_lt_or_eq.mp less with less | rfl
          · exact List.mem_append_left _ (longer.subset ((sorting.mem_iff u).mpr ⟨u, less, .refl⟩))
          · simp
      · refine ⟨k, by omega, by simp, fun u less leads => ?_, fun v less greater => by omega⟩
        rw [marked_iff.mpr ⟨u, less, leads⟩] at look
        cases look

theorem acyclic_of_topological {order : List Nat} (perm : order.Perm (List.range myCells.length))
    (topological : TopologicalOrder (refsOf myCells) order) : Acyclic myCells := by
  intro i cycle
  by_cases inside : i < myCells.length
  · exact topological.acyclic (perm.mem_iff.mpr (List.mem_range.mpr inside)) cycle
  · obtain ⟨ref, edge, -⟩ := Relation.TransGen.head'_iff.mp cycle
    rw [refsOf_outside (Nat.le_of_not_lt inside)] at edge
    cases edge

/-- The top sort passes its checks on any table. -/
theorem topSort_explores (table : Table myCells) :
    ∃ order, topSort myCells = some order ∧ order.Perm (List.range myCells.length) ∧
      (TopologicalOrder (refsOf myCells) order ↔ Acyclic myCells) ∧
      ∀ root, order.getLast? = some root ↔ LastRoot myCells root := by
  obtain ⟨⟨was, order⟩, ran, sorting⟩ :=
    OptionList.foldlM_invariant (List.range myCells.length) (List.replicate myCells.length false, [])
      (fun state v => do
        let seen ← state.1[v]?
        if seen then some state else topDfs myCells (myCells.length + 1) v state)
      (fun done state => Sorting myCells done.length state) Sorting.start (by
        intro done v rest state split sorting
        have index : v = done.length := by
          have look : (List.range myCells.length)[done.length]? = some v := by simp [split]
          rw [List.getElem?_range] at look
          · exact (Option.some.inj look).symm
          · have size := congrArg List.length split
            simp at size
            omega
        subst index
        have inside : done.length < myCells.length := List.mem_range.mp (by rw [split]; simp)
        simpa using sorting.turn table inside)
  rw [List.length_range] at sorting
  have perm : order.Perm (List.range myCells.length) := by
    rw [List.perm_ext_iff_of_nodup sorting.explored.nodup List.nodup_range]
    intro v
    rw [List.mem_range]
    constructor
    · intro member
      have marked : was[v]? = some true := (sorting.explored.visited_iff v).mpr (.inl member)
      exact sorting.sized ▸ (List.getElem?_eq_some_iff.mp marked).1
    · exact fun inside => (sorting.mem_iff v).mpr ⟨v, inside, .refl⟩
  have last (root : Nat) : order.getLast? = some root ↔ LastRoot myCells root := by
    have isRoot {found : Nat} (ends : order.getLast? = some found) : LastRoot myCells found := by
      have inside := List.mem_range.mp (perm.mem_iff.mp (List.mem_of_getLast? ends))
      obtain ⟨other, inRange, same, new, later⟩ := sorting.root (by omega)
      obtain rfl := Option.some.inj (ends.symm.trans same)
      exact ⟨inRange, new, later⟩
    refine ⟨isRoot, fun lastRoot => ?_⟩
    obtain ⟨found, -, ends, -⟩ := sorting.root (Nat.zero_lt_of_lt lastRoot.inside)
    rwa [(isRoot ends).unique lastRoot] at ends
  refine ⟨order, ?_, perm, ⟨acyclic_of_topological perm, sorting.explored.topological⟩, last⟩
  have length : order.length = myCells.length := by simpa using perm.length_eq
  simp only [topSort, Option.bind_eq_bind] at ran ⊢
  rw [ran]
  simp [check_of length]

end Table

end CellBag.Serializator
