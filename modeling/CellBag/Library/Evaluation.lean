import CellBag.Library.OptionList
import CellBag.Library.Tabulate
import CellBag.Library.TopologicalOrder

/-!
Values of the vertices of a graph, each computed from those of its successors.
-/

namespace CellBag

variable {β : Type}

/-- Computes the entry of a vertex from the entries of its successors, which must be there. -/
def evalEntry (next : Nat → List Nat) (eval : Nat → List β → Option β) (store : List (Option β))
    (v : Nat) : Option (List (Option β)) := do
  let args ← (next v).mapM fun w => (store[w]?).join
  let value ← eval v args
  if v < store.length then some (store.set v (some value)) else none

/-- The store with the values of the given vertices. -/
def storeOf (n : Nat) (order : List Nat) (value : Nat → β) : List (Option β) :=
  tabulate n fun v => if v ∈ order then some (value v) else none

section Store
variable {n v : Nat} {order vertices : List Nat} {value : Nat → β} {args : List β}

theorem storeOf_nil : storeOf n [] value = List.replicate n none := by
  rw [replicate_eq_tabulate]
  simp [storeOf]

/-- What is known of an entry. -/
theorem storeOf_entry (inside : v < n) :
    ((storeOf n order value)[v]?).join = if v ∈ order then some (value v) else none := by
  rw [storeOf, tabulate_at inside, Option.join_some]

/-- A known value belongs to a listed entry. -/
theorem storeOf_eq_some {result : β} (found : ((storeOf n order value)[v]?).join = some result) :
    v ∈ order ∧ value v = result := by
  have inside : v < n := by
    obtain ⟨inside, -⟩ := List.getElem?_eq_some_iff.mp (Option.join_eq_some_iff.mp found)
    simpa [storeOf] using inside
  rw [storeOf_entry inside] at found
  split_ifs at found with member
  exact ⟨member, Option.some.inj found⟩

/-- The store with one value more. -/
theorem storeOf_set (fresh : v ∉ order) (result : β) :
    (storeOf n order value).set v (some result) =
      storeOf n (order ++ [v]) (Function.update value v result) := by
  rw [storeOf, tabulate_set, storeOf]
  refine tabulate_congr fun u _ => ?_
  by_cases same : u = v
  · subst same
    simp
  · simp [same]

/-- The successors have entries exactly if they are among the vertices of the store. -/
theorem mapM_storeOf_iff (inside : ∀ w ∈ order, w < n) :
    (vertices.mapM fun w => ((storeOf n order value)[w]?).join) = some args ↔
      (∀ w ∈ vertices, w ∈ order) ∧ args = vertices.map value := by
  constructor
  · intro run
    induction vertices generalizing args with
    | nil =>
        obtain rfl := Option.some.inj run
        simp
    | cons w vertices ih =>
        rw [List.mapM_cons] at run
        obtain ⟨first, found, run⟩ := Option.bind_eq_some_iff.mp run
        obtain ⟨rest, ran, run⟩ := Option.bind_eq_some_iff.mp run
        obtain rfl := Option.some.inj run
        obtain ⟨member, rfl⟩ := storeOf_eq_some found
        obtain ⟨known, rfl⟩ := ih ran
        exact ⟨List.forall_mem_cons.mpr ⟨member, known⟩, rfl⟩
  · rintro ⟨known, rfl⟩
    refine OptionList.mapM_eq_map fun w member => ?_
    rw [storeOf_entry (inside w (known w member)), if_pos (known w member)]

end Store

section Run
variable {next : Nat → List Nat} {eval : Nat → List β → Option β} {n : Nat} {order : List Nat}
  {built : List (Option β)}

/-- A vertex gets an entry exactly if its successors have theirs and its value can be computed. -/
theorem evalEntry_storeOf_iff {v : Nat} {value : Nat → β} (inside : ∀ w ∈ order, w < n) (room : v < n)
    (fresh : v ∉ order) :
    evalEntry next eval (storeOf n order value) v = some built ↔
      (∀ w ∈ next v, w ∈ order) ∧ ∃ result, eval v ((next v).map value) = some result ∧
        built = storeOf n (order ++ [v]) (Function.update value v result) := by
  have size : (storeOf n order value).length = n := length_tabulate
  constructor
  · intro run
    obtain ⟨args, found, run⟩ := Option.bind_eq_some_iff.mp run
    obtain ⟨result, computed, stored⟩ := Option.bind_eq_some_iff.mp run
    obtain ⟨known, rfl⟩ := (mapM_storeOf_iff inside).mp found
    rw [size, if_pos room, storeOf_set fresh, Option.some.injEq] at stored
    exact ⟨known, result, computed, stored.symm⟩
  · rintro ⟨known, result, computed, rfl⟩
    simp only [evalEntry, (mapM_storeOf_iff inside).mpr ⟨known, rfl⟩, computed, size, if_pos room,
      storeOf_set fresh, Option.bind_eq_bind, Option.bind_some]

/-- Vertices that are evaluated one after another stand in a topological order, and their values solve
the equations of the graph. In such an order any solution is computed. -/
theorem foldlM_evalEntry_iff (distinct : order.Nodup) (inside : ∀ v ∈ order, v < n) (start : Nat → β) :
    order.foldlM (evalEntry next eval) (List.replicate n none) = some built ↔
      TopologicalOrder next order ∧ ∃ value : Nat → β,
        (∀ v ∈ order, eval v ((next v).map value) = some (value v)) ∧ built = storeOf n order value := by
  induction order using List.reverseRecOn generalizing built with
  | nil =>
      constructor
      · intro run
        exact ⟨.nil, start, by simp, by rw [storeOf_nil, ← Option.some.inj run]⟩
      · rintro ⟨-, value, -, rfl⟩
        rw [storeOf_nil]
        rfl
  | append_singleton order v ih =>
      have inside' : ∀ w ∈ order, w < n := fun w member => inside w (by simp [member])
      have room : v < n := inside v (by simp)
      have distinct' : order.Nodup := (List.nodup_append.mp distinct).1
      have fresh : v ∉ order := OptionList.fresh_of_split distinct rfl
      have evaluated := @ih
      rw [List.foldlM_append]
      constructor
      · intro run
        obtain ⟨middle, ran, run⟩ := Option.bind_eq_some_iff.mp run
        obtain ⟨final, last, same⟩ := Option.bind_eq_some_iff.mp run
        obtain rfl := Option.some.inj same
        obtain ⟨topological, value, solves, rfl⟩ := (evaluated distinct' inside').mp ran
        obtain ⟨known, result, computed, rfl⟩ := (evalEntry_storeOf_iff inside' room fresh).mp last
        refine ⟨.snoc topological fresh known, Function.update value v result, ?_, rfl⟩
        -- the successors of the vertices have kept their values
        have kept (u : Nat) (before : ∀ w ∈ next u, w ∈ order) :
            (next u).map (Function.update value v result) = (next u).map value :=
          List.map_congr_left fun w edge =>
            Function.update_of_ne (ne_of_mem_of_not_mem (before w edge) fresh) _ _
        intro u member
        rcases List.mem_append.mp member with earlier | last
        · obtain ⟨first, rest, split⟩ := List.append_of_mem earlier
          have before : ∀ w ∈ next u, w ∈ order := fun w edge => by
            rw [split]
            exact List.mem_append_left _ (topological.successors split w edge)
          rw [kept u before, solves u earlier, Function.update_of_ne (ne_of_mem_of_not_mem earlier fresh)]
        · obtain rfl := List.mem_singleton.mp last
          rw [kept u known, computed, Function.update_self]
      · rintro ⟨topological, value, solves, rfl⟩
        have known := topological.successors (rfl : order ++ [v] = order ++ v :: [])
        have ran := (evaluated distinct' inside').mpr
          ⟨topological.of_snoc, value, fun u member => solves u (by simp [member]), rfl⟩
        have last : evalEntry next eval (storeOf n order value) v =
            some (storeOf n (order ++ [v]) (Function.update value v (value v))) :=
          (evalEntry_storeOf_iff inside' room fresh).mpr ⟨known, value v, solves v (by simp), rfl⟩
        rw [Function.update_eq_self] at last
        rw [ran, Option.bind_eq_bind, Option.bind_some, List.foldlM_cons, last]
        rfl

end Run

end CellBag
