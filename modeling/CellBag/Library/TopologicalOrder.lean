import Mathlib.Tactic

/-!
Topological orders, built from the front, and the searches that build them.
-/

namespace CellBag

variable {α : Type} {next : α → List α}

/-- An order in which each vertex is new and comes after its successors. -/
inductive TopologicalOrder (next : α → List α) : List α → Prop
  | nil : TopologicalOrder next []
  | snoc {order : List α} {v : α} : TopologicalOrder next order → v ∉ order →
      (∀ w ∈ next v, w ∈ order) → TopologicalOrder next (order ++ [v])

namespace TopologicalOrder

/-- Such an order has no entry twice. -/
theorem nodup {order : List α} (topological : TopologicalOrder next order) : order.Nodup := by
  induction topological with
  | nil => exact List.nodup_nil
  | snoc _ fresh _ ih =>
      rw [List.nodup_append]
      refine ⟨ih, by simp, ?_⟩
      rintro w member _ last rfl
      rw [List.mem_singleton] at last
      exact fresh (last ▸ member)

/-- Without its last entry it is such an order. -/
theorem of_snoc {order : List α} {v : α} (topological : TopologicalOrder next (order ++ [v])) :
    TopologicalOrder next order := by
  generalize split : order ++ [v] = whole at topological
  cases topological with
  | nil => simp at split
  | snoc earlier _ _ =>
      obtain ⟨rfl, -⟩ := List.append_singleton_inj.mp split
      exact earlier

/-- Every vertex of a topological order has its successors in the part before it. -/
theorem successors {order before after : List α} {v : α} (topological : TopologicalOrder next order)
    (split : order = before ++ v :: after) : ∀ w ∈ next v, w ∈ before := by
  induction topological generalizing before after with
  | nil => simp at split
  | @snoc order last earlier fresh known ih =>
      rcases List.eq_nil_or_concat' after with rfl | ⟨others, final, rfl⟩
      · obtain ⟨rfl, rfl⟩ := List.append_singleton_inj.mp split
        exact known
      · rw [← List.cons_append, ← List.append_assoc] at split
        exact ih (List.append_singleton_inj.mp split).1

/-- A prefix of a topological order holds everything reachable from its members. -/
theorem reachable_mem {before after : List α} {v w : α}
    (topological : TopologicalOrder next (before ++ after)) (member : v ∈ before)
    (reaches : Relation.ReflTransGen (fun v w => w ∈ next v) v w) : w ∈ before := by
  induction reaches with
  | refl => exact member
  | tail _ edge ih =>
      obtain ⟨first, rest, rfl⟩ := List.append_of_mem ih
      rw [List.append_assoc, List.cons_append] at topological
      exact List.mem_append_left _ (topological.successors rfl _ edge)

/-- A vertex that reaches all others is the last one. -/
theorem getLast?_root {order : List α} {root : α} (topological : TopologicalOrder next order)
    (member : root ∈ order)
    (reachesAll : ∀ v ∈ order, Relation.ReflTransGen (fun v w => w ∈ next v) root v) :
    order.getLast? = some root := by
  obtain ⟨before, after, rfl⟩ := List.append_of_mem member
  cases after with
  | nil => simp
  | cons late after =>
      have fresh := topological.nodup
      have known : late ∈ before ++ [root] := by
        rw [List.append_cons] at topological
        exact topological.reachable_mem (by simp) (reachesAll late (by simp))
      rw [List.append_cons, List.nodup_append] at fresh
      exact absurd rfl (fresh.2.2 late known late (by simp))

/-- No vertex of a topological order reaches itself. -/
theorem acyclic {order : List α} {v : α} (topological : TopologicalOrder next order)
    (member : v ∈ order) : ¬ Relation.TransGen (fun v w => w ∈ next v) v v := by
  intro cycle
  obtain ⟨before, after, rfl⟩ := List.append_of_mem member
  obtain ⟨w, edge, reaches⟩ := Relation.TransGen.head'_iff.mp cycle
  have earlier : v ∈ before :=
    topological.reachable_mem (topological.successors rfl w edge) reaches
  have fresh := topological.nodup
  rw [List.nodup_append] at fresh
  exact fresh.2.2 v earlier v (by simp) rfl

end TopologicalOrder

/-- When every vertex of a finite list has a successor in the list, some vertex reaches itself. -/
theorem exists_cycle {vertices : List α} (nonempty : vertices ≠ [])
    (inside : ∀ v ∈ vertices, ∃ w ∈ vertices, w ∈ next v) :
    ∃ v, Relation.TransGen (fun v w => w ∈ next v) v v := by
  by_contra acyclic
  push Not at acyclic
  let below (w v : {v // v ∈ vertices}) : Prop := Relation.TransGen (fun v w => w ∈ next v) v.1 w.1
  have transitive : IsTrans {v // v ∈ vertices} below := ⟨fun _ _ _ first second => second.trans first⟩
  have irreflexive : Std.Irrefl below := ⟨fun v => acyclic v.1⟩
  have finite : Finite {v // v ∈ vertices} := List.finite_toSet vertices
  have wellFounded : WellFounded below := Finite.wellFounded_of_trans_of_irrefl below
  obtain ⟨first, member⟩ := List.exists_mem_of_ne_nil _ nonempty
  obtain ⟨v, _, least⟩ := wellFounded.has_min Set.univ ⟨⟨first, member⟩, trivial⟩
  obtain ⟨w, memberW, edge⟩ := inside v.1 v.2
  exact least ⟨w, memberW⟩ trivial (Relation.TransGen.single edge)

/-- The state of a depth-first search: its finished vertices in order, and the opened ones. -/
structure Search (next : α → List α) (visited : α → Prop) (order opened : List α) : Prop where
  topological : TopologicalOrder next order
  visited_iff : ∀ v, visited v ↔ v ∈ order ∨ v ∈ opened
  apart : ∀ v ∈ order, v ∉ opened

namespace Search

variable {visited : α → Prop} {order opened : List α} {v : α}

/-- Before the first call. -/
theorem start : Search next (fun _ => False) [] [] := ⟨.nil, by simp, by simp⟩

/-- An entry is opened. -/
theorem enter (search : Search next visited order opened) (fresh : ¬ visited v) :
    Search next (fun u => u = v ∨ visited u) order (v :: opened) where
  topological := search.topological
  visited_iff u := by
    rw [search.visited_iff, List.mem_cons]
    tauto
  apart u member := by
    rw [List.mem_cons, not_or]
    refine ⟨?_, search.apart u member⟩
    intro equal
    subst equal
    exact fresh ((search.visited_iff u).mpr (.inl member))

/-- An entry is closed and listed. -/
theorem leave (search : Search next visited order (v :: opened)) (once : v ∉ opened)
    (known : ∀ w ∈ next v, w ∈ order) : Search next visited (order ++ [v]) opened where
  topological := by
    refine .snoc search.topological (fun member => ?_) known
    exact search.apart v member List.mem_cons_self
  visited_iff u := by
    rw [search.visited_iff, List.mem_cons, List.mem_append, List.mem_singleton]
    tauto
  apart u member := by
    rw [List.mem_append, List.mem_singleton] at member
    rcases member with member | rfl
    · exact fun inside => search.apart u member (List.mem_cons_of_mem v inside)
    · exact once

/-- A visited vertex of lower rank than the opened ones is finished. -/
theorem finished (search : Search next visited order opened) (rank : α → Nat)
    (above : ∀ u ∈ opened, rank v < rank u) (seen : visited v) : v ∈ order :=
  ((search.visited_iff v).mp seen).resolve_right fun member => Nat.lt_irrefl _ (above v member)

end Search

/-- The state of a depth-first search of any graph: the finished vertices are in a topological order if
no vertex reaches itself. -/
structure Exploration (next : α → List α) (visited : α → Prop) (order opened : List α) : Prop where
  nodup : order.Nodup
  topological : (∀ v, ¬ Relation.TransGen (fun v w => w ∈ next v) v v) → TopologicalOrder next order
  visited_iff : ∀ v, visited v ↔ v ∈ order ∨ v ∈ opened
  apart : ∀ v ∈ order, v ∉ opened
  closed : ∀ v ∈ order, ∀ w ∈ next v, w ∈ order ∨ w ∈ opened

namespace Exploration

variable {visited : α → Prop} {order opened : List α} {v w : α}

theorem start : Exploration next (fun _ => False) [] [] :=
  ⟨.nil, fun _ => .nil, by simp, by simp, by simp⟩

theorem enter (explored : Exploration next visited order opened) (fresh : ¬ visited v) :
    Exploration next (fun u => u = v ∨ visited u) order (v :: opened) where
  nodup := explored.nodup
  topological := explored.topological
  visited_iff u := by
    rw [explored.visited_iff, List.mem_cons]
    tauto
  apart u member := by
    rw [List.mem_cons, not_or]
    refine ⟨?_, explored.apart u member⟩
    intro equal
    subst equal
    exact fresh ((explored.visited_iff u).mpr (.inl member))
  closed u member w edge := (explored.closed u member w edge).imp_right (List.mem_cons_of_mem v)

/-- A vertex is finished when its successors have been visited. Those that are still open lead to it. -/
theorem leave (explored : Exploration next visited order (v :: opened)) (once : v ∉ opened)
    (above : ∀ u ∈ opened, Relation.ReflTransGen (fun v w => w ∈ next v) u v)
    (known : ∀ w ∈ next v, w ∈ order ∨ w ∈ v :: opened) :
    Exploration next visited (order ++ [v]) opened where
  nodup := by
    rw [List.nodup_append]
    refine ⟨explored.nodup, by simp, ?_⟩
    rintro u member _ last rfl
    rw [List.mem_singleton] at last
    exact explored.apart u member (last ▸ List.mem_cons_self)
  topological acyclic := by
    refine .snoc (explored.topological acyclic)
      (fun member => explored.apart v member List.mem_cons_self) fun w edge => ?_
    refine (known w edge).resolve_right fun isOpen => acyclic v ?_
    rcases List.mem_cons.mp isOpen with rfl | isOpen
    · exact .single edge
    · exact .head' edge (above w isOpen)
  visited_iff u := by
    rw [explored.visited_iff, List.mem_cons, List.mem_append, List.mem_singleton]
    tauto
  apart u member := by
    rw [List.mem_append, List.mem_singleton] at member
    rcases member with member | rfl
    · exact fun inside => explored.apart u member (List.mem_cons_of_mem v inside)
    · exact once
  closed u member w edge := by
    have reached : w ∈ order ∨ w ∈ v :: opened := by
      rw [List.mem_append, List.mem_singleton] at member
      rcases member with member | rfl
      · exact explored.closed u member w edge
      · exact known w edge
    rw [List.mem_cons] at reached
    rw [List.mem_append, List.mem_singleton]
    tauto

/-- Between two searches everything that a finished vertex reaches is finished. -/
theorem reachable_mem (explored : Exploration next visited order []) (member : v ∈ order)
    (reaches : Relation.ReflTransGen (fun v w => w ∈ next v) v w) : w ∈ order := by
  induction reaches with
  | refl => exact member
  | tail _ edge ih => exact (explored.closed _ ih _ edge).resolve_right (by simp)

end Exploration

end CellBag
