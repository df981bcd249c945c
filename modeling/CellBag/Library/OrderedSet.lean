import Mathlib.Tactic

/-!
Sets kept in the order of a comparator. The searches for a place use the comparator only, so the
elements must be in its order; they stay so while no key inside the set changes.
-/

namespace CellBag.OrderedSet

variable {α : Type}

/-- The insertion of an element, unless an equivalent one is met. -/
def insert (less : α → α → Bool) (x : α) : List α → List α
  | [] => [x]
  | y :: rest =>
      if less x y then x :: y :: rest
      else if less y x then y :: insert less x rest
      else y :: rest

/-- The removal of the element that is equivalent to the given one. -/
def erase (less : α → α → Bool) (x : α) : List α → List α
  | [] => []
  | y :: rest =>
      if less x y then y :: rest
      else if less y x then y :: erase less x rest
      else rest

/-- A strict total order. -/
structure Total (less : α → α → Bool) : Prop where
  irrefl : ∀ x, less x x = false
  trans : ∀ x y z, less x y = true → less y z = true → less x z = true
  total : ∀ x y, x ≠ y → less x y = true ∨ less y x = true

/-- The elements are in order. -/
def Sorted (less : α → α → Bool) (items : List α) : Prop :=
  items.Pairwise fun x y => less x y = true

variable {less : α → α → Bool}

theorem Total.asymm (order : Total less) {x y : α} (before : less x y = true) : less y x = false := by
  by_contra after
  have loop := order.trans x y x before (by simpa using after)
  rw [order.irrefl x] at loop
  cases loop

theorem Sorted.nodup (order : Total less) {items : List α} (sorted : Sorted less items) :
    items.Nodup := by
  apply List.Pairwise.imp _ sorted
  intro x y before same
  rw [same, order.irrefl y] at before
  cases before

/-- Comparators that agree on the elements order them alike. -/
theorem Sorted.congr {other : α → α → Bool} {items : List α} (sorted : Sorted less items)
    (agree : ∀ x ∈ items, ∀ y ∈ items, other x y = less x y) : Sorted other items := by
  apply List.Pairwise.imp_of_mem _ sorted
  intro x y memberX memberY before
  rw [agree x memberX y memberY, before]

theorem insert_perm [DecidableEq α] (order : Total less) {x : α} (items : List α) (fresh : x ∉ items) :
    (insert less x items).Perm (x :: items) := by
  induction items with
  | nil => exact List.Perm.refl _
  | cons y rest ih =>
      rw [List.mem_cons, not_or] at fresh
      rw [insert]
      split_ifs with before after
      · exact List.Perm.refl _
      · exact ((ih fresh.2).cons y).trans (List.Perm.swap x y rest)
      · exact absurd (order.total x y fresh.1) (by simp [before, after])

theorem insert_sorted [DecidableEq α] (order : Total less) {x : α} {items : List α}
    (sorted : Sorted less items) (fresh : x ∉ items) : Sorted less (insert less x items) := by
  induction items with
  | nil => exact List.pairwise_singleton _ _
  | cons y rest ih =>
      obtain ⟨least, sortedRest⟩ := List.pairwise_cons.mp sorted
      rw [List.mem_cons, not_or] at fresh
      rw [insert]
      split_ifs with before after
      · apply List.pairwise_cons.mpr ⟨_, sorted⟩
        intro z member
        rcases List.mem_cons.mp member with rfl | member
        · exact before
        · exact order.trans x y z before (least z member)
      · apply List.pairwise_cons.mpr ⟨_, ih sortedRest fresh.2⟩
        intro z member
        rcases List.mem_cons.mp ((insert_perm order rest fresh.2).subset member) with rfl | member
        · exact after
        · exact least z member
      · exact sorted

/-- An element that the set has is not inserted again. -/
theorem insert_of_mem [DecidableEq α] (order : Total less) {x : α} {items : List α}
    (sorted : Sorted less items) (member : x ∈ items) : insert less x items = items := by
  induction items with
  | nil => cases member
  | cons y rest ih =>
      obtain ⟨least, sortedRest⟩ := List.pairwise_cons.mp sorted
      rw [insert]
      rcases List.mem_cons.mp member with rfl | inRest
      · simp [order.irrefl]
      · have after := least x inRest
        rw [if_neg (by simp [order.asymm after]), if_pos after, ih sortedRest inRest]

/-- The removal finds its element. -/
theorem erase_eq [DecidableEq α] (order : Total less) {x : α} {items : List α}
    (sorted : Sorted less items) : erase less x items = items.erase x := by
  induction items with
  | nil => rfl
  | cons y rest ih =>
      obtain ⟨least, sortedRest⟩ := List.pairwise_cons.mp sorted
      rw [erase]
      split_ifs with before after
      · have absent : x ∉ y :: rest := by
          intro member
          rcases List.mem_cons.mp member with rfl | member
          · rw [order.irrefl x] at before
            cases before
          · rw [order.asymm (least x member)] at before
            cases before
        exact (List.erase_of_not_mem absent).symm
      · have different : y ≠ x := by
          intro same
          rw [same, order.irrefl x] at after
          cases after
        rw [ih sortedRest, List.erase_cons_tail (by simpa using different)]
      · have same : y = x := by
          by_contra different
          exact absurd (order.total x y (Ne.symm different)) (by simp [before, after])
        rw [same, List.erase_cons_head]

/-- The head of a falling list is the element that no other key reaches. -/
theorem head?_of_falling {key : α → Nat} {items : List α} {x : α}
    (falling : items.Pairwise fun a b => key b ≤ key a) (member : x ∈ items)
    (only : ∀ y ∈ items, key x ≤ key y → y = x) : items.head? = some x := by
  cases items with
  | nil => cases member
  | cons first rest =>
      rcases List.mem_cons.mp member with rfl | later
      · rfl
      · have above := (List.pairwise_cons.mp falling).1 x later
        rw [List.head?_cons, only first List.mem_cons_self above]

/-- The last element of a falling list is the one that no other key goes below. -/
theorem getLast?_of_falling {key : α → Nat} {items : List α} {x : α}
    (falling : items.Pairwise fun a b => key b ≤ key a) (member : x ∈ items)
    (only : ∀ y ∈ items, key y ≤ key x → y = x) : items.getLast? = some x := by
  induction items using List.reverseRecOn with
  | nil => cases member
  | append_singleton before final _ =>
      have inside : final ∈ before ++ [final] := by simp
      rw [List.getLast?_concat]
      rcases List.mem_append.mp member with earlier | same
      · have below := (List.pairwise_append.mp falling).2.2 x earlier final (by simp)
        rw [only final inside below]
      · rw [List.mem_singleton.mp same]

/-- In a falling list the elements with a larger key come first. -/
theorem mem_of_falling {key : α → Nat} {done rest : List α} {x y : α}
    (falling : (done ++ x :: rest).Pairwise fun a b => key b ≤ key a)
    (member : y ∈ done ++ x :: rest) (larger : key x < key y) : y ∈ done := by
  have sorted := List.pairwise_cons.mp (List.pairwise_append.mp falling).2.1
  rcases List.mem_append.mp member with before | after
  · exact before
  · rcases List.mem_cons.mp after with rfl | later
    · exact absurd larger (Nat.lt_irrefl _)
    · exact absurd larger (Nat.not_lt_of_le (sorted.1 y later))

end CellBag.OrderedSet
