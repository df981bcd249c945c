import Mathlib.Tactic

/-!
Vectors as functions of their index.
-/

namespace CellBag

variable {α : Type}

/-- The vector with the given entries. -/
def tabulate (n : Nat) (f : Nat → α) : List α := (List.range n).map f

variable {n i : Nat} {f g : Nat → α}

/-- A table has its number of entries. -/
@[simp] theorem length_tabulate : (tabulate n f).length = n := by
  simp [tabulate]

/-- The entry at an index is the value there. -/
theorem tabulate_at (inside : i < n) : (tabulate n f)[i]? = some (f i) := by
  simp [tabulate, inside]

/-- Functions with the same values make the same table. -/
theorem tabulate_congr (same : ∀ i < n, f i = g i) : tabulate n f = tabulate n g :=
  List.map_congr_left fun i member => same i (List.mem_range.mp member)

/-- A repeated item is a constant table. -/
theorem replicate_eq_tabulate (n : Nat) (item : α) :
    List.replicate n item = tabulate n fun _ => item := by
  simp [tabulate]

/-- A store into a table updates the function. -/
theorem tabulate_set {item : α} : (tabulate n f).set i item = tabulate n (Function.update f i item) := by
  apply List.ext_getElem?
  intro j
  rw [List.getElem?_set]
  by_cases same : i = j
  · subst same
    by_cases inside : i < n
    · simp [tabulate, inside]
    · simp [tabulate, inside]
  · by_cases inside : j < n
    · simp [tabulate, inside, same, Function.update_of_ne (Ne.symm same)]
    · simp [tabulate, inside, same]

/-- Updating the entry of one more index, where the indices of a list have other entries. -/
theorem update_snoc (q : List Nat) (i : Nat) :
    Function.update (fun j => if j ∈ q then f j else g j) i (f i) =
      fun j => if j ∈ q ++ [i] then f j else g j := by
  funext j
  by_cases same : j = i
  · subst same
    simp
  · simp [same]

end CellBag
