import Mathlib.Tactic

/-!
Fields that lie one behind the other: where each starts, and which one an index falls into.
-/

namespace CellBag.Layout

variable {α : Type}

/-- The place where the field of an index starts. -/
def start (fields : List (List α)) (r : Nat) : Nat := (fields.take r).flatten.length

@[simp] theorem start_zero (fields : List (List α)) : start fields 0 = 0 := rfl

/-- A field ends where the next one starts. -/
theorem start_succ {fields : List (List α)} {r : Nat} {field : List α}
    (look : fields[r]? = some field) : start fields (r + 1) = start fields r + field.length := by
  rw [start, start, List.take_add_one, look]
  simp

/-- Behind all fields the place is their total length. -/
theorem start_all {fields : List (List α)} {r : Nat} (all : fields.length ≤ r) :
    start fields r = fields.flatten.length := by
  rw [start, List.take_of_length_le all]

/-- The fields before a rank and those from it on make the whole. -/
theorem flatten_eq (fields : List (List α)) (r : Nat) :
    fields.flatten = (fields.take r).flatten ++ (fields.drop r).flatten := by
  rw [← List.flatten_append, List.take_append_drop]

/-- The bits from a field on. -/
theorem drop_start (fields : List (List α)) (r : Nat) :
    fields.flatten.drop (start fields r) = (fields.drop r).flatten := by
  rw [flatten_eq fields r, start, List.drop_left]

/-- The items before the start of a field are those of the fields before it. -/
theorem take_start (fields : List (List α)) (r : Nat) :
    fields.flatten.take (start fields r) = (fields.take r).flatten := by
  rw [flatten_eq fields r, start, List.take_left]

/-- Later fields start later. -/
theorem start_mono (fields : List (List α)) {r s : Nat} (le : r ≤ s) :
    start fields r ≤ start fields s := by
  rw [start, start, show fields.take r = (fields.take s).take r by rw [List.take_take, min_eq_left le],
    flatten_eq (fields.take s) r, List.length_append]
  omega

/-- A field is a prefix of the bits from its start on. -/
theorem drop_start_of_field {fields : List (List α)} {r : Nat} {field : List α}
    (look : fields[r]? = some field) :
    fields.flatten.drop (start fields r) = field ++ (fields.drop (r + 1)).flatten := by
  have inside := (List.getElem?_eq_some_iff.mp look).1
  rw [drop_start, List.drop_eq_getElem_cons inside, List.flatten_cons,
    (List.getElem?_eq_some_iff.mp look).2]

/-- Each index of the bits falls into one field. -/
theorem locate {fields : List (List α)} {s : Nat} (inside : s < fields.flatten.length) :
    ∃ r field, fields[r]? = some field ∧ start fields r ≤ s ∧ s < start fields r + field.length := by
  induction fields generalizing s with
  | nil => simp at inside
  | cons first rest ih =>
      by_cases here : s < first.length
      · exact ⟨0, first, rfl, Nat.zero_le _, by simpa using here⟩
      · rw [List.flatten_cons, List.length_append] at inside
        obtain ⟨r, field, look, low, high⟩ := ih (s := s - first.length) (by omega)
        refine ⟨r + 1, field, look, ?_, ?_⟩ <;>
          simp only [start, List.take_succ_cons, List.flatten_cons, List.length_append] at low high ⊢ <;>
          omega

/-- Fields that are numbered row by row. -/
theorem flatMap_range_mul (f : Nat → List α) (rows n : Nat) :
    (List.range (rows * n)).flatMap f =
      (List.range rows).flatMap fun k => (List.range n).flatMap fun i => f (k * n + i) := by
  induction rows with
  | zero => simp
  | succ rows ih =>
      rw [Nat.add_mul, Nat.one_mul, List.range_add, List.flatMap_append, ih, List.range_succ,
        List.flatMap_append, List.flatMap_singleton, List.flatMap_map]

/-- The entries of fields, each with the label of its field. -/
theorem zip_labels {β ι : Type} (f : ι → List α) (label : ι → β) (items : List ι) :
    (items.flatMap f).zip (items.flatMap fun r => List.replicate (f r).length (label r)) =
      items.flatMap fun r => (f r).map fun entry => (entry, label r) := by
  induction items with
  | nil => rfl
  | cons r items ih =>
      have first : (f r).zip (List.replicate (f r).length (label r)) =
          (f r).map fun entry => (entry, label r) := by
        apply List.ext_getElem
        · simp
        · intro index _ _
          simp
      rw [List.flatMap_cons, List.flatMap_cons, List.flatMap_cons, List.zip_append (by simp), first, ih]

/-- A loop over the indices of a list is one over its indexed elements. -/
theorem flatMap_zipIdx {β : Type} {items : List β} {byIndex : Nat → List α} {byEntry : β × Nat → List α}
    (same : ∀ i item, items[i]? = some item → byIndex i = byEntry (item, i)) :
    (List.range items.length).flatMap byIndex = items.zipIdx.flatMap byEntry := by
  induction items using List.reverseRecOn with
  | nil => rfl
  | append_singleton items item ih =>
      have last := same items.length item (by simp)
      rw [List.length_append, List.length_singleton, List.range_succ, List.flatMap_append,
        List.zipIdx_append, List.flatMap_append, ih]
      · simp [last]
      · intro i other look
        apply same i other
        rw [List.getElem?_append_left (List.getElem?_eq_some_iff.mp look).1, look]

/-- Numbered places of which the first ones share the indices below an end among them. -/
structure Tiling (place : Nat → Nat → Prop) (count stop : Nat) : Prop where
  below : ∀ r < count, ∀ s, place r s → s < stop
  every : ∀ s < stop, ∃ r < count, place r s
  single : ∀ r < count, ∀ q < count, ∀ s, place r s → place q s → r = q

/-- No fields tile nothing. -/
theorem Tiling.nothing (place : Nat → Nat → Prop) : Tiling place 0 0 := ⟨by simp, by simp, by simp⟩

/-- Fields with the same places tile the same. -/
theorem Tiling.congr {place place' : Nat → Nat → Prop} {count stop : Nat}
    (tiling : Tiling place count stop) (same : ∀ r < count, ∀ s, place' r s ↔ place r s) :
    Tiling place' count stop where
  below r inside s has := tiling.below r inside s ((same r inside s).mp has)
  every s inside := by
    obtain ⟨r, low, has⟩ := tiling.every s inside
    exact ⟨r, low, (same r low s).mpr has⟩
  single r insideR q insideQ s hasR hasQ :=
    tiling.single r insideR q insideQ s ((same r insideR s).mp hasR) ((same q insideQ s).mp hasQ)

/-- The next place that is not empty takes the next indices. -/
theorem Tiling.extend {place place' : Nat → Nat → Prop} {count r stop stop' : Nat}
    (tiling : Tiling place count stop) (later : count ≤ r) (grows : stop ≤ stop')
    (kept : ∀ q < count, ∀ s, place' q s ↔ place q s)
    (empty : ∀ q, count ≤ q → q < r → ∀ s, ¬ place' q s)
    (next : ∀ s, place' r s ↔ stop ≤ s ∧ s < stop') : Tiling place' (r + 1) stop' := by
  -- a place that has an index is an old one or the next one
  have cases_ {q s : Nat} (inside : q < r + 1) (has : place' q s) :
      q < count ∧ place q s ∨ q = r ∧ stop ≤ s ∧ s < stop' := by
    rcases Nat.lt_or_ge q count with old | new
    · exact .inl ⟨old, (kept q old s).mp has⟩
    · rcases Nat.lt_succ_iff_lt_or_eq.mp inside with between | rfl
      · exact absurd has (empty q new between s)
      · exact .inr ⟨rfl, (next s).mp has⟩
  constructor
  · intro q inside s has
    rcases cases_ inside has with ⟨old, was⟩ | ⟨-, -, high⟩
    · exact (tiling.below q old s was).trans_le grows
    · exact high
  · intro s inside
    rcases Nat.lt_or_ge s stop with old | new
    · obtain ⟨q, low, has⟩ := tiling.every s old
      exact ⟨q, by omega, (kept q low s).mpr has⟩
    · exact ⟨r, Nat.lt_succ_self r, (next s).mpr ⟨new, inside⟩⟩
  · intro q insideQ u insideU s hasQ hasU
    rcases cases_ insideQ hasQ with ⟨oldQ, wasQ⟩ | ⟨rfl, low, -⟩ <;>
      rcases cases_ insideU hasU with ⟨oldU, wasU⟩ | ⟨rfl, low', -⟩
    · exact tiling.single q oldQ u oldU s wasQ wasU
    · exact absurd (tiling.below q oldQ s wasQ) (Nat.not_lt.mpr low')
    · exact absurd (tiling.below u oldU s wasU) (Nat.not_lt.mpr low)
    · rfl

end CellBag.Layout
