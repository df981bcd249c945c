import Mathlib.Tactic

/-!
Windows of a word that also occur at an earlier place, and the letters that they cover.
-/

namespace Recurrence

variable {α : Type}

/-- The window of `m` letters at a place occurs at an earlier place too. -/
def Recurs (m : Nat) (word : List α) (a : Nat) : Prop :=
  a + m ≤ word.length ∧ ∃ s < a, (word.drop s).take m = (word.drop a).take m

instance [DecidableEq α] (m : Nat) (word : List α) (a : Nat) : Decidable (Recurs m word a) :=
  inferInstanceAs (Decidable (_ ∧ _))

/-- The letter at a place lies in a window that recurs. -/
def Covered (m : Nat) (word : List α) (j : Nat) : Prop := ∃ a ≤ j, j < a + m ∧ Recurs m word a

instance [DecidableEq α] (m : Nat) (word : List α) (j : Nat) : Decidable (Covered m word j) :=
  decidable_of_iff (∃ a < j + 1, j < a + m ∧ Recurs m word a)
    (exists_congr fun _ => and_congr_left' Nat.lt_succ_iff)

variable [DecidableEq α]

/-- The number of the letters from a place on that lie in windows that recur. -/
def coveredFrom (m : Nat) (word : List α) (i : Nat) : Nat :=
  (List.range' i (word.length - i)).countP fun j => decide (Covered m word j)

/-- The number of letters that lie in windows that recur. -/
def covered (m : Nat) (word : List α) : Nat := coveredFrom m word 0

section Covered
variable {m : Nat} {word : List α}

omit [DecidableEq α] in
/-- Each letter of a long repetition lies in a window that recurs. -/
theorem covered_of_repetition {s i len j : Nat} (earlier : s < i) (inside : i + len ≤ word.length)
    (same : (word.drop s).take len = (word.drop i).take len) (long : m ≤ len) (from_ : i ≤ j)
    (before : j < i + len) (positive : 0 < m) : Covered m word j := by
  -- the last window of the repetition that starts at `j` or before it
  let d := min (j - i) (len - m)
  have room : d + m ≤ len := by omega
  refine ⟨i + d, by omega, by omega, by omega, s + d, by omega, ?_⟩
  have part := congrArg (fun piece => (piece.drop d).take m) same
  simpa only [List.drop_take, List.take_take, Nat.min_eq_left (show m ≤ len - d by omega),
    List.drop_drop] using part

/-- A stretch of covered letters adds its length. -/
theorem add_coveredFrom_le {i len : Nat} (inside : i + len ≤ word.length)
    (all : ∀ j, i ≤ j → j < i + len → Covered m word j) :
    len + coveredFrom m word (i + len) ≤ coveredFrom m word i := by
  have split : word.length - i = len + (word.length - (i + len)) := by omega
  have stretch : (List.range' i len).countP (fun j => decide (Covered m word j)) = len := by
    refine (List.countP_eq_length.mpr fun j member => ?_).trans List.length_range'
    obtain ⟨k, small, rfl⟩ := List.mem_range'.mp member
    exact decide_eq_true (all _ (by omega) (by omega))
  rw [coveredFrom, coveredFrom, split, ← List.range'_append, List.countP_append, stretch, Nat.one_mul]

/-- Fewer letters from a later place on are covered. -/
theorem coveredFrom_le {i j : Nat} (later : i ≤ j) : coveredFrom m word j ≤ coveredFrom m word i := by
  by_cases inside : j ≤ word.length
  · have split : word.length - i = (j - i) + (word.length - j) := by omega
    have place : i + 1 * (j - i) = j := by omega
    rw [coveredFrom, coveredFrom, split, ← List.range'_append, List.countP_append, place]
    exact Nat.le_add_left _ _
  · rw [coveredFrom, Nat.sub_eq_zero_of_le (Nat.le_of_not_le inside)]
    exact Nat.zero_le _

/-- Without a window that recurs no letter is covered. -/
theorem covered_eq_zero (none : ∀ a, ¬ Recurs m word a) : covered m word = 0 :=
  List.countP_eq_zero.mpr fun _ _ marked =>
    let ⟨a, _, _, recurs⟩ := of_decide_eq_true marked
    none a recurs

omit [DecidableEq α] in
/-- No window recurs if none does behind a short start, and the first letters behind it occur once. -/
theorem not_recurs_append {before after : List α} {k : Nat} (short : before.length + k ≤ m)
    (once : ∀ a, 0 < a → a + k ≤ after.length → (after.drop a).take k ≠ after.take k)
    (fresh : ∀ a, ¬ Recurs m after a) (a : Nat) : ¬ Recurs m (before ++ after) a := by
  rintro ⟨inside, s, earlier, same⟩
  rw [List.length_append] at inside
  by_cases behind : before.length ≤ s
  · have place {i : Nat} (later : before.length ≤ i) :
        (before ++ after).drop i = after.drop (i - before.length) := by
      rw [List.drop_append, List.drop_of_length_le later, List.nil_append]
    rw [place behind, place (behind.trans earlier.le)] at same
    exact fresh (a - before.length) ⟨by omega, s - before.length, by omega, same⟩
  · -- both windows show the first letters behind the start, at the same place
    have part := congrArg (fun piece => (piece.drop (before.length - s)).take k) same
    simp only [List.drop_take, List.take_take, List.drop_drop,
      Nat.min_eq_left (show k ≤ m - (before.length - s) by omega)] at part
    rw [show s + (before.length - s) = before.length by omega, List.drop_left, List.drop_append,
      List.drop_of_length_le (by omega), List.nil_append] at part
    exact once (a + (before.length - s) - before.length) (by omega) (by omega) part.symm

end Covered

end Recurrence
