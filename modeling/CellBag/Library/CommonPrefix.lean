import Mathlib.Data.List.Basic
import Mathlib.Order.MinMax
import Mathlib.Tactic.SplitIfs

/-!
The common prefixes of the suffixes of a text.
-/

namespace CommonPrefix

variable {α : Type} [DecidableEq α]

/-- The length of the longest common prefix. -/
def commonLength : List α → List α → Nat
  | x :: xs, y :: ys => if x = y then commonLength xs ys + 1 else 0
  | _, _ => 0

/-- The common length is the largest one at which both lists agree. -/
theorem le_commonLength_iff {len : Nat} {xs ys : List α} :
    len ≤ commonLength xs ys ↔
      len ≤ xs.length ∧ len ≤ ys.length ∧ xs.take len = ys.take len := by
  induction len generalizing xs ys with
  | zero => simp
  | succ len ih =>
      cases xs with
      | nil => simp [commonLength]
      | cons x xs =>
          cases ys with
          | nil => simp [commonLength]
          | cons y ys =>
              rw [commonLength]
              by_cases same : x = y
              · subst same
                simp [ih]
              · simp [same]

/-- It is at most the length of the second list. -/
theorem commonLength_le_right (xs ys : List α) : commonLength xs ys ≤ ys.length :=
  (le_commonLength_iff.mp (Nat.le_refl _)).2.1

/-- A map that keeps letters apart keeps the common length. -/
theorem commonLength_map {β : Type} [DecidableEq β] {f : α → β} (injective : Function.Injective f)
    (xs ys : List α) : commonLength (xs.map f) (ys.map f) = commonLength xs ys := by
  induction xs generalizing ys with
  | nil => rfl
  | cons x xs ih =>
      cases ys with
      | nil => rfl
      | cons y ys => simp only [List.map_cons, commonLength, injective.eq_iff, ih]

/-- A word starts a text exactly when it starts the text behind it as far as it is long. -/
theorem prefix_iff_le_commonLength {w ys : List α} (rest : List α) :
    w <+: ys ↔ w.length ≤ commonLength (w ++ rest) ys := by
  rw [le_commonLength_iff, List.take_left, List.prefix_iff_eq_take]
  constructor
  · intro start
    refine ⟨by simp, ?_, start⟩
    rw [start, List.length_take]
    exact Nat.min_le_right _ _
  · intro ⟨_, _, start⟩
    exact start

section Suffixes

variable {text : List α} {i len : Nat}

/-- A text agrees with its part from a place on as long as its letters repeat. -/
theorem le_commonLength_drop_iff (inside : i ≤ text.length) :
    len ≤ commonLength text (text.drop i) ↔
      i + len ≤ text.length ∧ ∀ d < len, text[d]? = text[i + d]? := by
  rw [le_commonLength_iff, List.length_drop]
  constructor
  · intro ⟨_, room, same⟩
    refine ⟨by omega, fun d before => ?_⟩
    have here := congrArg (·[d]?) same
    simpa [List.getElem?_take, before] using here
  · intro ⟨room, same⟩
    refine ⟨by omega, by omega, List.ext_getElem? fun d => ?_⟩
    rw [List.getElem?_take, List.getElem?_take]
    split_ifs with before
    · rw [same d before, List.getElem?_drop]
    · rfl

/-- A match goes on exactly when the next letters are equal. -/
theorem succ_le_commonLength_drop_iff (inside : i + len < text.length) :
    len + 1 ≤ commonLength text (text.drop i) ↔
      len ≤ commonLength text (text.drop i) ∧ text[len]? = text[i + len]? := by
  rw [le_commonLength_drop_iff (by omega), le_commonLength_drop_iff (by omega),
    Nat.forall_lt_succ_right]
  constructor
  · intro ⟨_, before, here⟩
    exact ⟨⟨by omega, before⟩, here⟩
  · intro ⟨⟨_, before⟩, here⟩
    exact ⟨inside, before, here⟩

/-- The agreement ends inside the text. -/
theorem add_commonLength_drop_le (inside : i ≤ text.length) :
    i + commonLength text (text.drop i) ≤ text.length := by
  have room := commonLength_le_right text (text.drop i)
  rw [List.length_drop] at room
  omega

/-- Inside a match that starts at `l`, a match can be copied from the start of the text as far as the
outer match goes. -/
theorem copy_le_commonLength {l r : Nat} (box : r - l ≤ commonLength text (text.drop l))
    (inText : l ≤ text.length) (behind : l ≤ i) (before : i < r) :
    min (r - i) (commonLength text (text.drop (i - l))) ≤ commonLength text (text.drop i) := by
  obtain ⟨room, outer⟩ := (le_commonLength_drop_iff inText).mp box
  obtain ⟨_, inner⟩ :=
    (le_commonLength_drop_iff (by omega)).mp (Nat.le_refl (commonLength text (text.drop (i - l))))
  refine (le_commonLength_drop_iff (by omega)).mpr ⟨by omega, fun d short => ?_⟩
  have moved := outer (i - l + d) (by omega)
  rw [show l + (i - l + d) = i + d by omega] at moved
  rw [inner d (by omega), moved]

/-- Cutting the text cuts the matches that reach over its new end. -/
theorem commonLength_take_drop {n : Nat} (inside : i ≤ n) (whole : n ≤ text.length) :
    commonLength (text.take n) ((text.take n).drop i) =
      min (commonLength text (text.drop i)) (n - i) := by
  refine eq_of_forall_le_iff fun len => ?_
  have room : (text.take n).length = n := by simp [whole]
  rw [le_min_iff, le_commonLength_drop_iff (by omega), le_commonLength_drop_iff (by omega), room]
  constructor
  · intro ⟨fits, same⟩
    refine ⟨⟨by omega, fun d before => ?_⟩, by omega⟩
    have here := same d before
    rwa [List.getElem?_take_of_lt (by omega), List.getElem?_take_of_lt (by omega)] at here
  · intro ⟨⟨_, same⟩, fits⟩
    refine ⟨by omega, fun d before => ?_⟩
    rw [List.getElem?_take_of_lt (by omega), List.getElem?_take_of_lt (by omega)]
    exact same d before

end Suffixes

/-- Among the positions before a bound, the last one with the longest common prefix with position `i`,
and the length of that prefix. -/
def longestBefore (text : List α) (i : Nat) : Nat → Nat × Nat
  | 0 => (0, 0)
  | bound + 1 =>
      let best := longestBefore text i bound
      let len := commonLength (text.drop bound) (text.drop i)
      if best.2 ≤ len then (bound, len) else best

variable {text : List α} {i bound : Nat}

variable (text i) in
/-- The longest agreement is at its place. -/
theorem longestBefore_at (positive : 0 < bound) : (longestBefore text i bound).1 < bound ∧
    commonLength (text.drop (longestBefore text i bound).1) (text.drop i) =
      (longestBefore text i bound).2 := by
  induction bound with
  | zero => omega
  | succ bound ih =>
      rw [longestBefore]
      split_ifs with longer
      · exact ⟨Nat.lt_succ_self _, rfl⟩
      · have before : 0 < bound := by
          rcases Nat.eq_zero_or_pos bound with rfl | before
          · exact absurd (Nat.zero_le _) longer
          · exact before
        exact ⟨Nat.lt_succ_of_lt (ih before).1, (ih before).2⟩

/-- A bound for all places bounds the longest agreement. -/
theorem longestBefore_le {len : Nat}
    (most : ∀ j < bound, commonLength (text.drop j) (text.drop i) ≤ len) :
    (longestBefore text i bound).2 ≤ len := by
  rcases Nat.eq_zero_or_pos bound with rfl | positive
  · exact Nat.zero_le _
  · obtain ⟨before, same⟩ := longestBefore_at text i positive
    rw [← same]
    exact most _ before

/-- A map that keeps letters apart keeps place and length. -/
theorem longestBefore_map {β : Type} [DecidableEq β] {f : α → β} (injective : Function.Injective f)
    (text : List α) (i bound : Nat) :
    longestBefore (text.map f) i bound = longestBefore text i bound := by
  induction bound with
  | zero => rfl
  | succ bound ih =>
      simp only [longestBefore, ih, ← List.map_drop, commonLength_map injective]

/-- The last of the longest common prefixes is unique. -/
theorem longestBefore_eq {s len : Nat} (before : s < bound)
    (here : commonLength (text.drop s) (text.drop i) = len)
    (most : ∀ j < bound, commonLength (text.drop j) (text.drop i) ≤ len)
    (latest : ∀ j, s < j → j < bound → commonLength (text.drop j) (text.drop i) < len) :
    longestBefore text i bound = (s, len) := by
  induction bound with
  | zero => omega
  | succ bound ih =>
      have below := longestBefore_le fun j inside => most j (Nat.lt_succ_of_lt inside)
      rw [longestBefore]
      rcases Nat.eq_or_lt_of_le (Nat.le_of_lt_succ before) with rfl | earlier
      · simp only [here, if_pos below]
      · have best := ih earlier (fun j inside => most j (Nat.lt_succ_of_lt inside))
          (fun j after inside => latest j after (Nat.lt_succ_of_lt inside))
        have shorter := latest bound earlier (Nat.lt_succ_self _)
        simp only [best]
        exact if_neg (Nat.not_le.mpr shorter)

end CommonPrefix
