import CellBag.Model.UtilsLocal
import CellBag.Library.CommonPrefix
import CellBag.Library.Occurrences

/-!
The count of the occurrences of a sample is right as long as the 32-bit length of the sample and the text
cuts nothing off that counts.
-/

namespace CellBag
open CommonPrefix Factors

/-- The length of the common prefix of the first `n` bytes and their suffix from `i` on. -/
def zValue (s : List UInt8) (n i : Nat) : Nat := commonLength (s.take n) ((s.take n).drop i)

/-- The loop counts a place behind the sample at which the sample matches. -/
def zCounts (sample s : List UInt8) (n i : Nat) : Bool :=
  sample.length ≤ i ∧ sample.length ≤ zValue s n i

/-- What holds before the turn for index `i`: the earlier entries are right, and `[l, r)` matches a
prefix at an earlier place. -/
structure Scanned (sample s : List UInt8) (n i : Nat) (state : ZState) : Prop where
  size : state.z.length = n
  entries : ∀ j, 0 < j → j < i → state.z[j]? = some (zValue s n j)
  fresh : ∀ j, i ≤ j → j < n → state.z[j]? = some 0
  box : state.r - state.l ≤ zValue s n state.l
  behind : state.l < i
  started : state.r = 0 ∨ 0 < state.l
  count : state.cnt = (List.range i).countP (zCounts sample s n)

section Loop

variable {sample s : List UInt8} {n : Nat} (whole : n ≤ s.length)
include whole

theorem zValue_eq {i : Nat} (inside : i ≤ n) :
    zValue s n i = min (commonLength s (s.drop i)) (n - i) := commonLength_take_drop inside whole

/-- From a match that is not too long, the loop finds the longest one. -/
theorem extendMatch_eq {i fuel len : Nat} (inside : i ≤ n) (reached : len ≤ zValue s n i)
    (enough : n - (i + len) < fuel) : extendMatch s n i fuel len = some (zValue s n i) := by
  have size : (s.take n).length = n := by simp [whole]
  induction fuel generalizing len with
  | zero => omega
  | succ fuel ih =>
      rw [extendMatch]
      split_ifs with more
      · have step : len + 1 ≤ zValue s n i ↔ len ≤ zValue s n i ∧ s[len]? = s[i + len]? := by
          have cut : len + 1 ≤ zValue s n i ↔
              len ≤ zValue s n i ∧ (s.take n)[len]? = (s.take n)[i + len]? :=
            succ_le_commonLength_drop_iff (by rwa [size])
          rwa [List.getElem?_take_of_lt (by omega), List.getElem?_take_of_lt more] at cut
        have first := List.getElem?_eq_getElem (show len < s.length by omega)
        have second := List.getElem?_eq_getElem (show i + len < s.length by omega)
        simp only [first, second, Option.bind_eq_bind, Option.bind_some]
        rw [first, second, Option.some.injEq] at step
        split_ifs with same
        · exact ih (step.mpr ⟨reached, same⟩) (by omega)
        · have short : ¬ len + 1 ≤ zValue s n i := fun longer => same (step.mp longer).2
          exact congrArg some (by omega)
      · have room := zValue_eq whole inside
        exact congrArg some (by omega)

/-- A turn starts from as much of an earlier match as the box allows. -/
theorem Scanned.startMatch_le {i : Nat} {state : ZState} (before : Scanned sample s n i state)
    (inside : i < n) : ∃ len ≤ zValue s n i, startMatch state i = some len := by
  have size : (s.take n).length = n := by simp [whole]
  have behind := before.behind
  rw [startMatch]
  split_ifs with inBox
  · have started := before.started.resolve_left (Nat.ne_of_gt (Nat.zero_lt_of_lt inBox))
    rw [before.entries (i - state.l) (by omega) (by omega)]
    exact ⟨_, copy_le_commonLength before.box (by omega) behind.le inBox, rfl⟩
  · exact ⟨0, Nat.zero_le _, before.fresh i (Nat.le_refl i) inside⟩

/-- A turn stores the right value; it moves the box only to one that ends later. -/
theorem zTurn_eq {i : Nat} {state : ZState} (inside : i < n) (before : Scanned sample s n i state) :
    zTurn sample s n state i = some
      ⟨state.z.set i (zValue s n i), if i + zValue s n i > state.r then i else state.l,
        if i + zValue s n i > state.r then i + zValue s n i else state.r,
        if zCounts sample s n i then state.cnt + 1 else state.cnt⟩ := by
  obtain ⟨len, reached, copied⟩ := before.startMatch_le whole inside
  have found : extendMatch s n i (n + 1) len = some (zValue s n i) :=
    extendMatch_eq whole inside.le reached (by omega)
  simp only [zTurn, copied, found, Option.bind_eq_bind, Option.bind_some, zCounts, decide_eq_true_eq,
    ge_iff_le]
  split_ifs <;> rfl

theorem zTurn_scanned {i : Nat} {state : ZState} (positive : 0 < i) (inside : i < n)
    (before : Scanned sample s n i state) :
    ∃ next, zTurn sample s n state i = some next ∧ Scanned sample s n (i + 1) next := by
  refine ⟨_, zTurn_eq whole inside before, ?_⟩
  have behind := before.behind
  constructor
  case size => rw [List.length_set, before.size]
  case entries =>
    intro j later earlier
    rcases Nat.eq_or_lt_of_le (Nat.le_of_lt_succ earlier) with rfl | done
    · exact List.getElem?_set_self (by rwa [before.size])
    · rw [List.getElem?_set_ne done.ne', before.entries j later done]
  case fresh =>
    intro j later unset
    rw [List.getElem?_set_ne (by omega), before.fresh j (by omega) unset]
  case box =>
    dsimp only
    split_ifs with further
    · rw [Nat.add_sub_cancel_left]
    · exact before.box
  case behind =>
    dsimp only
    split_ifs <;> omega
  case started =>
    dsimp only
    split_ifs with further
    · exact .inr positive
    · exact before.started
  case count =>
    rw [List.range_succ, List.countP_append, List.countP_singleton, ← before.count]
    dsimp only
    split_ifs <;> rfl

omit whole in
theorem scanned_start (nonempty : sample ≠ []) :
    Scanned sample s n 1 ⟨List.replicate n 0, 0, 0, 0⟩ := by
  constructor
  case size => exact List.length_replicate
  case entries =>
    intro j later earlier
    omega
  case fresh =>
    intro j _ unset
    exact List.getElem?_replicate_of_lt unset
  case box => exact Nat.zero_le _
  case behind => exact Nat.zero_lt_one
  case started => exact .inl rfl
  case count => simp [zCounts, nonempty]

/-- The loop reads only inside its vectors, and each turn leaves the right entry. -/
theorem zLoop_scanned (nonempty : sample ≠ []) {turns : Nat} (inside : turns < n) :
    ∃ state, zLoop sample s n turns = some state ∧ Scanned sample s n (turns + 1) state := by
  induction turns with
  | zero => exact ⟨_, rfl, scanned_start nonempty⟩
  | succ turns ih =>
      obtain ⟨state, earlier, scanned⟩ := ih (by omega)
      obtain ⟨next, turn, after⟩ := zTurn_scanned whole (Nat.succ_pos turns) inside scanned
      refine ⟨next, ?_, after⟩
      rw [zLoop] at earlier ⊢
      rw [List.range'_1_concat, List.foldlM_append, earlier, Nat.add_comm 1]
      simpa using turn

end Loop

/-- The sample occurs in the text where it matches behind itself. -/
theorem occurrences_eq_countP (sample text : List UInt8) :
    occurrences text sample = (List.range (sample ++ text).length).countP fun i =>
      sample.length ≤ i ∧ sample.length ≤ commonLength (sample ++ text) ((sample ++ text).drop i) := by
  have none : (List.range sample.length).countP (fun i => decide (sample.length ≤ i ∧
      sample.length ≤ commonLength (sample ++ text) ((sample ++ text).drop i))) = 0 := by
    rw [List.countP_eq_zero]
    intro i member
    have before := List.mem_range.mp member
    simp [Nat.not_le.mpr before]
  rw [List.length_append, List.range_add, List.countP_append, none, Nat.zero_add, List.countP_map,
    occurrences]
  refine List.countP_congr fun p _ => ?_
  simp [List.drop_length_add_append, prefix_iff_le_commonLength text]

section Cut

variable {sample text : List UInt8}

variable (text) in
/-- The count is over the places in front of the cut. -/
theorem cntOccurrences_eq_countP (nonempty : sample ≠ []) :
    cntOccurrences sample text = some ((List.range ((sample ++ text).length % 2 ^ 32)).countP
      (zCounts sample (sample ++ text) ((sample ++ text).length % 2 ^ 32))) := by
  set s := sample ++ text with joined
  set n := s.length % 2 ^ 32 with stored
  have whole : n ≤ s.length := Nat.mod_le _ _
  obtain ⟨state, looped, count⟩ : ∃ state, zLoop sample s n (n - 1) = some state ∧
      state.cnt = (List.range n).countP (zCounts sample s n) := by
    rcases Nat.eq_zero_or_pos n with none | positive
    · rw [none]
      exact ⟨_, rfl, rfl⟩
    · obtain ⟨state, looped, scanned⟩ :=
        zLoop_scanned whole nonempty (Nat.sub_lt positive Nat.zero_lt_one)
      rw [Nat.sub_add_cancel positive] at scanned
      exact ⟨state, looped, scanned.count⟩
  simp only [cntOccurrences, ← joined, ← stored, looped, Option.bind_eq_bind, Option.bind_some, count]

/-- The entries are right exactly when no match is cut. -/
theorem entries_iff {s : List UInt8} {n : Nat} (whole : n ≤ s.length) (nonempty : sample ≠ []) :
    (∀ turns < n, ∃ state, zLoop sample s n turns = some state ∧
      ∀ i, 0 < i → i ≤ turns → state.z[i]? = some (commonLength s (s.drop i))) ↔
    ∀ i, 0 < i → i < n → i + commonLength s (s.drop i) ≤ n := by
  constructor
  · intro right i positive inside
    obtain ⟨state, looped, entries⟩ := right i inside
    obtain ⟨same, looped', scanned⟩ := zLoop_scanned whole nonempty inside
    obtain rfl : state = same := Option.some.inj (looped.symm.trans looped')
    have entry := (entries i positive (Nat.le_refl i)).symm.trans
      (scanned.entries i positive (Nat.lt_succ_self i))
    rw [zValue_eq whole inside.le, Option.some.injEq] at entry
    omega
  · intro uncut turns inside
    obtain ⟨state, looped, scanned⟩ := zLoop_scanned whole nonempty inside
    refine ⟨state, looped, fun i positive done => ?_⟩
    have room := uncut i positive (by omega)
    rw [scanned.entries i positive (by omega), zValue_eq whole (by omega), Nat.min_eq_left (by omega)]

/-- When no match is cut, the count is right exactly when no occurrence lies behind the cut. -/
theorem count_iff {n : Nat} (whole : n ≤ (sample ++ text).length) (nonempty : sample ≠ [])
    (uncut : ∀ i, 0 < i → i < n →
      i + commonLength (sample ++ text) ((sample ++ text).drop i) ≤ n) :
    (List.range n).countP (zCounts sample (sample ++ text) n) = occurrences text sample ↔
      ∀ p < text.length, n ≤ sample.length + p → ¬ sample <+: text.drop p := by
  have front : (List.range n).countP (zCounts sample (sample ++ text) n) =
      (List.range n).countP fun i => sample.length ≤ i ∧
        sample.length ≤ commonLength (sample ++ text) ((sample ++ text).drop i) := by
    refine List.countP_congr fun i member => ?_
    have inside := List.mem_range.mp member
    simp only [zCounts, decide_eq_true_eq, and_congr_right_iff]
    intro behind
    have room := uncut i ((List.length_pos_of_ne_nil nonempty).trans_le behind) inside
    rw [zValue_eq whole inside.le, Nat.min_eq_left (by omega)]
  have split : (sample ++ text).length = n + ((sample ++ text).length - n) := by omega
  rw [front, occurrences_eq_countP, split, List.range_add, List.countP_append,
    eq_comm, Nat.add_eq_left, List.countP_eq_zero]
  rw [List.length_append] at whole ⊢
  constructor
  · intro none p inside after starts
    refine none (sample.length + p) ?_ ?_
    · exact List.mem_map.mpr ⟨sample.length + p - n, List.mem_range.mpr (by omega), by omega⟩
    · rw [List.drop_length_add_append, decide_eq_true_eq]
      exact ⟨Nat.le_add_right _ _, (prefix_iff_le_commonLength text).mp starts⟩
  · intro none i member counted
    obtain ⟨offset, inside, rfl⟩ := List.mem_map.mp member
    obtain ⟨after, long⟩ := of_decide_eq_true counted
    have inRange := List.mem_range.mp inside
    obtain ⟨p, place⟩ := Nat.exists_eq_add_of_le after
    rw [place, List.drop_length_add_append, ← prefix_iff_le_commonLength text] at long
    exact none p (by omega) (by omega) long

end Cut

/-- The length modulo `2 ^ 32` cuts no match that starts before it, and no occurrence of the sample
lies behind it. -/
def CutsNothing (sample text : List UInt8) : Prop :=
  let s := sample ++ text
  let n := s.length % 2 ^ 32
  (∀ i, 0 < i → i < n → i + commonLength s (s.drop i) ≤ n) ∧
    ∀ p < text.length, n ≤ sample.length + p → ¬ sample <+: text.drop p

/-- Below `2 ^ 32` bytes nothing is cut. -/
theorem cutsNothing_of_short {sample text : List UInt8} (short : (sample ++ text).length < 2 ^ 32) :
    CutsNothing sample text := by
  have whole : (sample ++ text).length % 2 ^ 32 = (sample ++ text).length := Nat.mod_eq_of_lt short
  simp only [CutsNothing, whole]
  constructor
  · intro i _ inside
    exact add_commonLength_drop_le inside.le
  · intro p inside after
    rw [List.length_append] at after
    omega

/-- The count never reads outside its strings. Its entries are the lengths of the common prefixes and
it is the number of occurrences exactly when the 32-bit length cuts nothing, as for all short strings. -/
theorem cntOccurrences_iff (sample text : List UInt8) (nonempty : sample ≠ []) :
    (cntOccurrences sample text).isSome ∧
      (((∀ turns < (sample ++ text).length % 2 ^ 32, ∃ state,
          zLoop sample (sample ++ text) ((sample ++ text).length % 2 ^ 32) turns = some state ∧
          ∀ i, 0 < i → i ≤ turns →
            state.z[i]? = some (commonLength (sample ++ text) ((sample ++ text).drop i))) ∧
        cntOccurrences sample text = some (occurrences text sample)) ↔ CutsNothing sample text) ∧
      ((sample ++ text).length < 2 ^ 32 → CutsNothing sample text) := by
  have whole : (sample ++ text).length % 2 ^ 32 ≤ (sample ++ text).length := Nat.mod_le _ _
  have counted := cntOccurrences_eq_countP text nonempty
  refine ⟨by rw [counted]; rfl, ?_, cutsNothing_of_short⟩
  rw [entries_iff whole nonempty, counted, Option.some.injEq]
  exact and_congr_right fun uncut => count_iff whole nonempty uncut

/-- A match may begin in the sample and go on in the text, and occurrences may overlap. -/
theorem cntOccurrences_overlapping :
    cntOccurrences [1, 1] [1, 1, 1, 2, 1, 1] = some (occurrences [1, 1, 1, 2, 1, 1] [1, 1]) :=
  ((cntOccurrences_iff [1, 1] [1, 1, 1, 2, 1, 1] (by decide)).2.1.mpr
    ((cntOccurrences_iff [1, 1] [1, 1, 1, 2, 1, 1] (by decide)).2.2 (by decide))).2

/-- A length that is stored as zero ends the loop before its first turn. -/
theorem cntOccurrences_of_dvd {sample text : List UInt8}
    (wraps : (sample ++ text).length % 2 ^ 32 = 0) : cntOccurrences sample text = some 0 := by
  simp only [cntOccurrences, wraps]
  rfl

theorem occurrences_pos {c : UInt8} {text : List UInt8} (starts : [c] <+: text) :
    0 < occurrences text [c] := by
  have nonempty : 0 < text.length := Nat.lt_of_lt_of_le Nat.zero_lt_one starts.length_le
  exact List.countP_pos_iff.mpr ⟨0, List.mem_range.mpr nonempty, decide_eq_true starts⟩

/-- With `2 ^ 32` bytes the length is stored as zero, and nothing is counted. -/
theorem cntOccurrences_stored_zero :
    cntOccurrences [0] (List.replicate (2 ^ 32 - 1) 0) = some 0 ∧
      0 < occurrences (List.replicate (2 ^ 32 - 1) 0) [(0 : UInt8)] := by
  constructor
  · apply cntOccurrences_of_dvd
    rw [List.length_append, List.length_replicate]
    rfl
  · apply occurrences_pos
    rw [show 2 ^ 32 - 1 = (2 ^ 32 - 2) + 1 by rfl, List.replicate_succ]
    exact ⟨_, rfl⟩

end CellBag
