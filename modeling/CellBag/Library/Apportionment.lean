import Mathlib.Algebra.BigOperators.Ring.List
import Mathlib.Algebra.Order.BigOperators.Group.List
import Mathlib.Algebra.Order.Ring.Nat

/-!
Shares of a pool in proportion to weights, rounded down, with the rest handed out from the front.
-/

namespace Apportionment

/-- The shares of a pool, rounded down. -/
def shares (pool : Nat) (weights : List Nat) : List Nat :=
  weights.map fun weight => weight * pool / weights.sum

/-- What rounding down leaves of each share, in parts of the total weight. -/
def remainders (pool : Nat) (weights : List Nat) : List Nat :=
  weights.map fun weight => weight * pool % weights.sum

/-- The first entries go up by one. -/
def raiseFirst (count : Nat) (entries : List Nat) : List Nat :=
  (entries.take count).map (· + 1) ++ entries.drop count

variable {pool count : Nat} {weights entries : List Nat}

@[simp] theorem length_shares : (shares pool weights).length = weights.length := by simp [shares]

@[simp] theorem length_raiseFirst : (raiseFirst count entries).length = entries.length := by
  simp [raiseFirst]
  omega

theorem raiseFirst_succ (entry : Nat) :
    raiseFirst (count + 1) (entry :: entries) = (entry + 1) :: raiseFirst count entries := rfl

/-- Each raised entry adds one. -/
theorem sum_raiseFirst (inside : count ≤ entries.length) :
    (raiseFirst count entries).sum = entries.sum + count := by
  induction entries generalizing count with
  | nil =>
      obtain rfl : count = 0 := by simpa using inside
      rfl
  | cons entry entries ih =>
      cases count with
      | zero => simp [raiseFirst]
      | succ count =>
          rw [raiseFirst_succ, List.sum_cons, ih (by simpa using inside), List.sum_cons]
          omega

/-- Raising the first entries leaves no zero exactly when every zero is among them. -/
theorem raiseFirst_positive_iff : (∀ entry ∈ raiseFirst count entries, 1 ≤ entry) ↔
    ∀ place < entries.length, entries.getD place 0 = 0 → place < count := by
  induction entries generalizing count with
  | nil => simp [raiseFirst]
  | cons entry entries ih =>
      rw [List.length_cons, Nat.forall_lt_succ_left']
      cases count with
      | zero =>
          have rest := @ih 0
          simp only [raiseFirst, List.take_zero, List.map_nil, List.nil_append, List.drop_zero] at rest
          simp only [raiseFirst, List.take_zero, List.map_nil, List.nil_append, List.drop_zero,
            List.forall_mem_cons, rest, List.getD_cons_zero, List.getD_cons_succ]
          constructor
          · intro ⟨here, later⟩
            exact ⟨by omega, fun place inside zero => absurd (later place inside zero) (by omega)⟩
          · intro ⟨here, later⟩
            exact ⟨by omega, fun place inside zero => absurd (later place inside zero) (by omega)⟩
      | succ count =>
          rw [raiseFirst_succ, List.forall_mem_cons, ih]
          simp only [List.getD_cons_zero, List.getD_cons_succ, Nat.zero_lt_succ, implies_true,
            Nat.succ_le_succ_iff, Nat.zero_le, true_and, Nat.add_lt_add_iff_right]

/-- Division with remainder, summed over the weights. -/
theorem sum_div_add_sum_mod (pool whole : Nat) (weights : List Nat) :
    whole * (weights.map fun weight => weight * pool / whole).sum +
      (weights.map fun weight => weight * pool % whole).sum = weights.sum * pool := by
  rw [← List.sum_map_mul_left, ← List.sum_map_add]
  simp only [Nat.div_add_mod]
  rw [List.sum_map_mul_right, List.map_id']

/-- The remainders make up the missing part of the pool. -/
theorem mul_missing (pool : Nat) (weights : List Nat) :
    weights.sum * (pool - (shares pool weights).sum) = (remainders pool weights).sum := by
  have parts := sum_div_add_sum_mod pool weights.sum weights
  rw [Nat.mul_sub, shares, remainders]
  omega

section Positive

variable (pool) (positive : 0 < weights.sum)
include positive

/-- The shares do not use more than the pool. -/
theorem sum_shares_le : (shares pool weights).sum ≤ pool := by
  have parts := sum_div_add_sum_mod pool weights.sum weights
  exact Nat.le_of_mul_le_mul_left (by rw [shares]; omega) positive

/-- Fewer units are missing than there are weights. -/
theorem missing_lt : pool - (shares pool weights).sum < weights.length := by
  have nonempty : weights ≠ [] := by
    intro empty
    rw [empty] at positive
    exact Nat.lt_irrefl 0 positive
  have less : (remainders pool weights).sum < (weights.map fun _ => weights.sum).sum :=
    List.sum_lt_sum_of_ne_nil nonempty _ _ fun weight _ => Nat.mod_lt _ positive
  rw [← mul_missing, List.map_const', List.sum_replicate, nsmul_eq_mul, Nat.cast_id,
    Nat.mul_comm] at less
  exact Nat.lt_of_mul_lt_mul_right less

/-- Handing out the missing units spends the whole pool. -/
theorem sum_raised :
    (raiseFirst (pool - (shares pool weights).sum) (shares pool weights)).sum = pool := by
  rw [sum_raiseFirst ((missing_lt pool positive).le.trans_eq length_shares.symm)]
  exact Nat.add_sub_cancel' (sum_shares_le pool positive)

/-- With the missing units handed out from the front, no share is zero exactly when every share that
rounds down to zero stands in front. -/
theorem raised_positive_iff :
    (∀ share ∈ raiseFirst (pool - (shares pool weights).sum) (shares pool weights), 1 ≤ share) ↔
      ∀ place < weights.length, weights.getD place 0 * pool < weights.sum →
        (place + 1) * weights.sum ≤ (remainders pool weights).sum := by
  rw [raiseFirst_positive_iff, length_shares]
  refine forall₂_congr fun place inside => ?_
  have share : (shares pool weights).getD place 0 = weights.getD place 0 * pool / weights.sum := by
    rw [shares, List.getD_eq_getElem?_getD, List.getElem?_map, List.getD_eq_getElem?_getD,
      List.getElem?_eq_getElem inside]
    rfl
  rw [share, Nat.div_eq_zero_iff, ← mul_missing, Nat.mul_comm weights.sum,
    Nat.mul_le_mul_right_iff positive]
  omega

end Positive

end Apportionment
