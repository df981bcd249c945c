import Mathlib.Analysis.SpecialFunctions.Log.Base
import CellBag.Library.Kraft

/-!
The information of a sequence: no lengths with a Kraft sum of at most one spend fewer bits, and some
spend less than one bit more for each symbol.
-/

namespace CellBag.Entropy
open Kraft

section Information
variable {α : Type} {weight : α → Nat} {total : Nat} {symbols others : List α}

/-- The information of a sequence in bits, each symbol with the share of its weight in the total. -/
noncomputable def information (weight : α → Nat) (total : Nat) (symbols : List α) : ℝ :=
  (symbols.map fun s => Real.logb 2 (total / weight s)).sum

@[simp] theorem information_nil : information weight total [] = 0 := rfl

@[simp] theorem information_cons (s : α) : information weight total (s :: symbols) =
    Real.logb 2 (total / weight s) + information weight total symbols := rfl

/-- The information is the logarithm of the inverse shares. -/
theorem information_eq_logb (positive : ∀ s ∈ symbols, 0 < weight s) (whole : 0 < total) :
    information weight total symbols =
      Real.logb 2 ((total : ℝ) ^ symbols.length / (symbols.map weight).prod) := by
  induction symbols with
  | nil => simp
  | cons s symbols ih =>
      have later : ∀ t ∈ symbols, 0 < weight t := fun t member => positive t (by simp [member])
      have first := positive s (by simp)
      have others : 0 < (symbols.map weight).prod := by
        refine List.prod_pos fun w member => ?_
        obtain ⟨t, inSymbols, rfl⟩ := List.mem_map.mp member
        exact later t inSymbols
      have split : ((total : ℝ) ^ (s :: symbols).length / ((s :: symbols).map weight).prod) =
          total / weight s * (total ^ symbols.length / (symbols.map weight).prod) := by
        rw [List.map_cons, List.prod_cons, List.length_cons]
        push_cast
        field_simp
        ring
      rw [split, Real.logb_mul (by positivity) (by positivity), ← ih later, information_cons]

end Information

section Bounds
variable {α : Type} [DecidableEq α] {symbols support : List α} {length : α → Nat}

/-- The information of a sequence with the shares that its own symbols have in it. -/
noncomputable def ownInformation (symbols : List α) : ℝ :=
  information symbols.count symbols.length symbols

/-- The symbols that occur are in the support. -/
theorem toFinset_subset (inside : ∀ s ∈ symbols, s ∈ support) :
    symbols.toFinset ⊆ support.toFinset := by
  intro s member
  exact List.mem_toFinset.mpr (inside s (List.mem_toFinset.mp member))

/-- The counts of a sequence weight its symbols. -/
theorem sum_count_mul (distinct : support.Nodup) (inside : ∀ s ∈ symbols, s ∈ support) :
    (support.map fun s => symbols.count s * length s).sum = (symbols.map length).sum := by
  rw [← List.sum_toFinset _ distinct, Finset.sum_list_map_count]
  symm
  apply Finset.sum_subset (toFinset_subset inside)
  intro s _ absent
  rw [List.count_eq_zero_of_not_mem (mt List.mem_toFinset.mpr absent), zero_smul]

/-- The Kraft sum over the reals. -/
theorem cast_kraft (lengths : List Nat) :
    ((kraft lengths : ℚ) : ℝ) = (lengths.map fun length => (1 / 2 : ℝ) ^ length).sum := by
  induction lengths with
  | nil => simp
  | cons length lengths ih =>
      rw [kraft_cons, List.map_cons, List.sum_cons, ← ih]
      push_cast
      rfl

/-- The tangent of the logarithm at one. -/
theorem logb_le_sub_one {x : ℝ} (positive : 0 < x) : Real.logb 2 x ≤ (x - 1) / Real.log 2 := by
  have base : 0 < Real.log 2 := Real.log_pos (by norm_num)
  rw [Real.logb]
  exact div_le_div_of_nonneg_right (Real.log_le_sub_one_of_pos positive) base.le

/-- A symbol with the share `p` of a sequence falls short of its information by a part that the
Kraft sum pays for. -/
theorem logb_sub_le {n c length : Nat} (some_ : 0 < n) (occurs : 0 < c) :
    Real.logb 2 (n / c) - length ≤ (n * (1 / 2 : ℝ) ^ length / c - 1) / Real.log 2 := by
  have ratio : Real.logb 2 (n * (1 / 2 : ℝ) ^ length / c) = Real.logb 2 (n / c) - length := by
    have split : n * (1 / 2 : ℝ) ^ length / c = n / c / 2 ^ length := by
      rw [one_div, inv_pow]
      field_simp
    rw [split, Real.logb_div (by positivity) (by positivity), Real.logb_pow,
      Real.logb_self_eq_one (by norm_num), mul_one]
  rw [← ratio]
  exact logb_le_sub_one (by positivity)

/-- The symbols of a sequence have a part of the Kraft sum. -/
theorem sum_half_pow_le_one (distinct : support.Nodup) (inside : ∀ s ∈ symbols, s ∈ support)
    (fits : kraft (support.map length) ≤ 1) :
    ∑ s ∈ symbols.toFinset, (1 / 2 : ℝ) ^ length s ≤ 1 := by
  calc ∑ s ∈ symbols.toFinset, (1 / 2 : ℝ) ^ length s
      ≤ ∑ s ∈ support.toFinset, (1 / 2 : ℝ) ^ length s :=
        Finset.sum_le_sum_of_subset_of_nonneg (toFinset_subset inside) fun s _ _ => by positivity
    _ = ((kraft (support.map length) : ℚ) : ℝ) := by
        rw [List.sum_toFinset _ distinct, cast_kraft, List.map_map]
        rfl
    _ ≤ 1 := by exact_mod_cast fits

/-- What lengths save on the information, summed over the symbols. -/
theorem ownInformation_sub_eq (symbols : List α) (length : α → Nat) :
    ownInformation symbols - ((symbols.map length).sum : Nat) =
      ∑ s ∈ symbols.toFinset, (symbols.count s : ℝ) *
        (Real.logb 2 (symbols.length / symbols.count s) - length s) := by
  rw [ownInformation, information, Finset.sum_list_map_count, Finset.sum_list_map_count]
  push_cast
  rw [← Finset.sum_sub_distrib]
  apply Finset.sum_congr rfl
  intro s _
  rw [nsmul_eq_mul, nsmul_eq_mul]
  push_cast
  ring

/-- No code with distinct symbols spends fewer bits on a sequence than its information. -/
theorem ownInformation_le (distinct : support.Nodup) (inside : ∀ s ∈ symbols, s ∈ support)
    (fits : kraft (support.map length) ≤ 1) :
    ownInformation symbols ≤ ((symbols.map length).sum : Nat) := by
  by_cases empty : symbols = []
  · simp [empty, ownInformation]
  have some_ : 0 < symbols.length := List.length_pos_iff.mpr empty
  have base : 0 < Real.log 2 := Real.log_pos (by norm_num)
  have unit := sum_half_pow_le_one distinct inside fits
  have total : ∑ s ∈ symbols.toFinset, (symbols.count s : ℝ) = symbols.length := by
    exact_mod_cast List.sum_toFinset_count_eq_length symbols
  have each : ∀ s ∈ symbols.toFinset,
      (symbols.count s : ℝ) * (Real.logb 2 (symbols.length / symbols.count s) - length s) ≤
        (symbols.length * (1 / 2 : ℝ) ^ length s - symbols.count s) / Real.log 2 := by
    intro s member
    have occurs : 0 < symbols.count s := List.count_pos_iff.mpr (List.mem_toFinset.mp member)
    calc (symbols.count s : ℝ) * (Real.logb 2 (symbols.length / symbols.count s) - length s)
        ≤ symbols.count s *
            ((symbols.length * (1 / 2 : ℝ) ^ length s / symbols.count s - 1) / Real.log 2) := by
          gcongr
          exact logb_sub_le some_ occurs
      _ = (symbols.length * (1 / 2 : ℝ) ^ length s - symbols.count s) / Real.log 2 := by
          field_simp
  have saved : ownInformation symbols - ((symbols.map length).sum : Nat) ≤ 0 := by
    calc ownInformation symbols - ((symbols.map length).sum : Nat)
        ≤ ∑ s ∈ symbols.toFinset,
            (symbols.length * (1 / 2 : ℝ) ^ length s - symbols.count s) / Real.log 2 := by
          rw [ownInformation_sub_eq]
          exact Finset.sum_le_sum each
      _ = symbols.length * (∑ s ∈ symbols.toFinset, (1 / 2 : ℝ) ^ length s - 1) / Real.log 2 := by
          rw [← Finset.sum_div, Finset.sum_sub_distrib, ← Finset.mul_sum, total]
          ring
      _ ≤ 0 := by
          apply div_nonpos_of_nonpos_of_nonneg _ base.le
          exact mul_nonpos_of_nonneg_of_nonpos (by positivity) (by linarith)
  linarith

end Bounds

section Shannon
variable {α : Type} {support symbols : List α} {weight : α → Nat} {total : Nat}

/-- The information of a symbol, rounded up. -/
noncomputable def shannonLength (weight : α → Nat) (total : Nat) (s : α) : Nat :=
  ⌈Real.logb 2 (total / weight s)⌉₊

/-- Rounding up costs less than a bit. -/
theorem shannonLength_lt {s : α} (positive : 0 < weight s) (part : weight s ≤ total) :
    (shannonLength weight total s : ℝ) < Real.logb 2 (total / weight s) + 1 := by
  have cast : (weight s : ℝ) ≤ total := by exact_mod_cast part
  have heavy : (0 : ℝ) < weight s := by exact_mod_cast positive
  exact Nat.ceil_lt_add_one (Real.logb_nonneg (by norm_num) ((one_le_div heavy).mpr cast))

/-- The Kraft weight of a symbol is at most its share. -/
theorem half_pow_shannonLength_le {s : α} (positive : 0 < weight s) (whole : 0 < total) :
    (1 / 2 : ℝ) ^ shannonLength weight total s ≤ weight s / total := by
  have heavy : (0 : ℝ) < weight s := by exact_mod_cast positive
  have wholeReal : (0 : ℝ) < total := by exact_mod_cast whole
  have above : (total : ℝ) / weight s ≤ 2 ^ shannonLength weight total s := by
    calc (total : ℝ) / weight s = 2 ^ Real.logb 2 (total / weight s) :=
          (Real.rpow_logb (by norm_num) (by norm_num) (by positivity)).symm
      _ ≤ 2 ^ (shannonLength weight total s : ℝ) :=
          Real.rpow_le_rpow_of_exponent_le (by norm_num) (Nat.le_ceil _)
      _ = 2 ^ shannonLength weight total s := Real.rpow_natCast 2 _
  rw [one_div, inv_pow, inv_le_comm₀ (by positivity) (by positivity), inv_div]
  exact above

/-- The Kraft weights of the support are at most its share. -/
theorem kraft_shannonLength_le_share (positive : ∀ s ∈ support, 0 < weight s) (whole : 0 < total) :
    ((kraft (support.map (shannonLength weight total)) : ℚ) : ℝ) ≤
      ((support.map weight).sum : Nat) / total := by
  induction support with
  | nil => simp
  | cons s support ih =>
      have rest := ih fun t member => positive t (by simp [member])
      have first := half_pow_shannonLength_le (positive s (by simp)) whole
      rw [List.map_cons, kraft_cons, List.map_cons, List.sum_cons]
      push_cast at first rest ⊢
      rw [add_div]
      exact add_le_add first rest

/-- The rounded lengths have a Kraft sum of at most one. -/
theorem kraft_shannonLength_le (positive : ∀ s ∈ support, 0 < weight s) (whole : 0 < total)
    (sum : (support.map weight).sum = total) :
    kraft (support.map (shannonLength weight total)) ≤ 1 := by
  have share := kraft_shannonLength_le_share positive whole
  rw [sum, div_self (by exact_mod_cast whole.ne')] at share
  exact_mod_cast share

/-- The rounded lengths spend less than one bit more than the information for each symbol. -/
theorem sum_shannonLength_lt (positive : ∀ s ∈ symbols, 0 < weight s)
    (part : ∀ s ∈ symbols, weight s ≤ total) (nonempty : symbols ≠ []) :
    (((symbols.map (shannonLength weight total)).sum : Nat) : ℝ) <
      information weight total symbols + symbols.length := by
  induction symbols with
  | nil => contradiction
  | cons s symbols ih =>
      have first := shannonLength_lt (positive s (by simp)) (part s (by simp))
      rw [List.map_cons, List.sum_cons, List.length_cons, information_cons, Nat.cast_add, Nat.cast_succ]
      by_cases last : symbols = []
      · subst last
        simpa using first
      · have rest := ih (fun t member => positive t (by simp [member]))
          (fun t member => part t (by simp [member])) last
        linarith

end Shannon

end CellBag.Entropy
