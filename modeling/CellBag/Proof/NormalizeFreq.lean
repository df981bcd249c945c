import CellBag.Library.Apportionment
import CellBag.Proof.RANS

/-!
The frequencies of the arithmetic encoder are normalized to the right sum, but a rare symbol keeps a
frequency only where the missing units reach it.
-/

namespace CellBag.RANS
open Apportionment

/-- The frequencies with zeros counted as one. -/
def weights (freq : List Nat) : List Nat := freq.map fun f => if f = 0 then 1 else f

@[simp] theorem length_weights (freq : List Nat) : (weights freq).length = freq.length := by
  simp [weights]

/-- Every symbol whose share rounds down to zero stands in front of the place up to which the units
that rounding lost are handed out. -/
def RareInFront (freq : List Nat) : Prop :=
  ∀ s < freq.length, (weights freq).getD s 0 * totalFreq < (weights freq).sum →
    (s + 1) * (weights freq).sum ≤ (remainders totalFreq (weights freq)).sum

instance (freq : List Nat) : Decidable (RareInFront freq) :=
  inferInstanceAs (Decidable (∀ s < freq.length, _ → _))

/-- Each weight is at least one. -/
theorem length_le_sum_weights (freq : List Nat) : freq.length ≤ (weights freq).sum := by
  induction freq with
  | nil => simp
  | cons f freq ih =>
      simp only [weights, List.map_cons, List.sum_cons, List.length_cons] at ih ⊢
      split_ifs <;> omega

/-- One turn of the loop is enough to raise fewer entries than there are. -/
theorem addOnes_eq {freq : List Nat} {total : Nat} (below : total ≤ totalFreq)
    (room : totalFreq - total ≤ freq.length) :
    addOnes freq total = (raiseFirst (totalFreq - total) freq, totalFreq) := by
  induction freq generalizing total with
  | nil =>
      have full : total = totalFreq :=
        Nat.le_antisymm below (Nat.sub_eq_zero_iff_le.mp (Nat.le_zero.mp room))
      rw [addOnes, full]
      rfl
  | cons f freq ih =>
      rw [List.length_cons] at room
      rw [addOnes]
      split_ifs with missing
      · have count : totalFreq - total = totalFreq - (total + 1) + 1 := by omega
        rw [ih missing (by omega), count, raiseFirst_succ]
      · obtain rfl : total = totalFreq := by omega
        rw [ih (Nat.le_refl _) (by omega), Nat.sub_self]
        rfl

/-- The loop that fills up raises the first entries. -/
theorem fillUp_eq {freq : List Nat} {total : Nat} (below : total ≤ totalFreq)
    (room : totalFreq - total ≤ freq.length) :
    fillUp (totalFreq + 1) freq total = some (raiseFirst (totalFreq - total) freq) := by
  rcases Nat.eq_or_lt_of_le below with rfl | missing
  · rw [fillUp_full, Nat.sub_self]
    rfl
  · rw [fillUp, if_pos missing, addOnes_eq below room]
    exact fillUp_full (totalFreq - 1) _

section Normalize

variable {freq : List Nat} (nonempty : freq ≠ []) (fits : (weights freq).sum < 2 ^ 31)
include nonempty fits

/-- The frequencies are scaled with rounding down, and the first ones go up by one. -/
theorem normalizeFreq_eq_raiseFirst : normalizeFreq freq =
    some (raiseFirst (totalFreq - (shares totalFreq (weights freq)).sum)
      (shares totalFreq (weights freq))) := by
  have positive : 0 < (weights freq).sum :=
    (List.length_pos_of_ne_nil nonempty).trans_le (length_le_sum_weights freq)
  have whole : (weights freq).sum % 2 ^ 32 = (weights freq).sum := Nat.mod_eq_of_lt (by omega)
  have scaled : (weights freq).map (fun f =>
      f * totalFreq % 2 ^ 64 / (weights freq).sum % 2 ^ 32) = shares totalFreq (weights freq) := by
    refine List.map_congr_left fun f member => ?_
    have part : f ≤ (weights freq).sum := List.le_sum_of_mem member
    have share : f * totalFreq / (weights freq).sum ≤ totalFreq :=
      Nat.div_le_of_le_mul (Nat.mul_le_mul_right _ part)
    simp only [totalFreq] at share ⊢
    rw [Nat.mod_eq_of_lt (show f * 2 ^ 12 < 2 ^ 64 by omega), Nat.mod_eq_of_lt (by omega)]
  have below := sum_shares_le totalFreq positive
  have word : (shares totalFreq (weights freq)).sum % 2 ^ 32 = (shares totalFreq (weights freq)).sum :=
    Nat.mod_eq_of_lt (below.trans_lt (by decide))
  have room : totalFreq - (shares totalFreq (weights freq)).sum ≤
      (shares totalFreq (weights freq)).length :=
    (missing_lt totalFreq positive).le.trans_eq length_shares.symm
  have bumped : (freq.map fun f => if f = 0 then 1 else f) = weights freq := rfl
  simp only [normalizeFreq, bumped, whole, scaled, word]
  rw [check_of (.inr positive.ne'), check_of below]
  exact fillUp_eq below room

end Normalize

/-- A call of the encoder goes through exactly when its symbol has a frequency. -/
theorem encodeSymbol_isSome_iff {freq : List Nat} (total : freq.sum = totalFreq) {s : Nat}
    (inRange : s < freq.length) {seqLen added x : Nat} (open_ : added < seqLen) (start : 1 ≤ x)
    (ptr : BitPtr) :
    (ArithEncoder.encodeSymbol ⟨freq, getCumFreq freq 0, seqLen, added, x⟩ ptr s).isSome ↔
      1 ≤ freq[s] := by
  have cum := getCumFreq_eq_below total inRange.le
  have word := ArithEncoder.shiftWhile_eq (Nat.mod_lt
    ((x - 1) / freq[s] * totalFreq + below freq s + (x - 1) % freq[s] + 1)
    (Nat.two_pow_pos 64)) ptr
  simp only [ArithEncoder.encodeSymbol, check_of inRange, check_of open_, check_of start,
    List.getElem?_eq_getElem inRange, cum, Option.bind_eq_bind, Option.bind_some, word]
  by_cases zero : freq[s] = 0
  · simp [check, zero]
  · rw [check_of zero]
    simp [Nat.one_le_iff_ne_zero, zero]

/-- The normalized frequencies add up to `TOTAL_FREQ`, but every symbol can be encoded only where the
rare ones stand in front. -/
theorem normalizeFreq_positive_iff (freq : List Nat) (nonempty : freq ≠ [])
    (fits : (weights freq).sum < 2 ^ 31) :
    ∃ normalized, normalizeFreq freq = some normalized ∧ normalized.length = freq.length ∧
      normalized.sum = totalFreq ∧
      ((∀ f ∈ normalized, 1 ≤ f) ↔ RareInFront freq) ∧
      ((∀ s < freq.length, ∀ seqLen added x ptr, added < seqLen → 1 ≤ x →
          (ArithEncoder.encodeSymbol ⟨normalized, getCumFreq normalized 0, seqLen, added, x⟩
            ptr s).isSome) ↔ RareInFront freq) := by
  have positive : 0 < (weights freq).sum :=
    (List.length_pos_of_ne_nil nonempty).trans_le (length_le_sum_weights freq)
  let normalized := raiseFirst (totalFreq - (shares totalFreq (weights freq)).sum)
    (shares totalFreq (weights freq))
  have sameLength : normalized.length = freq.length := by simp [normalized]
  have total : normalized.sum = totalFreq := sum_raised totalFreq positive
  have rare : (∀ f ∈ normalized, 1 ≤ f) ↔ RareInFront freq := by
    rw [RareInFront, ← length_weights freq]
    exact raised_positive_iff totalFreq positive
  refine ⟨normalized, normalizeFreq_eq_raiseFirst nonempty fits, sameLength, total, rare, ?_⟩
  rw [← rare]
  constructor
  · intro encoded f member
    obtain ⟨s, inRange, rfl⟩ := List.getElem_of_mem member
    exact (encodeSymbol_isSome_iff total inRange (Nat.zero_lt_one) (Nat.le_refl 1)
      (BitPtr.start 0)).mp (encoded s (sameLength ▸ inRange) 1 0 1 _ Nat.zero_lt_one (Nat.le_refl 1))
  · intro all s inRange seqLen added x ptr open_ start
    rw [← sameLength] at inRange
    exact (encodeSymbol_isSome_iff total inRange open_ start ptr).mpr
      (all _ (List.getElem_mem inRange))

/-- A rare symbol in front gets the unit that is missing. -/
theorem normalizeFreq_rare_front :
    ∃ normalized, normalizeFreq [1, 10000] = some normalized ∧ normalized.length = 2 ∧
      normalized.sum = totalFreq ∧ (∀ f ∈ normalized, 1 ≤ f) :=
  have ⟨normalized, result, sameLength, total, positive, _⟩ :=
    normalizeFreq_positive_iff [1, 10000] (by decide) (by decide)
  ⟨normalized, result, sameLength, total, positive.mpr (by decide)⟩

/-- Behind a frequent symbol a rare one is left without a frequency, and encoding it would divide by
zero. -/
theorem normalizeFreq_rare_behind :
    normalizeFreq [10000, 1] = some [4096, 0] ∧
      ArithEncoder.encodeSymbol ⟨[4096, 0], getCumFreq [4096, 0] 0, 1, 0, 1⟩ (BitPtr.start 64) 1 =
        none := by
  decide +kernel

end CellBag.RANS
