import CellBag.Library.Entropy
import CellBag.Proof.RANS

/-!
The arithmetic encoder spends little more than the information of its sequence.
-/

namespace CellBag.RANS
open BitString Entropy

/-- The product of the frequencies of a sequence. -/
def weight (freq symbols : List Nat) : Nat := (symbols.map fun s => freq.getD s 0).prod

section Potential
variable {freq : List Nat}

theorem potential_le {x c f m : Nat} (start : 1 ≤ x) (room : c + f ≤ m) :
    ((x - 1) / f * m + c + (x - 1) % f + 1 + m) * f ≤ (x + m) * m := by
  obtain ⟨g, rfl⟩ := Nat.exists_eq_add_of_le room
  have value : x = f * ((x - 1) / f) + (x - 1) % f + 1 := by
    rw [Nat.div_add_mod, Nat.sub_add_cancel start]
  generalize (x - 1) / f = q at *
  generalize (x - 1) % f = r at *
  calc (q * (c + f + g) + c + r + 1 + (c + f + g)) * f
      ≤ (q * (c + f + g) + c + r + 1 + (c + f + g)) * f +
          ((r + 1) * (c + g) + (c + g) * (c + g) + f * g) := Nat.le_add_right _ _
    _ = (x + (c + f + g)) * (c + f + g) := by
        rw [value]
        ring

/-- Above an offset of `TOTAL_FREQ` the state grows by no more than the inverse probability. -/
theorem advance_potential (total : freq.sum = totalFreq) {s x : Nat} (start : 1 ≤ x) :
    (advance freq x s + totalFreq) * freq.getD s 0 ≤ (x + totalFreq) * totalFreq := by
  have next := below_add_getD_le freq (Nat.lt_add_one s)
  rw [advance]
  apply potential_le start
  exact next.trans ((below_le_sum freq (s + 1)).trans_eq total)

/-- A shifted byte loses almost nothing of the potential of a large state. -/
theorem shift_potential {x : Nat} (large : 2 ^ 48 ≤ x) :
    (x / 2 ^ 8 + totalFreq) * 2 ^ 36 ≤ (x + totalFreq) * (2 ^ 28 + 1) := by
  have down : x / 2 ^ 8 * 2 ^ 8 ≤ x := Nat.div_mul_le_self x (2 ^ 8)
  calc (x / 2 ^ 8 + totalFreq) * 2 ^ 36
      = x / 2 ^ 8 * 2 ^ 8 * 2 ^ 28 + 2 ^ 48 := by
        rw [totalFreq]
        ring
    _ ≤ x * 2 ^ 28 + x := Nat.add_le_add (Nat.mul_le_mul_right _ down) large
    _ = x * (2 ^ 28 + 1) := by ring
    _ ≤ (x + totalFreq) * (2 ^ 28 + 1) := Nat.mul_le_mul_right _ (Nat.le_add_right x totalFreq)

theorem shifts_potential (x : Nat) :
    (x / 2 ^ (8 * shifts x) + totalFreq) * 2 ^ (36 * shifts x) ≤
      (x + totalFreq) * (2 ^ 28 + 1) ^ shifts x := by
  rw [shifts]
  split_ifs with small middle
  · simp
  · simpa using shift_potential (Nat.le_of_not_lt small)
  · have first := shift_potential (Nat.le_of_not_lt small)
    have second := shift_potential (show 2 ^ 48 ≤ x / 2 ^ 8 by omega)
    calc (x / 2 ^ (8 * 2) + totalFreq) * 2 ^ (36 * 2)
        = (x / 2 ^ 8 / 2 ^ 8 + totalFreq) * 2 ^ 36 * 2 ^ 36 := by
          rw [Nat.div_div_eq_div_mul, mul_assoc]
          norm_num
      _ ≤ (x / 2 ^ 8 + totalFreq) * (2 ^ 28 + 1) * 2 ^ 36 := Nat.mul_le_mul_right _ second
      _ = (x / 2 ^ 8 + totalFreq) * 2 ^ 36 * (2 ^ 28 + 1) := by ring
      _ ≤ (x + totalFreq) * (2 ^ 28 + 1) * (2 ^ 28 + 1) := Nat.mul_le_mul_right _ first
      _ = (x + totalFreq) * (2 ^ 28 + 1) ^ 2 := by ring

/-- The state and the written bytes stay within the product of the inverse probabilities. -/
theorem runState_potential (positive : ∀ f ∈ freq, 0 < f) (total : freq.sum = totalFreq)
    {symbols : List Nat} (inRange : ∀ s ∈ symbols, s < freq.length) :
    ∃ bytes, (runState freq symbols).2.length = 8 * bytes ∧
      ((runState freq symbols).1 + totalFreq) * weight freq symbols * 2 ^ (36 * bytes) ≤
        (1 + totalFreq) * totalFreq ^ symbols.length * (2 ^ 28 + 1) ^ bytes := by
  induction symbols using List.reverseRecOn with
  | nil => exact ⟨0, by simp [runState], by simp [runState, weight]⟩
  | append_singleton symbols s ih =>
      have earlier : ∀ t ∈ symbols, t < freq.length := fun t member => inRange t (by simp [member])
      obtain ⟨bytes, length, bound⟩ := ih earlier
      obtain ⟨start, -⟩ := runState_bounds positive total earlier
      have advanced : (advance freq _ s + totalFreq) * freq.getD s 0 ≤ _ := advance_potential total start
      have shifted := shifts_potential (advance freq (runState freq symbols).1 s)
      rw [runState_concat]
      refine ⟨bytes + shifts (advance freq (runState freq symbols).1 s), ?_, ?_⟩
      · simp [stepState, length]
        omega
      · have split : weight freq (symbols ++ [s]) = weight freq symbols * freq.getD s 0 := by
          simp [weight]
        simp only [stepState, split, List.length_append, List.length_singleton]
        generalize shifts (advance freq (runState freq symbols).1 s) = count at *
        generalize advance freq (runState freq symbols).1 s = y at *
        generalize freq.getD s 0 = f at *
        calc (y / 2 ^ (8 * count) + totalFreq) * (weight freq symbols * f) * 2 ^ (36 * (bytes + count))
            = (y / 2 ^ (8 * count) + totalFreq) * 2 ^ (36 * count) *
                (f * weight freq symbols * 2 ^ (36 * bytes)) := by ring
          _ ≤ (y + totalFreq) * (2 ^ 28 + 1) ^ count *
                (f * weight freq symbols * 2 ^ (36 * bytes)) := Nat.mul_le_mul_right _ shifted
          _ = (y + totalFreq) * f *
                (weight freq symbols * 2 ^ (36 * bytes) * (2 ^ 28 + 1) ^ count) := by ring
          _ ≤ ((runState freq symbols).1 + totalFreq) * totalFreq *
                (weight freq symbols * 2 ^ (36 * bytes) * (2 ^ 28 + 1) ^ count) :=
              Nat.mul_le_mul_right _ advanced
          _ = ((runState freq symbols).1 + totalFreq) * weight freq symbols * 2 ^ (36 * bytes) *
                (totalFreq * (2 ^ 28 + 1) ^ count) := by ring
          _ ≤ (1 + totalFreq) * totalFreq ^ symbols.length * (2 ^ 28 + 1) ^ bytes *
                (totalFreq * (2 ^ 28 + 1) ^ count) := Nat.mul_le_mul_right _ bound
          _ = (1 + totalFreq) * totalFreq ^ (symbols.length + 1) * (2 ^ 28 + 1) ^ (bytes + count) := by
              ring

end Potential

/-- The end of a run has at least the potential of its start. -/
theorem runState_weight {freq : List Nat} (positive : ∀ f ∈ freq, 0 < f) (total : freq.sum = totalFreq)
    {symbols : List Nat} (inRange : ∀ s ∈ symbols, s < freq.length) :
    ∃ bytes, (runState freq symbols).2.length = 8 * bytes ∧
      weight freq symbols * 2 ^ (36 * bytes) ≤ totalFreq ^ symbols.length * (2 ^ 28 + 1) ^ bytes := by
  obtain ⟨bytes, length, bound⟩ := runState_potential positive total inRange
  obtain ⟨start, -⟩ := runState_bounds positive total inRange
  refine ⟨bytes, length, Nat.le_of_mul_le_mul_left ?_ (show 0 < 1 + totalFreq by decide)⟩
  calc (1 + totalFreq) * (weight freq symbols * 2 ^ (36 * bytes))
      ≤ ((runState freq symbols).1 + totalFreq) * (weight freq symbols * 2 ^ (36 * bytes)) :=
        Nat.mul_le_mul_right _ (by omega)
    _ = ((runState freq symbols).1 + totalFreq) * weight freq symbols * 2 ^ (36 * bytes) := by ring
    _ ≤ (1 + totalFreq) * totalFreq ^ symbols.length * (2 ^ 28 + 1) ^ bytes := bound
    _ = (1 + totalFreq) * (totalFreq ^ symbols.length * (2 ^ 28 + 1) ^ bytes) := by ring

/-- A shifted byte is worth eight bits but for a part in `2 ^ 30`. -/
theorem logb_byte_le : Real.logb 2 ((2 ^ 28 + 1) / 2 ^ 28) ≤ 8 / 2 ^ 30 := by
  have small : Real.log ((2 ^ 28 + 1) / 2 ^ 28) ≤ 1 / 2 ^ 28 := by
    have bound := Real.log_le_sub_one_of_pos (show (0 : ℝ) < (2 ^ 28 + 1) / 2 ^ 28 by norm_num)
    exact bound.trans_eq (by norm_num)
  have half : (1 / 2 : ℝ) ≤ Real.log 2 := by
    have bound := Real.one_sub_inv_le_log_of_pos (show (0 : ℝ) < 2 by norm_num)
    linarith
  rw [Real.logb, div_le_iff₀ (by linarith)]
  calc Real.log ((2 ^ 28 + 1) / 2 ^ 28) ≤ 1 / 2 ^ 28 := small
    _ ≤ 8 / 2 ^ 30 * (1 / 2) := by norm_num
    _ ≤ 8 / 2 ^ 30 * Real.log 2 := by gcongr

/-- The shifted bytes carry the information of the sequence, each one a little less than eight bits. -/
theorem bytes_le_information {freq symbols : List Nat} (positive : ∀ f ∈ freq, 0 < f)
    (inRange : ∀ s ∈ symbols, s < freq.length) {bytes : Nat}
    (bound : weight freq symbols * 2 ^ (36 * bytes) ≤
      totalFreq ^ symbols.length * (2 ^ 28 + 1) ^ bytes) :
    8 * (bytes : ℝ) * (1 - 1 / 2 ^ 30) ≤ information (freq.getD · 0) totalFreq symbols := by
  have each : ∀ s ∈ symbols, 0 < freq.getD s 0 := fun s member => getD_pos positive (inRange s member)
  have heavyNat : 0 < weight freq symbols := by
    refine List.prod_pos fun f member => ?_
    obtain ⟨s, inSymbols, rfl⟩ := List.mem_map.mp member
    exact each s inSymbols
  have heavy : (0 : ℝ) < weight freq symbols := by exact_mod_cast heavyNat
  have whole : (0 : ℝ) < totalFreq := by norm_num [totalFreq]
  have real : (weight freq symbols : ℝ) * 2 ^ (36 * bytes) ≤
      totalFreq ^ symbols.length * (2 ^ 28 + 1) ^ bytes := by exact_mod_cast bound
  have powers : (2 : ℝ) ^ (8 * bytes) ≤
      totalFreq ^ symbols.length / weight freq symbols * ((2 ^ 28 + 1) / 2 ^ 28) ^ bytes := by
    rw [div_pow, div_mul_div_comm, le_div_iff₀ (by positivity)]
    calc (2 : ℝ) ^ (8 * bytes) * (weight freq symbols * (2 ^ 28) ^ bytes)
        = weight freq symbols * 2 ^ (36 * bytes) := by
          rw [← pow_mul, mul_left_comm, ← pow_add]
          congr 2
          ring
      _ ≤ totalFreq ^ symbols.length * (2 ^ 28 + 1) ^ bytes := real
  have logs := Real.logb_le_logb_of_le (by norm_num : (1 : ℝ) < 2) (by positivity) powers
  have carried : information (freq.getD · 0) totalFreq symbols =
      Real.logb 2 ((totalFreq : ℝ) ^ symbols.length / weight freq symbols) :=
    information_eq_logb each (by decide)
  rw [Real.logb_pow, Real.logb_self_eq_one (by norm_num), Real.logb_mul (by positivity) (by positivity),
    ← carried, Real.logb_pow] at logs
  have byte := mul_le_mul_of_nonneg_left logb_byte_le (show (0 : ℝ) ≤ bytes from Nat.cast_nonneg bytes)
  push_cast at logs
  linarith

/-- But for the 64 bits of the last state and one part in `2 ^ 30`, the encoder writes no more bits than
the information of the sequence. -/
theorem encode_length_le (freq : List Nat) (positive : ∀ f ∈ freq, 0 < f)
    (total : freq.sum = totalFreq) (size : Nat) (symbols : List Nat) (nonempty : symbols ≠ [])
    (inRange : ∀ s ∈ symbols, s < freq.length) :
    ∃ written, encode freq size symbols = some written ∧
      ((written.length : ℝ) - 64) * (1 - 1 / 2 ^ 30) ≤ information (freq.getD · 0) totalFreq symbols := by
  obtain ⟨bytes, length, bound⟩ := runState_weight positive total inRange
  have some_ := List.length_pos_iff.mpr nonempty
  refine ⟨(runState freq symbols).2 ++ lowBytes 8 (runState freq symbols).1, ?_, ?_⟩
  · rw [encode, encodePart_eq positive total inRange (Nat.le_refl _) some_]
    simp [flushed]
  · have information := bytes_le_information positive inRange bound
    rw [List.length_append, length_lowBytes, length]
    push_cast
    linarith

/-- Thirty rare symbols shift forty bytes out. -/
theorem encode_length_le_rare : ∃ written, encode [4095, 1] 1000 (List.replicate 30 1) = some written ∧
    written.length = 384 ∧ ((written.length : ℝ) - 64) * (1 - 1 / 2 ^ 30) ≤
      information ([4095, 1].getD · 0) totalFreq (List.replicate 30 1) := by
  obtain ⟨written, encoded, bound⟩ := encode_length_le [4095, 1] (by decide) (by decide) 1000
    (List.replicate 30 1) (by decide) (by decide)
  have length : (encode [4095, 1] 1000 (List.replicate 30 1)).map List.length = some 384 := by
    decide +kernel
  rw [encoded, Option.map_some, Option.some.injEq] at length
  exact ⟨written, encoded, length, bound⟩

end CellBag.RANS
