import CellBag.Proof.RANS

/-!
The arithmetic decoder finds the symbol of a state, but takes a wrong remainder for its place within
the symbol.
-/

namespace CellBag.RANS.ArithDecoder

/-- The search keeps its symbol between its bounds, and each turn brings them closer. -/
theorem searchLoop_eq {freq : List Nat} {y s fuel l r : Nat} (total : freq.sum = totalFreq)
    (enough : r - l ≤ fuel) (inside : r ≤ freq.length) (low : l ≤ s) (high : s < r)
    (start : below freq s ≤ y) (stop : y < below freq (s + 1)) :
    searchLoop (getCumFreq freq 0) y fuel l r = some s := by
  induction fuel generalizing l r with
  | zero => omega
  | succ fuel ih =>
      rw [searchLoop]
      split_ifs with apart
      · have middle : (getCumFreq freq 0)[(l + r) / 2]? = some (below freq ((l + r) / 2)) :=
          getCumFreq_eq_below total (by omega)
        simp only [middle, Option.bind_eq_bind, Option.bind_some]
        split_ifs with reached
        · -- a symbol that starts above `y` is behind the selected one
          have left : (l + r) / 2 ≤ s := by
            by_contra beyond
            have order : below freq (s + 1) ≤ below freq ((l + r) / 2) :=
              below_mono freq (Nat.lt_of_not_le beyond)
            omega
          exact ih (by omega) inside left high
        · have right : s < (l + r) / 2 := by
            by_contra beyond
            have order : below freq ((l + r) / 2) ≤ below freq s :=
              below_mono freq (Nat.le_of_not_lt beyond)
            omega
          exact ih (by omega) (by omega) low right
      · obtain rfl : l = s := by omega
        rfl

/-- The remainder by the cumulative frequency is the next place only by accident. -/
theorem remainder_eq_iff {q c r : Nat} (positive : c ≠ 0) :
    (q * totalFreq + c + r) % c = r + 1 ↔ r + 1 < c ∧ q * totalFreq % c = 1 := by
  have shifted : (q * totalFreq + c + r) % c = (q * totalFreq % c + r) % c := by
    rw [Nat.add_right_comm, Nat.add_mod_right, Nat.mod_add_mod]
  rw [shifted]
  have rest := Nat.mod_lt (q * totalFreq) (Nat.pos_of_ne_zero positive)
  constructor
  · intro same
    have inside : r + 1 < c := same ▸ Nat.mod_lt _ (Nat.pos_of_ne_zero positive)
    refine ⟨inside, ?_⟩
    by_cases small : q * totalFreq % c + r < c
    · rw [Nat.mod_eq_of_lt small] at same
      omega
    · rw [Nat.mod_eq_sub_mod (Nat.le_of_not_lt small), Nat.mod_eq_of_lt (by omega)] at same
      omega
  · intro ⟨inside, one⟩
    rw [one, Nat.add_comm, Nat.mod_eq_of_lt inside]

section Advance

variable {freq : List Nat} (positive : ∀ f ∈ freq, 0 < f) (total : freq.sum = totalFreq) {s : Nat}
  (inRange : s < freq.length) (x : Nat)
include positive total inRange

/-- The digits of the next state: the number of the state within its symbol, and its place. -/
theorem advance_digits : (advance freq x s - 1) / totalFreq = (x - 1) / freq.getD s 0 ∧
    (advance freq x s - 1) % totalFreq = below freq s + (x - 1) % freq.getD s 0 := by
  have range := advance_range positive total inRange x
  simp only [advance, totalFreq] at range ⊢
  constructor
  · omega
  · omega

/-- In the state behind a symbol, the search selects the symbol. -/
theorem search_advance : search ⟨freq, getCumFreq freq 0, advance freq x s⟩
    ((advance freq x s - 1) % totalFreq) = some s := by
  have place := Nat.mod_lt (x - 1) (getD_pos positive inRange)
  have next := below_add_getD_le freq (Nat.lt_add_one s)
  rw [(advance_digits positive total inRange x).2]
  exact searchLoop_eq total (by simp) (Nat.le_refl _) (Nat.zero_le s) inRange (Nat.le_add_right _ _)
    (by omega)

/-- A call of the decoder in the state behind a symbol. -/
theorem decodeSymbol_advance : decodeSymbol ⟨freq, getCumFreq freq 0, advance freq x s⟩ =
    if below freq s = 0 then none
    else some ⟨freq, getCumFreq freq 0,
      ((x - 1) / freq.getD s 0 * freq.getD s 0 + (advance freq x s - 1) % below freq s) % 2 ^ 64⟩ := by
  obtain ⟨quotient, digit⟩ := advance_digits positive total inRange x
  have found := search_advance positive total inRange x
  rw [digit] at found
  simp only [decodeSymbol, digit, quotient, found, getCumFreq_eq_below total inRange.le,
    getElem?_eq_getD inRange, Option.bind_eq_bind, Option.bind_some,
    check_of (show advance freq x s ≥ 1 from Nat.le_add_left 1 _),
    check_of (Nat.le_add_right (below freq s) _)]
  by_cases first : below freq s = 0
  · rw [if_pos first, check, if_neg (not_not_intro first)]
    rfl
  · rw [check_of first, if_neg first]
    rfl

end Advance

theorem below_eq_zero_iff {freq : List Nat} (positive : ∀ f ∈ freq, 0 < f) {s : Nat}
    (inRange : s < freq.length) : below freq s = 0 ↔ s = 0 := by
  constructor
  · intro nothing
    by_contra later
    have first := getD_pos positive (Nat.zero_lt_of_lt inRange)
    have order := below_add_getD_le freq (Nat.pos_of_ne_zero later)
    omega
  · rintro rfl
    simp [below]

/-- In the state that the encoder computes for a symbol, the decoder finds the symbol. It divides by
zero for the first symbol, and gets the state before back only when a remainder happens to be right. -/
theorem decodeSymbol_eq_iff (freq : List Nat) (positive : ∀ f ∈ freq, 0 < f)
    (total : freq.sum = totalFreq) (s x f c : Nat) (entry : freq[s]? = some f)
    (cum : (getCumFreq freq 0)[s]? = some c) (start : 1 ≤ x)
    (word : (x - 1) / f * totalFreq + c + (x - 1) % f + 1 < 2 ^ 64) :
    let decoder : ArithDecoder :=
      ⟨freq, getCumFreq freq 0, (x - 1) / f * totalFreq + c + (x - 1) % f + 1⟩
    decoder.search ((decoder.x - 1) % totalFreq) = some s ∧
      (decoder.decodeSymbol = none ↔ s = 0) ∧
      (decoder.decodeSymbol = some { decoder with x } ↔
        (x - 1) % f + 1 < c ∧ (x - 1) / f * totalFreq % c = 1) := by
  obtain ⟨inRange, rfl⟩ := List.getElem?_eq_some_iff.mp entry
  have known : freq.getD s 0 = freq[s] :=
    Option.some.inj ((getElem?_eq_getD inRange).symm.trans entry)
  have before : c = below freq s :=
    Option.some.inj (cum.symm.trans (getCumFreq_eq_below total inRange.le))
  have found := search_advance positive total inRange x
  have decoded := decodeSymbol_advance positive total inRange x
  simp only [advance, known, ← before, Nat.add_sub_cancel] at found decoded
  refine ⟨by simpa using found, ?_, ?_⟩
  · rw [decoded, ← below_eq_zero_iff positive inRange, ← before]
    split_ifs with first
    · simp [first]
    · simp [first]
  · rw [decoded]
    split_ifs with first
    · simp [first]
    · -- the part below the remainder is the same on both sides
      have parts := Nat.div_add_mod' (x - 1) freq[s]
      have small : freq[s] ≤ totalFreq := by
        rw [← total]
        exact List.le_sum_of_mem (List.getElem_mem inRange)
      have scaled := Nat.mul_le_mul_left ((x - 1) / freq[s]) small
      have rest := Nat.mod_lt ((x - 1) / freq[s] * totalFreq + c + (x - 1) % freq[s])
        (Nat.pos_of_ne_zero first)
      rw [Nat.mod_eq_of_lt (by omega), ← remainder_eq_iff first, Option.some.injEq,
        ArithDecoder.mk.injEq]
      simp only [true_and]
      omega

/-- The remainders of this state are right by accident. -/
theorem decodeSymbol_accident :
    decodeSymbol ⟨[3, 4093], getCumFreq [3, 4093] 0, 4100⟩ =
      some ⟨[3, 4093], getCumFreq [3, 4093] 0, 4094⟩ :=
  (decodeSymbol_eq_iff [3, 4093] (by decide) (by decide) 1 4094 4093 3 rfl rfl (by decide)
    (by decide)).2.2.mpr (by decide)

/-- The first symbol has no frequencies below it: in the state that the encoder computes for it, the
decoder takes a remainder by zero. Behind the second symbol it gets zero back instead of one. -/
theorem decodeSymbol_first_symbol :
    let freq := [2048, 2048]
    let encoded (s : Nat) := (ArithEncoder.encodeSymbol ⟨freq, getCumFreq freq 0, 2, 0, 1⟩
      (BitPtr.start 64) s).map fun state => state.1.x
    encoded 0 = some 1 ∧ decodeSymbol ⟨freq, getCumFreq freq 0, 1⟩ = none ∧
      encoded 1 = some 2049 ∧
      decodeSymbol ⟨freq, getCumFreq freq 0, 2049⟩ = some ⟨freq, getCumFreq freq 0, 0⟩ := by
  decide +kernel

end CellBag.RANS.ArithDecoder
