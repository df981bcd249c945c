import CellBag.Model.RANS

/-!
The arithmetic encoder: sequences that no byte is shifted out of before their last symbols are written differently.
-/

namespace CellBag.RANS
open BitString

/-- The low bytes of a state, the lowest first. -/
def lowBytes : Nat → Nat → List Bool
  | 0, _ => []
  | count + 1, x => ofNat 8 (x % 2 ^ 8) ++ lowBytes count (x / 2 ^ 8)

/-- Each byte has eight bits. -/
@[simp] theorem length_lowBytes (count x : Nat) : (lowBytes count x).length = 8 * count := by
  induction count generalizing x with
  | zero => rfl
  | succ count ih => simp [lowBytes, ih]; omega

/-- The number of turns of the renormalising loop. -/
def shifts (x : Nat) : Nat := if x < 2 ^ 48 then 0 else if x < 2 ^ 56 then 1 else 2

namespace ArithEncoder

/-- So many shifts store the low bytes. -/
theorem shiftTimes_eq (count x : Nat) (ptr : BitPtr) :
    shiftTimes count x ptr = (x / 2 ^ (8 * count), ptr.push (lowBytes count x)) := by
  induction count generalizing x ptr with
  | zero => simp [shiftTimes, lowBytes]
  | succ count ih =>
      simp only [shiftTimes, shiftX, ih, BitPtr.storeUint_eq_push, BitPtr.push_push, lowBytes,
        Nat.div_div_eq_div_mul, ← pow_add]
      congr 3
      omega

/-- `shift_x` stores the low bytes until the state is small. -/
theorem shiftWhile_eq {x : Nat} (word : x < 2 ^ 64) (ptr : BitPtr) :
    shiftWhile 8 x ptr = some (x / 2 ^ (8 * shifts x), ptr.push (lowBytes (shifts x) x)) := by
  have stop (fuel y : Nat) (ptr : BitPtr) (small : y < 2 ^ 48) :
      shiftWhile (fuel + 1) y ptr = some (y, ptr) := by
    rw [shiftWhile, if_neg (by simpa [boundX] using small)]
  have turn (fuel y : Nat) (ptr : BitPtr) (large : 2 ^ 48 ≤ y) :
      shiftWhile (fuel + 1) y ptr = shiftWhile fuel (y / 2 ^ 8) (ptr.push (lowBytes 1 y)) := by
    rw [shiftWhile, if_pos (by simpa [boundX] using large)]
    simp [shiftX, BitPtr.storeUint_eq_push, lowBytes]
  by_cases small : x < 2 ^ 48
  · rw [stop _ x ptr small, shifts, if_pos small]
    simp [lowBytes]
  · by_cases middle : x < 2 ^ 56
    · rw [turn _ x ptr (by omega), stop _ _ _ (by omega), shifts, if_neg small, if_pos middle]
    · rw [turn _ x ptr (by omega), turn _ _ _ (by omega), stop _ _ _ (by omega), shifts,
        if_neg small, if_neg middle, BitPtr.push_push]
      simp [lowBytes, Nat.div_div_eq_div_mul]

end ArithEncoder

/-- Full frequencies are not raised. -/
theorem fillUp_full (fuel : Nat) (freq : List Nat) :
    fillUp (fuel + 1) freq totalFreq = some freq := by
  rw [fillUp, if_neg (Nat.lt_irrefl _)]

/-- The cumulative frequency in front of a symbol. -/
def below (freq : List Nat) (s : Nat) : Nat := (freq.take s).sum

/-- `get_cum_freq` adds the frequencies up. -/
theorem getCumFreq_getElem? {freq : List Nat} {start s : Nat} (fits : start + freq.sum < 2 ^ 32)
    (inRange : s ≤ freq.length) : (getCumFreq freq start)[s]? = some (start + below freq s) := by
  induction freq generalizing start s with
  | nil =>
      obtain rfl : s = 0 := by simpa using inRange
      simp [getCumFreq, below]
  | cons f freq ih =>
      rw [List.sum_cons] at fits
      cases s with
      | zero => simp [getCumFreq, below]
      | succ s =>
          rw [getCumFreq, List.getElem?_cons_succ, Nat.mod_eq_of_lt (by omega),
            ih (by omega) (by simpa using inRange)]
          simp [below, Nat.add_assoc]

/-- A cumulated frequency is the sum of those before it. -/
theorem getCumFreq_eq_below {freq : List Nat} (total : freq.sum = totalFreq) {s : Nat}
    (inRange : s ≤ freq.length) : (getCumFreq freq 0)[s]? = some (below freq s) := by
  rw [getCumFreq_getElem? (by rw [total]; decide) inRange, Nat.zero_add]

/-- A symbol has a frequency. -/
theorem getElem?_eq_getD {freq : List Nat} {s : Nat} (inRange : s < freq.length) :
    freq[s]? = some (freq.getD s 0) := by
  rw [List.getD_eq_getElem?_getD, List.getElem?_eq_getElem inRange]
  rfl

/-- A later symbol starts behind an earlier one. -/
theorem below_add_getD_le (freq : List Nat) {s t : Nat} (before : s < t) :
    below freq s + freq.getD s 0 ≤ below freq t := by
  induction freq generalizing s t with
  | nil => simp [below]
  | cons f freq ih =>
      cases t with
      | zero => omega
      | succ t =>
          cases s with
          | zero => simp [below]
          | succ s =>
              have rest := ih (Nat.lt_of_succ_lt_succ before)
              simp only [below, List.take_succ_cons, List.sum_cons, List.getD_cons_succ] at rest ⊢
              omega

/-- The sums grow. -/
theorem below_mono (freq : List Nat) {s t : Nat} (order : s ≤ t) : below freq s ≤ below freq t := by
  rcases Nat.eq_or_lt_of_le order with rfl | before
  · exact Nat.le_refl _
  · exact (Nat.le_add_right _ _).trans (below_add_getD_le freq before)

/-- The sums stay below the total. -/
theorem below_le_sum (freq : List Nat) (s : Nat) : below freq s ≤ freq.sum := by
  have split := congrArg List.sum (List.take_append_drop s freq)
  rw [List.sum_append] at split
  rw [below]
  omega

/-- The next state, before bytes are shifted out. -/
def advance (freq : List Nat) (x s : Nat) : Nat :=
  (x - 1) / freq.getD s 0 * totalFreq + below freq s + (x - 1) % freq.getD s 0 + 1

/-- A symbol takes the state and the written bits to the next ones. -/
def stepState (freq : List Nat) (state : Nat × List Bool) (s : Nat) : Nat × List Bool :=
  let x := advance freq state.1 s
  (x / 2 ^ (8 * shifts x), state.2 ++ lowBytes (shifts x) x)

/-- The state and the shifted bits after some symbols. -/
def runState (freq : List Nat) (symbols : List Nat) : Nat × List Bool :=
  symbols.foldl (stepState freq) (1, [])

/-- Another symbol is another step. -/
theorem runState_concat (freq symbols : List Nat) (s : Nat) :
    runState freq (symbols ++ [s]) = stepState freq (runState freq symbols) s := by
  rw [runState, List.foldl_append]
  rfl

/-- The last call also stores the final bytes. -/
def flushed (seqLen added : Nat) (state : Nat × List Bool) : Nat × List Bool :=
  if added = seqLen then (state.1 / 2 ^ 64, state.2 ++ lowBytes 8 state.1) else state

/-- A frequency of the table is positive. -/
theorem getD_pos {freq : List Nat} (positive : ∀ f ∈ freq, 0 < f) {s : Nat}
    (inRange : s < freq.length) : 0 < freq.getD s 0 := by
  rw [List.getD_eq_getElem?_getD, List.getElem?_eq_getElem inRange]
  exact positive _ (List.getElem_mem inRange)

section Encoder

variable {freq : List Nat} (positive : ∀ f ∈ freq, 0 < f) (total : freq.sum = totalFreq)
include positive total

/-- Frequencies with the full sum stay as they are. -/
theorem normalizeFreq_eq : normalizeFreq freq = some freq := by
  have nonzero : freq.map (fun f => if f = 0 then 1 else f) = freq := by
    refine (List.map_congr_left fun f member => ?_).trans (List.map_id _)
    rw [if_neg (Nat.ne_of_gt (positive f member)), id]
  have scaled : freq.map (fun f => f * totalFreq % 2 ^ 64 / totalFreq % 2 ^ 32) = freq := by
    refine (List.map_congr_left fun f member => ?_).trans (List.map_id _)
    have small : f ≤ 4096 := (List.le_sum_of_mem member).trans_eq total
    simp only [totalFreq, id]
    omega
  have sum : freq.sum % 2 ^ 32 = totalFreq := by rw [total]; rfl
  simp only [normalizeFreq, nonzero, sum, scaled]
  rw [check_of (.inr (by decide)), check_of (Nat.le_refl _)]
  exact fillUp_full totalFreq freq

/-- The low part of the next state tells its symbol and its place within the symbol. -/
theorem advance_range {s : Nat} (inRange : s < freq.length) (x : Nat) :
    below freq s + (x - 1) % freq.getD s 0 < totalFreq := by
  have inside := Nat.mod_lt (x - 1) (getD_pos positive inRange)
  have next := below_add_getD_le freq (Nat.lt_add_one s)
  have whole := below_le_sum freq (s + 1)
  rw [total] at whole
  omega

/-- A step from a small state stays in 64 bits. -/
theorem advance_lt {x s : Nat} (inRange : s < freq.length) (small : x < 2 ^ 48) :
    advance freq x s < 2 ^ 64 := by
  have range := advance_range positive total inRange x
  have quotient := Nat.div_le_self (x - 1) (freq.getD s 0)
  simp only [advance, totalFreq] at range ⊢
  omega

/-- The step keeps the state between one and `BOUND_X`. -/
theorem stepState_bounds {state : Nat × List Bool} {s : Nat} (inRange : s < freq.length)
    (small : state.1 < 2 ^ 48) :
    1 ≤ (stepState freq state s).1 ∧ (stepState freq state s).1 < 2 ^ 48 := by
  have word := advance_lt positive total inRange small
  have start : 1 ≤ advance freq state.1 s := by simp [advance]
  simp only [stepState, shifts]
  split_ifs <;> simp only [Nat.reduceMul, Nat.reducePow] at * <;> omega

/-- Between the steps the state is small. -/
theorem runState_bounds {symbols : List Nat} (inRange : ∀ s ∈ symbols, s < freq.length) :
    1 ≤ (runState freq symbols).1 ∧ (runState freq symbols).1 < 2 ^ 48 := by
  induction symbols using List.reverseRecOn with
  | nil => simp [runState]
  | append_singleton symbols s ih =>
      have before := ih fun other member => inRange other (by simp [member])
      rw [runState_concat]
      exact stepState_bounds positive total (inRange s (by simp)) before.2

/-- One call of the encoder. -/
theorem encodeSymbol_eq {seqLen added x s : Nat} (inRange : s < freq.length)
    (open_ : added < seqLen) (start : 1 ≤ x) (small : x < 2 ^ 48) (ptr : BitPtr) :
    ArithEncoder.encodeSymbol ⟨freq, getCumFreq freq 0, seqLen, added, x⟩ ptr s =
      let state := flushed seqLen (added + 1) (stepState freq (x, []) s)
      some (⟨freq, getCumFreq freq 0, seqLen, added + 1, state.1⟩, ptr.push state.2) := by
  have cum := getCumFreq_eq_below total inRange.le
  have entry := getElem?_eq_getD inRange
  have nonzero : freq.getD s 0 ≠ 0 := Nat.ne_of_gt (getD_pos positive inRange)
  have word := advance_lt positive total inRange small
  have next : ((x - 1) / freq.getD s 0 * totalFreq + below freq s + (x - 1) % freq.getD s 0 + 1) %
      2 ^ 64 = advance freq x s := Nat.mod_eq_of_lt word
  simp only [ArithEncoder.encodeSymbol, check_of inRange, check_of open_, check_of start, entry,
    cum, check_of nonzero, Option.bind_eq_bind, Option.bind_some, next,
    ArithEncoder.shiftWhile_eq word, ArithEncoder.shiftTimes_eq, flushed, stepState]
  split_ifs <;> simp

/-- The calls for the first symbols of a sequence. -/
theorem encodePart_eq {symbols : List Nat} (inRange : ∀ s ∈ symbols, s < freq.length)
    {seqLen : Nat} (part : symbols.length ≤ seqLen) (some_ : 0 < seqLen) (size : Nat) :
    encodePart freq seqLen size symbols =
      let state := flushed seqLen symbols.length (runState freq symbols)
      some (⟨freq, getCumFreq freq 0, seqLen, symbols.length, state.1⟩,
        (BitPtr.start size).push state.2) := by
  have fresh : ArithEncoder.ofFreq freq seqLen = some ⟨freq, getCumFreq freq 0, seqLen, 0, 1⟩ := by
    rw [ArithEncoder.ofFreq, normalizeFreq_eq positive total]
    rfl
  simp only [encodePart, fresh, ArithEncoder.encodeSymbols, Option.bind_eq_bind, Option.bind_some]
  induction symbols using List.reverseRecOn with
  | nil => simp [runState, flushed, Nat.ne_of_lt some_]
  | append_singleton symbols s ih =>
      have earlier : ∀ t ∈ symbols, t < freq.length := fun t member => inRange t (by simp [member])
      have shorter : symbols.length < seqLen := by simpa using part
      obtain ⟨start, small⟩ := runState_bounds positive total earlier
      rw [List.foldlM_append, ih earlier shorter.le]
      simp only [flushed, Nat.ne_of_lt shorter, if_false, Option.bind_eq_bind, Option.bind_some,
        List.foldlM_cons, List.foldlM_nil, List.length_append, List.length_singleton,
        encodeSymbol_eq positive total (inRange s (by simp)) shorter start small, runState_concat]
      split_ifs <;> simp [stepState]

end Encoder

section Bound
variable {freq : List Nat} (positive : ∀ f ∈ freq, 0 < f) (total : freq.sum = totalFreq)
include positive total

end Bound

end CellBag.RANS
