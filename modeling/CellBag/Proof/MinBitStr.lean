import CellBag.Library.OptionList
import CellBag.Proof.Packing

/-!
`get_min_bit_str_not_in` finds the least bit string that a text does not have.
-/

namespace CellBag
open BitString

section Cover
variable {bits : List Bool} {len : Nat} {was : List Bool}

/-- The number of a window by doubling. -/
theorem foldl_expandBits (bits : List Bool) (small : bits.length < 32) :
    (expandBits bits).foldl (fun cur bit => (cur * 2 + bit.toNat) % 2 ^ 32) 0 = toNat bits := by
  induction bits using List.reverseRecOn with
  | nil => rfl
  | append_singleton bits bit ih =>
      rw [List.length_append, List.length_singleton] at small
      have below := toNat_lt bits
      have bound : 2 ^ bits.length ≤ 2 ^ 30 := Nat.pow_le_pow_right (by decide) (by omega)
      rw [expandBits, List.map_append, List.foldl_append, ← expandBits, ih (by omega), toNat_append]
      cases bit <;> simp [toNat_cons] <;> omega

/-- The mask keeps the number of the next window. -/
theorem next_window {j : Nat} {bit : Bool} (small : len < 32) (inside : j + len < bits.length)
    (next : bits[j + len]? = some bit) :
    (toNat (window bits len j) * 2 + (if bit then 1 else 0 : UInt8).toNat) % 2 ^ 32 &&& (2 ^ len - 1) =
      toNat (window bits len (j + 1)) := by
  obtain ⟨first, dropped, taken⟩ := window_succ next
  have below := toNat_lt (window bits len j)
  have belowNext := toNat_lt (window bits len (j + 1))
  rw [length_window (by omega)] at below belowNext
  have bound : 2 ^ len ≤ 2 ^ 31 := Nat.pow_le_pow_right (by decide) (by omega)
  have value : toNat (window bits len j) * 2 + (if bit then 1 else 0 : UInt8).toNat =
      first.toNat * 2 ^ len + toNat (window bits len (j + 1)) := by
    have both := congrArg toNat (taken.symm.trans dropped)
    rw [toNat_append, toNat_cons first, length_window (by omega)] at both
    rw [← both]
    cases bit <;> simp [toNat_cons]
  have cut : (toNat (window bits len j) * 2 + (if bit then 1 else 0 : UInt8).toNat) % 2 ^ 32 =
      first.toNat * 2 ^ len + toNat (window bits len (j + 1)) := by
    rw [← value]
    apply Nat.mod_eq_of_lt
    cases bit <;> simp <;> omega
  rw [cut, Nat.and_two_pow_sub_one_eq_mod, Nat.mul_add_mod_self_right, Nat.mod_eq_of_lt belowNext]

/-- The vector `was` holds the numbers of the first windows. -/
def Marks (bits : List Bool) (len count : Nat) (was : List Bool) : Prop :=
  ∀ mask < 2 ^ len, was[mask]? = some (decide (∃ j < count, toNat (window bits len j) = mask))

/-- The marks after one window more. -/
theorem Marks.mark {count : Nat} (marks : Marks bits len count was) (room : 2 ^ len ≤ was.length)
    (inside : count + len ≤ bits.length) :
    markWindow was (toNat (window bits len count)) =
      some (was.set (toNat (window bits len count)) true) ∧
    Marks bits len (count + 1) (was.set (toNat (window bits len count)) true) := by
  have below := toNat_lt (window bits len count)
  rw [length_window inside] at below
  refine ⟨by simp [markWindow, check_of (below.trans_le room)], fun mask small => ?_⟩
  have extended : (∃ j < count + 1, toNat (window bits len j) = mask) ↔
      toNat (window bits len count) = mask ∨ ∃ j < count, toNat (window bits len j) = mask := by
    constructor
    · rintro ⟨j, less, same⟩
      rcases Nat.lt_succ_iff_lt_or_eq.mp less with less | rfl
      · exact .inr ⟨j, less, same⟩
      · exact .inl same
    · rintro (same | ⟨j, less, same⟩)
      · exact ⟨count, by omega, same⟩
      · exact ⟨j, by omega, same⟩
  by_cases here : toNat (window bits len count) = mask
  · rw [here, List.getElem?_set_self (small.trans_le room)]
    simp only [extended, here, true_or, decide_true]
  · rw [List.getElem?_set_ne here, marks mask small]
    simp only [extended, here, false_or]

/-- The turn of the outer loop marks the bit strings of its length that the text has. -/
theorem coverWindows_spec (positive : 0 < len) (short : len ≤ bits.length) (small : len < 32)
    (room : 2 ^ len ≤ was.length) :
    ∃ was', coverWindows (expandBits bits) len was = some was' ∧ was'.length = was.length ∧
      ∀ mask < 2 ^ len, was'[mask]? = some (decide (ofNat len mask <:+: bits)) := by
  let start := List.replicate (2 ^ len) false ++ was.drop (2 ^ len)
  have length : start.length = was.length := by simp [start]; omega
  have first : (expandBits bits).take len = expandBits (bits.take len) := by
    rw [expandBits, expandBits, List.map_take]
  have rest : (expandBits bits).drop len = (bits.drop len).map fun bit => if bit then 1 else 0 := by
    rw [expandBits, List.map_drop]
  have fresh : Marks bits len 0 start := by
    intro mask below
    simp [start, List.getElem?_append_left, below]
  obtain ⟨marked, marks⟩ := fresh.mark (length ▸ room) (by omega)
  rw [window_zero] at marked marks
  obtain ⟨⟨cur, was'⟩, ran, -, length', marks'⟩ := OptionList.foldlM_invariant (bits.drop len)
    (toNat (bits.take len), start.set (toNat (bits.take len)) true)
    (fun (state : Nat × List Bool) bit => do
      let cur := (state.1 * 2 + (if bit then 1 else 0 : UInt8).toNat) % 2 ^ 32 &&& (2 ^ len - 1)
      let was ← markWindow state.2 cur
      some (cur, was))
    (fun done state => state.1 = toNat (window bits len done.length) ∧
      state.2.length = was.length ∧ Marks bits len (done.length + 1) state.2)
    ⟨rfl, by simpa using length, marks⟩ (by
      rintro done bit rest ⟨cur, was'⟩ split ⟨rfl, length', marks'⟩
      have next : bits[done.length + len]? = some bit := by
        have look : (bits.drop len)[done.length]? = some bit := by simp [split]
        rwa [List.getElem?_drop, Nat.add_comm] at look
      have inside := (List.getElem?_eq_some_iff.mp next).1
      obtain ⟨marked', grown⟩ := marks'.mark (length' ▸ room) (by omega)
      refine ⟨(toNat (window bits len (done.length + 1)),
        was'.set (toNat (window bits len (done.length + 1))) true), ?_, by simp, by simpa using length',
        by simpa using grown⟩
      simp only [next_window small inside next, marked', Option.bind_eq_bind, Option.bind_some])
  refine ⟨was', ?_, length', fun mask below => ?_⟩
  · simp only [coverWindows, check_of small, check_of room, first, rest, Option.bind_eq_bind,
      Option.bind_some, List.foldlM_map] at ran ⊢
    rw [foldl_expandBits _ (by simp; omega), marked, Option.bind_some, ran]
    rfl
  · rw [marks' mask below, List.length_drop, Option.some.injEq, decide_eq_decide,
      infix_iff_window (by simpa using short), length_ofNat]
    constructor
    · rintro ⟨j, less, rfl⟩
      have inside : j + len ≤ bits.length := by omega
      have whole := ofNat_toNat (window bits len j)
      rw [length_window inside] at whole
      exact ⟨j, inside, whole.symm⟩
    · rintro ⟨j, inside, same⟩
      exact ⟨j, by omega, by rw [same, toNat_ofNat_of_lt below]⟩

end Cover

/-- The bits of a number behind its highest one. -/
def behindMark (code : Nat) : List Bool := ofNat (Nat.log 2 code) code

section Marked
variable {len mask code : Nat}

/-- The length of a code is the place of its mark. -/
theorem log_mark (small : mask < 2 ^ len) : Nat.log 2 (2 ^ len + mask) = len := by
  rw [Nat.log_eq_iff (.inr ⟨by decide, by positivity⟩), pow_succ]
  omega

/-- The bits behind the mark. -/
theorem behindMark_eq (small : mask < 2 ^ len) : behindMark (2 ^ len + mask) = ofNat len mask := by
  rw [behindMark, log_mark small]
  apply toNat_injective (by simp)
  rw [toNat_ofNat, toNat_ofNat, Nat.add_mod_left]

/-- Each number from 2 on is a mark with bits behind it. -/
theorem exists_mark (two : 2 ≤ code) : ∃ len mask, 0 < len ∧ mask < 2 ^ len ∧ code = 2 ^ len + mask := by
  have low := Nat.pow_log_le_self 2 (show code ≠ 0 by omega)
  have high := Nat.lt_pow_succ_log_self (by decide : 1 < 2) code
  refine ⟨Nat.log 2 code, code - 2 ^ Nat.log 2 code, Nat.log_pos (by decide) two, ?_, by omega⟩
  rw [pow_succ] at high
  omega

/-- The mark is put by an exclusive or. -/
theorem xor_mark (small : mask < 2 ^ len) : 2 ^ len ^^^ mask = 2 ^ len + mask := by
  have whole : 2 ^ len + mask = 2 ^ len ||| mask := by
    simpa using Nat.two_pow_add_eq_or_of_lt small 1
  rw [whole]
  apply Nat.eq_of_testBit_eq
  intro i
  rw [Nat.testBit_xor, Nat.testBit_or, Nat.testBit_two_pow]
  by_cases top : len = i
  · subst top
    simp [Nat.testBit_lt_two_pow small]
  · simp [top]

end Marked

/-- The number of bit strings of one length bounds the length, so no check fails. -/
theorem length_bounds {bits : List Bool} (nonempty : bits ≠ []) (small : bits.length < 2 ^ 31) {len : Nat}
    (positive : 0 < len)
    (shorter : ∀ l, 0 < l → l < len → ∀ value < 2 ^ l, ofNat l value <:+: bits) :
    len ≤ bits.length ∧ len < 32 ∧ 2 ^ len ≤ bits.length * 2 := by
  have some_ := List.length_pos_of_ne_nil nonempty
  obtain ⟨l, rfl⟩ := Nat.exists_eq_succ_of_ne_zero positive.ne'
  rcases Nat.eq_zero_or_pos l with rfl | above
  · omega
  · have all := shorter l above (Nat.lt_succ_self l)
    have fits : l ≤ bits.length := by simpa using (all 0 (by positivity)).length_le
    have many := two_pow_le_of_all_infix fits all
    have grows : 2 ≤ 2 ^ l := by
      calc 2 = 2 ^ 1 := rfl
        _ ≤ 2 ^ l := Nat.pow_le_pow_right (by decide) above
    refine ⟨by omega, ?_, by rw [Nat.succ_eq_add_one, pow_succ]; omega⟩
    by_contra large
    have huge : 2 ^ 31 ≤ 2 ^ l := Nat.pow_le_pow_right (by decide) (by omega)
    omega

/-- The loop finds the least missing bit string if all strings of lesser lengths are there. -/
theorem minBitStrLoop_spec {bits : List Bool} (nonempty : bits ≠ []) (small : bits.length < 2 ^ 31)
    {fuel len : Nat} {was : List Bool} (enough : fuel + len = 257) (positive : 0 < len)
    (size : was.length = bits.length * 2)
    (shorter : ∀ l, 0 < l → l < len → ∀ value < 2 ^ l, ofNat l value <:+: bits) :
    ∃ code, minBitStrLoop (expandBits bits) fuel len was = some code ∧
      IsLeast {code | 2 ≤ code ∧ ¬ behindMark code <:+: bits} code := by
  induction fuel generalizing len was with
  | zero =>
      have few := (length_bounds nonempty small positive shorter).2.1
      omega
  | succ fuel ih =>
      obtain ⟨short, few, room⟩ := length_bounds nonempty small positive shorter
      obtain ⟨was', covered, size', marks⟩ := coverWindows_spec positive short few (size ▸ room)
      have length : (expandBits bits).length = bits.length := by simp [expandBits]
      rw [minBitStrLoop, length, if_pos short, covered, Option.bind_eq_bind, Option.bind_some]
      cases found : (List.range (2 ^ len)).find? fun mask => was'[mask]? = some false with
      | some mask =>
          obtain ⟨absent, inRange, before⟩ := List.find?_range_eq_some.mp found
          have below := List.mem_range.mp inRange
          rw [decide_eq_true_eq, marks mask below, Option.some.injEq, decide_eq_false_iff_not] at absent
          refine ⟨_, rfl, ?_⟩
          rw [xor_mark below]
          refine ⟨⟨?_, by rwa [behindMark_eq below]⟩, ?_⟩
          · have two : 2 ^ 1 ≤ 2 ^ len := Nat.pow_le_pow_right (by decide) positive
            omega
          · rintro code ⟨two, missing⟩
            obtain ⟨l, value, positiveL, belowL, rfl⟩ := exists_mark two
            rw [behindMark_eq belowL] at missing
            rcases Nat.lt_trichotomy l len with less | rfl | greater
            · exact absurd (shorter l positiveL less value belowL) missing
            · by_contra lower
              have marked := before value (by omega)
              rw [marks value belowL] at marked
              simp [missing] at marked
            · have higher : 2 ^ (len + 1) ≤ 2 ^ l := Nat.pow_le_pow_right (by decide) greater
              rw [pow_succ] at higher
              omega
      | none =>
          have all (value : Nat) (below : value < 2 ^ len) : ofNat len value <:+: bits := by
            have marked := List.find?_eq_none.mp found value (List.mem_range.mpr below)
            rw [decide_eq_true_eq, marks value below] at marked
            simpa using marked
          have next : (len + 1) % 2 ^ 8 = len + 1 := Nat.mod_eq_of_lt (by omega)
          rw [next]
          have shorter' : ∀ l, 0 < l → l < len + 1 → ∀ value < 2 ^ l, ofNat l value <:+: bits := by
            intro l positiveL less value below
            rcases Nat.lt_succ_iff_lt_or_eq.mp less with less | rfl
            · exact shorter l positiveL less value below
            · exact all value below
          exact ih (by omega) (by omega) (size'.trans size) shorter'

/-- The result is the least number whose bits behind the highest one do not occur in the text. -/
theorem getMinBitStrNotIn_least {bits : List Bool} (nonempty : bits ≠ [])
    (small : bits.length < 2 ^ 31) : ∃ code, getMinBitStrNotIn (expandBits bits) = some code ∧
      IsLeast {code | 2 ≤ code ∧ ¬ behindMark code <:+: bits} code := by
  have size : (List.replicate (bits.length * 2) false).length = bits.length * 2 := List.length_replicate
  have shorter : ∀ l, 0 < l → l < 1 → ∀ value < 2 ^ l, ofNat l value <:+: bits := by
    intro l positive less
    omega
  obtain ⟨code, ran, least⟩ := minBitStrLoop_spec nonempty small
    (show 256 + 1 = 257 from rfl) (by decide) size shorter
  refine ⟨code, ?_, least⟩
  have some_ : expandBits bits ≠ [] := by simpa [expandBits] using nonempty
  have length : (expandBits bits).length = bits.length := by simp [expandBits]
  rw [getMinBitStrNotIn, check_of some_, Option.bind_eq_bind, Option.bind_some, length]
  exact ran

theorem getMinBitStrNotIn_least_three :
    getMinBitStrNotIn (expandBits [false, true, false]) = some 4 ∧
    IsLeast {code | 2 ≤ code ∧ ¬ behindMark code <:+: [false, true, false]} 4 := by
  have run : getMinBitStrNotIn (expandBits [false, true, false]) = some 4 := by decide
  obtain ⟨code, ran, least⟩ :=
    getMinBitStrNotIn_least (show [false, true, false] ≠ [] by decide) (by decide)
  obtain rfl := Option.some.inj (run.symm.trans ran)
  exact ⟨run, least⟩

end CellBag
