import CellBag.Library.LongestFactors

/-!
The number of occurrences of a word in a text: an occurrence ends the text or goes on with a letter.
-/

namespace CellBag.Factors

variable {α : Type} [DecidableEq α] {t w : List α}

/-- The number of places where a word starts in a text, overlapping ones included. -/
def occurrences (t w : List α) : Nat := (List.range t.length).countP fun start => w <+: t.drop start

/-- A word starts as often as it ends. -/
theorem occurrences_eq (nonempty : w ≠ []) : occurrences t w = (endPositions t w).length := by
  let starts := (List.range t.length).filter fun start => w <+: t.drop start
  have shifted : (starts.map fun start => start + w.length).Perm (endPositions t w) := by
    have distinct : (starts.map fun start => start + w.length).Nodup :=
      (List.nodup_range.filter _).map (add_left_injective w.length)
    rw [List.perm_ext_iff_of_nodup distinct (nodup_endPositions t w)]
    intro e
    rw [mem_endPositions, List.mem_map]
    constructor
    · rintro ⟨start, member, rfl⟩
      obtain ⟨_, y, split⟩ : start < t.length ∧ w <+: t.drop start := by simpa [starts] using member
      have room : w.length + y.length = t.length - start := by
        rw [← List.length_append, split, List.length_drop]
      refine ⟨by omega, t.take start, ?_⟩
      rw [List.take_add, ← split, List.take_left]
    · intro ⟨inside, x, split⟩
      have long : x.length + w.length = e := by
        rw [← List.length_append, split, List.length_take]
        omega
      have positive := List.length_pos_of_ne_nil nonempty
      have whole : t = x ++ (w ++ t.drop e) := by
        rw [← List.append_assoc, split, List.take_append_drop]
      refine ⟨x.length, ?_, long⟩
      have rest : t.drop x.length = w ++ t.drop e := by
        conv_lhs => rw [whole, List.drop_left]
      simp only [starts, List.mem_filter, List.mem_range, decide_eq_true_eq]
      exact ⟨by omega, rest ▸ List.prefix_append _ _⟩
  rw [← shifted.length_eq, List.length_map, occurrences, List.countP_eq_length_filter]

/-- Another letter adds its place if the word ends there. -/
theorem endPositions_append (c : α) :
    endPositions (t ++ [c]) w =
      endPositions t w ++ if w <:+ t ++ [c] then [t.length + 1] else [] := by
  rw [endPositions, List.length_append, List.length_singleton, List.range_succ, List.filter_append]
  congr 1
  · apply List.filter_congr
    intro e member
    have inside : e ≤ t.length := Nat.lt_succ_iff.mp (List.mem_range.mp member)
    rw [List.take_append_of_le_length inside]
  · have whole : (t ++ [c]).take (t.length + 1) = t ++ [c] := List.take_of_length_le (by simp)
    by_cases ends : w <:+ t ++ [c]
    · simp [whole, ends]
    · simp [whole, ends]

/-- Another letter adds at most one place. -/
theorem length_endPositions_append (c : α) :
    (endPositions (t ++ [c]) w).length =
      (endPositions t w).length + if w <:+ t ++ [c] then 1 else 0 := by
  rw [endPositions_append, List.length_append, Nat.add_left_cancel_iff]
  split
  · rfl
  · rfl

/-- A nonempty word does not end in an empty text. -/
theorem length_endPositions_nil (c : α) : (endPositions ([] : List α) (w ++ [c])).length = 0 := by
  simp [endPositions]

/-- A word that does not occur ends nowhere. -/
theorem endPositions_eq_nil (absent : ¬ w <:+: t) : endPositions t w = [] := by
  rw [endPositions, List.filter_eq_nil_iff]
  intro e _ ends
  exact absent ((of_decide_eq_true ends).isInfix.trans (List.take_prefix e t).isInfix)

/-- A word that occurs ends somewhere. -/
theorem length_endPositions_pos (occurs : w <:+: t) : 0 < (endPositions t w).length := by
  obtain ⟨p, start, ends⟩ := occurs_iff.mp occurs
  apply List.length_pos_of_mem (a := p.length)
  rw [mem_endPositions, ← List.prefix_iff_eq_take.mp start]
  exact ⟨start.length_le, ends⟩

/-- A nonempty word ends at most once for each letter. -/
theorem length_endPositions_le (nonempty : w ≠ []) : (endPositions t w).length ≤ t.length := by
  rw [← occurrences_eq nonempty]
  exact List.countP_le_length.trans (by simp)

/-- The empty word ends everywhere. -/
theorem length_endPositions_empty : (endPositions t []).length = t.length + 1 := by
  simp [endPositions]

/-- An end of a word is the end of the text or is followed by one of the letters. -/
theorem length_endPositions_eq {letters : List α} (distinct : letters.Nodup)
    (covered : ∀ c ∈ t, c ∈ letters) :
    (endPositions t w).length = (if w <:+ t then 1 else 0) +
      (letters.map fun c => (endPositions t (w ++ [c])).length).sum := by
  induction t using List.reverseRecOn with
  | nil =>
      have none : letters.map (fun c => (endPositions [] (w ++ [c])).length) =
          letters.map fun _ => 0 :=
        List.map_congr_left fun c _ => length_endPositions_nil c
      rw [none]
      by_cases empty : w = []
      · simp [empty, endPositions]
      · simp [empty, endPositions]
  | append_singleton t a ih =>
      have known : a ∈ letters := covered a (by simp)
      have followed : (letters.map fun c => if w ++ [c] <:+ t ++ [a] then 1 else 0).sum =
          if w <:+ t then 1 else 0 := by
        rw [List.sum_map_eq_nsmul_single a, List.count_eq_one_of_mem distinct known, one_nsmul]
        · simp only [snoc_suffix_snoc, true_and]
        · intro c other _
          rw [if_neg fun ends => other (snoc_suffix_snoc.mp ends).1]
      simp only [length_endPositions_append]
      rw [List.sum_map_add, followed, ih fun c member => covered c (by simp [member])]
      omega

/-- A string whose start has only ends of the word: some nonempty prefix ends nowhere else. -/
def Reaches (t d w : List α) : Prop :=
  ∃ p ∈ d.inits, p ≠ [] ∧ ∀ e ∈ endPositions t p, e ∈ endPositions t w

instance (t d w : List α) : Decidable (Reaches t d w) :=
  inferInstanceAs (Decidable (∃ p ∈ d.inits, p ≠ [] ∧ ∀ e ∈ endPositions t p, e ∈ endPositions t w))

variable {d p : List α}

/-- A word is forced exactly if it ends wherever the other one does. -/
theorem endPositions_subset_iff :
    (∀ e ∈ endPositions t p, e ∈ endPositions t w) ↔ Forces t p w := by
  constructor
  · intro subset q start ends
    rw [suffix_iff_mem_endPositions start] at ends ⊢
    exact subset _ ends
  · intro forces e member
    rw [mem_endPositions] at member ⊢
    exact ⟨member.1, forces _ (List.take_prefix e t) member.2⟩

/-- A text reaches the words that its nonempty prefixes force. -/
theorem reaches_iff : Reaches t d w ↔ ∃ p, p <+: d ∧ p ≠ [] ∧ Forces t p w := by
  simp only [Reaches, List.mem_inits, endPositions_subset_iff]

/-- Strings that each have an end of their own are no more than the ends. -/
theorem countP_le_ends {β : Type} (reached : List β → Bool) (ends : Nat → Bool)
    (strings : List (List β)) (start : Nat)
    (each : ∀ before d after, strings = before ++ d :: after → reached d → ∃ e,
      start + before.flatten.length < e ∧ e ≤ start + before.flatten.length + d.length ∧ ends e) :
    strings.countP reached ≤ (List.range' (start + 1) strings.flatten.length).countP ends := by
  induction strings generalizing start with
  | nil => simp
  | cons d strings ih =>
      have rest := ih (start + d.length) (by
        intro before other after split counted
        obtain ⟨e, above, below, ended⟩ := each (d :: before) other after (by simp [split]) counted
        rw [List.flatten_cons, List.length_append] at above below
        exact ⟨e, by omega, by omega, ended⟩)
      have here : (if reached d then 1 else 0) ≤ (List.range' (start + 1) d.length).countP ends := by
        split
        · rename_i counted
          obtain ⟨e, above, below, ended⟩ := each [] d strings rfl counted
          simp only [List.flatten_nil, List.length_nil, Nat.add_zero] at above below
          exact List.countP_pos_iff.mpr ⟨e, List.mem_range'_1.mpr ⟨above, by omega⟩, ended⟩
        · exact Nat.zero_le _
      have parts : List.range' (start + 1) (d :: strings).flatten.length =
          List.range' (start + 1) d.length ++
            List.range' (start + d.length + 1) strings.flatten.length := by
        rw [List.flatten_cons, List.length_append, Nat.add_right_comm, List.range'_append_1]
      rw [List.countP_cons, parts, List.countP_append]
      omega

/-- A word that strings of a text reach ends at least as often. -/
theorem countP_reaches_le {strings : List (List α)} (nonempty : w ≠ []) :
    strings.countP (fun d => Reaches strings.flatten d w) ≤
      (endPositions strings.flatten w).length := by
  let ends := fun e => decide (w <:+ strings.flatten.take e)
  have counted := countP_le_ends (fun d => Reaches strings.flatten d w) ends
    strings 0 (by
      intro before d after split counted
      obtain ⟨p, ⟨x, rfl⟩, proper, forces⟩ := reaches_iff.mp (of_decide_eq_true counted)
      have positive := List.length_pos_of_ne_nil proper
      have whole : strings.flatten = (before.flatten ++ p) ++ (x ++ after.flatten) := by
        simp [split]
      have start : before.flatten ++ p <+: strings.flatten := whole ▸ List.prefix_append _ _
      refine ⟨(before.flatten ++ p).length, ?_, ?_, decide_eq_true ?_⟩
      · rw [List.length_append]
        omega
      · simp only [List.length_append]
        omega
      · rw [← List.prefix_iff_eq_take.mp start]
        exact forces _ start (List.suffix_append _ p))
  have positions : (endPositions strings.flatten w).length =
      (List.range' 1 strings.flatten.length).countP ends := by
    rw [endPositions, ← List.countP_eq_length_filter, List.range_eq_range', List.range'_succ,
      List.countP_cons_of_neg]
    simpa using nonempty
  rw [positions]
  exact counted

section Encoded
variable {β : Type} {encode : α → β} {decode : β → α}

omit [DecidableEq α] in
/-- An encoding that can be undone keeps prefixes. -/
theorem map_prefix_iff (inText : ∀ c ∈ t, decode (encode c) = c) (inWord : ∀ c ∈ w, decode (encode c) = c) :
    w.map encode <+: t.map encode ↔ w <+: t := by
  have back {word : List α} (known : ∀ c ∈ word, decode (encode c) = c) :
      (word.map encode).map decode = word := by
    rw [List.map_map]
    exact (List.map_congr_left known).trans (List.map_id word)
  constructor
  · intro start
    have decoded := start.map decode
    rwa [back inWord, back inText] at decoded
  · exact fun start => start.map encode

/-- Letters that can be told apart leave the number of occurrences. -/
theorem occurrences_map [DecidableEq β] (inText : ∀ c ∈ t, decode (encode c) = c)
    (inWord : ∀ c ∈ w, decode (encode c) = c) :
    occurrences (t.map encode) (w.map encode) = occurrences t w := by
  rw [occurrences, occurrences, List.length_map]
  refine List.countP_congr fun start _ => ?_
  rw [← List.map_drop, decide_eq_true_eq, decide_eq_true_eq]
  exact map_prefix_iff (fun c member => inText c (List.mem_of_mem_drop member)) inWord

end Encoded

/-- A nonempty word that is not in the text has no occurrence. -/
theorem occurrences_eq_zero (nonempty : w ≠ []) (absent : ¬ w <:+: t) : occurrences t w = 0 := by
  rw [occurrences_eq nonempty, endPositions_eq_nil absent, List.length_nil]

end CellBag.Factors
