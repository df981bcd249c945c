import Mathlib.Tactic

/-!
Words that occur in a text, up to the places where they end: each class of words with the same ends
has a longest member. An appended letter adds at most two longest words.
-/

namespace CellBag.Factors

variable {α : Type}

/-- `v` ends wherever `w` ends; an end is the prefix of the text up to it. -/
def Forces (t w v : List α) : Prop := ∀ p, p <+: t → w <:+ p → v <:+ p

/-- A word that occurs and is longest among the words with its ends. -/
structure Longest (t w : List α) : Prop where
  occurs : w <:+: t
  unique : ∀ v, w <:+ v → Forces t w v → v = w

/-- The longest word with the ends of a word. -/
structure Extends (t w v : List α) : Prop where
  suffix : w <:+ v
  forces : Forces t w v
  longest : Longest t v

/-- The longest of the proper suffixes that are longest words. -/
structure Links (t w l : List α) : Prop where
  suffix : l <:+ w
  proper : l ≠ w
  longest : Longest t l
  covers : ∀ u, Longest t u → u <:+ w → u ≠ w → u <:+ l

/-- A word occurs in a text if it ends one of the text's starts. -/
theorem occurs_iff {t w : List α} : w <:+: t ↔ ∃ p, p <+: t ∧ w <:+ p := by
  rw [List.infix_iff_suffix_prefix]
  exact exists_congr fun _ => and_comm

/-- Suffixes of one word are comparable. -/
theorem suffix_total {u v p : List α} (first : u <:+ p) (second : v <:+ p) : u <:+ v ∨ v <:+ u :=
  List.suffix_or_suffix_of_suffix first second

/-- Suffixes of each other are equal. -/
theorem suffix_antisymm {u v : List α} (first : u <:+ v) (second : v <:+ u) : u = v :=
  first.eq_of_length (Nat.le_antisymm first.length_le second.length_le)

/-- Of two suffixes of a word the shorter one is a suffix of the longer one. -/
theorem suffix_of_length_le {u v p : List α} (first : u <:+ p) (second : v <:+ p)
    (shorter : u.length ≤ v.length) : u <:+ v :=
  List.suffix_of_suffix_length_le first second shorter

/-- The empty word is longest. -/
theorem longest_nil (t : List α) : Longest t [] := by
  refine ⟨List.nil_infix, fun v _ forces => ?_⟩
  exact List.suffix_nil.mp (forces [] (List.nil_prefix) (List.suffix_refl []))

/-- Each start of the text is longest. -/
theorem longest_of_start {t p : List α} (start : p <+: t) : Longest t p := by
  refine ⟨start.isInfix, fun v suffix forces => ?_⟩
  exact suffix_antisymm (forces p start (List.suffix_refl p)) suffix

/-- A longest word is its own extension. -/
theorem Longest.extends {t w : List α} (longest : Longest t w) : Extends t w w :=
  ⟨List.suffix_refl w, fun _ _ ends => ends, longest⟩

/-- Every occurring word has a longest word with its ends. -/
theorem exists_extends {t w : List α} (occurs : w <:+: t) : ∃ v, Extends t w v := by
  induction room : t.length - w.length using Nat.strongRecOn generalizing w with
  | ind room ih =>
      by_cases longest : Longest t w
      · exact ⟨w, longest.extends⟩
      · have longer : ∃ v, w <:+ v ∧ Forces t w v ∧ v ≠ w := by
          by_contra absent
          push Not at absent
          exact longest ⟨occurs, fun v suffix forces => absent v suffix forces⟩
        obtain ⟨v, suffix, forces, different⟩ := longer
        obtain ⟨p, start, ends⟩ := occurs_iff.mp occurs
        have occursV : v <:+: t := occurs_iff.mpr ⟨p, start, forces p start ends⟩
        have grew : w.length < v.length :=
          lt_of_le_of_ne suffix.length_le fun same => different (suffix.eq_of_length same).symm
        have fits := occursV.length_le
        obtain ⟨u, suffixU, forcesU, longestU⟩ := ih _ (by omega) occursV rfl
        exact ⟨u, suffix.trans suffixU, fun p start ends => forcesU p start (forces p start ends),
          longestU⟩

/-- A word that has an extension occurs. -/
theorem Extends.occurs {t w v : List α} (ext : Extends t w v) : w <:+: t :=
  ext.suffix.isInfix.trans ext.longest.occurs

/-- A longest word between a word and its extension is the extension. -/
theorem Extends.eq_of_between {t w v u : List α} (ext : Extends t w v) (above : w <:+ u)
    (below : u <:+ v) (longest : Longest t u) : v = u :=
  longest.unique v below fun p start ends => ext.forces p start (above.trans ends)

/-- A word between a word and its extension has the same extension. -/
theorem Extends.between {t w v u : List α} (ext : Extends t w v) (above : w <:+ u)
    (below : u <:+ v) : Extends t u v :=
  ⟨below, fun p start ends => ext.forces p start (above.trans ends), ext.longest⟩

/-- The extension of a word is unique. -/
theorem Extends.unique {t w u v : List α} (first : Extends t w u) (second : Extends t w v) :
    u = v := by
  obtain ⟨p, start, ends⟩ := occurs_iff.mp first.occurs
  rcases suffix_total (first.forces p start ends) (second.forces p start ends) with below | below
  · exact (second.eq_of_between first.suffix below first.longest).symm
  · exact first.eq_of_between second.suffix below second.longest

/-- A word and its extension have the same ends. -/
theorem Extends.ends_iff {t w v p : List α} (ext : Extends t w v) (start : p <+: t) :
    w <:+ p ↔ v <:+ p :=
  ⟨ext.forces p start, ext.suffix.trans⟩

/-- A longest word that ends with a word ends with its extension. -/
theorem Extends.suffix_longest {t w v u : List α} (ext : Extends t w v) (above : w <:+ u)
    (longest : Longest t u) : v <:+ u := by
  obtain ⟨p, start, ends⟩ := occurs_iff.mp longest.occurs
  rcases suffix_total (ext.forces p start (above.trans ends)) ends with below | below
  · exact below
  · rw [ext.eq_of_between above below longest]

/-- A word forces just the words that its extension ends with. -/
theorem Extends.forces_iff {t w v u : List α} (ext : Extends t w v) :
    Forces t w u ↔ u <:+ v := by
  constructor
  · intro forces
    obtain ⟨p, start, ends⟩ := occurs_iff.mp ext.occurs
    rcases suffix_total (ext.forces p start ends) (forces p start ends) with above | below
    · have same := ext.longest.unique u above fun q startQ endsV =>
        forces q startQ (ext.suffix.trans endsV)
      rw [same]
    · exact below
  · intro below q start ends
    exact below.trans (ext.forces q start ends)

/-- A prefix of a word has other ends: at its first end the word is yet to come. -/
theorem Extends.prefix_eq {x y v : List α} (first : Extends t x v) (second : Extends t y v)
    (start : x <+: y) : x = y := by
  obtain ⟨z, rfl⟩ := start
  obtain ⟨p, startP, ends⟩ := occurs_iff.mp first.occurs
  induction room : p.length using Nat.strongRecOn generalizing p with
  | ind room ih =>
      obtain ⟨q, split⟩ := (second.ends_iff startP).mpr (first.forces p startP ends)
      by_cases empty : z = []
      · rw [empty, List.append_nil]
      · have positive := List.length_pos_of_ne_nil empty
        rw [← List.append_assoc] at split
        have earlier : q ++ x <+: t := (List.prefix_append _ z).trans (split ▸ startP)
        have length := congrArg List.length split
        rw [List.length_append] at length
        exact ih (q ++ x).length (by omega) (q ++ x) earlier (List.suffix_append q x) rfl

/-- The link of a word is shorter. -/
theorem Links.length_lt {t w l : List α} (links : Links t w l) : l.length < w.length :=
  lt_of_le_of_ne links.suffix.length_le fun same => links.proper (links.suffix.eq_of_length same)

/-- The words with the ends of a longest word are its suffixes longer than the link. -/
theorem Links.extends_iff {t w l u : List α} (links : Links t w l) (longest : Longest t w)
    (below : u <:+ w) : Extends t u w ↔ l.length < u.length := by
  constructor
  · intro ext
    by_contra short
    have inner := suffix_of_length_le below links.suffix (Nat.le_of_not_lt short)
    exact links.proper (ext.eq_of_between inner links.suffix links.longest).symm
  · intro longer
    obtain ⟨v, ext⟩ := exists_extends (below.isInfix.trans longest.occurs)
    by_cases same : v = w
    · exact same ▸ ext
    · have inner := links.covers v ext.longest (ext.suffix_longest below longest) same
      have := inner.length_le
      have := ext.suffix.length_le
      omega

/-- A suffix with other ends is at most as long as the link. -/
theorem Links.length_le {t w l u v : List α} (links : Links t w l) (longest : Longest t w)
    (below : u <:+ w) (ext : Extends t u v) (other : v ≠ w) : u.length ≤ l.length := by
  by_contra longer
  exact other (ext.unique ((links.extends_iff longest below).mpr (Nat.lt_of_not_le longer)))

section Append

variable {t : List α} {c : α}

/-- A start of the longer text is the whole or a start of the shorter one. -/
theorem prefix_append_iff {p : List α} : p <+: t ++ [c] ↔ p = t ++ [c] ∨ p <+: t :=
  List.prefix_concat_iff

/-- A start of the text starts the longer text. -/
theorem prefix_append {p : List α} (start : p <+: t) : p <+: t ++ [c] :=
  start.trans (List.prefix_append t [c])

/-- What occurs in the text occurs in the longer one. -/
theorem occurs_append {w : List α} (occurs : w <:+: t) : w <:+: t ++ [c] :=
  occurs.trans (List.prefix_append t [c]).isInfix

/-- The whole new text does not occur in the old one. -/
theorem ne_whole {w : List α} (occurs : w <:+: t) : w ≠ t ++ [c] := by
  intro equal
  subst equal
  have long := occurs.length_le
  simp at long

/-- Longest words stay longest. -/
theorem Longest.append {w : List α} (longest : Longest t w) : Longest (t ++ [c]) w :=
  ⟨occurs_append longest.occurs, fun v suffix forces =>
    longest.unique v suffix fun p start => forces p (prefix_append start)⟩

/-- The longest suffix of the new text that occurs in the old one. -/
structure Border (t : List α) (c : α) (z : List α) : Prop where
  suffix : z <:+ t ++ [c]
  occurs : z <:+: t
  covers : ∀ w, w <:+ t ++ [c] → w <:+: t → w <:+ z

/-- The border is a longest word of the longer text. -/
theorem Border.longest {z : List α} (border : Border t c z) : Longest (t ++ [c]) z := by
  refine ⟨border.suffix.isInfix, fun v suffix forces => ?_⟩
  obtain ⟨p, start, ends⟩ := occurs_iff.mp border.occurs
  have below := border.covers v (forces _ (List.prefix_refl _) border.suffix)
    (occurs_iff.mpr ⟨p, start, forces p (prefix_append start) ends⟩)
  exact suffix_antisymm below suffix

/-- The appended letter adds at most the whole text and its border to the longest words. -/
theorem Border.longest_cases {z w : List α} (border : Border t c z) (longest : Longest (t ++ [c]) w) :
    w = t ++ [c] ∨ w = z ∨ Longest t w := by
  by_cases occurs : w <:+: t
  · by_cases old : Longest t w
    · exact .inr (.inr old)
    · obtain ⟨v, ext⟩ := exists_extends occurs
      have different : v ≠ w := fun same => old (same ▸ ext.longest)
      -- the new end of `w` is not an end of `v`
      have ends : w <:+ t ++ [c] ∧ ¬ v <:+ t ++ [c] := by
        by_contra kept
        refine different (longest.unique v ext.suffix fun p start endsW => ?_)
        rcases prefix_append_iff.mp start with rfl | start
        · exact not_not.mp fun absent => kept ⟨endsW, absent⟩
        · exact ext.forces p start endsW
      have below := border.covers w ends.1 occurs
      obtain ⟨p, start, endsZ⟩ := occurs_iff.mp border.occurs
      have inside : z <:+ v := by
        rcases suffix_total (ext.forces p start (below.trans endsZ)) endsZ with inside | inside
        · exact absurd (inside.trans border.suffix) ends.2
        · exact inside
      refine .inr (.inl (longest.unique z below fun p start endsW => ?_).symm)
      rcases prefix_append_iff.mp start with rfl | start
      · exact border.suffix
      · exact inside.trans (ext.forces p start endsW)
  · refine .inl (longest.unique (t ++ [c]) ?_ fun p start endsW => ?_).symm
    · obtain ⟨p, start, endsW⟩ := occurs_iff.mp longest.occurs
      rcases prefix_append_iff.mp start with rfl | start
      · exact endsW
      · exact absurd (occurs_iff.mpr ⟨p, start, endsW⟩) occurs
    · rcases prefix_append_iff.mp start with rfl | start
      · exact List.suffix_refl _
      · exact absurd (occurs_iff.mpr ⟨p, start, endsW⟩) occurs

/-- A word that does not end the new text keeps its extension. -/
theorem Extends.append_of_not_suffix {w v : List α} (ext : Extends t w v)
    (apart : ¬ w <:+ t ++ [c]) : Extends (t ++ [c]) w v := by
  refine ⟨ext.suffix, fun p start ends => ?_, ext.longest.append⟩
  rcases prefix_append_iff.mp start with rfl | start
  · exact absurd ends apart
  · exact ext.forces p start ends

/-- A word whose extension ends the new text keeps its extension. -/
theorem Extends.append_of_suffix {w v : List α} (ext : Extends t w v) (ends : v <:+ t ++ [c]) :
    Extends (t ++ [c]) w v := by
  refine ⟨ext.suffix, fun p start endsW => ?_, ext.longest.append⟩
  rcases prefix_append_iff.mp start with rfl | start
  · exact ends
  · exact ext.forces p start endsW

/-- A suffix of the border whose extension is longer now extends to the border. -/
theorem Extends.append_border {z w v : List α} (ext : Extends t w v) (border : Border t c z)
    (below : w <:+ z) (above : z <:+ v) : Extends (t ++ [c]) w z := by
  refine ⟨below, fun p start ends => ?_, border.longest⟩
  rcases prefix_append_iff.mp start with rfl | start
  · exact border.suffix
  · exact above.trans (ext.forces p start ends)

/-- A suffix of the new text that is new extends to the whole text. -/
theorem extends_whole {w : List α} (ends : w <:+ t ++ [c]) (fresh : ¬ w <:+: t) :
    Extends (t ++ [c]) w (t ++ [c]) := by
  refine ⟨ends, fun p start endsW => ?_, longest_of_start (List.prefix_refl _)⟩
  rcases prefix_append_iff.mp start with rfl | start
  · exact List.suffix_refl _
  · exact absurd (occurs_iff.mpr ⟨p, start, endsW⟩) fresh

/-- The extension of a suffix of the border is comparable with the border. -/
theorem Border.extends_cases {z w v : List α} (border : Border t c z) (ext : Extends t w v)
    (ends : w <:+ t ++ [c]) : w <:+ z ∧ (v <:+ z ∨ z <:+ v) := by
  have below := border.covers w ends ext.occurs
  obtain ⟨p, start, endsZ⟩ := occurs_iff.mp border.occurs
  exact ⟨below, suffix_total (ext.forces p start (below.trans endsZ)) endsZ⟩

/-- Words that end in a letter each are suffixes of one another by their last letters and the rest. -/
theorem snoc_suffix_snoc {y u : List α} {d : α} : y ++ [d] <:+ u ++ [c] ↔ d = c ∧ y <:+ u := by
  constructor
  · intro ⟨x, split⟩
    rw [← List.append_assoc] at split
    obtain ⟨rfl, same⟩ := List.append_inj' split rfl
    exact ⟨List.singleton_inj.mp same, x, rfl⟩
  · rintro ⟨rfl, x, rfl⟩
    exact ⟨x, by simp⟩

/-- An occurrence of a word and a letter is an occurrence of the word with the letter behind it. -/
theorem occurs_snoc_iff {y : List α} {d : α} :
    y ++ [d] <:+: t ↔ ∃ p, p ++ [d] <+: t ∧ y <:+ p := by
  rw [occurs_iff]
  constructor
  · intro ⟨p, start, ends⟩
    obtain ⟨x, rfl⟩ := ends
    exact ⟨x ++ y, by simpa using start, x, rfl⟩
  · intro ⟨p, start, ends⟩
    exact ⟨p ++ [d], start, snoc_suffix_snoc.mpr ⟨rfl, ends⟩⟩

/-- The border ends with the letter if a suffix occurs with it. -/
theorem border_snoc {y : List α} (ends : y <:+ t) (occurs : y ++ [c] <:+: t)
    (covers : ∀ u, Longest t u → u <:+ t → u ++ [c] <:+: t → u <:+ y) : Border t c (y ++ [c]) := by
  refine ⟨snoc_suffix_snoc.mpr ⟨rfl, ends⟩, occurs, fun w endsW occursW => ?_⟩
  rcases List.suffix_concat_iff.mp endsW with rfl | ⟨u, rfl, endsU⟩
  · exact List.nil_suffix
  · obtain ⟨v, ext⟩ := exists_extends endsU.isInfix
    have endsV := ext.forces t (List.prefix_refl t) endsU
    obtain ⟨p, start, endsP⟩ := occurs_snoc_iff.mp occursW
    have occursV : v ++ [c] <:+: t := occurs_snoc_iff.mpr
      ⟨p, start, ext.forces p ((List.prefix_append p [c]).trans start) endsP⟩
    exact snoc_suffix_snoc.mpr ⟨rfl, ext.suffix.trans (covers v ext.longest endsV occursV)⟩

/-- The border is empty if no suffix occurs with the letter. -/
theorem border_nil (absent : ∀ u, Longest t u → u <:+ t → ¬ u ++ [c] <:+: t) : Border t c [] := by
  refine ⟨List.nil_suffix, List.nil_infix, fun w endsW occursW => ?_⟩
  rcases List.suffix_concat_iff.mp endsW with rfl | ⟨u, rfl, endsU⟩
  · exact List.nil_suffix
  · obtain ⟨p, start, _⟩ := occurs_snoc_iff.mp occursW
    exact absurd (occurs_snoc_iff.mpr ⟨p, start, List.nil_suffix⟩)
      (absent [] (longest_nil t) List.nil_suffix)

/-- Words with the same ends have the same ends with a letter behind them. -/
theorem Extends.snoc_of {s t z v u : List α} {d : α} (ext : Extends t z v)
    (starts : ∀ p, p ++ [d] <+: s → p <+: t) (next : Extends s (v ++ [d]) u) :
    Extends s (z ++ [d]) u := by
  refine ⟨(snoc_suffix_snoc.mpr ⟨rfl, ext.suffix⟩).trans next.suffix, fun p start ends => ?_,
    next.longest⟩
  apply next.forces p start
  obtain ⟨x, rfl⟩ := ends
  rw [← List.append_assoc] at start ⊢
  exact snoc_suffix_snoc.mpr ⟨rfl, ext.forces _ (starts _ start) (List.suffix_append x z)⟩

/-- A letter that follows a word follows its extension at the same places. -/
theorem Extends.occurs_snoc_of {s t z v : List α} {d : α} (ext : Extends t z v)
    (starts : ∀ p, p ++ [d] <+: s → p <+: t) (occurs : z ++ [d] <:+: s) : v ++ [d] <:+: s := by
  obtain ⟨p, start, ends⟩ := occurs_snoc_iff.mp occurs
  exact occurs_snoc_iff.mpr ⟨p, start, ext.forces p (starts p start) ends⟩

/-- Without its last letter a start is a start. -/
theorem prefix_of_snoc {p : List α} {d : α} (start : p ++ [d] <+: t) : p <+: t :=
  (List.prefix_append p [d]).trans start

/-- Without its last letter a start of the longer text starts the shorter one. -/
theorem prefix_of_snoc_append {p : List α} {d : α} (start : p ++ [d] <+: t ++ [c]) : p <+: t := by
  rcases prefix_append_iff.mp start with same | start
  · rw [(List.append_inj' same rfl).1]
  · exact prefix_of_snoc start

/-- A word with a letter behind it has the extension that its own extension has with that letter. -/
theorem Extends.snoc {z v u : List α} {d : α} (ext : Extends t z v)
    (next : Extends (t ++ [c]) (v ++ [d]) u) : Extends (t ++ [c]) (z ++ [d]) u :=
  ext.snoc_of (fun _ => prefix_of_snoc_append) next

/-- A letter that follows a word follows its extension. -/
theorem Extends.occurs_snoc {z v : List α} {d : α} (ext : Extends t z v)
    (occurs : z ++ [d] <:+: t ++ [c]) : v ++ [d] <:+: t ++ [c] :=
  ext.occurs_snoc_of (fun _ => prefix_of_snoc_append) occurs

/-- The whole text links to its border. -/
theorem Border.links_whole {z : List α} (border : Border t c z) :
    Links (t ++ [c]) (t ++ [c]) z := by
  refine ⟨border.suffix, ne_whole border.occurs, border.longest, fun u longest ends different => ?_⟩
  rcases border.longest_cases longest with whole | rfl | old
  · exact absurd whole different
  · exact List.suffix_refl u
  · exact border.covers u ends old.occurs

/-- A longest word keeps its link, unless it is the extension of a new border. -/
theorem Links.append {z w l v : List α} (links : Links t w l) (longest : Longest t w)
    (border : Border t c z) (ext : Extends t z v) (kept : z = v ∨ w ≠ v) : Links (t ++ [c]) w l := by
  refine ⟨links.suffix, links.proper, links.longest.append, fun u longestU below different => ?_⟩
  rcases border.longest_cases longestU with rfl | rfl | old
  · exact absurd (below.isInfix.trans longest.occurs) fun occurs => ne_whole occurs rfl
  · rcases kept with rfl | other
    · exact links.covers u ext.longest below different
    · have above := ext.suffix_longest below longest
      exact ext.suffix.trans (links.covers v ext.longest above (Ne.symm other))
  · exact links.covers u old below different

/-- The longest proper suffixes of the extension of a new border are those of the border. -/
theorem Extends.suffix_border {z v u : List α} (ext : Extends t z v) (longest : Longest t u)
    (below : u <:+ v) (different : u ≠ v) : u <:+ z := by
  rcases suffix_total below ext.suffix with inside | inside
  · exact inside
  · exact absurd (ext.eq_of_between inside below longest).symm different

/-- The extension of a new border links to the border. -/
theorem Border.links_extension {z v : List α} (border : Border t c z) (ext : Extends t z v)
    (split : z ≠ v) : Links (t ++ [c]) v z := by
  refine ⟨ext.suffix, split, border.longest, fun u longest below different => ?_⟩
  rcases border.longest_cases longest with rfl | rfl | old
  · exact absurd (below.isInfix.trans ext.longest.occurs) fun occurs => ne_whole occurs rfl
  · exact List.suffix_refl u
  · exact ext.suffix_border old below different

/-- A new border takes the link of its extension. -/
theorem Border.links_border {z v l : List α} (border : Border t c z) (ext : Extends t z v)
    (split : z ≠ v) (links : Links t v l) : Links (t ++ [c]) z l := by
  have inside := ext.suffix_border links.longest links.suffix links.proper
  have notLongest : ¬ Longest t z := fun longest =>
    split (ext.eq_of_between (List.suffix_refl z) ext.suffix longest).symm
  refine ⟨inside, ?_, links.longest.append, fun u longest below different => ?_⟩
  · intro equal
    subst equal
    exact notLongest links.longest
  · rcases border.longest_cases longest with rfl | rfl | old
    · exact absurd (below.isInfix.trans border.occurs) fun occurs => ne_whole occurs rfl
    · exact absurd rfl different
    · apply links.covers u old (below.trans ext.suffix)
      intro equal
      subst equal
      exact split (suffix_antisymm ext.suffix below)

end Append

section Transitions

variable {t : List α}

/-- The prefixes of longest words are longest. -/
theorem Longest.of_start {w x : List α} (longest : Longest t w) (start : x <+: w) : Longest t x := by
  obtain ⟨z, rfl⟩ := start
  refine ⟨(List.prefix_append x z).isInfix.trans longest.occurs, fun v suffix forces => ?_⟩
  obtain ⟨y, rfl⟩ := suffix
  have longer : y ++ x ++ z = x ++ z := by
    refine longest.unique _ ⟨y, by simp⟩ fun p startP ends => ?_
    obtain ⟨q, rfl⟩ := ends
    rw [← List.append_assoc] at startP ⊢
    obtain ⟨u, same⟩ := forces (q ++ x) ((List.prefix_append _ z).trans startP) (List.suffix_append q x)
    exact ⟨u, by rw [← same]; simp⟩
  exact List.append_cancel_right longer

/-- At a longest word and a letter behind it that are no longest word together a suffix of the text leaves
the longest words. -/
structure Leaves (t y : List α) (edge : List α × α) : Prop where
  longest : Longest t edge.1
  notLongest : ¬ Longest t (edge.1 ++ [edge.2])
  start : edge.1 ++ [edge.2] <+: y

/-- A word that leaves the tree leaves it at one place. -/
theorem Leaves.unique {y : List α} {first second : List α × α} (leaves : Leaves t y first)
    (others : Leaves t y second) : first = second := by
  have inner {a b : List α × α} (leavesA : Leaves t y a) (leavesB : Leaves t y b)
      (below : a.1 ++ [a.2] <+: b.1 ++ [b.2]) : a.1 ++ [a.2] = b.1 ++ [b.2] :=
    (List.prefix_concat_iff.mp below).resolve_right fun earlier =>
      leavesA.notLongest (leavesB.longest.of_start earlier)
  have same : first.1 ++ [first.2] = second.1 ++ [second.2] := by
    rcases List.prefix_or_prefix_of_prefix leaves.start others.start with below | below
    · exact inner leaves others below
    · exact (inner others leaves below).symm
  obtain ⟨word, letter⟩ := List.append_inj' same rfl
  exact Prod.ext word (List.singleton_inj.mp letter)

end Transitions

section Ends

variable [DecidableEq α] {t z : List α} {c : α}

end Ends

section Positions

variable [DecidableEq α]

/-- The places where a word ends, as lengths of prefixes of the text. -/
def endPositions (t w : List α) : List Nat :=
  (List.range (t.length + 1)).filter fun e => w <:+ t.take e

theorem mem_endPositions {t w : List α} {e : Nat} :
    e ∈ endPositions t w ↔ e ≤ t.length ∧ w <:+ t.take e := by
  simp [endPositions]

theorem nodup_endPositions (t w : List α) : (endPositions t w).Nodup :=
  List.nodup_range.filter _

/-- A word ends a start of the text exactly if that place is an end position of it. -/
theorem suffix_iff_mem_endPositions {t p w : List α} (start : p <+: t) :
    w <:+ p ↔ p.length ∈ endPositions t w := by
  rw [mem_endPositions, ← List.prefix_iff_eq_take.mp start, and_iff_right start.length_le]

/-- Equal places are equal ends. -/
theorem endPositions_eq_iff {t w u : List α} :
    endPositions t w = endPositions t u ↔ ∀ p, p <+: t → (w <:+ p ↔ u <:+ p) := by
  constructor
  · intro same p start
    rw [suffix_iff_mem_endPositions start, suffix_iff_mem_endPositions start, same]
  · intro same
    apply List.filter_congr
    intro e _
    rw [decide_eq_decide]
    exact same _ (List.take_prefix e t)

/-- A word and its extension end at the same places. -/
theorem Extends.endPositions_eq {t w v : List α} (ext : Extends t w v) :
    endPositions t w = endPositions t v :=
  endPositions_eq_iff.mpr fun _ start => ext.ends_iff start

end Positions

end CellBag.Factors
