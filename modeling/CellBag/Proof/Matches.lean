import CellBag.Library.CommonPrefix
import CellBag.Proof.SuffAut

/-!
The matches of a position are the longest common prefixes with earlier positions.
-/

namespace CellBag.SuffixAutomaton
open CellBag.Factors CommonPrefix

/-- The constructor builds the automaton of the reversed string. -/
theorem ofString_built {C : Nat} {s : List Nat} (letters : ∀ c ∈ s, c < C) :
    ∃ base view word, SuffAut.ofString C s = some ⟨base, s, [], [], 0, 0⟩ ∧
      Built C s.reverse base view word := by
  obtain ⟨base, view, word, run, built, _⟩ := addC_run (t := s.reverse)
    fun c member => letters c (List.mem_reverse.mp member)
  exact ⟨base, view, word, by simp [SuffAut.ofString, run], built⟩

section Text
variable {C : Nat} {t : List Nat} {view : View} {word : Nat → List Nat}

/-- A walk along a prefix of the text passes the nodes of its prefixes. -/
theorem walkBack_spec (represents : Represents C t view word) (letters : ∀ c ∈ t, c < C)
    (rest : List Nat) (v : Nat) (live : view.Live v) (split : word v ++ rest = t) :
    ∃ vs, walkBack (view.nodes C) v rest = some vs ∧ vs.length = rest.length ∧
      ∀ k u, vs[k]? = some u → view.Live u ∧ word u = word v ++ rest.take (k + 1) := by
  induction rest generalizing v with
  | nil => exact ⟨[], rfl, rfl, fun k u look => by simp at look⟩
  | cons c rest ih =>
      have letter : c < C := letters c (split ▸ by simp)
      have start : word v ++ [c] <+: t := ⟨rest, by simpa using split⟩
      obtain ⟨liveN, ext⟩ := represents.follow live letter (represents.longest v live).extends
        start.isInfix
      have same : word (view.next v c) = word v ++ [c] := ext.unique (longest_of_start start).extends
      obtain ⟨vs, run, long, passed⟩ := ih (view.next v c) liveN (by simpa [same] using split)
      refine ⟨view.next v c :: vs, ?_, by simp [long], fun k u look => ?_⟩
      · have positive : v ≠ 0 := Nat.ne_of_gt live.1
        simp [walkBack, check_of positive, View.nodes_at live.2, View.node_target letter, run]
      · cases k with
        | zero =>
            simp only [List.getElem?_cons_zero, Option.some.injEq] at look
            subst look
            exact ⟨liveN, by simp [same]⟩
        | succ k =>
            obtain ⟨liveU, equal⟩ := passed k u look
            exact ⟨liveU, by simp [equal, same]⟩

end Text

/-- The last position before `i` whose suffix starts with the reversed word. -/
def recent (s : List Nat) (w : List Nat) : Nat → Option Nat
  | 0 => none
  | i + 1 => if w <:+ (s.drop i).reverse then some i else recent s w i

/-- What `recent` finds is the last earlier start at which the word begins. -/
theorem recent_eq_some {s w : List Nat} {i start : Nat} (found : recent s w i = some start) :
    start < i ∧ w <:+ (s.drop start).reverse ∧
      ∀ j, start < j → j < i → ¬ w <:+ (s.drop j).reverse := by
  induction i with
  | zero => simp [recent] at found
  | succ i ih =>
      rw [recent] at found
      split at found
      · rename_i ends
        obtain rfl := Option.some.inj found
        exact ⟨Nat.lt_succ_self _, ends, fun j after before => by omega⟩
      · rename_i missing
        obtain ⟨earlier, ends, latest⟩ := ih found
        refine ⟨Nat.lt_succ_of_lt earlier, ends, fun j after before => ?_⟩
        rcases Nat.eq_or_lt_of_le (Nat.le_of_lt_succ before) with rfl | inside
        · exact missing
        · exact latest j after inside

/-- If the word begins earlier, `recent` finds a start. -/
theorem exists_recent {s w : List Nat} {i j : Nat} (earlier : j < i)
    (ends : w <:+ (s.drop j).reverse) : ∃ start, recent s w i = some start := by
  induction i with
  | zero => omega
  | succ i ih =>
      rw [recent]
      by_cases here : w <:+ (s.drop i).reverse
      · exact ⟨i, if_pos here⟩
      · rw [if_neg here]
        refine ih (lt_of_le_of_ne (Nat.le_of_lt_succ earlier) ?_)
        intro equal
        subst equal
        exact here ends

/-- The nodes that the links of `u` lead to, with `u` itself. -/
def Below (word : Nat → List Nat) (u v : Nat) : Prop := u ≠ 0 ∧ word v <:+ word u

/-- The marks of the nodes after the positions before `i`. -/
def Marked (s : List Nat) (view : View) (word : Nat → List Nat) (m i : Nat)
    (lastSuff : List (Option Nat)) : Prop :=
  ∀ v, view.Live v → m ≤ (word v).length → lastSuff[v]? = some (recent s (word v) i)

/-- The matches of position `i` in link order. -/
structure Chained (s : List Nat) (view : View) (word : Nat → List Nat) (m i u : Nat)
    (res : List Match) : Prop where
  sound : ∀ found ∈ res, ∃ v, view.Live v ∧ Below word u v ∧ m ≤ (word v).length ∧
    recent s (word v) i = some found.start ∧ found.len = (word v).length
  complete : ∀ v start, view.Live v → Below word u v → m ≤ (word v).length →
    recent s (word v) i = some start → ⟨start, (word v).length⟩ ∈ res
  decreasing : res.Pairwise fun first second => second.len < first.len

section Loop
variable {C m i : Nat} {s t : List Nat} {view : View} {word : Nat → List Nat}

/-- Below a state are itself and what is below its link. -/
theorem Represents.below_iff (represents : Represents C t view word) {u v : Nat}
    (liveU : view.Live u) (liveV : view.Live v) :
    Below word u v ↔ v = u ∨ Below word (view.link u) v := by
  have running : u ≠ 0 := Nat.ne_of_gt liveU.1
  constructor
  · intro ⟨_, below⟩
    by_cases same : v = u
    · exact .inl same
    · have different : word v ≠ word u := fun equal =>
        same (represents.injective v u liveV liveU equal)
      rcases represents.link u liveU with ⟨empty, _⟩ | ⟨liveL, links⟩
      · rw [empty] at below different
        exact absurd (List.suffix_nil.mp below) different
      · exact .inr ⟨Nat.ne_of_gt liveL.1, links.covers _ (represents.longest v liveV) below different⟩
  · rintro (rfl | ⟨linked, below⟩)
    · exact ⟨running, List.suffix_refl _⟩
    · rcases represents.link u liveU with ⟨_, zero⟩ | ⟨liveL, links⟩
      · exact absurd zero linked
      · exact ⟨running, below.trans links.suffix⟩

/-- A state is not below its link. -/
theorem Represents.not_below_link (represents : Represents C t view word) {u : Nat}
    (live : view.Live u) : ¬ Below word (view.link u) u := by
  intro ⟨linked, below⟩
  rcases represents.link u live with ⟨_, zero⟩ | ⟨_, links⟩
  · exact linked zero
  · exact links.proper (suffix_antisymm links.suffix below)

/-- The turn at `u` adds its match before those of its link. -/
theorem Chained.cons (represents : Represents C t view word) {u : Nat} {res : List Match}
    (live : view.Live u) (long : m ≤ (word u).length)
    (chained : Chained s view word m i (view.link u) res) :
    Chained s view word m i u (match recent s (word u) i with
      | some start => ⟨start, (word u).length⟩ :: res
      | none => res) := by
  have sub : ∀ found, found ∈ res → ∃ v, view.Live v ∧ Below word u v ∧ m ≤ (word v).length ∧
      recent s (word v) i = some found.start ∧ found.len = (word v).length := by
    intro found member
    obtain ⟨v, liveV, below, rest⟩ := chained.sound found member
    exact ⟨v, liveV, (represents.below_iff live liveV).mpr (.inr below), rest⟩
  cases seen : recent s (word u) i with
  | none =>
      refine ⟨sub, fun v start liveV below longV found => ?_, chained.decreasing⟩
      rcases (represents.below_iff live liveV).mp below with rfl | below
      · rw [seen] at found
        cases found
      · exact chained.complete v start liveV below longV found
  | some start =>
      constructor
      · intro found member
        rcases List.mem_cons.mp member with rfl | member
        · exact ⟨u, live, ⟨Nat.ne_of_gt live.1, List.suffix_refl _⟩, long, seen, rfl⟩
        · exact sub found member
      · intro v start' liveV below longV found
        rcases (represents.below_iff live liveV).mp below with rfl | below
        · rw [seen, Option.some.injEq] at found
          exact List.mem_cons.mpr (.inl (found ▸ rfl))
        · exact List.mem_cons_of_mem _ (chained.complete v start' liveV below longV found)
      · refine List.pairwise_cons.mpr ⟨fun found member => ?_, chained.decreasing⟩
        obtain ⟨v, liveV, ⟨linked, below⟩, _, _, len⟩ := chained.sound found member
        rcases represents.link u live with ⟨_, zero⟩ | ⟨_, links⟩
        · exact absurd zero linked
        · have shorter := links.length_lt
          have := below.length_le
          simp only [len]
          omega

/-- A loop that stops at once leaves no match and no mark. -/
theorem Chained.stop {u : Nat} (nothing : ∀ v, Below word u v → ¬ m ≤ (word v).length) :
    Chained s view word m i u [] where
  sound := by simp
  complete := fun v _ _ below long => absurd long (nothing v below)
  decreasing := .nil

/-- The loop of one position collects the matches of the nodes it passes and marks them. -/
theorem matchLoop_spec (represents : Represents C t view word) (fuel u : Nat)
    (lastSuff : List (Option Nat)) (sizes : lastSuff.length = view.size)
    (start : u = 0 ∨ view.Live u) (enough : u = 0 ∧ 0 < fuel ∨ (word u).length + 1 < fuel)
    (marked : ∀ v, view.Live v → Below word u v → m ≤ (word v).length →
      lastSuff[v]? = some (recent s (word v) i)) :
    ∃ res lastSuff', matchLoop (view.nodes C) m i fuel u lastSuff = some (res, lastSuff') ∧
      Chained s view word m i u res ∧ lastSuff'.length = view.size ∧
      ∀ v, view.Live v → (Below word u v ∧ m ≤ (word v).length → lastSuff'[v]? = some (some i)) ∧
        (¬ (Below word u v ∧ m ≤ (word v).length) → lastSuff'[v]? = lastSuff[v]?) := by
  induction fuel generalizing u lastSuff with
  | zero => omega
  | succ fuel ih =>
      rw [matchLoop]
      by_cases zero : u = 0
      · have nothing : ∀ v, Below word u v → ¬ m ≤ (word v).length :=
          fun v below => absurd zero below.1
        exact ⟨[], lastSuff, if_pos zero, .stop nothing, sizes,
          fun v _ => ⟨fun below => absurd below.2 (nothing v below.1), fun _ => rfl⟩⟩
      · have live := start.resolve_left zero
        have turn := represents.len u live
        rw [if_neg zero, View.nodes_at live.2]
        simp only [Option.bind_eq_bind, Option.bind_some]
        change ∃ res lastSuff', (if view.len u ≥ m then _ else _) = some (res, lastSuff') ∧ _
        rw [turn]
        by_cases long : m ≤ (word u).length
        · have next : view.link u = 0 ∨ view.Live (view.link u) := by
            rcases represents.link u live with ⟨_, none⟩ | ⟨liveL, _⟩
            · exact .inl none
            · exact .inr liveL
          have room : view.link u = 0 ∧ 0 < fuel ∨ (word (view.link u)).length + 1 < fuel := by
            rcases represents.link u live with ⟨_, none⟩ | ⟨_, links⟩
            · exact .inl ⟨none, by omega⟩
            · have shorter := links.length_lt
              exact .inr (by omega)
          have markedNext : ∀ v, view.Live v → Below word (view.link u) v → m ≤ (word v).length →
              (lastSuff.set u (some i))[v]? = some (recent s (word v) i) := by
            intro v liveV below longV
            have different : u ≠ v := by
              intro equal
              subst equal
              exact represents.not_below_link live below
            rw [List.getElem?_set_ne different]
            exact marked v liveV ((represents.below_iff live liveV).mpr (.inr below)) longV
          obtain ⟨res, lastSuff', run, chained, sizes', changed⟩ := ih (view.link u)
            (lastSuff.set u (some i)) (by simpa using sizes) next room markedNext
          have seen := marked u live ⟨zero, List.suffix_refl _⟩ long
          rw [if_pos long, seen, Option.bind_some]
          change ∃ res' lastSuff'', (matchLoop (view.nodes C) m i fuel (view.link u)
            (lastSuff.set u (some i))).bind _ = some (res', lastSuff'') ∧ _
          rw [run, Option.bind_some]
          have grown := Chained.cons represents live long chained
          refine ⟨_, lastSuff', ?_, grown, sizes', fun v liveV => ?_⟩
          · rw [show (View.node C view u).len = (word u).length from turn]
            cases recent s (word u) i <;> rfl
          · obtain ⟨setV, keptV⟩ := changed v liveV
            rw [represents.below_iff live liveV]
            by_cases same : v = u
            · subst same
              have reset : lastSuff'[v]? = some (some i) := by
                rw [keptV fun below => represents.not_below_link live below.1]
                exact List.getElem?_set_self (by rw [sizes]; exact live.2)
              exact ⟨fun _ => reset, fun absent => absurd ⟨.inl rfl, long⟩ absent⟩
            · simp only [same, false_or]
              refine ⟨setV, fun absent => ?_⟩
              rw [keptV absent, List.getElem?_set_ne (Ne.symm same)]
        · have nothing : ∀ v, Below word u v → ¬ m ≤ (word v).length := by
            intro v ⟨_, below⟩ longV
            have := below.length_le
            omega
          exact ⟨[], lastSuff, if_neg long, .stop nothing, sizes,
            fun v _ => ⟨fun below => absurd below.2 (nothing v below.1), fun _ => rfl⟩⟩

end Loop

/-- The matches of position `i`, the longest first. -/
structure Finds (s : List Nat) (m i : Nat) (res : List Match) : Prop where
  sound : ∀ found ∈ res, found.start < i ∧ m ≤ found.len ∧ i + found.len ≤ s.length ∧
    (s.drop found.start).take found.len = (s.drop i).take found.len
  latest : ∀ found ∈ res, ∀ j, found.start < j → j < i →
    (s.drop j).take found.len ≠ (s.drop i).take found.len
  complete : ∀ j < i, ∀ w, w <+: s.drop j → w <+: s.drop i → m ≤ w.length →
    ∃ found ∈ res, w.length ≤ found.len
  decreasing : res.Pairwise fun first second => second.len < first.len

/-- The matches with one for each of the longest common prefixes. -/
structure FindsAll (s : List Nat) (m i : Nat) (res : List Match) : Prop extends Finds s m i res where
  every : ∀ j < i, m ≤ commonLength (s.drop j) (s.drop i) →
    ∃ found ∈ res, found.len = commonLength (s.drop j) (s.drop i)

namespace Finds
variable {s : List Nat} {m i : Nat}

/-- The first match is the last one of the longest common prefixes. -/
theorem longestBefore_cons {best : Match} {rest : List Match} (finds : Finds s m i (best :: rest)) :
    longestBefore s i i = (best.start, best.len) := by
  obtain ⟨earlier, long, inside, same⟩ := finds.sound best (by simp)
  have most : ∀ j < i, commonLength (s.drop j) (s.drop i) ≤ best.len := by
    intro j before
    rcases Nat.lt_or_ge (commonLength (s.drop j) (s.drop i)) m with short | enough
    · omega
    · obtain ⟨here, there, equal⟩ := le_commonLength_iff.mp
        (Nat.le_refl (commonLength (s.drop j) (s.drop i)))
      have size : ((s.drop i).take (commonLength (s.drop j) (s.drop i))).length =
          commonLength (s.drop j) (s.drop i) := List.length_take_of_le there
      obtain ⟨found, member, longer⟩ := finds.complete j before _
        (equal ▸ List.take_prefix _ _) (List.take_prefix _ _) (enough.trans size.ge)
      rw [size] at longer
      rcases List.mem_cons.mp member with rfl | member
      · exact longer
      · have := List.rel_of_pairwise_cons finds.decreasing member
        omega
  refine longestBefore_eq earlier (Nat.le_antisymm (most _ earlier) ?_) most fun j after before => ?_
  · exact le_commonLength_iff.mpr ⟨by rw [List.length_drop]; omega, by rw [List.length_drop]; omega, same⟩
  · by_contra longer
    exact finds.latest best (by simp) j after before
      (le_commonLength_iff.mp (Nat.not_lt.mp longer)).2.2

/-- Without a match all common prefixes are short. -/
theorem longestBefore_nil (positive : 0 < m) (finds : Finds s m i []) : (longestBefore s i i).2 < m := by
  suffices (longestBefore s i i).2 ≤ m - 1 by omega
  refine longestBefore_le fun j before => ?_
  by_contra longer
  obtain ⟨_, there, equal⟩ := le_commonLength_iff.mp (show m ≤ commonLength (s.drop j) (s.drop i) by omega)
  obtain ⟨found, member, _⟩ := finds.complete j before _ (equal ▸ List.take_prefix _ _)
    (List.take_prefix m (s.drop i)) (List.length_take_of_le there).ge
  cases member

end Finds

section Position
variable {C m i : Nat} {s : List Nat} {view : View} {word : Nat → List Nat}

/-- In the reversed text suffixes are the starts. -/
theorem suffix_reverse_drop {w : List Nat} : w <:+ (s.drop i).reverse ↔ w.reverse <+: s.drop i := by
  rw [← List.reverse_prefix, List.reverse_reverse]

/-- A reversed suffix starts the reversed text. -/
theorem reverse_drop_start (s : List Nat) (i : Nat) : (s.drop i).reverse <+: s.reverse :=
  List.reverse_prefix.mpr (List.drop_suffix i s)

/-- What the chain collects are matches. -/
theorem Chained.finds (represents : Represents C s.reverse view word) {u : Nat} {res : List Match}
    (inside : i < s.length) (live : view.Live u) (whole : word u = (s.drop i).reverse)
    (chained : Chained s view word m i u res) : Finds s m i res where
  sound := by
    intro found member
    obtain ⟨v, liveV, ⟨_, below⟩, long, seen, len⟩ := chained.sound found member
    obtain ⟨earlier, ends, _⟩ := recent_eq_some seen
    rw [whole] at below
    have here := suffix_reverse_drop.mp below
    have there := suffix_reverse_drop.mp ends
    have fits := here.length_le
    rw [List.length_reverse, List.length_drop] at fits
    have sizes : (word v).reverse.length = found.len := by rw [List.length_reverse, len]
    refine ⟨earlier, len ▸ long, by omega, ?_⟩
    · rw [← sizes, ← List.prefix_iff_eq_take.mp here, ← List.prefix_iff_eq_take.mp there]
  latest := by
    intro found member j after before same
    obtain ⟨v, _, ⟨_, below⟩, _, seen, len⟩ := chained.sound found member
    rw [whole] at below
    have here := suffix_reverse_drop.mp below
    have sizes : (word v).reverse.length = found.len := by rw [List.length_reverse, len]
    refine (recent_eq_some seen).2.2 j after before (suffix_reverse_drop.mpr ?_)
    rw [List.prefix_iff_eq_take.mp here, sizes, ← same]
    exact List.take_prefix _ _
  complete := by
    intro j earlier w there here long
    have endsI : w.reverse <:+ (s.drop i).reverse := List.reverse_suffix.mpr here
    have endsJ : w.reverse <:+ (s.drop j).reverse := List.reverse_suffix.mpr there
    obtain ⟨v, ext⟩ := exists_extends (occurs_iff.mpr ⟨_, reverse_drop_start s i, endsI⟩)
    obtain ⟨node, liveN, rfl⟩ := represents.onto v ext.longest
    have longer := ext.suffix.length_le
    rw [List.length_reverse] at longer
    obtain ⟨start, seen⟩ := exists_recent earlier
      (ext.forces _ (reverse_drop_start s j) endsJ)
    refine ⟨_, chained.complete node start liveN ⟨Nat.ne_of_gt live.1, ?_⟩ (by omega) seen, longer⟩
    rw [whole]
    exact ext.forces _ (reverse_drop_start s i) endsI
  decreasing := chained.decreasing

/-- A longest common prefix of two suffixes, reversed, is a longest word. -/
theorem longest_commonPrefix {w : List Nat} {j : Nat} (there : w <+: s.drop j) (here : w <+: s.drop i)
    (most : commonLength (s.drop j) (s.drop i) = w.length) : Longest s.reverse w.reverse := by
  have endsI : w.reverse <:+ (s.drop i).reverse := List.reverse_suffix.mpr here
  have endsJ : w.reverse <:+ (s.drop j).reverse := List.reverse_suffix.mpr there
  refine ⟨occurs_iff.mpr ⟨_, reverse_drop_start s i, endsI⟩, fun v suffix forces => ?_⟩
  have longI := suffix_reverse_drop.mp (forces _ (reverse_drop_start s i) endsI)
  have longJ := suffix_reverse_drop.mp (forces _ (reverse_drop_start s j) endsJ)
  have equal : (s.drop j).take v.reverse.length = (s.drop i).take v.reverse.length := by
    rw [← List.prefix_iff_eq_take.mp longI, ← List.prefix_iff_eq_take.mp longJ]
  have longer := le_commonLength_iff.mpr ⟨longJ.length_le, longI.length_le, equal⟩
  rw [List.length_reverse, most] at longer
  exact (suffix.eq_of_length (Nat.le_antisymm suffix.length_le (by simpa using longer))).symm

/-- The chain collects all of them. -/
theorem Chained.findsAll (represents : Represents C s.reverse view word) {u : Nat} {res : List Match}
    (inside : i < s.length) (live : view.Live u) (whole : word u = (s.drop i).reverse)
    (chained : Chained s view word m i u res) : FindsAll s m i res where
  toFinds := chained.finds represents inside live whole
  every := by
    intro j earlier long
    obtain ⟨there, here, equal⟩ := le_commonLength_iff.mp
      (Nat.le_refl (commonLength (s.drop j) (s.drop i)))
    let w := (s.drop i).take (commonLength (s.drop j) (s.drop i))
    have size : w.length = commonLength (s.drop j) (s.drop i) := List.length_take_of_le here
    have startI : w <+: s.drop i := List.take_prefix _ _
    have startJ : w <+: s.drop j := by
      simp only [w, ← equal]
      exact List.take_prefix _ _
    obtain ⟨v, liveV, same⟩ := represents.onto _ (longest_commonPrefix startJ startI size.symm)
    have lengthV : (word v).length = commonLength (s.drop j) (s.drop i) := by
      rw [same, List.length_reverse, size]
    obtain ⟨start, seen⟩ := exists_recent earlier (same ▸ List.reverse_suffix.mpr startJ)
    refine ⟨⟨start, (word v).length⟩, chained.complete v start liveV
      ⟨Nat.ne_of_gt live.1, ?_⟩ (lengthV ▸ long) seen, lengthV⟩
    rw [whole, same]
    exact List.reverse_suffix.mpr startI

/-- The state of the matches before position `i`. -/
structure Ready (C : Nat) (s : List Nat) (view : View) (word : Nat → List Nat) (m i : Nat)
    (automaton : SuffAut) : Prop where
  nodes : automaton.base.nodes = view.nodes C
  text : automaton.s = s
  minMatchLen : automaton.minMatchLen = m
  iPtr : automaton.iPtr = i
  length : automaton.vs.length = s.length
  vs : ∀ k u, automaton.vs[k]? = some u → view.Live u ∧ word u = (s.drop k).reverse
  sizes : automaton.lastSuff.length = view.size
  marked : Marked s view word m i automaton.lastSuff

/-- A turn finds the matches of its position. -/
theorem matchTurn_spec (represents : Represents C s.reverse view word) {automaton : SuffAut}
    (ready : Ready C s view word m i automaton) (inside : i < s.length) :
    ∃ res next, automaton.matchTurn = some (res, next) ∧ FindsAll s m i res ∧
      Ready C s view word m (i + 1) next := by
  obtain ⟨u, look⟩ : ∃ u, automaton.vs[i]? = some u :=
    ⟨_, List.getElem?_eq_getElem (by rw [ready.length]; exact inside)⟩
  obtain ⟨live, whole⟩ := ready.vs i u look
  have size : (word u).length + 1 < s.length + 2 := by
    rw [whole, List.length_reverse, List.length_drop]
    omega
  obtain ⟨res, lastSuff, run, chained, sizes, changed⟩ := matchLoop_spec represents (s.length + 2) u
    automaton.lastSuff ready.sizes (.inr live) (.inr size)
    (fun v liveV _ longV => ready.marked v liveV longV)
  have turn : automaton.matchTurn =
      some (res, { automaton with lastSuff, iPtr := automaton.iPtr + 1 }) := by
    simp [SuffAut.matchTurn, ready.iPtr, look, ready.nodes, ready.minMatchLen, ready.text, run]
  refine ⟨res, _, turn, chained.findsAll represents inside live whole, ready.nodes, ready.text,
    ready.minMatchLen, by simp [ready.iPtr], ready.length, ready.vs, sizes, ?_⟩
  intro v liveV longV
  obtain ⟨setV, keptV⟩ := changed v liveV
  have here : Below word u v ↔ word v <:+ (s.drop i).reverse := by
    rw [Below, whole]
    exact and_iff_right (Nat.ne_of_gt live.1)
  by_cases below : word v <:+ (s.drop i).reverse
  · rw [setV ⟨here.mpr below, longV⟩, recent, if_pos below]
  · rw [keptV fun passed => below (here.mp passed.1), ready.marked v liveV longV, recent,
      if_neg below]

/-- Turn by turn the last one finds all matches of its place. -/
theorem matchTurns_spec (represents : Represents C s.reverse view word) (turns : Nat)
    (before : List Match) (i : Nat) (automaton : SuffAut)
    (ready : Ready C s view word m i automaton) (inside : i + turns < s.length) :
    ∃ res next, SuffAut.matchTurns (turns + 1) before automaton = some (res, next) ∧
      FindsAll s m (i + turns) res ∧ Ready C s view word m (i + turns + 1) next := by
  induction turns generalizing before i automaton with
  | zero =>
      obtain ⟨res, next, turn, finds, after⟩ := matchTurn_spec represents ready inside
      exact ⟨res, next, by simp [SuffAut.matchTurns, turn], finds, after⟩
  | succ turns ih =>
      obtain ⟨first, middle, turn, _, after⟩ := matchTurn_spec represents ready (by omega)
      obtain ⟨res, next, run, finds, final⟩ := ih first (i + 1) middle after (by omega)
      have same : i + 1 + turns = i + (turns + 1) := by omega
      rw [same] at finds final
      refine ⟨res, next, ?_, finds, final⟩
      rw [SuffAut.matchTurns, turn]
      exact run

/-- `get_match` finds the matches of its position, whatever positions were asked before. -/
theorem getMatch_spec (represents : Represents C s.reverse view word) {automaton : SuffAut}
    {needI : Nat} (ready : Ready C s view word m i automaton) (later : i ≤ needI)
    (inside : needI < s.length) :
    ∃ res next, automaton.getMatch needI = some (res, next) ∧ FindsAll s m needI res ∧
      Ready C s view word m (needI + 1) next := by
  have sum : i + (needI - i) = needI := by omega
  obtain ⟨res, next, run, finds, after⟩ := matchTurns_spec represents (needI - i) [] i automaton ready
    (by omega)
  rw [sum] at finds after
  refine ⟨res, next, ?_, finds, after⟩
  have turns : needI + 1 - i = needI - i + 1 := by omega
  simp only [SuffAut.getMatch, ready.iPtr, check_of later, Option.bind_eq_bind, Option.bind_some,
    turns, run]

end Position

/-- The state after the constructor and `prepare_matches`. -/
theorem prepareMatches_ready {C m : Nat} {s : List Nat} (letters : ∀ c ∈ s, c < C) :
    ∃ automaton view word, (SuffAut.ofString C s).bind (fun automaton =>
        automaton.prepareMatches m) = some automaton ∧
      Represents C s.reverse view word ∧ Ready C s view word m 0 automaton := by
  obtain ⟨base, view, word, made, built⟩ := ofString_built letters
  have represents := built.represents
  obtain ⟨vs, walk, long, passed⟩ := walkBack_spec represents
    (fun c member => letters c (List.mem_reverse.mp member)) s.reverse 1 represents.root
    (by rw [represents.rootWord, List.nil_append])
  rw [List.length_reverse] at long
  refine ⟨⟨base, s, List.replicate view.size none, vs.reverse, 0, m⟩, view, word, ?_, represents, ?_⟩
  · rw [made, Option.bind_some, SuffAut.prepareMatches]
    simp only [built.nodes, built.root, walk, Option.bind_eq_bind, Option.bind_some, check_of long,
      View.length_nodes]
  · refine ⟨built.nodes, rfl, rfl, rfl, by simpa using long, ?_, by simp, ?_⟩
    · intro k u look
      have inside := (List.getElem?_eq_some_iff.mp look).1
      rw [List.length_reverse] at inside
      simp only at look
      rw [List.getElem?_reverse inside] at look
      obtain ⟨live, same⟩ := passed _ u look
      refine ⟨live, ?_⟩
      rw [same, represents.rootWord, List.nil_append, List.take_reverse]
      congr 2
      omega
    · intro v live _
      simp only [recent]
      exact List.getElem?_replicate_of_lt live.2

section Runs
variable {C m i : Nat} {s : List Nat} {view : View} {word : Nat → List Nat}

end Runs

end CellBag.SuffixAutomaton
