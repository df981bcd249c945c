import CellBag.Proof.Dictionary

/-!
The strings counted by `build_dict`: the marking loop counts a string for each node that it reaches
through a prefix.
-/

namespace CellBag.SuffixAutomaton
open CellBag.Factors Serializator

section Text
variable {C : Nat} {t : List Nat} {view : View} {word : Nat → List Nat}

/-- Distinct nodes are fewer than the slots of `q`. -/
theorem View.length_lt_of_nodup {q : List Nat} (root : view.Live 1) (distinct : q.Nodup)
    (live : ∀ v ∈ q, view.Live v) : q.length < view.size := by
  have few := (distinct.subperm fun v member => View.live_iff.mp (live v member)).length_le
  rw [List.length_range'] at few
  have := root.2
  omega

/-- A set of nodes that is closed under links holds the nodes of the suffixes of its words. -/
theorem Represents.closed_suffix (represents : Represents C t view word) (closed : Nat → Prop)
    (links : ∀ v, closed v → view.Live v → view.link v ≠ 0 → closed (view.link v)) {v u : Nat}
    (live : view.Live v) (liveU : view.Live u) (start : closed v) (below : word u <:+ word v) :
    closed u := by
  induction room : (word v).length using Nat.strongRecOn generalizing v with
  | ind room ih =>
      by_cases same : u = v
      · exact same ▸ start
      · rcases (represents.below_iff live liveU).mp ⟨Nat.ne_of_gt live.1, below⟩ with equal | lower
        · exact absurd equal same
        · have inner : v ≠ 1 := by
            intro root
            rw [root, represents.rootWord, List.suffix_nil] at below
            exact same (represents.injective u v liveU live
              (below.trans (root ▸ represents.rootWord).symm))
          have shorter := represents.length_link_lt live inner
          exact ih _ (room ▸ shorter) (represents.links live inner).1
            (links v start live lower.1) lower.2 rfl

/-- The vectors after the nodes of `q` are marked for string `it`. -/
def markedBy (n it : Nat) (counts : Nat → Nat) (marks : Nat → Option Nat) (q : List Nat) : Marking :=
  ⟨tabulate n fun v => counts v + if v ∈ q then 1 else 0,
    tabulate n fun v => if v ∈ q then some it else marks v⟩

variable {it : Nat} {counts : Nat → Nat} {marks : Nat → Option Nat}

theorem pushMarked_spec {n v : Nat} {q : List Nat} (inside : v < n) (fresh : v ∉ q)
    (room : q.length < n) :
    pushMarked n it v (markedBy n it counts marks q, q) =
      some (markedBy n it counts marks (q ++ [v]), q ++ [v]) := by
  unfold pushMarked markedBy
  simp only [check_of room, tabulate_at inside, setAt_tabulate inside, Option.bind_eq_bind,
    Option.bind_some, fresh, if_false, Nat.add_zero]
  congr 3
  · apply tabulate_congr
    intro u _
    by_cases same : u = v
    · subst same
      simp [fresh]
    · simp [same]
  · exact congrArg (tabulate n) (update_snoc q v)

/-- The queue holds the nodes of the nonempty prefixes read so far. -/
structure Walked (t : List Nat) (view : View) (word : Nat → List Nat) (read q : List Nat) : Prop where
  distinct : q.Nodup
  member : ∀ u, u ∈ q ↔ view.Live u ∧ ∃ p, p <+: read ∧ p ≠ [] ∧ Extends t p (word u)

variable (counts) in
/-- The walk along a training string queues the nodes of its prefixes, each for the first time. -/
theorem Represents.markWalk_spec (represents : Represents C t view word)
    (letters : ∀ c ∈ t, c < C) (unmarked : ∀ u < view.size, marks u ≠ some it)
    (rest : List Nat) (v : Nat) (read q : List Nat) (occurs : read ++ rest <:+: t)
    (live : view.Live v) (ext : Extends t read (word v)) (walked : Walked t view word read q) :
    ∃ q', markWalk (view.nodes C) it v rest (markedBy view.size it counts marks q, q) =
        some (markedBy view.size it counts marks q', q') ∧
      Walked t view word (read ++ rest) q' := by
  induction rest generalizing v read q with
  | nil => exact ⟨q, rfl, by simpa using walked⟩
  | cons c rest ih =>
      have letter : c < C := letters c (occurs.subset (by simp))
      have longer : read ++ [c] <:+: t := by
        have start : read ++ [c] <+: read ++ c :: rest := ⟨rest, by simp⟩
        exact start.isInfix.trans occurs
      obtain ⟨liveN, extN⟩ := represents.follow live letter ext longer
      have running : view.next v c ≠ 0 := Nat.ne_of_gt liveN.1
      have fresh : view.next v c ∉ q := by
        intro queued
        obtain ⟨_, p, start, _, extP⟩ := (walked.member _).mp queued
        have same := extP.prefix_eq extN (start.trans (List.prefix_append read [c]))
        have short := start.length_le
        rw [same, List.length_append, List.length_singleton] at short
        omega
      have room := View.length_lt_of_nodup represents.root walked.distinct
        fun u member => ((walked.member u).mp member).1
      have walkedN : Walked t view word (read ++ [c]) (q ++ [view.next v c]) := by
        refine ⟨?_, fun u => ?_⟩
        · rw [List.nodup_append_comm]
          exact List.nodup_cons.mpr ⟨fresh, walked.distinct⟩
        · rw [List.mem_append, List.mem_singleton, walked.member]
          constructor
          · rintro (⟨liveU, p, start, nonempty, extP⟩ | rfl)
            · exact ⟨liveU, p, start.trans (List.prefix_append read [c]), nonempty, extP⟩
            · exact ⟨liveN, read ++ [c], List.prefix_refl _, by simp, extN⟩
          · rintro ⟨liveU, p, start, nonempty, extP⟩
            rcases List.prefix_concat_iff.mp start with rfl | start
            · exact .inr (represents.injective u _ liveU liveN (extP.unique extN))
            · exact .inl ⟨liveU, p, start, nonempty, extP⟩
      obtain ⟨q', run, done⟩ := ih (view.next v c) (read ++ [c]) (q ++ [view.next v c])
        (by simpa using occurs) liveN extN walkedN
      refine ⟨q', ?_, by simpa using done⟩
      have unseen : (markedBy view.size it counts marks q).lastMarked[view.next v c]? =
          some (marks (view.next v c)) := by
        rw [markedBy, tabulate_at liveN.2, if_neg fresh]
      simp only [markWalk, View.nodes_at live.2, View.node_target letter, Option.bind_eq_bind,
        Option.bind_some, check_of running, unseen, check_of (unmarked _ liveN.2), View.length_nodes,
        pushMarked_spec liveN.2 fresh room, run]

/-- The queue of the second loop, whose links start from the nodes of `first`. -/
def Spread (view : View) (word : Nat → List Nat) (first : List Nat) (ql : Nat) (q : List Nat) : Prop :=
  Queue.Explored (fun u => view.Live u ∧ ∃ s ∈ first, word u <:+ word s)
    (fun v u => u = view.link v ∧ u ≠ 0) (fun _ => False) first ql q

variable (counts) in
/-- The turn at a node queues its link if it is not marked yet. -/
theorem Represents.markLink_spec (represents : Represents C t view word)
    (unmarked : ∀ u < view.size, marks u ≠ some it) {first q : List Nat} {ql v : Nat}
    (spread : Spread view word first ql q) (look : q[ql]? = some v) :
    ∃ q', markLink (view.nodes C) it v (markedBy view.size it counts marks q, q) =
        some (markedBy view.size it counts marks q', q') ∧ Spread view word first (ql + 1) q' := by
  obtain ⟨live, s, inFirst, below⟩ := spread.sound v (List.mem_of_getElem? look)
  unfold markLink
  simp only [View.nodes_at live.2, Option.bind_eq_bind, Option.bind_some]
  change ∃ q', (if view.link v ≠ 0 then
    (markedBy view.size it counts marks q).lastMarked[view.link v]?.bind _ else _) = _ ∧ _
  by_cases linked : view.link v ≠ 0
  · obtain ⟨liveL, lower⟩ : view.Live (view.link v) ∧ word (view.link v) <:+ word s := by
      rcases represents.link v live with ⟨_, zero⟩ | ⟨liveL, links⟩
      · exact absurd zero linked
      · exact ⟨liveL, links.suffix.trans below⟩
    have seen : (markedBy view.size it counts marks q).lastMarked[view.link v]? =
        some (if view.link v ∈ q then some it else marks (view.link v)) := by
      rw [markedBy, tabulate_at liveL.2]
    rw [if_pos linked, seen, Option.bind_some]
    by_cases queued : view.link v ∈ q
    · refine ⟨q, ?_, spread.pass look fun u ⟨same, _⟩ => .inl (same ▸ queued)⟩
      rw [if_pos queued]
      simp
    · have room := View.length_lt_of_nodup represents.root spread.distinct
        fun u found => (spread.sound u found).1
      have grown := spread.push queued ⟨liveL, s, inFirst, lower⟩
      have lookG : (q ++ [view.link v])[ql]? = some v := by
        rw [List.getElem?_append_left (List.getElem?_eq_some_iff.mp look).1, look]
      refine ⟨q ++ [view.link v], ?_, grown.pass lookG fun u ⟨same, _⟩ => .inl (by simp [same])⟩
      rw [if_neg queued, if_pos (unmarked _ liveL.2), View.length_nodes]
      exact pushMarked_spec liveL.2 queued room
  · rw [if_neg linked]
    exact ⟨q, rfl, spread.pass look fun u ⟨same, running⟩ => absurd (same ▸ running) linked⟩

variable (counts) in
/-- The loops for one training string mark the nodes that it reaches. -/
theorem Represents.markString_spec (represents : Represents C t view word) (last : Nat)
    (letters : ∀ c ∈ t, c < C) (unmarked : ∀ u < view.size, marks u ≠ some it) {data : List Nat}
    (occurs : data <:+: t) :
    ∃ q, markString ⟨view.nodes C, 1, last⟩ ⟨tabulate view.size counts, tabulate view.size marks⟩
        data it = some (markedBy view.size it counts marks q) ∧
      ∀ u, view.Live u → (u ∈ q ↔ Reaches t data (word u)) := by
  have root : Extends t [] (word 1) := represents.rootWord.symm ▸ (longest_nil t).extends
  have nothing : Walked t view word [] [] := by
    refine ⟨List.nodup_nil, fun u => ⟨fun member => absurd member List.not_mem_nil, ?_⟩⟩
    rintro ⟨_, p, start, nonempty, _⟩
    exact absurd (List.prefix_nil.mp start) nonempty
  have start : (⟨tabulate view.size counts, tabulate view.size marks⟩ : Marking) =
      markedBy view.size it counts marks [] := by
    simp [markedBy]
  obtain ⟨first, walk, walked⟩ := represents.markWalk_spec counts letters unmarked data 1
    [] [] occurs represents.root root nothing
  obtain ⟨marking, q, run, rfl, spread⟩ := Queue.loop_invariant
    (markLink (view.nodes C) it) view.size
    (fun ql marking q => marking = markedBy view.size it counts marks q ∧ Spread view word first ql q)
    (by
      rintro ql marking q ⟨_, spread⟩
      exact ⟨spread.bound, Nat.le_of_lt (View.length_lt_of_nodup represents.root spread.distinct
        fun u queued => (spread.sound u queued).1)⟩)
    (by
      rintro ql marking q v ⟨rfl, spread⟩ look
      obtain ⟨q', turn, next⟩ := represents.markLink_spec counts unmarked spread look
      exact ⟨_, q', turn, rfl, next⟩)
    (view.size + 1) 0 _ first
    ⟨rfl, walked.distinct, List.prefix_refl _, fun u found =>
      ⟨((walked.member u).mp found).1, u, found, List.suffix_refl _⟩, by simp, Nat.zero_le _⟩
    (by omega)
  refine ⟨q, ?_, fun u live => ?_⟩
  · unfold markString
    simp only [start, walk, View.length_nodes, Option.bind_eq_bind, Option.bind_some, run]
  · rw [reaches_iff]
    constructor
    · intro queued
      obtain ⟨_, s, inFirst, below⟩ := spread.sound u queued
      obtain ⟨_, p, startP, nonempty, ext⟩ := (walked.member s).mp inFirst
      exact ⟨p, startP, nonempty, ext.forces_iff.mpr below⟩
    · intro ⟨p, startP, nonempty, forces⟩
      obtain ⟨s, liveS, ext⟩ := represents.exists_node (startP.isInfix.trans occurs)
      have inFirst : s ∈ first := (walked.member s).mpr ⟨liveS, p, startP, nonempty, ext⟩
      have below := ext.forces_iff.mp forces
      refine represents.closed_suffix (fun v => v ∈ q) ?_ liveS live
        (spread.kept.subset inFirst) below
      intro v queued _ linked
      exact (spread.read v (by rwa [List.take_length]) _ ⟨rfl, linked⟩).resolve_right id

/-- The marking loop counts the strings that reach the word of a node. -/
theorem Built.countDiffStrings_spec {automaton : SuffAutBase} {strings : List (List Nat)}
    (built : Built C strings.flatten automaton view word) (letters : ∀ c ∈ strings.flatten, c < C) :
    ∃ cntDiffStrings, countDiffStrings ⟨automaton, strings⟩ = some cntDiffStrings ∧
      ∀ v, view.Live v → cntDiffStrings[v]? =
        some (strings.countP fun data => Reaches strings.flatten data (word v)) := by
  obtain ⟨nodes, root, last⟩ := automaton
  obtain ⟨rfl, rfl, _, _, represents⟩ := built
  obtain ⟨marking, run, counts, marks, rfl, counted, _⟩ := OptionList.foldlM_invariant
    strings.zipIdx (⟨tabulate view.size fun _ => 0, tabulate view.size fun _ => none⟩ : Marking)
    (fun marking entry => markString ⟨view.nodes C, 1, last⟩ marking entry.1 entry.2)
    (fun done marking => ∃ counts marks,
      marking = ⟨tabulate view.size counts, tabulate view.size marks⟩ ∧
      (∀ v, view.Live v → counts v =
        (done.map Prod.fst).countP fun data => Reaches strings.flatten data (word v)) ∧
      ∀ v it, marks v = some it → it < done.length)
    ⟨_, _, rfl, by simp, by simp⟩ (by
      rintro done entry rest marking split ⟨counts, marks, rfl, counted, marked⟩
      obtain ⟨index, look⟩ := OptionList.zipIdx_split split
      have unmarked : ∀ u < view.size, marks u ≠ some entry.2 := by
        intro u _ same
        exact Nat.ne_of_lt (marked u entry.2 same) index
      have occurs : entry.1 <:+: strings.flatten := List.infix_of_mem_flatten (List.mem_of_getElem? look)
      obtain ⟨q, turn, reached⟩ := represents.markString_spec counts last
        letters unmarked occurs
      refine ⟨_, turn, _, _, rfl, fun v live => ?_, fun v it => ?_⟩
      · rw [List.map_append, List.countP_append, counted v live]
        simp [List.countP_cons, reached v live]
      · simp only [List.length_append, List.length_singleton]
        split
        · intro same
          rw [← Option.some.inj same, index]
          exact Nat.lt_succ_self _
        · intro same
          exact Nat.lt_succ_of_lt (marked v it same))
  refine ⟨tabulate view.size counts, ?_, fun v live => ?_⟩
  · unfold countDiffStrings
    simp only [View.length_nodes, replicate_eq_tabulate]
    rw [run]
    rfl
  · rw [tabulate_at live.2, counted v live, List.zipIdx_map_fst]

end Text

/-- Both counts of nonempty training data are made without a failed check, and no node is counted
for more strings than occurrences. -/
theorem train_counts (sort : StdSort) {C : Nat} {strings : List (List Nat)} (given : strings ≠ [])
    (nonempty : ∀ data ∈ strings, data ≠ []) (letters : ∀ data ∈ strings, ∀ c ∈ data, c < C) :
    ∃ base view word order cntOccured cntDiffStrings,
      Dictionary.train C strings = some ⟨base, strings⟩ ∧
      Built C strings.flatten base view word ∧
      topSort sort base = some order ∧ order.head? = some base.last ∧
      order.getLast? = some base.root ∧ countOccured base order = some cntOccured ∧
      countDiffStrings ⟨base, strings⟩ = some cntDiffStrings ∧
      strings.length ≤ base.nodes.length ∧
      (∀ v, view.Live v → cntOccured[v]? = some (occuredCount strings.flatten word v)) ∧
      ∀ v, view.Live v → v ≠ 1 → cntDiffStrings.getD v 0 ≤ cntOccured.getD v 0 := by
  obtain ⟨base, view, word, train, built, large⟩ := train_built letters
  have each : ∀ c ∈ strings.flatten, c < C := List.forall_mem_flatten.mpr letters
  have long : strings.length ≤ strings.flatten.length := by
    rw [List.length_flatten]
    have most := List.length_le_sum_of_one_le (strings.map List.length) (by
      intro length member
      obtain ⟨data, present, rfl⟩ := List.mem_map.mp member
      exact List.length_pos_of_ne_nil (nonempty data present))
    rwa [List.length_map] at most
  have whole : strings.flatten ≠ [] := by
    intro empty
    have := List.length_pos_of_ne_nil given
    rw [empty, List.length_nil] at long
    omega
  obtain ⟨order, sorted, front, back, perm, falling⟩ := built.topSort_spec sort
  obtain ⟨cntOccured, occured, counts⟩ := built.countOccured_spec each whole (by omega) perm falling
  obtain ⟨cntDiffStrings, marked, reached⟩ := built.countDiffStrings_spec each
  refine ⟨base, view, word, order, cntOccured, cntDiffStrings, train, built, sorted, front, back,
    occured, marked, ?_, counts, ?_⟩
  · rw [built.nodes, View.length_nodes]
    omega
  · intro v live inner
    rw [List.getD_eq_getElem?_getD, List.getD_eq_getElem?_getD, reached v live, counts v live,
      occuredCount, if_neg inner]
    exact countP_reaches_le (built.represents.ne_nil live inner)

end CellBag.SuffixAutomaton
