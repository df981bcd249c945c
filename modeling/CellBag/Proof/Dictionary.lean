import CellBag.Library.Occurrences
import CellBag.Library.OrderedSet
import CellBag.Proof.Matches
import CellBag.Proof.Substrings
import CellBag.Proof.Vectors
import CellBag.Model.Dictionary

/-!
The counts of `build_dict`: each node is counted as often as its words occur in the training data.
-/

namespace CellBag.SuffixAutomaton
open CellBag.Factors Serializator

/-- The training strings are read one behind the other. -/
theorem addTrainingData_run (C : Nat) (strings seen : List (List Nat)) (base : SuffAutBase) :
    strings.foldlM (Dictionary.addTrainingData C) ⟨base, seen⟩ =
      (strings.flatten.foldlM (addC C) base).map fun base => ⟨base, seen ++ strings⟩ := by
  induction strings generalizing base seen with
  | nil => simp
  | cons data strings ih =>
      rw [List.foldlM_cons, List.flatten_cons, List.foldlM_append, Dictionary.addTrainingData]
      cases data.foldlM (addC C) base with
      | none => rfl
      | some base => simp [ih]

/-- The automaton of a dictionary is that of the concatenated training strings. -/
theorem train_built {C : Nat} {strings : List (List Nat)}
    (letters : ∀ data ∈ strings, ∀ c ∈ data, c < C) :
    ∃ base view word, Dictionary.train C strings = some ⟨base, strings⟩ ∧
      Built C strings.flatten base view word ∧ strings.flatten.length + 2 ≤ view.size := by
  have each : ∀ c ∈ strings.flatten, c < C := List.forall_mem_flatten.mpr letters
  obtain ⟨base, view, word, run, built, large, _⟩ := addC_run each
  refine ⟨base, view, word, ?_, built, large⟩
  rw [Dictionary.train, Dictionary.empty, addTrainingData_run, run]
  rfl

/-- A comparator that puts the greater keys first. -/
theorem strictWeakOrder_of_key (key : Nat → Nat) :
    StrictWeakOrder fun a b => key a > key b where
  irrefl := by simp
  trans := by
    intro a b c first second
    simp only [gt_iff_lt, decide_eq_true_eq] at first second ⊢
    omega
  equivalent := by
    intro a b c before
    simp only [gt_iff_lt, decide_eq_true_eq] at before ⊢
    omega

section Text
variable {C : Nat} {t : List Nat} {view : View} {word : Nat → List Nat}

/-- The states, as a range. -/
theorem View.live_iff {v : Nat} : view.Live v ↔ v ∈ List.range' 1 (view.size - 1) := by
  rw [List.mem_range'_1, View.Live]
  omega

/-- The length of a state is that of its word. -/
theorem Represents.lenOf_eq (represents : Represents C t view word) {v : Nat} (live : view.Live v) :
    lenOf (view.nodes C) v = (word v).length := by
  rw [lenOf, View.nodes_at live.2]
  exact represents.len v live

/-- Transitions lead to longer words. -/
theorem Represents.length_lt_next (represents : Represents C t view word) {v c : Nat}
    (live : view.Live v) (letter : c < C) (running : view.next v c ≠ 0) :
    (word v).length < (word (view.next v c)).length := by
  have long := (represents.transition live letter running).2.suffix.length_le
  rwa [List.length_append, List.length_singleton] at long

/-- Links lead to shorter words. -/
theorem Represents.length_link_lt (represents : Represents C t view word) {v : Nat}
    (live : view.Live v) (inner : v ≠ 1) : (word (view.link v)).length < (word v).length :=
  (represents.links live inner).2.length_lt

/-- The sort starts with the node of the text and ends with the root. -/
theorem Built.topSort_spec {automaton : SuffAutBase} (built : Built C t automaton view word)
    (sort : StdSort) :
    ∃ order, topSort sort automaton = some order ∧ order.head? = some automaton.last ∧
      order.getLast? = some automaton.root ∧ order.Perm (List.range' 1 (view.size - 1)) ∧
      order.Pairwise fun a b => (word b).length ≤ (word a).length := by
  obtain ⟨nodes, root, last⟩ := automaton
  obtain ⟨rfl, rfl, liveLast, whole, represents⟩ := built
  simp only at liveLast whole
  have two := represents.root.2
  let order := sort.run (fun a b => lenOf (view.nodes C) a > lenOf (view.nodes C) b)
    (List.range' 1 (view.size - 1))
  have perm : order.Perm (List.range' 1 (view.size - 1)) :=
    sort.perm _ _ (strictWeakOrder_of_key _)
  have live {v : Nat} (member : v ∈ order) : view.Live v :=
    View.live_iff.mpr (perm.mem_iff.mp member)
  have member {v : Nat} (inside : view.Live v) : v ∈ order :=
    perm.mem_iff.mpr (View.live_iff.mp inside)
  have falling : order.Pairwise fun a b => (word b).length ≤ (word a).length := by
    refine (sort.sorted _ (List.range' 1 (view.size - 1))
      (strictWeakOrder_of_key _)).imp_of_mem fun inA inB before => ?_
    rw [represents.lenOf_eq (live inA), represents.lenOf_eq (live inB)] at before
    simpa using before
  have front : order.head? = some last := by
    refine OrderedSet.head?_of_falling falling (member liveLast) fun v inside long => ?_
    have liveV := live inside
    rw [whole] at long
    have same : word v = t :=
      (represents.longest v liveV).occurs.eq_of_length_le long
    exact represents.injective v last liveV liveLast (same.trans whole.symm)
  have back : order.getLast? = some 1 := by
    refine OrderedSet.getLast?_of_falling falling (member represents.root) fun v inside short => ?_
    rw [represents.rootWord] at short
    have empty : word v = [] := List.length_eq_zero_iff.mp (Nat.le_zero.mp short)
    exact represents.injective v 1 (live inside) represents.root (empty.trans represents.rootWord.symm)
  refine ⟨order, ?_, front, back, perm, falling⟩
  unfold topSort
  simp only [View.length_nodes]
  change (do
    let front ← order.head?
    check (front = last)
    let back ← order.getLast?
    check (back = 1)
    some order) = _
  rw [front, back]
  simp [check]

/-- The nodes above `v` on the way along the links to the root are marked. -/
theorem Represents.markSuffixes_spec (represents : Represents C t view word) (fuel v : Nat)
    (counts : Nat → Nat) (live : view.Live v) (enough : (word v).length < fuel) :
    markSuffixes (view.nodes C) 1 fuel v (tabulate view.size counts) =
      some (tabulate view.size fun u =>
        if 0 < u ∧ u ≠ 1 ∧ word u <:+ word v then 1 else counts u) := by
  induction fuel generalizing v counts with
  | zero => omega
  | succ fuel ih =>
      rw [markSuffixes]
      by_cases root : v = 1
      · subst root
        rw [if_pos rfl]
        refine congrArg some (tabulate_congr fun u inside => ?_)
        rw [if_neg]
        intro ⟨positive, inner, below⟩
        rw [represents.rootWord, List.suffix_nil] at below
        exact represents.ne_nil ⟨positive, inside⟩ inner below
      · have liveL := (represents.links live root).1
        have shorter := represents.length_link_lt live root
        rw [if_neg root, setAt_tabulate live.2, View.nodes_at live.2]
        simp only [Option.bind_eq_bind, Option.bind_some]
        apply (ih (view.link v) _ liveL (by omega)).trans
        refine congrArg some (tabulate_congr fun u inside => ?_)
        by_cases positive : 0 < u
        · have turn := represents.below_iff live ⟨positive, inside⟩
          have linked : view.link v ≠ 0 := Nat.ne_of_gt liveL.1
          simp only [Below, ne_eq, Nat.ne_of_gt live.1, linked, not_false_eq_true, true_and] at turn
          by_cases same : u = v
          · subst same
            simp [positive, root]
          · simp [turn, same]
        · obtain rfl : u = 0 := by omega
          simp [Function.update_of_ne (Nat.ne_of_lt live.1)]

/-- The count of a node before the loop over `top_sort`. -/
def suffixCount (t : List Nat) (word : Nat → List Nat) (v : Nat) : Nat :=
  if 0 < v ∧ v ≠ 1 ∧ word v <:+ t then 1 else 0

/-- The final count of a node. The root counts the ends of the empty word but the first. -/
def occuredCount (t : List Nat) (word : Nat → List Nat) (v : Nat) : Nat :=
  if v = 1 then t.length else (endPositions t (word v)).length

/-- The loop over the letters adds the counts of the targets. -/
theorem addTargets_spec {n v len : Nat} {nodes : List Node} (targets : List Nat) (counts : Nat → Nat)
    (inside : v < n) (each : ∀ target ∈ targets, target ≠ 0 → target < n ∧ target ≠ v ∧
      ∃ node, nodes[target]? = some node ∧ node.len > len) :
    targets.foldlM (fun cntOccured target =>
        if target ≠ 0 then do
          let targetNode ← nodes[target]?
          check (targetNode.len > len)
          let here ← cntOccured[v]?
          let more ← cntOccured[target]?
          setAt cntOccured v (here + more)
        else some cntOccured) (tabulate n counts) =
      some (tabulate n (Function.update counts v
        (counts v + (targets.map fun target => if target = 0 then 0 else counts target).sum))) := by
  induction targets generalizing counts with
  | nil => simp
  | cons target targets ih =>
      have rest := fun other member => each other (List.mem_cons_of_mem target member)
      rw [List.foldlM_cons]
      by_cases zero : target = 0
      · rw [if_neg (not_not.mpr zero), Option.bind_eq_bind, Option.bind_some, ih counts rest]
        simp [zero]
      · obtain ⟨within, different, node, look, longer⟩ := each target List.mem_cons_self zero
        rw [if_pos zero, look]
        simp only [Option.bind_eq_bind, Option.bind_some, check_of longer, tabulate_at inside,
          tabulate_at within, setAt_tabulate inside]
        apply (ih _ rest).trans
        rw [Function.update_self, Function.update_idem]
        have kept : (targets.map fun other => if other = 0 then 0 else
            Function.update counts v (counts v + counts target) other) =
            targets.map fun other => if other = 0 then 0 else counts other := by
          apply List.map_congr_left
          intro other member
          by_cases none : other = 0
          · simp [none]
          · rw [Function.update_of_ne (rest other member none).2.1]
        rw [kept, List.map_cons, List.sum_cons, if_neg zero, Nat.add_assoc]

/-- The counts of the targets of a node are those of its words with a letter behind them. -/
theorem Represents.targets_sum (represents : Represents C t view word)
    (letters : ∀ c ∈ t, c < C) {v : Nat} (live : view.Live v) :
    suffixCount t word v + ((view.node C v).targets.map fun target =>
      if target = 0 then 0 else occuredCount t word target).sum = occuredCount t word v := by
  have each : ((view.node C v).targets.map fun target =>
      if target = 0 then 0 else occuredCount t word target) =
      (List.range C).map fun c => (endPositions t (word v ++ [c])).length := by
    rw [View.node, List.map_map]
    apply List.map_congr_left
    intro c member
    have letter := List.mem_range.mp member
    rw [Function.comp_apply]
    rcases represents.next v c live letter with ⟨zero, absent⟩ | ⟨liveN, ext⟩
    · rw [if_pos zero, endPositions_eq_nil absent, List.length_nil]
    · have long := represents.length_lt_next live letter (Nat.ne_of_gt liveN.1)
      have inner : view.next v c ≠ 1 := by
        intro root
        rw [root, represents.rootWord] at long
        exact Nat.not_lt_zero _ long
      rw [if_neg (Nat.ne_of_gt liveN.1), occuredCount, if_neg inner, ext.endPositions_eq]
  have counted := length_endPositions_eq (t := t) (w := word v) (List.nodup_range (n := C))
    fun c member => List.mem_range.mpr (letters c member)
  rw [each, suffixCount, occuredCount]
  by_cases root : v = 1
  · subst root
    rw [represents.rootWord, length_endPositions_empty, if_pos List.nil_suffix] at counted
    rw [represents.rootWord]
    simp only [ne_eq, not_true_eq_false, false_and, and_false, if_false, if_true]
    omega
  · simp only [live.1, root, ne_eq, not_false_eq_true, true_and, if_false]
    exact counted.symm

/-- The word of a state occurs. -/
theorem Represents.occuredCount_pos (represents : Represents C t view word) (nonempty : t ≠ [])
    {v : Nat} (live : view.Live v) : 0 < occuredCount t word v := by
  rw [occuredCount]
  split
  · exact List.length_pos_of_ne_nil nonempty
  · exact length_endPositions_pos (represents.longest v live).occurs

/-- A word ends at no more places than there are letters. -/
theorem Represents.occuredCount_le (represents : Represents C t view word) {v : Nat}
    (live : view.Live v) : occuredCount t word v ≤ t.length := by
  rw [occuredCount]
  split
  · exact Nat.le_refl _
  · rename_i inner
    exact length_endPositions_le (represents.ne_nil live inner)

/-- The turn at a node whose targets have their final counts. -/
theorem Represents.countNode_spec (represents : Represents C t view word)
    (letters : ∀ c ∈ t, c < C) (nonempty : t ≠ []) (large : t.length ≤ view.size) {v : Nat}
    (live : view.Live v) (counts : Nat → Nat) (here : counts v = suffixCount t word v)
    (settled : ∀ c < C, view.next v c ≠ 0 →
      counts (view.next v c) = occuredCount t word (view.next v c)) :
    countNode (view.nodes C) (tabulate view.size counts) v =
      some (tabulate view.size (Function.update counts v (occuredCount t word v))) := by
  have each : ∀ target ∈ (view.node C v).targets, target ≠ 0 → target < view.size ∧ target ≠ v ∧
      ∃ node, (view.nodes C)[target]? = some node ∧ node.len > (view.node C v).len := by
    intro target member running
    obtain ⟨c, inRange, rfl⟩ := List.mem_map.mp member
    have letter := List.mem_range.mp inRange
    have liveN := (represents.transition live letter running).1
    have long := represents.length_lt_next live letter running
    refine ⟨liveN.2, ?_, _, View.nodes_at liveN.2, ?_⟩
    · intro same
      rw [same] at long
      exact Nat.lt_irrefl _ long
    · change view.len (view.next v c) > view.len v
      rwa [represents.len _ liveN, represents.len v live]
  have sum : ((view.node C v).targets.map fun target => if target = 0 then 0 else counts target) =
      (view.node C v).targets.map fun target =>
        if target = 0 then 0 else occuredCount t word target := by
    apply List.map_congr_left
    intro target member
    by_cases zero : target = 0
    · rw [if_pos zero, if_pos zero]
    · obtain ⟨c, inRange, rfl⟩ := List.mem_map.mp member
      rw [if_neg zero, if_neg zero, settled c (List.mem_range.mp inRange) zero]
  have total := represents.targets_sum letters live
  have few : occuredCount t word v ≤ view.size := (represents.occuredCount_le live).trans large
  have added := addTargets_spec _ counts live.2 each
  rw [sum, here, total] at added
  simp only [Option.bind_eq_bind] at added
  unfold countNode
  simp only [View.nodes_at live.2, Option.bind_eq_bind, Option.bind_some, added, tabulate_at live.2,
    Function.update_self, View.length_nodes, check_of few,
    check_of (represents.occuredCount_pos nonempty live)]

/-- The turns of the loop over `top_sort` settle the counts of all nodes. -/
theorem Built.countOccured_spec {automaton : SuffAutBase} (built : Built C t automaton view word)
    (letters : ∀ c ∈ t, c < C) (nonempty : t ≠ []) (large : t.length ≤ view.size)
    {order : List Nat} (perm : order.Perm (List.range' 1 (view.size - 1)))
    (falling : order.Pairwise fun a b => (word b).length ≤ (word a).length) :
    ∃ cntOccured, countOccured automaton order = some cntOccured ∧
      ∀ v, view.Live v → cntOccured[v]? = some (occuredCount t word v) := by
  obtain ⟨nodes, root, last⟩ := automaton
  obtain ⟨rfl, rfl, liveLast, whole, represents⟩ := built
  simp only at liveLast whole
  have live {v : Nat} (member : v ∈ order) : view.Live v :=
    View.live_iff.mpr (perm.mem_iff.mp member)
  have enough : (word last).length < view.len last + 1 := by
    rw [represents.len last liveLast]
    omega
  have marked := represents.markSuffixes_spec (view.len last + 1) last (fun _ => 0) liveLast enough
  rw [whole, ← replicate_eq_tabulate] at marked
  obtain ⟨cntOccured, run, settled⟩ := OptionList.foldlM_invariant order
    (tabulate view.size (suffixCount t word)) (countNode (view.nodes C))
    (fun done counts => counts = tabulate view.size fun v =>
      if v ∈ done then occuredCount t word v else suffixCount t word v)
    (by simp) (by
      intro done v rest state split filled
      have liveV : view.Live v := live (split ▸ by simp)
      have fresh : v ∉ done :=
        OptionList.fresh_of_split (perm.nodup_iff.mpr (List.nodup_range' ..)) split
      refine ⟨_, filled ▸ represents.countNode_spec letters nonempty large liveV _ (if_neg fresh) ?_, ?_⟩
      · exact congrArg (tabulate view.size) (update_snoc done v)
      · intro c letter running
        -- the target has a longer word and comes before the node
        have liveN := (represents.transition liveV letter running).1
        have long := represents.length_lt_next liveV letter running
        have member : view.next v c ∈ order := perm.mem_iff.mpr (View.live_iff.mp liveN)
        rw [split] at member falling
        exact if_pos (OrderedSet.mem_of_falling falling member long))
  refine ⟨cntOccured, ?_, ?_⟩
  · unfold countOccured
    simp only [View.nodes_at liveLast.2, Option.bind_eq_bind, Option.bind_some, View.length_nodes]
    change (markSuffixes (view.nodes C) 1 (view.len last + 1) last _).bind _ = _
    rw [marked]
    exact run
  · intro v liveV
    have member : v ∈ order := perm.mem_iff.mpr (View.live_iff.mp liveV)
    rw [settled, tabulate_at liveV.2, if_pos member]

/-- The nodes with a transition to `u`, once for each of its letters. -/
def predecessors (C : Nat) (view : View) (u : Nat) : List Nat :=
  (List.range' 1 (view.size - 1)).flatMap fun v =>
    List.replicate (((view.node C v).targets.filter fun target => target ≠ 0).count u) v

theorem mem_predecessors {p u : Nat} :
    p ∈ predecessors C view u ↔ view.Live p ∧ u ≠ 0 ∧ ∃ c < C, view.next p c = u := by
  rw [predecessors, List.mem_flatMap]
  simp only [List.mem_replicate, ne_eq, List.count_eq_zero, not_not]
  constructor
  · rintro ⟨v, member, found, rfl⟩
    obtain ⟨target, running⟩ := List.mem_filter.mp found
    obtain ⟨c, inRange, rfl⟩ := List.mem_map.mp target
    exact ⟨View.live_iff.mpr member, of_decide_eq_true running, c, List.mem_range.mp inRange, rfl⟩
  · rintro ⟨live, running, c, letter, rfl⟩
    refine ⟨p, View.live_iff.mp live, List.mem_filter.mpr ⟨?_, ?_⟩, rfl⟩
    · exact List.mem_map.mpr ⟨c, List.mem_range.mpr letter, rfl⟩
    · exact decide_eq_true running

/-- The loop fills `rev_to` with the predecessors. -/
theorem Represents.revTo_eq (represents : Represents C t view word) :
    revTo (view.nodes C) = some (tabulate view.size (predecessors C view)) := by
  have each {v : Nat} (live : view.Live v) : ∀ target ∈ (view.node C v).targets.filter
      fun target => target ≠ 0, target < view.size := by
    intro target member
    obtain ⟨found, running⟩ := List.mem_filter.mp member
    obtain ⟨c, inRange, rfl⟩ := List.mem_map.mp found
    exact (represents.transition live (List.mem_range.mp inRange) (of_decide_eq_true running)).1.2
  unfold revTo
  simp only [View.length_nodes]
  rw [replicate_eq_tabulate]
  obtain ⟨final, run, filled⟩ := OptionList.foldlM_invariant (List.range' 1 (view.size - 1))
    (tabulate view.size fun _ => ([] : List Nat)) (fun revTo v => do
      let node ← (view.nodes C)[v]?
      node.targets.foldlM (fun revTo target =>
        if target ≠ 0 then do
          let froms ← revTo[target]?
          setAt revTo target (froms ++ [v])
        else some revTo) revTo)
    (fun done revTo => revTo = tabulate view.size fun u => done.flatMap fun v =>
      List.replicate (((view.node C v).targets.filter fun target => target ≠ 0).count u) v)
    (by simp) (by
      intro done v rest state split filled
      have live : view.Live v := View.live_iff.mpr (split ▸ by simp)
      have pushed := foldlM_push _ v
        (fun u => done.flatMap fun v =>
          List.replicate (((view.node C v).targets.filter fun target => target ≠ 0).count u) v)
        (each live)
      rw [List.foldlM_filter] at pushed
      refine ⟨_, ?_, rfl⟩
      rw [View.nodes_at live.2, filled]
      simp only [Option.bind_eq_bind, Option.bind_some, decide_eq_true_eq] at pushed ⊢
      apply pushed.trans
      simp)
  rw [run, filled]
  rfl

/-- The node of a longest word is reached from that of its prefix. -/
theorem Represents.exists_predecessor (represents : Represents C t view word)
    (letters : ∀ c ∈ t, c < C) {v c : Nat} {w : List Nat} (live : view.Live v)
    (split : word v = w ++ [c]) :
    ∃ p, view.Live p ∧ word p = w ∧ c < C ∧ view.next p c = v := by
  have longest := represents.longest v live
  have occurs : w <:+: t := by
    have start : w <+: word v := split ▸ List.prefix_append w [c]
    exact start.isInfix.trans longest.occurs
  have letter : c < C := letters c (longest.occurs.subset (by simp [split]))
  obtain ⟨p, liveP, ext⟩ := represents.exists_node occurs
  obtain ⟨liveN, reached⟩ := represents.follow liveP letter ext (split ▸ longest.occurs)
  have next := (represents.transition liveP letter (Nat.ne_of_gt liveN.1)).2
  have same : word (view.next p c) = word v := reached.unique (split ▸ longest.extends)
  have equal := represents.injective _ v liveN live same
  refine ⟨p, liveP, ?_, letter, equal⟩
  have below : word p ++ [c] <:+ w ++ [c] := by
    rw [← split, ← same]
    exact next.suffix
  exact suffix_antisymm (snoc_suffix_snoc.mp below).2 ext.suffix

/-- The only letter with which a node leads to `v`. -/
theorem Represents.letter_unique (represents : Represents C t view word) {v p c d : Nat}
    {w : List Nat} (split : word v = w ++ [c]) (live : view.Live v) (liveP : view.Live p)
    (letter : d < C) (leads : view.next p d = v) : d = c ∧ word p <:+ w := by
  have running : view.next p d ≠ 0 := leads ▸ Nat.ne_of_gt live.1
  have next := (represents.transition liveP letter running).2
  rw [leads, split] at next
  exact snoc_suffix_snoc.mp next.suffix

/-- The loop over `rev_to[v]` picks the predecessor whose word is one letter shorter. -/
theorem Represents.chooseFrom_spec (represents : Represents C t view word) {v p : Nat}
    (live : view.Live v) (shorter : (word v).length = (word p).length + 1) (froms : List Nat)
    (start : Nat) (each : ∀ other ∈ froms, view.Live other)
    (only : ∀ other ∈ froms, (word v).length = (word other).length + 1 → other = p) :
    froms.foldlM (fun from_ other => do
        let otherNode ← (view.nodes C)[other]?
        some (if (view.node C v).len = otherNode.len + 1 then other else from_)) start =
      some (if p ∈ froms then p else start) := by
  induction froms generalizing start with
  | nil => simp
  | cons other froms ih =>
      have liveO := each other List.mem_cons_self
      have step : (view.node C v).len = (view.node C other).len + 1 ↔ other = p := by
        change view.len v = view.len other + 1 ↔ _
        rw [represents.len v live, represents.len other liveO]
        constructor
        · exact only other List.mem_cons_self
        · intro same
          rw [same, shorter]
      have rest := ih (if (view.node C v).len = (view.node C other).len + 1 then other else start)
        (fun later member => each later (List.mem_cons_of_mem _ member))
        fun later member => only later (List.mem_cons_of_mem _ member)
      rw [List.foldlM_cons, View.nodes_at liveO.2]
      apply rest.trans
      by_cases same : other = p
      · rw [if_pos (step.mpr same), same]
        simp
      · rw [if_neg (fun long => same (step.mp long))]
        simp [Ne.symm same]

/-- The way back from a node to the root spells its word backwards. -/
theorem Represents.restoreLoop_spec (represents : Represents C t view word)
    (letters : ∀ c ∈ t, c < C) (fuel v : Nat) (s : List Nat) (live : view.Live v)
    (enough : (word v).length < fuel) :
    restoreLoop (view.nodes C) 1 (tabulate view.size (predecessors C view)) fuel v s =
      some (s ++ (word v).reverse) := by
  induction fuel generalizing v s with
  | zero => omega
  | succ fuel ih =>
      rw [restoreLoop]
      by_cases root : v = 1
      · rw [if_pos root, root, represents.rootWord]
        simp
      · obtain ⟨w, c, split⟩ : ∃ w c, word v = w ++ [c] := by
          rcases (word v).eq_nil_or_concat with empty | ⟨w, c, split⟩
          · exact absurd empty (represents.ne_nil live root)
          · exact ⟨w, c, split.trans (List.concat_eq_append ..)⟩
        have length : (word v).length = w.length + 1 := by simp [split]
        obtain ⟨p, liveP, rfl, letter, leads⟩ := represents.exists_predecessor letters live split
        have before : p ∈ predecessors C view v :=
          mem_predecessors.mpr ⟨liveP, Nat.ne_of_gt live.1, c, letter, leads⟩
        have chosen := represents.chooseFrom_spec live length (predecessors C view v) 0
          (fun other member => (mem_predecessors.mp member).1) (by
            intro other member long
            obtain ⟨liveO, _, d, inRange, leadsO⟩ := mem_predecessors.mp member
            have below := (represents.letter_unique split live liveO inRange leadsO).2
            exact represents.injective other p liveO liveP (below.eq_of_length (by omega)))
        have found : (view.node C p).targets.findIdx? (fun target => target = v) = some c := by
          rw [List.findIdx?_eq_some_iff_getElem]
          refine ⟨by simpa [View.node] using letter, by simpa [View.node] using leads, ?_⟩
          intro d earlier
          have inRange : d < C := earlier.trans letter
          simp only [View.node, List.getElem_map, List.getElem_range, decide_eq_true_eq]
          intro also
          exact Nat.ne_of_lt earlier (represents.letter_unique split live liveP inRange also).1
        rw [if_pos before] at chosen
        simp only [Option.bind_eq_bind] at chosen
        rw [if_neg root, View.nodes_at live.2, tabulate_at live.2]
        simp only [Option.bind_eq_bind, Option.bind_some, chosen, check_of (Nat.ne_of_gt liveP.1),
          View.nodes_at liveP.2, found]
        rw [ih p (s ++ [c]) liveP (by omega), split]
        simp

/-- The longest word of a state is restored. -/
theorem Represents.restoreLongestStr_eq (represents : Represents C t view word)
    (letters : ∀ c ∈ t, c < C) {v : Nat} (live : view.Live v) :
    restoreLongestStr (view.nodes C) 1 (tabulate view.size (predecessors C view)) v =
      some (word v) := by
  have len : (view.node C v).len = (word v).length := represents.len v live
  have restored := represents.restoreLoop_spec letters ((view.node C v).len + 1) v [] live
    (by omega)
  unfold restoreLongestStr
  simp only [View.nodes_at live.2, Option.bind_eq_bind, Option.bind_some, restored]
  simp [check, len]

end Text

end CellBag.SuffixAutomaton
