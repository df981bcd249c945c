import CellBag.Proof.DictionaryCounts

/-!
The selection of `build_dict`: the killed nodes are closed under substrings of their words, so that no
selected word is a substring of another one.
-/

namespace CellBag.SuffixAutomaton
open CellBag.Factors Serializator

section Text
variable {C : Nat} {t : List Nat} {view : View} {word : Nat → List Nat}

/-- The nodes that the kill search goes to from a node: its link and its predecessors. -/
def Leads (C : Nat) (view : View) (v u : Nat) : Prop :=
  (u = view.link v ∨ u ∈ predecessors C view v) ∧ u ≠ 0

/-- A step of the search leads to a state with a shorter word. -/
theorem Represents.leads_shorter (represents : Represents C t view word) {v u : Nat}
    (live : view.Live v) (leads : Leads C view v u) :
    view.Live u ∧ (word u).length < (word v).length := by
  obtain ⟨link | before, running⟩ := leads
  · subst link
    rcases represents.link v live with ⟨_, zero⟩ | ⟨liveL, links⟩
    · exact absurd zero running
    · exact ⟨liveL, links.length_lt⟩
  · obtain ⟨liveU, _, c, letter, rfl⟩ := mem_predecessors.mp before
    exact ⟨liveU, represents.length_lt_next liveU letter (Nat.ne_of_gt live.1)⟩

/-- The search goes to nodes of substrings. -/
theorem Represents.leads_infix (represents : Represents C t view word) {v u : Nat}
    (live : view.Live v) (leads : Leads C view v u) : word u <:+: word v := by
  obtain ⟨link | before, running⟩ := leads
  · subst link
    rcases represents.link v live with ⟨_, zero⟩ | ⟨_, links⟩
    · exact absurd zero running
    · exact links.suffix.isInfix
  · obtain ⟨liveU, _, c, letter, rfl⟩ := mem_predecessors.mp before
    have ends := (represents.transition liveU letter (Nat.ne_of_gt live.1)).2.suffix
    exact (List.prefix_append (word u) [c]).isInfix.trans ends.isInfix

/-- A set of nodes that the search does not leave holds the root. -/
theorem Represents.closed_root (represents : Represents C t view word) (closed : Nat → Prop)
    (search : ∀ v, closed v → view.Live v → ∀ u, Leads C view v u → closed u) {v : Nat} (live : view.Live v)
    (inner : v ≠ 1) (below : ∀ p, Leads C view v p → closed p) : closed 1 := by
  induction room : (word v).length using Nat.strongRecOn generalizing v with
  | ind room ih =>
      obtain ⟨liveL, links⟩ := represents.links live inner
      have held := below _ ⟨.inl rfl, Nat.ne_of_gt liveL.1⟩
      by_cases root : view.link v = 1
      · exact root ▸ held
      · exact ih _ (room ▸ links.length_lt) liveL root (search _ held liveL) rfl

/-- A set of nodes that the search does not leave holds the nodes of the substrings of its words. -/
theorem Represents.closed_substring (represents : Represents C t view word)
    (letters : ∀ c ∈ t, c < C) (closed : Nat → Prop)
    (search : ∀ v, closed v → view.Live v → ∀ u, Leads C view v u → closed u)
    {v u : Nat} {x : List Nat} (live : view.Live v) (below : ∀ p, Leads C view v p → closed p)
    (nonempty : x ≠ []) (inside : x <:+: word v) (liveU : view.Live u)
    (ext : Extends t x (word u)) : u = v ∨ closed u := by
  induction room : (word v).length using Nat.strongRecOn generalizing v x with
  | ind room ih =>
      have again {p : Nat} {y : List Nat} (leads : Leads C view v p) (proper : y ≠ [])
          (part : y <:+: word p) (extY : Extends t y (word u)) : closed u := by
        obtain ⟨liveP, shorter⟩ := represents.leads_shorter live leads
        have held := below p leads
        rcases ih _ (room ▸ shorter) liveP (search p held liveP) proper part extY rfl with same | found
        · exact same ▸ held
        · exact found
      obtain ⟨w, c, split⟩ : ∃ w c, word v = w ++ [c] := by
        rcases (word v).eq_nil_or_concat with empty | ⟨w, c, split⟩
        · exact absurd (List.infix_nil.mp (empty ▸ inside)) nonempty
        · exact ⟨w, c, split.trans (List.concat_eq_append ..)⟩
      rw [split, List.infix_concat_iff, ← split] at inside
      rcases inside with ends | earlier
      · have whole := ext.suffix_longest ends (represents.longest v live)
        rcases (represents.below_iff live liveU).mp ⟨Nat.ne_of_gt live.1, whole⟩ with same | lower
        · exact .inl same
        · refine .inr (again ⟨.inl rfl, lower.1⟩ ?_ lower.2.isInfix (represents.longest u liveU).extends)
          intro empty
          exact nonempty (List.suffix_nil.mp (empty ▸ ext.suffix))
      · obtain ⟨p, liveP, rfl, letter, leads⟩ := represents.exists_predecessor letters live split
        have before : p ∈ predecessors C view v :=
          mem_predecessors.mpr ⟨liveP, Nat.ne_of_gt live.1, c, letter, leads⟩
        exact .inr (again ⟨.inr before, Nat.ne_of_gt liveP.1⟩ nonempty earlier ext)

/-- The comparator of the candidates is lexicographic. -/
theorem candidateCmp_iff (nodes : List Node) (cntOccured cntDiffStrings : List Nat) (a b : Nat) :
    candidateCmp nodes cntOccured cntDiffStrings a b = true ↔
      score nodes cntDiffStrings b < score nodes cntDiffStrings a ∨
      score nodes cntDiffStrings a = score nodes cntDiffStrings b ∧
        (score nodes cntOccured b < score nodes cntOccured a ∨
        score nodes cntOccured a = score nodes cntOccured b ∧
          (cntDiffStrings.getD b 0 < cntDiffStrings.getD a 0 ∨
          cntDiffStrings.getD a 0 = cntDiffStrings.getD b 0 ∧
            cntOccured.getD b 0 < cntOccured.getD a 0)) := by
  unfold candidateCmp
  split_ifs with first second third
  all_goals
    rw [decide_eq_true_eq]
    omega

/-- The candidates are sorted by a strict weak order. -/
theorem candidateCmp_order (nodes : List Node) (cntOccured cntDiffStrings : List Nat) :
    StrictWeakOrder (candidateCmp nodes cntOccured cntDiffStrings) where
  irrefl := by
    intro a
    rw [← Bool.not_eq_true, candidateCmp_iff]
    omega
  trans := by
    intro a b c
    simp only [candidateCmp_iff]
    omega
  equivalent := by
    intro a b c
    simp only [candidateCmp_iff]
    omega

/-- The order of a set of nodes. -/
theorem nodeOrder_total : OrderedSet.Total fun a b : Nat => decide (a < b) where
  irrefl := by simp
  trans := by
    intro a b c first second
    simp only [decide_eq_true_eq] at first second ⊢
    omega
  total := by
    intro a b different
    simp only [decide_eq_true_eq]
    omega

/-- The variables while the search from `candidate` has queued the nodes of `q`. -/
def killing (view : View) (word : Nat → List Nat) (killed : Nat → Bool) (dictV : List Nat)
    (candidate : Nat) (q : List Nat) : Selection where
  dictV := dictV.filter fun v => v ∉ q
  killed := tabulate view.size fun v => killed v || decide (v ∈ q ∧ v ≠ candidate)
  inDict := tabulate view.size fun v => decide (v ∈ dictV ∧ v ∉ q)
  sumLen := ((dictV.filter fun v => v ∉ q).map fun v => (word v).length).sum + (word candidate).length

/-- The search from `candidate` queues it and nodes of shorter substrings that were not killed before. -/
def Search (C : Nat) (view : View) (word : Nat → List Nat) (killed : Nat → Bool) (candidate : Nat) :
    Nat → List Nat → Prop :=
  Queue.Explored
    (fun v => view.Live v ∧ word v <:+: word candidate ∧
      (v = candidate ∨ (word v).length < (word candidate).length ∧ killed v = false))
    (Leads C view) (fun v => killed v = true) [candidate]

/-- What a set of selected nodes is before a search. -/
structure Members (word : Nat → List Nat) (candidate : Nat) (dictV : List Nat) : Prop where
  sorted : OrderedSet.Sorted (fun a b => decide (a < b)) dictV
  fresh : candidate ∉ dictV
  fits : (dictV.map fun v => (word v).length).sum + (word candidate).length < 2 ^ 32

section Kill
variable {killed : Nat → Bool} {dictV q : List Nat} {candidate ql : Nat}

/-- Some of the words are no longer than all of them. -/
theorem sum_filter_le (word : Nat → List Nat) (dictV q : List Nat) :
    ((dictV.filter fun v => v ∉ q).map fun v => (word v).length).sum ≤
      (dictV.map fun v => (word v).length).sum :=
  (List.filter_sublist.map _).sum_le_sum fun _ _ => Nat.zero_le _

/-- A selected node leaves the dictionary when it is queued. -/
theorem Represents.evict_spec (represents : Represents C t view word)
    (members : Members word candidate dictV) {u : Nat} (live : view.Live u) (selected : u ∈ dictV)
    (fresh : u ∉ q) :
    evict (view.nodes C) u (killing view word killed dictV candidate q) =
      some { killing view word killed dictV candidate (q ++ [u]) with
        killed := (killing view word killed dictV candidate q).killed } := by
  have distinct := members.sorted.nodup nodeOrder_total
  have kept : u ∈ dictV.filter fun v => v ∉ q := by simp [selected, fresh]
  have erased : (dictV.filter fun v => v ∉ q).erase u = dictV.filter fun v => v ∉ q ++ [u] := by
    rw [(distinct.filter _).erase_eq_filter, List.filter_filter]
    apply List.filter_congr
    intro v _
    by_cases same : v = u
    · simp [same]
    · simp [same]
  have sum := List.sum_map_erase (fun v => (word v).length) kept
  have small := sum_filter_le word dictV q
  have fits := members.fits
  have len : (view.node C u).len = (word u).length := represents.len u live
  rw [erased] at sum
  unfold evict killing
  simp only [View.nodes_at live.2, setAt_tabulate live.2, Option.bind_eq_bind, Option.bind_some, len]
  rw [OrderedSet.erase_eq nodeOrder_total (members.sorted.sublist List.filter_sublist), erased]
  congr 2
  · apply tabulate_congr
    intro v _
    by_cases same : v = u
    · simp [same]
    · simp [same]
  · omega

/-- The mark of a node that is queued. -/
theorem killing_mark {u : Nat} (live : view.Live u) (other : u ≠ candidate) :
    setAt (killing view word killed dictV candidate q).killed u true =
      some (killing view word killed dictV candidate (q ++ [u])).killed := by
  simp only [killing]
  rw [setAt_tabulate live.2]
  refine congrArg some (tabulate_congr fun v _ => ?_)
  by_cases same : v = u
  · simp [same, other]
  · simp [same]

/-- A node that is not selected evicts nothing when it is queued. -/
theorem killing_other {u : Nat} (outside : u ∉ dictV) :
    killing view word killed dictV candidate q =
      { killing view word killed dictV candidate (q ++ [u]) with
        killed := (killing view word killed dictV candidate q).killed } := by
  have filtered : (dictV.filter fun v => v ∉ q) = dictV.filter fun v => v ∉ q ++ [u] := by
    apply List.filter_congr
    intro v inDict
    have different : v ≠ u := fun equal => outside (equal ▸ inDict)
    simp [different]
  unfold killing
  rw [filtered]
  congr 1
  apply tabulate_congr
  intro v _
  by_cases equal : v = u
  · simp [equal, outside]
  · simp [equal]

/-- `try_kill` queues a node unless it is known to be dead. -/
theorem Represents.tryKill_spec (represents : Represents C t view word)
    (members : Members word candidate dictV) (search : Search C view word killed candidate ql q)
    {u : Nat} (live : view.Live u) (part : word u <:+: word candidate)
    (shorter : (word u).length < (word candidate).length) :
    ∃ q', tryKill (view.nodes C) u (killing view word killed dictV candidate q, q) =
        some (killing view word killed dictV candidate q', q') ∧
      Search C view word killed candidate ql q' ∧ q <+: q' ∧ (u ∈ q' ∨ killed u = true) := by
  have other : u ≠ candidate := by
    intro same
    rw [same] at shorter
    exact Nat.lt_irrefl _ shorter
  have room := View.length_lt_of_nodup represents.root search.distinct
    fun v queued => (search.sound v queued).1
  have dead : (killing view word killed dictV candidate q).killed[u]? =
      some (killed u || decide (u ∈ q ∧ u ≠ candidate)) := by
    rw [killing, tabulate_at live.2]
  have member : (killing view word killed dictV candidate q).inDict[u]? =
      some (decide (u ∈ dictV ∧ u ∉ q)) := by
    rw [killing, tabulate_at live.2]
  unfold tryKill
  simp only [Nat.ne_of_gt live.1, if_false, dead, Option.bind_eq_bind, Option.bind_some]
  by_cases known : u ∈ q ∨ killed u = true
  · refine ⟨q, ?_, search, List.prefix_refl q, known⟩
    rw [if_pos]
    rcases known with queued | before
    · simp [queued, other]
    · simp [before]
  · rw [not_or, Bool.not_eq_true] at known
    obtain ⟨fresh, alive⟩ := known
    have marked : setAt (killing view word killed dictV candidate q).killed u true =
        some (killing view word killed dictV candidate (q ++ [u])).killed := killing_mark live other
    refine ⟨q ++ [u], ?_, search.push fresh ⟨live, part, .inr ⟨shorter, alive⟩⟩, List.prefix_append q [u],
      .inl (by simp)⟩
    rw [if_neg (by simp [fresh, alive]), member, Option.bind_some]
    by_cases selected : u ∈ dictV
    · rw [if_pos (by simp [selected, fresh]), represents.evict_spec members live selected fresh]
      simp only [Option.bind_some, marked, View.length_nodes, check_of room]
    · have same : killing view word killed dictV candidate q =
          { killing view word killed dictV candidate (q ++ [u]) with
            killed := (killing view word killed dictV candidate q).killed } := killing_other selected
      rw [if_neg (by simp [selected])]
      simp only [Option.bind_some, marked, View.length_nodes, check_of room]
      rw [same]

/-- The search queues no longer words than that of the candidate. -/
theorem Search.length_le (search : Search C view word killed candidate ql q) {v : Nat}
    (queued : v ∈ q) : (word v).length ≤ (word candidate).length :=
  (search.sound v queued).2.1.length_le

/-- The loop over `rev_to[v]` queues all its nodes. -/
theorem Represents.killAll_spec (represents : Represents C t view word)
    (members : Members word candidate dictV) (froms : List Nat)
    (search : Search C view word killed candidate ql q)
    (each : ∀ u ∈ froms, view.Live u ∧ word u <:+: word candidate ∧
      (word u).length < (word candidate).length) :
    ∃ q', froms.foldlM (fun state from_ => tryKill (view.nodes C) from_ state)
          (killing view word killed dictV candidate q, q) =
        some (killing view word killed dictV candidate q', q') ∧
      Search C view word killed candidate ql q' ∧ q <+: q' ∧
      ∀ u ∈ froms, u ∈ q' ∨ killed u = true := by
  induction froms generalizing q with
  | nil => exact ⟨q, rfl, search, List.prefix_refl q, by simp⟩
  | cons from_ froms ih =>
      obtain ⟨live, part, shorter⟩ := each from_ List.mem_cons_self
      obtain ⟨q₁, first, search₁, grown₁, here⟩ := represents.tryKill_spec members search live part shorter
      obtain ⟨q₂, rest, search₂, grown₂, others⟩ :=
        ih search₁ fun u member => each u (List.mem_cons_of_mem _ member)
      refine ⟨q₂, ?_, search₂, grown₁.trans grown₂, fun u member => ?_⟩
      · rw [List.foldlM_cons, first]
        exact rest
      · rcases List.mem_cons.mp member with rfl | later
        · exact here.imp_left fun queued => grown₂.subset queued
        · exact others u later

/-- The turn at a node queues its link and its predecessors. -/
theorem Represents.killTurn_spec (represents : Represents C t view word)
    (members : Members word candidate dictV) (search : Search C view word killed candidate ql q)
    {v : Nat} (look : q[ql]? = some v) :
    ∃ q', killTurn (view.nodes C) (tabulate view.size (predecessors C view)) v
          (killing view word killed dictV candidate q, q) =
        some (killing view word killed dictV candidate q', q') ∧
      Search C view word killed candidate (ql + 1) q' := by
  have queued := List.mem_of_getElem? look
  have live := (search.sound v queued).1
  have short := search.length_le queued
  have part := (search.sound v queued).2.1
  have each {u : Nat} (leads : Leads C view v u) :
      view.Live u ∧ word u <:+: word candidate ∧ (word u).length < (word candidate).length := by
    obtain ⟨liveU, shorter⟩ := represents.leads_shorter live leads
    exact ⟨liveU, (represents.leads_infix live leads).trans part, Nat.lt_of_lt_of_le shorter short⟩
  have linked : ∃ q', tryKill (view.nodes C) (view.link v)
        (killing view word killed dictV candidate q, q) =
        some (killing view word killed dictV candidate q', q') ∧
      Search C view word killed candidate ql q' ∧ q <+: q' ∧
      (view.link v ≠ 0 → view.link v ∈ q' ∨ killed (view.link v) = true) := by
    by_cases zero : view.link v = 0
    · refine ⟨q, ?_, search, List.prefix_refl q, fun running => absurd zero running⟩
      rw [tryKill, if_pos zero]
    · obtain ⟨liveL, partL, shorter⟩ := each ⟨.inl rfl, zero⟩
      obtain ⟨q', turn, search', grown, found⟩ :=
        represents.tryKill_spec members search liveL partL shorter
      exact ⟨q', turn, search', grown, fun _ => found⟩
  obtain ⟨q₁, first, search₁, grown₁, here⟩ := linked
  obtain ⟨q₂, rest, search₂, grown₂, others⟩ := represents.killAll_spec members
    (predecessors C view v) search₁ fun u before =>
      each ⟨.inr before, Nat.ne_of_gt (mem_predecessors.mp before).1.1⟩
  have still : q₂[ql]? = some v := by
    have inside := (List.getElem?_eq_some_iff.mp look).1
    obtain ⟨more, grown⟩ := grown₁.trans grown₂
    rw [← grown, List.getElem?_append_left inside, look]
  refine ⟨q₂, ?_, search₂.pass still ?_⟩
  · unfold killTurn
    simp only [View.nodes_at live.2, tabulate_at live.2, Option.bind_eq_bind, Option.bind_some]
    change (tryKill (view.nodes C) (view.link v) _).bind _ = _
    rw [first, Option.bind_some]
    exact rest
  · rintro u ⟨link | before, running⟩
    · subst link
      exact (here running).imp_left fun queued => grown₂.subset queued
    · exact others u before

variable (killed) in
/-- The search from a candidate ends with all its nodes read. -/
theorem Represents.killLoop_spec (represents : Represents C t view word)
    (members : Members word candidate dictV) (live : view.Live candidate) :
    ∃ q, Queue.loop (killTurn (view.nodes C) (tabulate view.size (predecessors C view)))
          (view.size + 1) 0 (killing view word killed dictV candidate [candidate], [candidate]) =
        some (killing view word killed dictV candidate q, q) ∧
      Search C view word killed candidate q.length q := by
  obtain ⟨state, q, run, rfl, search⟩ := Queue.loop_invariant
    (killTurn (view.nodes C) (tabulate view.size (predecessors C view))) view.size
    (fun ql state q => state = killing view word killed dictV candidate q ∧
      Search C view word killed candidate ql q)
    (by
      rintro ql state q ⟨_, search⟩
      exact ⟨search.bound, Nat.le_of_lt (View.length_lt_of_nodup represents.root search.distinct
        fun v queued => (search.sound v queued).1)⟩)
    (by
      rintro ql state q v ⟨rfl, search⟩ look
      obtain ⟨q', turn, next⟩ := represents.killTurn_spec members search look
      exact ⟨_, q', turn, rfl, next⟩)
    (view.size + 1) 0 (killing view word killed dictV candidate [candidate]) [candidate]
    ⟨rfl, List.nodup_singleton _, List.prefix_refl _, fun v queued =>
      ⟨List.mem_singleton.mp queued ▸ live, List.mem_singleton.mp queued ▸ List.infix_rfl,
        .inl (List.mem_singleton.mp queued)⟩,
      by simp, Nat.zero_le _⟩
    (by omega)
  exact ⟨q, run, search⟩

end Kill

/-- The variables between two candidates. -/
def selected (view : View) (word : Nat → List Nat) (killed : Nat → Bool) (dictV : List Nat) :
    Selection where
  dictV := dictV
  killed := tabulate view.size killed
  inDict := tabulate view.size fun v => decide (v ∈ dictV)
  sumLen := (dictV.map fun v => (word v).length).sum

/-- What holds between two candidates: the search leads from killed and from selected nodes to killed
nodes only. -/
structure Selected (C : Nat) (view : View) (word : Nat → List Nat) (maxDictSize : Nat)
    (done : List Nat) (killed : Nat → Bool) (dictV : List Nat) : Prop where
  sorted : OrderedSet.Sorted (fun a b => decide (a < b)) dictV
  member : ∀ v ∈ dictV, view.Live v ∧ v ≠ 1 ∧ v ∈ done ∧ killed v = false
  closed : ∀ v, view.Live v → killed v = true ∨ v ∈ dictV → ∀ u, Leads C view v u → killed u = true
  fits : (dictV.map fun v => (word v).length).sum ≤ maxDictSize

section Candidates
variable {maxDictSize : Nat} {done dictV : List Nat} {killed : Nat → Bool}

/-- Before the first candidate nothing is selected. -/
theorem Selected.nothing : Selected C view word maxDictSize [] (fun _ => false) [] where
  sorted := List.Pairwise.nil
  member := by simp
  closed := by simp
  fits := Nat.zero_le _

/-- A candidate that is passed over changes nothing. -/
theorem Selected.skip (state : Selected C view word maxDictSize done killed dictV) (candidate : Nat) :
    Selected C view word maxDictSize (done ++ [candidate]) killed dictV where
  sorted := state.sorted
  member := fun v inDict =>
    let ⟨live, inner, earlier, alive⟩ := state.member v inDict
    ⟨live, inner, List.mem_append_left _ earlier, alive⟩
  closed := state.closed
  fits := state.fits

/-- The selected nodes that the search has left, with the candidate. -/
def replaced (dictV q : List Nat) (candidate : Nat) : List Nat :=
  OrderedSet.insert (fun a b => decide (a < b)) candidate (dictV.filter fun v => v ∉ q)

/-- The candidate and the words that stay. -/
theorem replaced_perm {q : List Nat} {candidate : Nat} (fresh : candidate ∉ dictV) :
    (replaced dictV q candidate).Perm (candidate :: dictV.filter fun v => v ∉ q) :=
  OrderedSet.insert_perm nodeOrder_total (dictV.filter fun v => v ∉ q)
    fun found => fresh (List.mem_filter.mp found).1

/-- A selected state is the candidate or one that stayed. -/
theorem mem_replaced {q : List Nat} {candidate v : Nat} (fresh : candidate ∉ dictV) :
    v ∈ replaced dictV q candidate ↔ v = candidate ∨ v ∈ dictV ∧ v ∉ q := by
  rw [(replaced_perm fresh).mem_iff, List.mem_cons, List.mem_filter, decide_eq_true_eq]

/-- The lengths after a replacement. -/
theorem sum_replaced {q : List Nat} {candidate : Nat} (fresh : candidate ∉ dictV) :
    ((replaced dictV q candidate).map fun v => (word v).length).sum =
      ((dictV.filter fun v => v ∉ q).map fun v => (word v).length).sum + (word candidate).length := by
  have sum := ((replaced_perm (q := q) fresh).map fun v => (word v).length).sum_eq
  rw [List.map_cons, List.sum_cons] at sum
  omega

/-- The state after the search from a candidate and its insertion. -/
theorem Selected.select (represents : Represents C t view word)
    (state : Selected C view word maxDictSize done killed dictV) {candidate : Nat}
    (live : view.Live candidate) (inner : candidate ≠ 1) (fresh : candidate ∉ dictV)
    (alive : killed candidate = false)
    (room : (dictV.map fun v => (word v).length).sum + (word candidate).length ≤ maxDictSize)
    {q : List Nat} (search : Search C view word killed candidate q.length q) :
    Selected C view word maxDictSize (done ++ [candidate])
      (fun v => killed v || decide (v ∈ q ∧ v ≠ candidate)) (replaced dictV q candidate) := by
  constructor
  case sorted =>
    exact OrderedSet.insert_sorted nodeOrder_total (state.sorted.sublist List.filter_sublist)
      fun found => fresh (List.mem_filter.mp found).1
  case member =>
    intro v found
    rcases (mem_replaced fresh).mp found with rfl | ⟨inDict, apart⟩
    · exact ⟨live, inner, by simp, by simp [alive]⟩
    · obtain ⟨liveV, innerV, earlier, aliveV⟩ := state.member v inDict
      exact ⟨liveV, innerV, List.mem_append_left _ earlier, by simp [aliveV, apart]⟩
  case closed =>
    intro v liveV held u leads
    have settled : killed v = true ∨ v ∈ dictV ∨ v ∈ q := by
      rcases held with dead | found
      · rcases (Bool.or_eq_true _ _).mp dead with before | now
        · exact .inl before
        · exact .inr (.inr (of_decide_eq_true now).1)
      · rcases (mem_replaced fresh).mp found with rfl | ⟨inDict, _⟩
        · exact .inr (.inr (search.kept.subset List.mem_cons_self))
        · exact .inr (.inl inDict)
    rw [Bool.or_eq_true, decide_eq_true_eq]
    rcases settled with before | inDict | queued
    · exact .inl (state.closed v liveV (.inl before) u leads)
    · exact .inl (state.closed v liveV (.inr inDict) u leads)
    · have short := search.length_le queued
      have shorter := (represents.leads_shorter liveV leads).2
      rcases search.read v (by rwa [List.take_length]) u leads with found | before
      · refine .inr ⟨found, fun same => ?_⟩
        rw [same] at shorter
        omega
      · exact .inl before
  case fits =>
    rw [sum_replaced fresh]
    exact Nat.le_trans (Nat.add_le_add_right (sum_filter_le word dictV q) _) room

/-- The candidate joins the sum before the search from it. -/
theorem selected_started {candidate : Nat} (fresh : candidate ∉ dictV) :
    ({ selected view word killed dictV with
      sumLen := (dictV.map fun v => (word v).length).sum + (word candidate).length } : Selection) =
      killing view word killed dictV candidate [candidate] := by
  have kept : (dictV.filter fun v => v ∉ [candidate]) = dictV := by
    rw [List.filter_eq_self]
    intro v inDict
    have different : v ≠ candidate := fun same => fresh (same ▸ inDict)
    simp [different]
  simp only [killing, selected, kept, Selection.mk.injEq, true_and, and_true]
  constructor
  · apply tabulate_congr
    intro v _
    simp
  · apply tabulate_congr
    intro v _
    by_cases same : v = candidate
    · simp [same, fresh]
    · simp [same]

/-- The candidate joins the selected nodes after the search from it. -/
theorem killing_ended {candidate : Nat} {q : List Nat} (fresh : candidate ∉ dictV)
    (live : view.Live candidate) :
    (do
      let inDict ← setAt (killing view word killed dictV candidate q).inDict candidate true
      some { killing view word killed dictV candidate q with
        dictV := OrderedSet.insert (fun a b => decide (a < b)) candidate
          (killing view word killed dictV candidate q).dictV
        inDict }) =
      some (selected view word (fun v => killed v || decide (v ∈ q ∧ v ≠ candidate))
        (replaced dictV q candidate)) := by
  simp only [killing, selected, setAt_tabulate live.2, Option.bind_eq_bind, Option.bind_some,
    sum_replaced fresh, Option.some.injEq, Selection.mk.injEq, true_and, and_true]
  refine ⟨rfl, tabulate_congr fun v _ => ?_⟩
  simp only [mem_replaced fresh]
  by_cases same : v = candidate
  · simp [same]
  · simp [same]

/-- What the turn at a candidate makes of the killed and the selected nodes. -/
def Turned (C : Nat) (view : View) (word : Nat → List Nat) (maxDictSize : Nat) (killed : Nat → Bool)
    (dictV : List Nat) (candidate : Nat) (killed' : Nat → Bool) (dictV' : List Nat) : Prop :=
  if killed candidate = true ∨
      (word candidate).length + (dictV.map fun v => (word v).length).sum > maxDictSize then
    killed' = killed ∧ dictV' = dictV
  else ∃ q, Search C view word killed candidate q.length q ∧
    killed' = (fun v => killed v || decide (v ∈ q ∧ v ≠ candidate)) ∧ dictV' = replaced dictV q candidate

/-- The turn of the candidate loop. -/
theorem Represents.selectCandidate_spec (represents : Represents C t view word)
    (state : Selected C view word maxDictSize done killed dictV) {candidate : Nat}
    (bound : maxDictSize < 2 ^ 31) (live : view.Live candidate) (inner : candidate ≠ 1)
    (fresh : candidate ∉ done) (short : (word candidate).length ≤ maxDictSize) :
    ∃ killed' dictV', selectCandidate (view.nodes C) (tabulate view.size (predecessors C view))
          maxDictSize (selected view word killed dictV) candidate =
        some (selected view word killed' dictV') ∧
      Selected C view word maxDictSize (done ++ [candidate]) killed' dictV' ∧
      Turned C view word maxDictSize killed dictV candidate killed' dictV' := by
  have fits := state.fits
  have absent : candidate ∉ dictV := fun found => fresh (state.member candidate found).2.2.1
  have len : (view.node C candidate).len = (word candidate).length := represents.len candidate live
  have dead : (selected view word killed dictV).killed[candidate]? = some (killed candidate) :=
    tabulate_at live.2
  have sumLen : (selected view word killed dictV).sumLen =
      (dictV.map fun v => (word v).length).sum := rfl
  have small : ((word candidate).length + (dictV.map fun v => (word v).length).sum) % 2 ^ 32 =
      (word candidate).length + (dictV.map fun v => (word v).length).sum :=
    Nat.mod_eq_of_lt (by omega)
  unfold selectCandidate
  simp only [dead, View.nodes_at live.2, Option.bind_eq_bind, Option.bind_some, len, sumLen, small]
  by_cases skipped : killed candidate = true ∨
      (word candidate).length + (dictV.map fun v => (word v).length).sum > maxDictSize
  · rw [if_pos skipped]
    exact ⟨killed, dictV, rfl, state.skip candidate, (if_pos skipped).mpr ⟨rfl, rfl⟩⟩
  · rw [if_neg skipped]
    have taken := skipped
    rw [not_or, Bool.not_eq_true] at skipped
    obtain ⟨alive, room⟩ := skipped
    have members : Members word candidate dictV := ⟨state.sorted, absent, by omega⟩
    have total : ((dictV.map fun v => (word v).length).sum + (word candidate).length) % 2 ^ 32 =
        (dictV.map fun v => (word v).length).sum + (word candidate).length :=
      Nat.mod_eq_of_lt (by omega)
    have positive : 0 < view.size := Nat.lt_of_le_of_lt (Nat.zero_le _) live.2
    obtain ⟨q, run, search⟩ := represents.killLoop_spec killed members live
    refine ⟨_, _, ?_, state.select represents live inner absent alive (by omega) search,
      (if_neg taken).mpr ⟨q, search, rfl, rfl⟩⟩
    simp only [total, selected_started absent, View.length_nodes, check_of positive,
      Option.bind_some, run]
    exact killing_ended absent live

/-- The candidate loop over any list of different candidates. -/
theorem Represents.select_run (represents : Represents C t view word) (bound : maxDictSize < 2 ^ 31)
    {items : List Nat} (distinct : items.Nodup)
    (each : ∀ v ∈ items, view.Live v ∧ v ≠ 1 ∧ (word v).length ≤ maxDictSize) :
    ∃ killed dictV, items.foldlM
          (selectCandidate (view.nodes C) (tabulate view.size (predecessors C view)) maxDictSize)
          (Selection.start view.size) =
        some (selected view word killed dictV) ∧
      Selected C view word maxDictSize items killed dictV := by
  have start : Selection.start view.size = selected view word (fun _ => false) [] := by
    simp [Selection.start, selected, replicate_eq_tabulate]
  obtain ⟨selection, run, killed, dictV, rfl, state⟩ := OptionList.foldlM_invariant items
    (Selection.start view.size)
    (selectCandidate (view.nodes C) (tabulate view.size (predecessors C view)) maxDictSize)
    (fun done selection => ∃ killed dictV, selection = selected view word killed dictV ∧
      Selected C view word maxDictSize done killed dictV)
    ⟨_, _, start, .nothing⟩ (by
      rintro done candidate rest selection split ⟨killed, dictV, rfl, state⟩
      obtain ⟨live, inner, short⟩ := each candidate (split ▸ by simp)
      have fresh : candidate ∉ done := OptionList.fresh_of_split distinct split
      obtain ⟨killed', dictV', turn, next, -⟩ :=
        represents.selectCandidate_spec state bound live inner fresh short
      exact ⟨_, turn, killed', dictV', rfl, next⟩)
  exact ⟨killed, dictV, run, state⟩

end Candidates

/-- The candidates are different inner nodes with words of a fitting length. -/
theorem Represents.candidates_spec (represents : Represents C t view word) (sort : StdSort)
    (strings : List (List Nat)) (cntOccured cntDiffStrings : List Nat) (root last : Nat)
    (maxDictSize : Nat) {minMatchLength : Nat} (long : 2 ≤ minMatchLength) :
    let items := candidates sort ⟨⟨view.nodes C, root, last⟩, strings⟩ cntOccured cntDiffStrings
      maxDictSize minMatchLength
    items.Nodup ∧ ∀ v ∈ items, view.Live v ∧ v ≠ 1 ∧ (word v).length ≤ maxDictSize := by
  intro items
  have perm := sort.perm _ ((List.range' 1 ((view.nodes C).length - 1)).filter fun v =>
    lenOf (view.nodes C) v ≥ minMatchLength ∧ lenOf (view.nodes C) v ≤ maxDictSize ∧
      cntDiffStrings.getD v 0 > strings.length / 2)
    (candidateCmp_order (view.nodes C) cntOccured cntDiffStrings)
  refine ⟨perm.nodup_iff.mpr ((List.nodup_range' ..).filter _), fun v member => ?_⟩
  obtain ⟨inRange, sized⟩ := List.mem_filter.mp (perm.subset member)
  rw [View.length_nodes] at inRange
  have live := View.live_iff.mpr inRange
  rw [represents.lenOf_eq live, decide_eq_true_eq] at sized
  refine ⟨live, ?_, sized.2.1⟩
  intro root
  have short := sized.1
  rw [root, represents.rootWord] at short
  exact absurd (Nat.le_trans long short) (by decide)

end Text

/-- What holds after every step of the candidate loop. -/
structure Unnested (automaton : SuffAutBase) (froms : List (List Nat)) (maxDictSize : Nat)
    (selection : Selection) : Prop where
  sum : selection.sumLen = (selection.dictV.map (lenOf automaton.nodes)).sum
  fits : selection.sumLen ≤ maxDictSize
  sorted : selection.dictV.Pairwise (· < ·)
  inside : ∀ v ∈ selection.dictV, 0 < v ∧ v < automaton.nodes.length
  marks : ∀ v < automaton.nodes.length,
    selection.inDict[v]? = some (decide (v ∈ selection.dictV))
  apart : ∀ v ∈ selection.dictV, ∀ u ∈ selection.dictV, v ≠ u →
    ∃ x y, restoreLongestStr automaton.nodes automaton.root froms v = some x ∧
      restoreLongestStr automaton.nodes automaton.root froms u = some y ∧ ¬ x <:+: y
  closed : ∀ v, 0 < v → v < automaton.nodes.length →
    selection.killed[v]? = some true ∨ v ∈ selection.dictV →
    ∃ w, restoreLongestStr automaton.nodes automaton.root froms v = some w ∧
      ∀ x u, x ≠ [] → x <:+: w → walk automaton.nodes automaton.root x = some u →
        selection.killed[u]? = some true ∨ u = v

/-- A turn passes over a candidate that is killed or does not fit. Any other is selected; the nodes of the other
substrings of its longest string are killed, and they are selected no more. -/
structure Turn (automaton : SuffAutBase) (froms : List (List Nat)) (maxDictSize : Nat)
    (before : Selection) (candidate : Nat) (after : Selection) : Prop where
  passed : before.killed[candidate]? = some true ∨
    maxDictSize < before.sumLen + lenOf automaton.nodes candidate → after = before
  selected : before.killed[candidate]? = some false →
    before.sumLen + lenOf automaton.nodes candidate ≤ maxDictSize →
    ∀ v, v ∈ after.dictV ↔ v = candidate ∨ v ∈ before.dictV ∧ after.killed[v]? = some false
  killed : before.killed[candidate]? = some false →
    before.sumLen + lenOf automaton.nodes candidate ≤ maxDictSize →
    ∃ w, restoreLongestStr automaton.nodes automaton.root froms candidate = some w ∧
      ∀ u, after.killed[u]? = some true ↔ before.killed[u]? = some true ∨
        u ≠ candidate ∧ ∃ x, x <:+: w ∧ walk automaton.nodes automaton.root x = some u

section Text
variable {C : Nat} {t : List Nat} {view : View} {word : Nat → List Nat}

/-- The search from a candidate kills just the nodes of the other substrings of its word. -/
theorem Represents.searched_iff (represents : Represents C t view word) (letters : ∀ c ∈ t, c < C)
    {killed : Nat → Bool} {candidate : Nat} {q : List Nat} (live : view.Live candidate) (inner : candidate ≠ 1)
    (closed : ∀ v, view.Live v → killed v = true → ∀ u, Leads C view v u → killed u = true)
    (search : Search C view word killed candidate q.length q) (u : Nat) :
    killed u = true ∨ u ∈ q ∧ u ≠ candidate ↔ killed u = true ∨ u ≠ candidate ∧
      ∃ x, x <:+: word candidate ∧ walk (view.nodes C) 1 x = some u := by
  have settled : ∀ v, (killed v = true ∨ v ∈ q) → view.Live v → ∀ p, Leads C view v p →
      killed p = true ∨ p ∈ q := by
    rintro v (before | queued) liveV p leads
    · exact .inl (closed v liveV before p leads)
    · exact (search.read v (by rwa [List.take_length]) p leads).symm
  have queued : candidate ∈ q := search.kept.subset List.mem_cons_self
  have below := settled candidate (.inr queued) live
  constructor
  · rintro (before | ⟨found, other⟩)
    · exact .inl before
    · obtain ⟨liveU, part, -⟩ := search.sound u found
      exact .inr ⟨other, word u, part, (represents.walk_iff letters).mpr
        ⟨liveU, (represents.longest u liveU).extends⟩⟩
  · rintro (before | ⟨other, x, part, run⟩)
    · exact .inl before
    · obtain ⟨liveU, ext⟩ := (represents.walk_iff letters).mp run
      have found : killed u = true ∨ u ∈ q := by
        rcases eq_or_ne x [] with rfl | nonempty
        · obtain rfl : u = 1 := represents.injective u 1 liveU represents.root
            (ext.unique (represents.rootWord.symm ▸ (longest_nil t).extends))
          exact represents.closed_root (fun v => killed v = true ∨ v ∈ q) settled live inner below
        · exact (represents.closed_substring letters (fun v => killed v = true ∨ v ∈ q) settled live below
            nonempty part liveU ext).resolve_left other
      exact found.imp_right fun inQueue => ⟨inQueue, other⟩

/-- The turn at a candidate is as required. -/
theorem Turned.turn {maxDictSize last : Nat} {done dictV dictV' : List Nat} {killed killed' : Nat → Bool}
    {candidate : Nat} (turned : Turned C view word maxDictSize killed dictV candidate killed' dictV')
    (represents : Represents C t view word) (letters : ∀ c ∈ t, c < C) (live : view.Live candidate)
    (inner : candidate ≠ 1) (fresh : candidate ∉ done)
    (state : Selected C view word maxDictSize done killed dictV) :
    Turn ⟨view.nodes C, 1, last⟩ (tabulate view.size (predecessors C view)) maxDictSize
      (selected view word killed dictV) candidate (selected view word killed' dictV') := by
  have absent : candidate ∉ dictV := fun found => fresh (state.member candidate found).2.2.1
  have len := represents.lenOf_eq live
  have sumLen : (selected view word killed dictV).sumLen =
      (dictV.map fun v => (word v).length).sum := rfl
  have dead {killed : Nat → Bool} {dictV : List Nat} {v : Nat} (inside : v < view.size) :
      (selected view word killed dictV).killed[v]? = some (killed v) := tabulate_at inside
  have outside {killed : Nat → Bool} {dictV : List Nat} {v : Nat} (after : view.size ≤ v) :
      (selected view word killed dictV).killed[v]? = none := by
    simp [selected, tabulate, after]
  rw [Turned] at turned
  split_ifs at turned with skipped
  · obtain ⟨rfl, rfl⟩ := turned
    rcases skipped with before | long
    · refine ⟨fun _ => rfl, fun alive => ?_, fun alive => ?_⟩ <;>
        simp [dead live.2, before] at alive
    · refine ⟨fun _ => rfl, fun _ room => ?_, fun _ room => ?_⟩ <;>
        simp only [len, sumLen] at room <;> omega
  · obtain ⟨q, search, rfl, rfl⟩ := turned
    rw [not_or, Bool.not_eq_true] at skipped
    have onlyLive {v : Nat} (queued : v ∈ q) : v < view.size := (search.sound v queued).1.2
    refine ⟨?_, fun _ _ v => ?_, fun _ _ => ?_⟩
    · rintro (before | long)
      · simp [dead live.2, skipped.1] at before
      · simp only [len, sumLen] at long
        omega
    · change v ∈ replaced dictV q candidate ↔ v = candidate ∨ v ∈ dictV ∧ _
      rw [mem_replaced absent]
      refine or_congr_right (and_congr_right fun inDict => ?_)
      obtain ⟨liveV, -, -, alive⟩ := state.member v inDict
      have different : v ≠ candidate := fun same => absent (same ▸ inDict)
      simp [dead liveV.2, alive, different]
    · refine ⟨word candidate, represents.restoreLongestStr_eq letters live, fun u => ?_⟩
      have exact_ := represents.searched_iff letters live inner
        (fun v liveV before => state.closed v liveV (.inl before)) search u
      by_cases inside : u < view.size
      · simpa [dead inside] using exact_
      · rw [outside (Nat.le_of_not_lt inside), outside (Nat.le_of_not_lt inside)]
        simp only [reduceCtorEq, false_or, false_iff]
        rintro ⟨-, x, -, run⟩
        exact inside ((represents.walk_iff letters).mp run).1.2

/-- The states between two candidates are as required. -/
theorem Selected.unnested {maxDictSize last : Nat} {done dictV : List Nat} {killed : Nat → Bool}
    (state : Selected C view word maxDictSize done killed dictV)
    (represents : Represents C t view word) (letters : ∀ c ∈ t, c < C) :
    Unnested ⟨view.nodes C, 1, last⟩ (tabulate view.size (predecessors C view)) maxDictSize
      (selected view word killed dictV) := by
  have substring {v u : Nat} {x : List Nat} (live : view.Live v)
      (held : killed v = true ∨ v ∈ dictV) (nonempty : x ≠ []) (inside : x <:+: word v)
      (liveU : view.Live u) (ext : Extends t x (word u)) : killed u = true ∨ u = v :=
    (represents.closed_substring letters (fun v => killed v = true)
      (fun v dead liveV => state.closed v liveV (.inl dead)) live (state.closed v live held)
      nonempty inside liveU ext).symm
  constructor
  case sum =>
    apply congrArg List.sum
    apply List.map_congr_left
    intro v inDict
    exact (represents.lenOf_eq (state.member v inDict).1).symm
  case fits => exact state.fits
  case sorted => exact state.sorted.imp of_decide_eq_true
  case inside =>
    intro v inDict
    have live := (state.member v inDict).1
    exact ⟨live.1, by simpa using live.2⟩
  case marks =>
    intro v inside
    rw [View.length_nodes] at inside
    exact tabulate_at inside
  case apart =>
    intro v inDictV u inDictU different
    obtain ⟨liveV, innerV, _, alive⟩ := state.member v inDictV
    have liveU := (state.member u inDictU).1
    refine ⟨word v, word u, represents.restoreLongestStr_eq letters liveV,
      represents.restoreLongestStr_eq letters liveU, fun nested => ?_⟩
    rcases substring liveU (.inr inDictU) (represents.ne_nil liveV innerV) nested liveV
      (represents.longest v liveV).extends with dead | same
    · rw [alive] at dead
      cases dead
    · exact different same
  case closed =>
    intro v positive inside held
    have live : view.Live v := ⟨positive, by simpa using inside⟩
    have dead {u : Nat} (liveU : view.Live u) :
        (selected view word killed dictV).killed[u]? = some true ↔ killed u = true := by
      rw [selected, tabulate_at liveU.2, Option.some.injEq]
    refine ⟨word v, represents.restoreLongestStr_eq letters live, ?_⟩
    intro x u nonempty part run
    obtain ⟨liveU, ext⟩ := (represents.walk_iff letters).mp run
    rw [dead liveU]
    exact substring live (held.imp_left (dead live).mp) nonempty part liveU ext

end Text

end CellBag.SuffixAutomaton
