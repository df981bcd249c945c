import CellBag.Library.LongestFactors
import CellBag.Library.OptionList
import CellBag.Proof.Utils
import CellBag.Model.SuffAut

/-!
The automaton of a text has one node for each longest word of the text.
-/

namespace CellBag.SuffixAutomaton
open CellBag.Factors

/-- The nodes as functions of their index. -/
structure View where
  size : Nat
  next : Nat → Nat → Nat
  link : Nat → Nat
  len : Nat → Nat

namespace View
variable {C : Nat} {view : View}

/-- The node of an index. -/
def node (C : Nat) (view : View) (v : Nat) : Node :=
  ⟨(List.range C).map (view.next v), view.link v, view.len v⟩

/-- The node array. -/
def nodes (C : Nat) (view : View) : List Node := (List.range view.size).map (view.node C)

/-- An index of a node other than node 0. -/
def Live (view : View) (v : Nat) : Prop := 0 < v ∧ v < view.size

/-- Changes one transition. -/
def withNext (view : View) (next : Nat → Nat → Nat) : View := { view with next }

/-- Changes one link. -/
def withLink (view : View) (p v : Nat) : View :=
  { view with link := Function.update view.link p v }

/-- Adds a node. -/
def push (view : View) (next : Nat → Nat) (link len : Nat) : View where
  size := view.size + 1
  next := Function.update view.next view.size next
  link := Function.update view.link view.size link
  len := Function.update view.len view.size len

/-- The vector has a node for each place of the view. -/
@[simp] theorem length_nodes : (view.nodes C).length = view.size := by
  simp [nodes]

/-- At a place of the view stands its node. -/
theorem nodes_at {v : Nat} (inside : v < view.size) : (view.nodes C)[v]? = some (view.node C v) := by
  simp [nodes, inside]

/-- The target of a node at a letter is the transition of the view. -/
theorem node_target {v c : Nat} (letter : c < C) : (view.node C v).targets[c]? = some (view.next v c) := by
  simp [node, letter]

/-- A list with the nodes of a view is its node array. -/
theorem nodes_eq {list : List Node} (long : list.length = view.size)
    (same : ∀ v node, list[v]? = some node → node = view.node C v) : list = view.nodes C := by
  apply List.ext_getElem?
  intro v
  by_cases inside : v < view.size
  · obtain ⟨node, look⟩ : ∃ node, list[v]? = some node :=
      ⟨_, List.getElem?_eq_getElem (long ▸ inside)⟩
    rw [nodes_at inside, look, same v node look]
  · rw [List.getElem?_eq_none (by omega), List.getElem?_eq_none (by simp; omega)]

/-- Setting one node makes the node array of a view that differs only there. -/
theorem nodes_set {p : Nat} {changed : Node} {other : View} (size : other.size = view.size)
    (here : changed = other.node C p)
    (elsewhere : ∀ u, u ≠ p → other.node C u = view.node C u) :
    (view.nodes C).set p changed = other.nodes C := by
  apply nodes_eq
  · rw [List.length_set, length_nodes, size]
  · intro u node look
    have insideU : u < view.size := by
      simpa using (List.getElem?_eq_some_iff.mp look).1
    rw [List.getElem?_set, nodes_at insideU] at look
    by_cases same : p = u
    · subst same
      simp only [if_true, length_nodes, insideU, Option.some.injEq] at look
      exact look.symm.trans here
    · rw [if_neg same, Option.some.injEq] at look
      rw [← look, elsewhere u (Ne.symm same)]

/-- `setTarget` changes the transition of the view at one state and letter. -/
theorem setTarget_eq {p c v : Nat} (inside : p < view.size) (letter : c < C) :
    setTarget (view.nodes C) p c v = some ((view.withNext
      (Function.update view.next p (Function.update (view.next p) c v))).nodes C) := by
  unfold setTarget
  rw [nodes_at inside]
  have within : c < (view.node C p).targets.length := by simpa [node] using letter
  simp only [Option.bind_eq_bind, Option.bind_some, check_of within, Option.some.injEq]
  apply nodes_set
  · rfl
  · simp only [View.node, withNext, Function.update_self, Node.mk.injEq, and_true]
    apply List.ext_getElem?
    intro d
    rw [List.getElem?_set]
    by_cases here : c = d
    · subst here
      simp [letter]
    · rw [if_neg here]
      by_cases within : d < C
      · simp [within, Function.update_of_ne (Ne.symm here)]
      · simp [within]
  · intro u other
    simp [View.node, withNext, Function.update_of_ne other]

/-- `setLink` changes the suffix link of the view at one state. -/
theorem setLink_eq {p v : Nat} (inside : p < view.size) :
    setLink (view.nodes C) p v = some ((view.withLink p v).nodes C) := by
  unfold setLink
  rw [nodes_at inside]
  simp only [Option.bind_eq_bind, Option.bind_some, Option.some.injEq]
  apply nodes_set
  · rfl
  · simp [View.node, withLink]
  · intro u other
    simp [View.node, withLink, Function.update_of_ne other]

/-- A node put behind the others is a state more of the view. -/
theorem push_eq {next : Nat → Nat} {link len : Nat} :
    view.nodes C ++ [⟨(List.range C).map next, link, len⟩] = (view.push next link len).nodes C := by
  unfold nodes push
  rw [List.range_succ, List.map_append]
  congr 1
  · apply List.map_congr_left
    intro v inside
    have different : v ≠ view.size := Nat.ne_of_lt (List.mem_range.mp inside)
    simp [node, Function.update_of_ne different]
  · simp [node]

end View

attribute [local instance] Classical.propDecidable

/-- The links lead from each node of a suffix to the node of the next longest one. -/
structure Chain (t : List Nat) (view : View) (n : Nat) (word : Nat → List Nat) (top : List Nat) :
    Prop where
  bound : n ≤ view.size
  longest : ∀ v, 0 < v → v < n → Longest t (word v)
  injective : ∀ v u, 0 < v → v < n → 0 < u → u < n → word v = word u → v = u
  link : ∀ v, 0 < v → v < n → word v <:+ top →
    word v = [] ∧ view.link v = 0 ∨
      0 < view.link v ∧ view.link v < n ∧ Links t (word v) (word (view.link v))

/-- The letters of the nodes that a climb has left are set. -/
noncomputable def mark (c x : Nat) (left : Nat → Prop) (next : Nat → Nat → Nat) : Nat → Nat → Nat :=
  fun v d => if d = c ∧ left v then x else next v d

/-- The nodes that a climb to `p` has left: those of the longer suffixes. -/
def Left (n : Nat) (word : Nat → List Nat) (top : List Nat) (p v : Nat) : Prop :=
  0 < v ∧ v < n ∧ word v <:+ top ∧ (p = 0 ∨ (word p).length < (word v).length)

section Climb
variable {C n c x : Nat} {t top : List Nat} {word : Nat → List Nat} {view : View}
  {keeps : Nat → Bool}

/-- One turn leaves just the node it is at. -/
theorem Chain.left_link (chain : Chain t view n word top) {p v : Nat} (positive : 0 < p)
    (inside : p < n) (ends : word p <:+ top) :
    Left n word top (view.link p) v ↔ Left n word top p v ∨ v = p := by
  constructor
  · intro ⟨positiveV, insideV, endsV, longer⟩
    by_cases same : v = p
    · exact .inr same
    · refine .inl ⟨positiveV, insideV, endsV, .inr ?_⟩
      by_contra short
      have below := suffix_of_length_le endsV ends (Nat.le_of_not_lt short)
      have different : word v ≠ word p := fun equal =>
        same (chain.injective v p positiveV insideV positive inside equal)
      rcases chain.link p positive inside ends with ⟨empty, _⟩ | ⟨positiveL, _, links⟩
      · rw [empty] at below different
        exact different (List.suffix_nil.mp below)
      · have covered := (links.covers _ (chain.longest v positiveV insideV) below different).length_le
        rcases longer with zero | longer
        · omega
        · omega
  · rintro (⟨positiveV, insideV, endsV, longer⟩ | rfl)
    · refine ⟨positiveV, insideV, endsV, ?_⟩
      rcases chain.link p positive inside ends with ⟨_, zero⟩ | ⟨positiveL, _, links⟩
      · exact .inl zero
      · have shorter := links.suffix.length_le
        rcases longer with zero | longer
        · omega
        · exact .inr (by omega)
    · refine ⟨positive, inside, ends, ?_⟩
      rcases chain.link v positive inside ends with ⟨_, zero⟩ | ⟨_, _, links⟩
      · exact .inl zero
      · exact .inr links.length_lt

/-- A link leads to a node that a climb may visit, or to node 0. -/
theorem Chain.visits_link (chain : Chain t view n word top) {p : Nat} (positive : 0 < p) (inside : p < n)
    (ends : word p <:+ top) :
    view.link p = 0 ∨ 0 < view.link p ∧ view.link p < n ∧ word (view.link p) <:+ top ∧
      (word (view.link p)).length < (word p).length := by
  rcases chain.link p positive inside ends with ⟨-, none⟩ | ⟨positiveL, insideL, links⟩
  · exact .inl none
  · exact .inr ⟨positiveL, insideL, links.suffix.trans ends, links.length_lt⟩

/-- The states left of the link of `p` are those left of `p` and `p` itself. -/
theorem mark_link (chain : Chain t view n word top) {p : Nat} (positive : 0 < p) (inside : p < n)
    (ends : word p <:+ top) :
    mark c x (Left n word top (view.link p)) view.next =
      Function.update (mark c x (Left n word top p) view.next) p
        (Function.update (mark c x (Left n word top p) view.next p) c x) := by
  funext v d
  have turn := chain.left_link (v := v) positive inside ends
  by_cases same : v = p
  · subst same
    rw [Function.update_self]
    by_cases letter : d = c
    · subst letter
      rw [Function.update_self, mark, if_pos ⟨rfl, turn.mpr (.inr rfl)⟩]
    · rw [Function.update_of_ne letter]
      simp only [mark, letter, false_and, if_false]
  · rw [Function.update_of_ne same]
    simp only [mark, turn, same, or_false]

variable (x keeps) in
/-- A climb sets the letter at the nodes it leaves and stops at the first node that does not keep it. -/
theorem climbLoop_spec (letter : c < C) (chain : Chain t view n word top) (fuel p : Nat)
    (start : p = 0 ∨ 0 < p ∧ p < n ∧ word p <:+ top)
    (enough : p = 0 ∧ 0 < fuel ∨ (word p).length + 1 < fuel) :
    ∃ stop, climbLoop keeps c x fuel p
        ((view.withNext (mark c x (Left n word top p) view.next)).nodes C) =
        some (stop, (view.withNext (mark c x (Left n word top stop) view.next)).nodes C) ∧
      (∀ v, Left n word top stop v → Left n word top p v ∨ keeps (view.next v c) = true) ∧
      (stop = 0 ∨ 0 < stop ∧ stop < n ∧ word stop <:+ top ∧ keeps (view.next stop c) = false) := by
  induction fuel generalizing p with
  | zero => omega
  | succ fuel ih =>
      rw [climbLoop]
      by_cases zero : p = 0
      · subst zero
        exact ⟨0, by simp, fun v left => .inl left, .inl rfl⟩
      · obtain ⟨positive, inside, ends⟩ := start.resolve_left zero
        have within : p < (view.withNext (mark c x (Left n word top p) view.next)).size :=
          Nat.lt_of_lt_of_le inside chain.bound
        have notLeft : ¬ Left n word top p p := by
          intro ⟨_, _, _, longer⟩
          omega
        have target : (view.withNext (mark c x (Left n word top p) view.next)).next p c =
            view.next p c := by
          simp [View.withNext, mark, notLeft]
        rw [if_neg zero, View.nodes_at within]
        simp only [Option.bind_eq_bind, Option.bind_some, View.node_target letter]
        rw [target]
        by_cases keep : keeps (view.next p c) = true
        · rw [if_pos keep, View.setTarget_eq within letter]
          have link := chain.visits_link positive inside ends
          have again := ih (view.link p) ?_ ?_
          · obtain ⟨stop, run, passed, halted⟩ := again
            refine ⟨stop, ?_, fun v left => ?_, halted⟩
            · rw [Option.bind_some, ← run, mark_link chain positive inside ends]
              rfl
            · rcases passed v left with left | kept
              · rcases (chain.left_link positive inside ends).mp left with left | rfl
                · exact .inl left
                · exact .inr keep
              · exact .inr kept
          · exact link.imp_right fun visit => ⟨visit.1, visit.2.1, visit.2.2.1⟩
          · rcases link with none | ⟨_, _, _, shorter⟩
            · exact .inl ⟨none, by omega⟩
            · exact .inr (by omega)
        · rw [if_neg keep]
          exact ⟨p, rfl, fun v left => .inl left,
            .inr ⟨positive, inside, ends, by simpa using keep⟩⟩

/-- A climb from the node of `top` has left nothing yet. -/
theorem not_left_top {p v : Nat} (positive : 0 < p) (same : word p = top) : ¬ Left n word top p v := by
  intro ⟨_, _, ends, longer⟩
  have short := ends.length_le
  rw [same] at longer
  omega

/-- Nothing is left at the longest word itself. -/
theorem mark_top {p : Nat} (positive : 0 < p) (same : word p = top) :
    mark c x (Left n word top p) view.next = view.next := by
  funext v d
  simp only [mark, not_left_top positive same, and_false, if_false]

variable (x keeps) in
/-- A climb from the node of `top`. -/
theorem climbLoop_top (letter : c < C) (chain : Chain t view n word top) {p : Nat}
    (positive : 0 < p) (inside : p < n) (same : word p = top) :
    ∃ stop, climbLoop keeps c x (top.length + 2) p (view.nodes C) =
        some (stop, (view.withNext (mark c x (Left n word top stop) view.next)).nodes C) ∧
      (∀ v, Left n word top stop v → keeps (view.next v c) = true) ∧
      (stop = 0 ∨ 0 < stop ∧ stop < n ∧ word stop <:+ top ∧ keeps (view.next stop c) = false) := by
  obtain ⟨stop, run, passed, halted⟩ := climbLoop_spec x keeps letter chain
    (top.length + 2) p (.inr ⟨positive, inside, same ▸ List.suffix_refl _⟩) (.inr (by rw [same]; omega))
  rw [mark_top positive same] at run
  exact ⟨stop, run, fun v left => (passed v left).resolve_left (not_left_top positive same), halted⟩

end Climb

/-- A transition leads to the node of the longest word with the ends of `w`; node 0 if there is none. -/
def Target (t : List Nat) (view : View) (word : Nat → List Nat) (w : List Nat) (target : Nat) : Prop :=
  target = 0 ∧ ¬ w <:+: t ∨ view.Live target ∧ Extends t w (word target)

/-- The nodes are the longest words of the text. -/
structure Represents (C : Nat) (t : List Nat) (view : View) (word : Nat → List Nat) : Prop where
  root : view.Live 1
  rootWord : word 1 = []
  longest : ∀ v, view.Live v → Longest t (word v)
  injective : ∀ v u, view.Live v → view.Live u → word v = word u → v = u
  onto : ∀ w, Longest t w → ∃ v, view.Live v ∧ word v = w
  len : ∀ v, view.Live v → view.len v = (word v).length
  link : ∀ v, view.Live v → word v = [] ∧ view.link v = 0 ∨
    view.Live (view.link v) ∧ Links t (word v) (word (view.link v))
  next : ∀ v c, view.Live v → c < C → Target t view word (word v ++ [c]) (view.next v c)

/-- The view of `SuffAutBase()`. -/
def View.empty : View := ⟨2, fun _ _ => 0, fun _ => 0, fun _ => 0⟩

/-- The vector of the empty automaton is the empty view's. -/
theorem empty_nodes (C : Nat) : (SuffAutBase.empty C).nodes = View.empty.nodes C := by
  simp [SuffAutBase.empty, View.empty, View.nodes, View.node, Node.empty, List.range_succ]

/-- The empty automaton represents the empty text. -/
theorem represents_empty (C : Nat) : Represents C [] View.empty (fun _ => []) where
  root := ⟨by decide, by decide⟩
  rootWord := rfl
  longest := fun _ _ => longest_nil []
  injective := by
    intro v u ⟨positiveV, insideV⟩ ⟨positiveU, insideU⟩ _
    simp only [View.empty] at insideV insideU
    omega
  onto := fun w longest =>
    ⟨1, ⟨by decide, by decide⟩, (List.infix_nil.mp longest.occurs).symm⟩
  len := fun _ _ => rfl
  link := fun _ _ => .inl ⟨rfl, rfl⟩
  next := fun _ _ _ _ => .inl ⟨rfl, by simp⟩

section Step
variable {C c : Nat} {t z : List Nat} {view : View} {word : Nat → List Nat}

/-- A transition leads to the node of the extended word. -/
theorem Represents.transition (represents : Represents C t view word) {v : Nat}
    (live : view.Live v) (letter : c < C) (running : view.next v c ≠ 0) :
    view.Live (view.next v c) ∧ Extends t (word v ++ [c]) (word (view.next v c)) :=
  (represents.next v c live letter).resolve_left fun stopped => running stopped.1

/-- From the node of a word a letter behind it leads on. -/
theorem Represents.follow (represents : Represents C t view word) {v : Nat} {w : List Nat}
    (live : view.Live v) (letter : c < C) (ext : Extends t w (word v)) (occurs : w ++ [c] <:+: t) :
    view.Live (view.next v c) ∧ Extends t (w ++ [c]) (word (view.next v c)) := by
  rcases represents.next v c live letter with ⟨_, absent⟩ | ⟨liveN, next⟩
  · exact absurd (ext.occurs_snoc_of (fun _ => prefix_of_snoc) occurs) absent
  · exact ⟨liveN, ext.snoc_of (fun _ => prefix_of_snoc) next⟩

/-- Suffixes of one word are on a chain of links of any larger view that has the same links there. -/
theorem Represents.chain (represents : Represents C t view word) {next : Nat → Nat → Nat}
    {link : Nat → Nat} {len : Nat → Nat} {size : Nat} (top : List Nat) (bound : view.size ≤ size)
    (same : ∀ v, view.Live v → word v <:+ top → link v = view.link v) :
    Chain t ⟨size, next, link, len⟩ view.size word top where
  bound := bound
  longest := fun v positive inside => represents.longest v ⟨positive, inside⟩
  injective := fun v u positiveV insideV positiveU insideU =>
    represents.injective v u ⟨positiveV, insideV⟩ ⟨positiveU, insideU⟩
  link := by
    intro v positive inside ends
    simp only
    rw [same v ⟨positive, inside⟩ ends]
    rcases represents.link v ⟨positive, inside⟩ with empty | ⟨⟨positiveL, insideL⟩, links⟩
    · exact .inl empty
    · exact .inr ⟨positiveL, insideL, links⟩

/-- The nodes that get a transition to the new node: those of suffixes that never had the letter
behind them. -/
def Fresh (t : List Nat) (view : View) (word : Nat → List Nat) (c v : Nat) : Prop :=
  view.Live v ∧ word v <:+ t ∧ ¬ word v ++ [c] <:+: t

/-- A transition that is not fresh stays, if the border does not split its target. -/
theorem Represents.next_kept (represents : Represents C t view word) (border : Border t c z)
    {v d : Nat} (live : view.Live v) (letter : d < C) (unset : ¬ (d = c ∧ Fresh t view word c v))
    (whole : ∀ target, view.Live target → view.next v d = target →
      Extends t (word v ++ [d]) (word target) → word v ++ [d] <:+ z → z <:+ word target →
      word target = z) :
    view.next v d = 0 ∧ ¬ word v ++ [d] <:+: t ++ [c] ∨
      view.Live (view.next v d) ∧ Extends (t ++ [c]) (word v ++ [d]) (word (view.next v d)) := by
  have old : word v ++ [d] <:+ t ++ [c] → word v ++ [d] <:+: t := by
    intro ends
    obtain ⟨rfl, below⟩ := snoc_suffix_snoc.mp ends
    by_contra absent
    exact unset ⟨rfl, live, below, absent⟩
  rcases represents.next v d live letter with ⟨zero, absent⟩ | ⟨liveN, ext⟩
  · refine .inl ⟨zero, fun occurs => ?_⟩
    obtain ⟨p, start, ends⟩ := occurs_iff.mp occurs
    rcases prefix_append_iff.mp start with rfl | start
    · exact absent (old ends)
    · exact absent (occurs_iff.mpr ⟨p, start, ends⟩)
  · refine .inr ⟨liveN, ?_⟩
    by_cases ends : word v ++ [d] <:+ t ++ [c]
    · obtain ⟨below, inside | inside⟩ := border.extends_cases ext ends
      · exact ext.append_of_suffix (inside.trans border.suffix)
      · have same := whole _ liveN rfl ext below inside
        exact ext.append_of_suffix (same ▸ border.suffix)
    · exact ext.append_of_not_suffix ends

/-- A suffix that occurs with the letter has no fresh node below it. -/
theorem Fresh.longer {v u : Nat} (fresh : Fresh t view word c v) (ends : word u <:+ t)
    (occurs : word u ++ [c] <:+: t) : (word u).length < (word v).length := by
  by_contra short
  have below := suffix_of_length_le fresh.2.1 ends (Nat.le_of_not_lt short)
  exact fresh.2.2 ((snoc_suffix_snoc.mpr ⟨rfl, below⟩).isInfix.trans occurs)

/-- The nodes after the first loop of `add_c`. -/
noncomputable def reached (t : List Nat) (view : View) (word : Nat → List Nat) (c : Nat) : View :=
  let grown := view.push (fun _ => 0) 0 (t.length + 1)
  grown.withNext (mark c view.size (Fresh t view word c) grown.next)

/-- A new state is none of the old ones. -/
theorem View.Live.ne_size {v : Nat} (live : view.Live v) : v ≠ view.size := Nat.ne_of_lt live.2

/-- An old state that fits the new letter gets its transition to the new state. -/
theorem reached_next {v : Nat} (live : view.Live v) (d : Nat) :
    (reached t view word c).next v d =
      if d = c ∧ Fresh t view word c v then view.size else view.next v d := by
  simp [reached, View.withNext, View.push, mark, Function.update_of_ne live.ne_size]

theorem reached_next_new (d : Nat) : (reached t view word c).next view.size d = 0 := by
  have stale : ¬ Fresh t view word c view.size := fun fresh => fresh.1.ne_size rfl
  simp [reached, View.withNext, View.push, mark, stale]

theorem reached_link {v : Nat} (live : view.Live v) :
    (reached t view word c).link v = view.link v := by
  simp [reached, View.withNext, View.push, Function.update_of_ne live.ne_size]

theorem reached_len {v : Nat} (live : view.Live v) : (reached t view word c).len v = view.len v := by
  simp [reached, View.withNext, View.push, Function.update_of_ne live.ne_size]

theorem reached_len_new : (reached t view word c).len view.size = t.length + 1 := by
  simp [reached, View.withNext, View.push]

theorem reached_size : (reached t view word c).size = view.size + 1 := rfl

/-- The nodes with the new one before the first loop of `add_c`. -/
def grown (t : List Nat) (view : View) : View := view.push (fun _ => 0) 0 (t.length + 1)

/-- The old transitions stay when the new state is put down. -/
theorem grown_next {v : Nat} (live : view.Live v) (d : Nat) : (grown t view).next v d = view.next v d := by
  simp [grown, View.push, Function.update_of_ne live.ne_size]

/-- The suffixes of the text are on a chain of the grown view too. -/
theorem Represents.grown_chain (represents : Represents C t view word) :
    Chain t (grown t view) view.size word t := by
  apply represents.chain t (Nat.le_succ view.size)
  intro v live _
  simp [Function.update_of_ne live.ne_size]

/-- The first loop stops above the border. -/
theorem Represents.extendLoop_spec (represents : Represents C t view word) (letter : c < C)
    {last : Nat} (live : view.Live last) (whole : word last = t) :
    ∃ stop, extendLoop c view.size (t.length + 2) last
        ((view.push (fun _ => 0) 0 (t.length + 1)).nodes C) =
        some (stop, (reached t view word c).nodes C) ∧
      (stop = 0 ∧ Border t c [] ∨ view.Live stop ∧ word stop <:+ t ∧
        word stop ++ [c] <:+: t ∧ Border t c (word stop ++ [c])) := by
  obtain ⟨stop, run, passed, halted⟩ := climbLoop_top view.size
    (fun target => target = 0) letter represents.grown_chain live.1 live.2 whole
  have unset : ∀ v, view.Live v → (grown t view).next v c = view.next v c := fun v liveV =>
    grown_next liveV c
  have absent : ∀ v, Left view.size word t stop v → ¬ word v ++ [c] <:+: t := by
    intro v left
    have liveV : view.Live v := ⟨left.1, left.2.1⟩
    have zero := passed v left
    simp only [unset v liveV, decide_eq_true_eq] at zero
    rcases represents.next v c liveV letter with ⟨_, absent⟩ | ⟨⟨positive, _⟩, _⟩
    · exact absent
    · omega
  have occurs : stop ≠ 0 → view.Live stop ∧ word stop <:+ t ∧ word stop ++ [c] <:+: t := by
    intro running
    obtain ⟨positive, inside, ends, set⟩ := halted.resolve_left running
    have liveS : view.Live stop := ⟨positive, inside⟩
    simp only [unset stop liveS, decide_eq_false_iff_not] at set
    exact ⟨liveS, ends, (represents.transition liveS letter set).2.occurs⟩
  have fresh : Left view.size word t stop = Fresh t view word c := by
    funext v
    apply propext
    constructor
    · intro left
      exact ⟨⟨left.1, left.2.1⟩, left.2.2.1, absent v left⟩
    · intro fresh
      refine ⟨fresh.1.1, fresh.1.2, fresh.2.1, ?_⟩
      by_cases zero : stop = 0
      · exact .inl zero
      · obtain ⟨_, ends, occursS⟩ := occurs zero
        exact .inr (fresh.longer ends occursS)
  refine ⟨stop, ?_, ?_⟩
  · rw [fresh] at run
    exact run
  · by_cases zero : stop = 0
    · refine .inl ⟨zero, border_nil fun u longest ends => ?_⟩
      obtain ⟨v, liveV, rfl⟩ := represents.onto u longest
      exact absent v ⟨liveV.1, liveV.2, ends, .inl zero⟩
    · obtain ⟨liveS, ends, occursS⟩ := occurs zero
      refine .inr ⟨liveS, ends, occursS, border_snoc ends occursS fun u longest endsU occursU => ?_⟩
      obtain ⟨v, liveV, rfl⟩ := represents.onto u longest
      have short : ¬ (word stop).length < (word v).length := fun longer =>
        absent v ⟨liveV.1, liveV.2, endsU, .inr longer⟩ occursU
      exact suffix_of_length_le endsU ends (Nat.le_of_not_lt short)

/-- The nodes after the first loop of `add_c`, with the link of the new node. -/
noncomputable def extended (t : List Nat) (view : View) (word : Nat → List Nat) (c b : Nat) : View :=
  (reached t view word c).withLink view.size b

/-- The words of the nodes with the new node. -/
def extendedWord (t : List Nat) (view : View) (word : Nat → List Nat) (c : Nat) : Nat → List Nat :=
  Function.update word view.size (t ++ [c])

theorem extendedWord_old {v : Nat} (live : view.Live v) : extendedWord t view word c v = word v :=
  Function.update_of_ne live.ne_size _ _

theorem extendedWord_new : extendedWord t view word c view.size = t ++ [c] :=
  Function.update_self _ _ _

theorem extended_live {v b : Nat} (live : view.Live v) : (extended t view word c b).Live v :=
  ⟨live.1, Nat.lt_succ_of_lt live.2⟩

theorem extended_live_new (represents : Represents C t view word) (b : Nat) :
    (extended t view word c b).Live view.size :=
  ⟨by have := represents.root.2; omega, Nat.lt_succ_self _⟩

/-- A state is an old one or the new one. -/
theorem extended_live_cases {v b : Nat} (live : (extended t view word c b).Live v) :
    view.Live v ∨ v = view.size := by
  obtain ⟨positive, inside⟩ := live
  rcases Nat.lt_succ_iff_lt_or_eq.mp inside with inside | rfl
  · exact .inl ⟨positive, inside⟩
  · exact .inr rfl

theorem extended_link {v b : Nat} (live : view.Live v) :
    (extended t view word c b).link v = view.link v := by
  change Function.update (reached t view word c).link view.size b v = view.link v
  rw [Function.update_of_ne live.ne_size, reached_link live]

/-- The new state is linked to the state that was found. -/
theorem extended_link_new (b : Nat) : (extended t view word c b).link view.size = b :=
  Function.update_self _ _ _

/-- The whole new text has no letter behind it. -/
theorem not_occurs_whole_snoc {d : Nat} : ¬ t ++ [c] ++ [d] <:+: t ++ [c] := by
  intro occurs
  have long := occurs.length_le
  simp at long

/-- The transitions of the old nodes with the new node. -/
theorem Represents.extended_target (represents : Represents C t view word) {b v d : Nat}
    (liveB : view.Live b) (border : Border t c (word b)) (live : view.Live v) (letter : d < C) :
    Target (t ++ [c]) (extended t view word c b) (extendedWord t view word c) (word v ++ [d])
      ((extended t view word c b).next v d) := by
  change Target _ _ _ _ ((reached t view word c).next v d)
  rw [reached_next live]
  by_cases fresh : d = c ∧ Fresh t view word c v
  · rw [if_pos fresh]
    obtain ⟨rfl, fresh⟩ := fresh
    refine .inr ⟨extended_live_new represents b, ?_⟩
    rw [extendedWord_new]
    exact extends_whole (snoc_suffix_snoc.mpr ⟨rfl, fresh.2.1⟩) fresh.2.2
  · rw [if_neg fresh]
    have kept := represents.next_kept border live letter fresh fun target _ _ ext below above =>
      ext.eq_of_between below above (represents.longest b liveB)
    rcases kept with absent | ⟨liveN, ext⟩
    · exact .inl absent
    · exact .inr ⟨extended_live liveN, (extendedWord_old liveN).symm ▸ ext⟩

/-- The word of the new node is that of no other node. -/
theorem Represents.extended_injective (represents : Represents C t view word) {b v u : Nat}
    (liveV : (extended t view word c b).Live v) (liveU : (extended t view word c b).Live u)
    (same : extendedWord t view word c v = extendedWord t view word c u) : v = u := by
  have newOld : ∀ v, view.Live v → word v ≠ t ++ [c] := fun v live =>
    ne_whole (represents.longest v live).occurs
  rcases extended_live_cases liveV with oldV | rfl <;>
    rcases extended_live_cases liveU with oldU | rfl
  · rw [extendedWord_old oldV, extendedWord_old oldU] at same
    exact represents.injective v u oldV oldU same
  · rw [extendedWord_old oldV, extendedWord_new] at same
    exact absurd same (newOld v oldV)
  · rw [extendedWord_old oldU, extendedWord_new] at same
    exact absurd same.symm (newOld u oldU)
  · rfl

/-- The links with the new node, which links to the border. -/
theorem Represents.extended_linked (represents : Represents C t view word) {b v : Nat}
    (liveB : view.Live b) (border : Border t c (word b))
    (live : (extended t view word c b).Live v) :
    extendedWord t view word c v = [] ∧ (extended t view word c b).link v = 0 ∨
      (extended t view word c b).Live ((extended t view word c b).link v) ∧
        Links (t ++ [c]) (extendedWord t view word c v)
          (extendedWord t view word c ((extended t view word c b).link v)) := by
  rcases extended_live_cases live with live | rfl
  · rw [extended_link live, extendedWord_old live]
    rcases represents.link v live with empty | ⟨liveL, links⟩
    · exact .inl empty
    · rw [extendedWord_old liveL]
      exact .inr ⟨extended_live liveL, links.append (represents.longest v live) border
        (represents.longest b liveB).extends (.inl rfl)⟩
  · rw [extended_link_new, extendedWord_new, extendedWord_old liveB]
    exact .inr ⟨extended_live liveB, border.links_whole⟩

/-- The new node links to a node of the border. -/
theorem Represents.extend (represents : Represents C t view word) {b : Nat} (liveB : view.Live b)
    (border : Border t c (word b)) :
    Represents C (t ++ [c]) (extended t view word c b) (extendedWord t view word c) where
  root := extended_live represents.root
  rootWord := by rw [extendedWord_old represents.root, represents.rootWord]
  longest := by
    intro v live
    rcases extended_live_cases live with live | rfl
    · rw [extendedWord_old live]
      exact (represents.longest v live).append
    · rw [extendedWord_new]
      exact longest_of_start (List.prefix_refl _)
  injective := fun v u liveV liveU same => represents.extended_injective liveV liveU same
  onto := by
    intro w longest
    rcases border.longest_cases longest with rfl | rfl | longest
    · exact ⟨view.size, extended_live_new represents b, extendedWord_new⟩
    · exact ⟨b, extended_live liveB, extendedWord_old liveB⟩
    · obtain ⟨v, live, rfl⟩ := represents.onto w longest
      exact ⟨v, extended_live live, extendedWord_old live⟩
  len := by
    intro v live
    change (reached t view word c).len v = (extendedWord t view word c v).length
    rcases extended_live_cases live with live | rfl
    · rw [extendedWord_old live, ← represents.len v live, reached_len live]
    · rw [extendedWord_new, reached_len_new, List.length_append, List.length_singleton]
  link := fun v live => represents.extended_linked liveB border live
  next := by
    intro v d live letter
    rcases extended_live_cases live with live | rfl
    · rw [extendedWord_old live]
      exact represents.extended_target liveB border live letter
    · rw [extendedWord_new]
      exact .inl ⟨reached_next_new d, not_occurs_whole_snoc⟩

/-- The nodes that get a transition to the clone instead of `q`. -/
def Moved (view : View) (word : Nat → List Nat) (c p q v : Nat) : Prop :=
  view.Live v ∧ word v <:+ word p ∧ view.next v c = q

/-- The nodes with the clone of `q`, before the second loop of `add_c`. -/
noncomputable def cloned (t : List Nat) (view : View) (word : Nat → List Nat) (c p q : Nat) : View :=
  (((reached t view word c).push ((reached t view word c).next q) ((reached t view word c).link q)
    ((word p).length + 1)).withLink q (view.size + 1)).withLink view.size (view.size + 1)

/-- The nodes after the second loop of `add_c`. -/
noncomputable def parted (t : List Nat) (view : View) (word : Nat → List Nat) (c p q : Nat) : View :=
  (cloned t view word c p q).withNext
    (mark c (view.size + 1) (Moved view word c p q) (cloned t view word c p q).next)

/-- The transitions of the old states are those of the reached view. -/
theorem cloned_next {v p q : Nat} (live : view.Live v) (d : Nat) :
    (cloned t view word c p q).next v d =
      if d = c ∧ Fresh t view word c v then view.size else view.next v d := by
  have apart : v ≠ view.size + 1 := by have := live.2; omega
  rw [← reached_next live d]
  simp [cloned, View.withLink, View.push, reached_size, Function.update_of_ne apart]

/-- Only the state that was cloned gets a new link, to its clone. -/
theorem cloned_link {v p q : Nat} (live : view.Live v) :
    (cloned t view word c p q).link v = if v = q then view.size + 1 else view.link v := by
  have apart : v ≠ view.size + 1 := by have := live.2; omega
  simp [cloned, View.withLink, View.push, reached_size, Function.update_apply, apart,
    live.ne_size, reached_link live]

/-- The new state is linked to the clone. -/
theorem cloned_link_new {p q : Nat} :
    (cloned t view word c p q).link view.size = view.size + 1 := by
  simp [cloned, View.withLink]

theorem cloned_link_clone {p q : Nat} (live : view.Live q) :
    (cloned t view word c p q).link (view.size + 1) = view.link q := by
  have apart : view.size + 1 ≠ q := by have := live.2; omega
  simp [cloned, View.withLink, View.push, reached_size, apart, reached_link live]

theorem cloned_len {v p q : Nat} (live : view.Live v) :
    (cloned t view word c p q).len v = view.len v := by
  have apart : v ≠ view.size + 1 := by have := live.2; omega
  simp [cloned, View.withLink, View.push, reached_size, Function.update_of_ne apart,
    reached_len live]

theorem cloned_len_new {p q : Nat} :
    (cloned t view word c p q).len view.size = t.length + 1 := by
  simp [cloned, View.withLink, View.push, reached_size, reached_len_new]

/-- The clone is longer by one than the state before it. -/
theorem cloned_len_clone {p q : Nat} :
    (cloned t view word c p q).len (view.size + 1) = (word p).length + 1 := by
  simp [cloned, View.withLink, View.push, reached_size]

/-- The transitions that are moved lead to the clone, the fresh ones to the new state, the others stay. -/
theorem parted_next {v p q : Nat} (live : view.Live v) (d : Nat) :
    (parted t view word c p q).next v d = if d = c ∧ Moved view word c p q v then view.size + 1
      else if d = c ∧ Fresh t view word c v then view.size else view.next v d := by
  rw [← cloned_next live d]
  rfl

theorem parted_next_new {p q : Nat} (d : Nat) :
    (parted t view word c p q).next view.size d = 0 := by
  have still : ¬ Moved view word c p q view.size := fun moved => moved.1.ne_size rfl
  simp [parted, View.withNext, mark, still, cloned, View.withLink, View.push, reached_size,
    reached_next_new]

/-- The clone has the transitions of the state it was made from. -/
theorem parted_next_clone {p q : Nat} (live : view.Live q) (d : Nat) :
    (parted t view word c p q).next (view.size + 1) d =
      if d = c ∧ Fresh t view word c q then view.size else view.next q d := by
  have still : ¬ Moved view word c p q (view.size + 1) := fun moved => by
    have := moved.1.2
    omega
  rw [← reached_next live d]
  simp [parted, View.withNext, mark, still, cloned, View.withLink, View.push, reached_size]

/-- The border below the target of the transition that ends the first loop. -/
structure Splits (t : List Nat) (view : View) (word : Nat → List Nat) (c p q : Nat) : Prop where
  live : view.Live p
  ends : word p <:+ t
  next : view.next p c = q
  liveTarget : view.Live q
  target : Extends t (word p ++ [c]) (word q)
  longer : word p ++ [c] ≠ word q
  border : Border t c (word p ++ [c])

/-- The state that is split has a longer word than the one before it. -/
theorem Splits.length_lt {p q : Nat} (splits : Splits t view word c p q) :
    (word p).length < (word q).length := by
  have long := splits.target.suffix.length_le
  simp only [List.length_append, List.length_singleton] at long
  omega

/-- A letter behind a single one splits nothing. -/
theorem Splits.two_le {p q : Nat} (splits : Splits t view word c p q)
    (longest : Longest t (word q)) : 2 ≤ t.length := by
  have longer := splits.target.suffix.length_le
  have fits := longest.occurs.length_le
  have different : (word p ++ [c]).length ≠ (word q).length := fun same =>
    splits.longer (splits.target.suffix.eq_of_length same)
  rw [List.length_append, List.length_singleton] at longer different
  omega

/-- The nodes that the second loop may visit keep their links before it. -/
theorem Represents.cloned_chain (represents : Represents C t view word) {p q : Nat}
    (splits : Splits t view word c p q) : Chain t (cloned t view word c p q) view.size word (word p) := by
  apply represents.chain (word p) (by omega : view.size ≤ view.size + 2)
  intro v live ends
  have different : v ≠ q := by
    intro equal
    subst equal
    have := ends.length_le
    have := splits.length_lt
    omega
  change (cloned t view word c p q).link v = view.link v
  rw [cloned_link live, if_neg different]

/-- The nodes that the second loop may visit keep their transitions before it. -/
theorem Splits.cloned_next {p q v : Nat} (splits : Splits t view word c p q) (live : view.Live v)
    (ends : word v <:+ word p) : (cloned t view word c p q).next v c = view.next v c := by
  rw [SuffixAutomaton.cloned_next live, if_neg]
  rintro ⟨-, fresh⟩
  have := fresh.longer splits.ends splits.border.occurs
  have := ends.length_le
  omega

/-- The second loop moves the transitions of the suffixes that lead to `q`. -/
theorem Represents.redirectLoop_spec (represents : Represents C t view word) (letter : c < C)
    {p q : Nat} (splits : Splits t view word c p q) :
    ∃ stop, redirectLoop c q (view.size + 1) ((word p).length + 2) p
        ((cloned t view word c p q).nodes C) = some (stop, (parted t view word c p q).nodes C) := by
  obtain ⟨stop, run, passed, halted⟩ := climbLoop_top (view.size + 1)
    (fun target => target = q) letter (represents.cloned_chain splits) splits.live.1 splits.live.2 rfl
  have below : ∀ v, view.Live v → word v <:+ word p →
      (cloned t view word c p q).next v c = view.next v c := fun v live ends =>
    splits.cloned_next live ends
  have moved : Left view.size word (word p) stop = Moved view word c p q := by
    funext v
    apply propext
    constructor
    · intro left
      have live : view.Live v := ⟨left.1, left.2.1⟩
      have kept := passed v left
      simp only [below v live left.2.2.1, decide_eq_true_eq] at kept
      exact ⟨live, left.2.2.1, kept⟩
    · intro ⟨live, ends, next⟩
      refine ⟨live.1, live.2, ends, ?_⟩
      rcases halted with zero | ⟨positive, inside, endsS, halt⟩
      · exact .inl zero
      · have liveS : view.Live stop := ⟨positive, inside⟩
        refine .inr (Nat.lt_of_not_le fun short => ?_)
        -- a word between that of `v` and that of `p` leads to `q` too
        have inner := suffix_of_length_le ends endsS short
        simp only [below stop liveS endsS, decide_eq_false_iff_not] at halt
        have running : view.next v c ≠ 0 := next ▸ Nat.ne_of_gt splits.liveTarget.1
        have ext := (represents.transition live letter running).2
        rw [next] at ext
        have top := ext.between (snoc_suffix_snoc.mpr ⟨rfl, inner⟩)
          ((snoc_suffix_snoc.mpr ⟨rfl, endsS⟩).trans splits.target.suffix)
        obtain ⟨liveN, other⟩ := represents.follow liveS letter
          (represents.longest stop liveS).extends top.occurs
        exact halt (represents.injective _ _ liveN splits.liveTarget (other.unique top))
  refine ⟨stop, ?_⟩
  rw [moved] at run
  exact run

/-- The words of the nodes with the new node and the clone. -/
def partedWord (t : List Nat) (view : View) (word : Nat → List Nat) (c p : Nat) : Nat → List Nat :=
  Function.update (Function.update word view.size (t ++ [c])) (view.size + 1) (word p ++ [c])

theorem partedWord_old {v p : Nat} (live : view.Live v) : partedWord t view word c p v = word v := by
  have apart : v ≠ view.size + 1 := by have := live.2; omega
  rw [partedWord, Function.update_of_ne apart, Function.update_of_ne live.ne_size]

theorem partedWord_new (p : Nat) : partedWord t view word c p view.size = t ++ [c] := by
  rw [partedWord, Function.update_of_ne (by omega), Function.update_self]

/-- The clone stands for the word of the state before it and the letter. -/
theorem partedWord_clone (p : Nat) : partedWord t view word c p (view.size + 1) = word p ++ [c] :=
  Function.update_self _ _ _

theorem parted_live {v p q : Nat} (live : view.Live v) : (parted t view word c p q).Live v :=
  ⟨live.1, Nat.lt_succ_of_lt (Nat.lt_succ_of_lt live.2)⟩

theorem parted_live_new (represents : Represents C t view word) (p q : Nat) :
    (parted t view word c p q).Live view.size :=
  ⟨by have := represents.root.2; omega, Nat.lt_succ_of_lt (Nat.lt_succ_self _)⟩

theorem parted_live_clone (p q : Nat) : (parted t view word c p q).Live (view.size + 1) :=
  ⟨Nat.succ_pos _, Nat.lt_succ_self _⟩

/-- A state is an old one, the new one or the clone. -/
theorem parted_live_cases {v p q : Nat} (live : (parted t view word c p q).Live v) :
    view.Live v ∨ v = view.size ∨ v = view.size + 1 := by
  obtain ⟨positive, inside⟩ := live
  change v < view.size + 2 at inside
  by_cases low : v < view.size
  · exact .inl ⟨positive, low⟩
  · exact .inr (by omega)

/-- The word of the clone was no longest word before. -/
theorem Splits.not_longest {p q : Nat} (splits : Splits t view word c p q) :
    ¬ Longest t (word p ++ [c]) := fun longest =>
  splits.longer (splits.target.eq_of_between (List.suffix_refl _) splits.target.suffix longest).symm

/-- The transitions of the old nodes after the split. -/
theorem Represents.parted_target (represents : Represents C t view word) {p q v d : Nat}
    (splits : Splits t view word c p q) (live : view.Live v) (letter : d < C) :
    Target (t ++ [c]) (parted t view word c p q) (partedWord t view word c p) (word v ++ [d])
      ((parted t view word c p q).next v d) := by
  have border := splits.border
  rw [parted_next live]
  by_cases moved : d = c ∧ Moved view word c p q v
  · rw [if_pos moved]
    obtain ⟨rfl, moved⟩ := moved
    refine .inr ⟨parted_live_clone p q, ?_⟩
    rw [partedWord_clone]
    have running : view.next v d ≠ 0 := moved.2.2 ▸ Nat.ne_of_gt splits.liveTarget.1
    have ext := (represents.transition live letter running).2
    rw [moved.2.2] at ext
    exact ext.append_border border (snoc_suffix_snoc.mpr ⟨rfl, moved.2.1⟩) splits.target.suffix
  · rw [if_neg moved]
    by_cases unset : d = c ∧ Fresh t view word c v
    · rw [if_pos unset]
      obtain ⟨rfl, unset⟩ := unset
      refine .inr ⟨parted_live_new represents p q, ?_⟩
      rw [partedWord_new]
      exact extends_whole (snoc_suffix_snoc.mpr ⟨rfl, unset.2.1⟩) unset.2.2
    · rw [if_neg unset]
      have kept := represents.next_kept border live letter unset ?_
      · rcases kept with absent | ⟨liveN, ext⟩
        · exact .inl absent
        · exact .inr ⟨parted_live liveN, (partedWord_old liveN).symm ▸ ext⟩
      · intro target liveT next ext below above
        have parts := snoc_suffix_snoc.mp below
        have same := represents.injective target q liveT splits.liveTarget
          ((ext.between below above).unique splits.target)
        exact absurd ⟨parts.1, live, parts.2, by rw [← parts.1, next, same]⟩ moved

/-- The clone keeps the transitions of `q`. -/
theorem Represents.parted_target_clone (represents : Represents C t view word) {p q d : Nat}
    (splits : Splits t view word c p q) (letter : d < C) :
    Target (t ++ [c]) (parted t view word c p q) (partedWord t view word c p) (word p ++ [c] ++ [d])
      ((parted t view word c p q).next (view.size + 1) d) := by
  have unmoved : ¬ (d = c ∧ Moved view word c p q q) := fun moved => by
    have := moved.2.2.1.length_le
    have := splits.length_lt
    omega
  have same : (parted t view word c p q).next (view.size + 1) d =
      (parted t view word c p q).next q d := by
    rw [parted_next_clone splits.liveTarget, parted_next splits.liveTarget, if_neg unmoved]
  rw [same]
  rcases represents.parted_target splits splits.liveTarget letter with ⟨zero, absent⟩ | ⟨liveN, ext⟩
  · exact .inl ⟨zero, fun occurs => absent (splits.target.occurs_snoc occurs)⟩
  · exact .inr ⟨liveN, splits.target.snoc ext⟩

/-- The links after the split: the new node and `q` link to the clone, which links where `q` did. -/
theorem Represents.parted_link (represents : Represents C t view word) {p q v : Nat}
    (splits : Splits t view word c p q) (live : (parted t view word c p q).Live v) :
    partedWord t view word c p v = [] ∧ (cloned t view word c p q).link v = 0 ∨
      (parted t view word c p q).Live ((cloned t view word c p q).link v) ∧
        Links (t ++ [c]) (partedWord t view word c p v)
          (partedWord t view word c p ((cloned t view word c p q).link v)) := by
  have border := splits.border
  rcases parted_live_cases live with live | rfl | rfl
  · rw [cloned_link live]
    by_cases same : v = q
    · rw [if_pos same, same, partedWord_clone, partedWord_old splits.liveTarget]
      exact .inr ⟨parted_live_clone p q, border.links_extension splits.target splits.longer⟩
    · rw [if_neg same, partedWord_old live]
      rcases represents.link v live with empty | ⟨liveL, links⟩
      · exact .inl empty
      · rw [partedWord_old liveL]
        refine .inr ⟨parted_live liveL, links.append (represents.longest v live) border
          splits.target (.inr fun equal => ?_)⟩
        exact same (represents.injective v q live splits.liveTarget equal)
  · rw [cloned_link_new, partedWord_new, partedWord_clone]
    exact .inr ⟨parted_live_clone p q, border.links_whole⟩
  · rw [cloned_link_clone splits.liveTarget, partedWord_clone]
    rcases represents.link q splits.liveTarget with ⟨empty, _⟩ | ⟨liveL, links⟩
    · have := splits.length_lt
      simp [empty] at this
    · rw [partedWord_old liveL]
      exact .inr ⟨parted_live liveL, border.links_border splits.target splits.longer links⟩

/-- The words of the new node and of the clone are those of no other node. -/
theorem Represents.parted_injective (represents : Represents C t view word) {p q v u : Nat}
    (splits : Splits t view word c p q) (liveV : (parted t view word c p q).Live v)
    (liveU : (parted t view word c p q).Live u)
    (same : partedWord t view word c p v = partedWord t view word c p u) : v = u := by
  have copyOld : ∀ v, view.Live v → word v ≠ word p ++ [c] := fun v live equal =>
    splits.not_longest (equal ▸ represents.longest v live)
  have newOld : ∀ v, view.Live v → word v ≠ t ++ [c] := fun v live =>
    ne_whole (represents.longest v live).occurs
  have newCopy : t ++ [c] ≠ word p ++ [c] := fun equal => ne_whole splits.border.occurs equal.symm
  rcases parted_live_cases liveV with oldV | rfl | rfl <;>
    rcases parted_live_cases liveU with oldU | rfl | rfl
  · rw [partedWord_old oldV, partedWord_old oldU] at same
    exact represents.injective v u oldV oldU same
  · rw [partedWord_old oldV, partedWord_new] at same
    exact absurd same (newOld v oldV)
  · rw [partedWord_old oldV, partedWord_clone] at same
    exact absurd same (copyOld v oldV)
  · rw [partedWord_old oldU, partedWord_new] at same
    exact absurd same.symm (newOld u oldU)
  · rfl
  · rw [partedWord_new, partedWord_clone] at same
    exact absurd same newCopy
  · rw [partedWord_old oldU, partedWord_clone] at same
    exact absurd same.symm (copyOld u oldU)
  · rw [partedWord_new, partedWord_clone] at same
    exact absurd same.symm newCopy
  · rfl

/-- The clone takes the words that end at the new place from `q`. -/
theorem Represents.split (represents : Represents C t view word) {p q : Nat}
    (splits : Splits t view word c p q) :
    Represents C (t ++ [c]) (parted t view word c p q) (partedWord t view word c p) where
  root := parted_live represents.root
  rootWord := by rw [partedWord_old represents.root, represents.rootWord]
  longest := by
    intro v live
    rcases parted_live_cases live with live | rfl | rfl
    · rw [partedWord_old live]
      exact (represents.longest v live).append
    · rw [partedWord_new]
      exact longest_of_start (List.prefix_refl _)
    · rw [partedWord_clone]
      exact splits.border.longest
  injective := fun v u liveV liveU same => represents.parted_injective splits liveV liveU same
  onto := by
    intro w longest
    rcases splits.border.longest_cases longest with rfl | rfl | longest
    · exact ⟨view.size, parted_live_new represents p q, partedWord_new p⟩
    · exact ⟨view.size + 1, parted_live_clone p q, partedWord_clone p⟩
    · obtain ⟨v, live, rfl⟩ := represents.onto w longest
      exact ⟨v, parted_live live, partedWord_old live⟩
  len := by
    intro v live
    change (cloned t view word c p q).len v = (partedWord t view word c p v).length
    rcases parted_live_cases live with live | rfl | rfl
    · rw [partedWord_old live, ← represents.len v live, cloned_len live]
    · rw [partedWord_new, cloned_len_new, List.length_append, List.length_singleton]
    · rw [partedWord_clone, cloned_len_clone, List.length_append, List.length_singleton]
  link := fun v live => represents.parted_link splits live
  next := by
    intro v d live letter
    rcases parted_live_cases live with live | rfl | rfl
    · rw [partedWord_old live]
      exact represents.parted_target splits live letter
    · rw [partedWord_new]
      exact .inl ⟨parted_next_new d, not_occurs_whole_snoc⟩
    · rw [partedWord_clone]
      exact represents.parted_target_clone splits letter

/-- The automaton of a text. -/
structure Built (C : Nat) (t : List Nat) (automaton : SuffAutBase) (view : View)
    (word : Nat → List Nat) : Prop where
  nodes : automaton.nodes = view.nodes C
  root : automaton.root = 1
  live : view.Live automaton.last
  last : word automaton.last = t
  represents : Represents C t view word

/-- The empty automaton is built for the empty text. -/
theorem built_empty (C : Nat) : Built C [] (SuffAutBase.empty C) View.empty (fun _ => []) where
  nodes := empty_nodes C
  root := rfl
  live := (represents_empty C).root
  last := rfl
  represents := represents_empty C

/-- The links of the clone and the second loop of `add_c`. -/
theorem Represents.clone_spec (represents : Represents C t view word) (letter : c < C) {p q : Nat}
    (splits : Splits t view word c p q) :
    ∃ linked both stop, setLink ((reached t view word c).nodes C ++
        [⟨(List.range C).map ((reached t view word c).next q), (reached t view word c).link q,
          (word p).length + 1⟩]) q (view.size + 1) = some linked ∧
      setLink linked view.size (view.size + 1) = some both ∧
      redirectLoop c q (view.size + 1) ((word p).length + 2) p both =
        some (stop, (parted t view word c p q).nodes C) := by
  obtain ⟨stop, moved⟩ := represents.redirectLoop_spec letter splits
  have insideQ : q < (reached t view word c).size + 1 :=
    Nat.lt_succ_of_lt (Nat.lt_succ_of_lt splits.liveTarget.2)
  have insideNew : view.size < (reached t view word c).size + 1 :=
    Nat.lt_succ_of_lt (Nat.lt_succ_self _)
  refine ⟨_, _, stop, ?_, View.setLink_eq insideNew, moved⟩
  rw [View.push_eq]
  exact View.setLink_eq insideQ

/-- `add_c` succeeds and extends the text by its letter; it adds a clone only to a text of two or
more letters. -/
theorem addC_spec {automaton : SuffAutBase} (built : Built C t automaton view word) (letter : c < C) :
    ∃ next view' word', addC C automaton c = some next ∧ Built C (t ++ [c]) next view' word' ∧
      (view'.size = view.size + 1 ∨ view'.size = view.size + 2 ∧ 2 ≤ t.length) := by
  obtain ⟨nodes, root, last⟩ := automaton
  obtain ⟨rfl, rfl, live, whole, represents⟩ := built
  simp only at live whole
  have two := represents.root.2
  have lenLast : view.len last = t.length := by rw [represents.len last live, whole]
  have grown : view.nodes C ++ [{ Node.empty C with len := t.length + 1 }] =
      (view.push (fun _ => 0) 0 (t.length + 1)).nodes C := by
    rw [← View.push_eq]
    simp [Node.empty]
  obtain ⟨stop, climbed, halted⟩ := represents.extendLoop_spec letter live whole
  have inside : view.size < (reached t view word c).size := Nat.lt_succ_self _
  unfold addC
  simp only [Option.bind_eq_bind, Option.bind_some, check_of letter, View.nodes_at live.2,
    View.length_nodes]
  change ∃ next view' word', (extendLoop c view.size (view.len last + 2) last
    (view.nodes C ++ [{ Node.empty C with len := view.len last + 1 }])).bind _ = some next ∧ _
  rw [lenLast, grown, climbed, Option.bind_some]
  rcases halted with ⟨rfl, border⟩ | ⟨liveP, ends, occurs, border⟩
  · simp only [if_true, View.setLink_eq inside, Option.bind_some, Option.some.injEq]
    exact ⟨_, _, _, rfl, ⟨rfl, rfl, ⟨by simp only; omega, inside⟩, extendedWord_new,
      represents.extend represents.root (represents.rootWord.symm ▸ border)⟩, .inl rfl⟩
  · have liveR : stop < (reached t view word c).size := Nat.lt_succ_of_lt liveP.2
    have stale : ¬ (c = c ∧ Fresh t view word c stop) := fun fresh => fresh.2.2.2 occurs
    have next : (reached t view word c).next stop c = view.next stop c := by
      rw [reached_next liveP, if_neg stale]
    obtain ⟨liveQ, ext⟩ := represents.follow liveP letter (represents.longest stop liveP).extends
      occurs
    have liveRQ : view.next stop c < (reached t view word c).size := Nat.lt_succ_of_lt liveQ.2
    have running : stop ≠ 0 := Nat.ne_of_gt liveP.1
    simp only [running, if_false, View.nodes_at liveR, Option.bind_some, View.node_target letter,
      next, View.nodes_at liveRQ]
    change ∃ next' view' word', (if (reached t view word c).len (view.next stop c) =
      (reached t view word c).len stop + 1 then _ else _) = some next' ∧ _
    rw [reached_len liveQ, reached_len liveP, represents.len _ liveQ, represents.len _ liveP]
    have long := ext.suffix.length_le
    rw [List.length_append, List.length_singleton] at long
    by_cases full : (word (view.next stop c)).length = (word stop).length + 1
    · have same : word stop ++ [c] = word (view.next stop c) :=
        ext.suffix.eq_of_length (by simp [full])
      simp only [if_pos full, View.setLink_eq inside, Option.bind_some, Option.some.injEq]
      exact ⟨_, _, _, rfl, ⟨rfl, rfl, ⟨by simp only; omega, inside⟩, extendedWord_new,
        represents.extend liveQ (same ▸ border)⟩, .inl rfl⟩
    · have splits : Splits t view word c stop (view.next stop c) :=
        ⟨liveP, ends, rfl, liveQ, ext, fun same => full (by simp [← same]), border⟩
      obtain ⟨linked, both, final, linkQ, linkNew, moved⟩ := represents.clone_spec letter splits
      rw [if_neg full]
      change ∃ next' view' word', (setLink ((reached t view word c).nodes C ++
        [⟨(List.range C).map ((reached t view word c).next (view.next stop c)),
          (reached t view word c).link (view.next stop c), (reached t view word c).len stop + 1⟩])
        (view.next stop c) ((reached t view word c).nodes C).length).bind _ = some next' ∧ _
      rw [reached_len liveP, represents.len _ liveP, View.length_nodes, reached_size, linkQ,
        Option.bind_some, linkNew, Option.bind_some]
      change ∃ next' view' word', (redirectLoop c (view.next stop c) (view.size + 1)
        ((reached t view word c).len stop + 2) stop both).bind _ = some next' ∧ _
      rw [reached_len liveP, represents.len _ liveP, moved, Option.bind_some]
      exact ⟨_, _, _, rfl, ⟨rfl, rfl, ⟨by simp only; omega, Nat.lt_succ_of_lt inside⟩,
        partedWord_new stop, represents.split splits⟩,
        .inr ⟨rfl, splits.two_le (represents.longest _ liveQ)⟩⟩

end Step

/-- The calls of `add_c` for a text build its automaton. -/
theorem addC_run {C : Nat} {t : List Nat} (letters : ∀ c ∈ t, c < C) :
    ∃ automaton view word, t.foldlM (addC C) (SuffAutBase.empty C) = some automaton ∧
      Built C t automaton view word ∧ t.length + 2 ≤ view.size ∧
      view.size ≤ max (t.length + 2) (2 * t.length) := by
  obtain ⟨automaton, run, view, word, built, bound⟩ := OptionList.foldlM_invariant t
    (SuffAutBase.empty C) (addC C)
    (fun t automaton => ∃ view word, Built C t automaton view word ∧ t.length + 2 ≤ view.size ∧
      view.size ≤ max (t.length + 2) (2 * t.length))
    ⟨_, _, built_empty C, Nat.le_refl 2, Nat.le_refl 2⟩
    (by
      intro done c rest automaton split ⟨view, word, built, bound⟩
      obtain ⟨next, view', word', step, built', grown⟩ := addC_spec built (letters c (split ▸ by simp))
      refine ⟨next, step, view', word', built', ?_⟩
      rw [List.length_append, List.length_singleton]
      omega)
  exact ⟨automaton, view, word, run, built, bound⟩

end CellBag.SuffixAutomaton
