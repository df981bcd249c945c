import CellBag.Proof.SuffAut

/-!
The walks of the automaton of a text: a walk along a word is defined for the words that occur, and
words with the same end positions lead to the same node.
-/

namespace CellBag.SuffixAutomaton
open CellBag.Factors

/-- The walk along the transitions; it stops at a transition to node 0. -/
def walk (nodes : List Node) : Nat → List Nat → Option Nat
  | v, [] => some v
  | v, c :: rest => do
      let node ← nodes[v]?
      let u ← node.targets[c]?
      check (u ≠ 0)
      walk nodes u rest

/-- A walk may be taken in two parts. -/
theorem walk_append (nodes : List Node) (v : Nat) (first second : List Nat) :
    walk nodes v (first ++ second) = (walk nodes v first).bind fun u => walk nodes u second := by
  induction first generalizing v with
  | nil => rfl
  | cons c first ih =>
      simp only [List.cons_append, walk, ih, Option.bind_eq_bind, Option.bind_assoc]

/-- One transition of a walk. -/
theorem walk_singleton {C v c u : Nat} {view : View} (live : view.Live v) :
    walk (view.nodes C) v [c] = some u ↔ c < C ∧ view.next v c = u ∧ u ≠ 0 := by
  rw [walk, View.nodes_at live.2]
  by_cases letter : c < C
  · simp only [Option.bind_eq_bind, Option.bind_some, View.node_target letter, walk, check]
    split
    · rename_i positive
      simp only [Option.bind_some, Option.some.injEq]
      exact ⟨fun same => ⟨letter, same, same ▸ positive⟩, fun found => found.2.1⟩
    · rename_i zero
      simp only [ne_eq, not_not] at zero
      simp only [Option.bind_none, reduceCtorEq, zero, false_iff]
      rintro ⟨_, same, positive⟩
      exact positive same.symm
  · have outside : (view.node C v).targets[c]? = none := by simp [View.node, letter]
    simp [outside, letter]

section Text
variable {C : Nat} {t w u : List Nat} {view : View} {word : Nat → List Nat} {v l : Nat}

/-- A node for each word that occurs. -/
theorem Represents.exists_node (represents : Represents C t view word) (occurs : w <:+: t) :
    ∃ v, view.Live v ∧ Extends t w (word v) := by
  obtain ⟨x, ext⟩ := exists_extends occurs
  obtain ⟨v, live, rfl⟩ := represents.onto x ext.longest
  exact ⟨v, live, ext⟩

/-- The walk along a word ends at the node of the longest word with its ends. -/
theorem Represents.walk_iff (represents : Represents C t view word) (letters : ∀ c ∈ t, c < C) :
    walk (view.nodes C) 1 w = some v ↔ view.Live v ∧ Extends t w (word v) := by
  induction w using List.reverseRecOn generalizing v with
  | nil =>
      have root : Extends t [] (word 1) :=
        represents.rootWord.symm ▸ (longest_nil t).extends
      constructor
      · intro same
        obtain rfl := Option.some.inj same
        exact ⟨represents.root, root⟩
      · intro ⟨live, ext⟩
        exact congrArg some (represents.injective 1 v represents.root live (root.unique ext))
  | append_singleton w c ih =>
      rw [walk_append]
      constructor
      · intro run
        obtain ⟨p, before, step⟩ := Option.bind_eq_some_iff.mp run
        obtain ⟨live, ext⟩ := ih.mp before
        obtain ⟨letter, rfl, positive⟩ := (walk_singleton live).mp step
        obtain ⟨liveN, next⟩ := represents.transition live letter positive
        exact ⟨liveN, ext.snoc_of (fun _ => prefix_of_snoc) next⟩
      · intro ⟨live, ext⟩
        have occursW : w <:+: t := (List.prefix_append w [c]).isInfix.trans ext.occurs
        obtain ⟨p, liveP, extP⟩ := represents.exists_node occursW
        have letter : c < C := letters c (ext.occurs.subset (by simp))
        rw [ih.mpr ⟨liveP, extP⟩, Option.bind_some, walk_singleton liveP]
        obtain ⟨liveN, next⟩ := represents.follow liveP letter extP ext.occurs
        exact ⟨letter, represents.injective _ _ liveN live (next.unique ext), Nat.ne_of_gt live.1⟩

/-- The word of an inner state is not empty. -/
theorem Represents.ne_nil (represents : Represents C t view word) (live : view.Live v)
    (inner : v ≠ 1) : word v ≠ [] := fun empty =>
  inner (represents.injective v 1 live represents.root (empty.trans represents.rootWord.symm))

/-- The link of an inner node. -/
theorem Represents.links (represents : Represents C t view word) (live : view.Live v)
    (inner : v ≠ 1) :
    view.Live (view.link v) ∧ Links t (word v) (word (view.link v)) := by
  rcases represents.link v live with ⟨empty, _⟩ | links
  · exact absurd empty (represents.ne_nil live inner)
  · exact links

end Text

section Built
variable {C : Nat} {t : List Nat} {automaton : SuffAutBase} {view : View} {word : Nat → List Nat}

/-- A node of the automaton is one of the view. -/
theorem Built.node {v : Nat} {node : Node} (built : Built C t automaton view word)
    (look : automaton.nodes[v]? = some node) : v < view.size ∧ node = view.node C v := by
  rw [built.nodes] at look
  have inside : v < view.size := by simpa using (List.getElem?_eq_some_iff.mp look).1
  rw [View.nodes_at inside] at look
  exact ⟨inside, (Option.some.inj look).symm⟩

end Built

end CellBag.SuffixAutomaton
