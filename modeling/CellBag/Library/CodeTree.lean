import Mathlib.Tactic
import Mathlib.Data.Nat.Fib.Basic

/-!
Binary code trees: their codewords, their decoding walk, and the depth of trees that
were built by merging the two lightest trees of a forest.
-/

namespace CellBag

/-- A binary tree whose leaves carry the symbols of a code. -/
inductive CodeTree (α : Type) where
  | leaf (symbol : α)
  | fork (left right : CodeTree α)

namespace CodeTree

variable {α : Type}

/-- The symbols of the leaves, from left to right. -/
def leaves : CodeTree α → List α
  | leaf symbol => [symbol]
  | fork left right => left.leaves ++ right.leaves

/-- Each leaf comes with the path to it: `false` goes left and `true` goes right. -/
def codewords : CodeTree α → List (α × List Bool)
  | leaf symbol => [(symbol, [])]
  | fork left right =>
      left.codewords.map (fun entry => (entry.1, false :: entry.2)) ++
        right.codewords.map (fun entry => (entry.1, true :: entry.2))

/-- The walk follows the bits to a leaf and counts the bits it used. -/
def walk : CodeTree α → List Bool → Option (α × Nat)
  | leaf symbol, _ => some (symbol, 0)
  | fork _ _, [] => none
  | fork left right, bit :: bits =>
      ((if bit then right else left).walk bits).map fun found => (found.1, found.2 + 1)

/-- A tree of more than one leaf. -/
def IsFork : CodeTree α → Prop
  | leaf _ => False
  | fork _ _ => True

@[simp] theorem mem_codewords_leaf {symbol : α} {entry : α × List Bool} :
    entry ∈ (leaf symbol).codewords ↔ entry = (symbol, []) := List.mem_singleton

/-- A path through a fork starts with the side and goes on there. -/
theorem mem_codewords_fork {left right : CodeTree α} {symbol : α} {word : List Bool} :
    (symbol, word) ∈ (fork left right).codewords ↔
      ∃ bit rest, word = bit :: rest ∧ (symbol, rest) ∈ (if bit then right else left).codewords := by
  simp only [codewords, List.mem_append, List.mem_map, Prod.mk.injEq, Prod.exists]
  constructor
  · rintro (⟨other, rest, member, rfl, rfl⟩ | ⟨other, rest, member, rfl, rfl⟩)
    · exact ⟨false, rest, rfl, member⟩
    · exact ⟨true, rest, rfl, member⟩
  · rintro ⟨bit, rest, rfl, member⟩
    cases bit
    · exact Or.inl ⟨symbol, rest, member, rfl, rfl⟩
    · exact Or.inr ⟨symbol, rest, member, rfl, rfl⟩

/-- The code words name the leaves. -/
theorem codewords_map_fst (tree : CodeTree α) : tree.codewords.map Prod.fst = tree.leaves := by
  induction tree with
  | leaf symbol => rfl
  | fork left right ihLeft ihRight =>
      simp only [codewords, leaves, List.map_append, List.map_map, ← ihLeft, ← ihRight]
      rfl

/-- A symbol is a leaf exactly if it has a code word. -/
theorem mem_leaves_iff {tree : CodeTree α} {symbol : α} :
    symbol ∈ tree.leaves ↔ ∃ word, (symbol, word) ∈ tree.codewords := by
  rw [← codewords_map_fst]
  simp

/-- A tree has a leaf. -/
theorem leaves_ne_nil (tree : CodeTree α) : tree.leaves ≠ [] := by
  induction tree with
  | leaf symbol => simp [leaves]
  | fork left right ihLeft ihRight => simp [leaves, ihLeft]

/-- The walk reads back each codeword, whatever bits follow it. -/
theorem walk_codeword {tree : CodeTree α} {symbol : α} {word : List Bool}
    (member : (symbol, word) ∈ tree.codewords) (rest : List Bool) :
    tree.walk (word ++ rest) = some (symbol, word.length) := by
  induction tree generalizing word with
  | leaf other =>
      obtain ⟨rfl, rfl⟩ := Prod.mk.inj (mem_codewords_leaf.mp member)
      simp [walk]
  | fork left right ihLeft ihRight =>
      obtain ⟨bit, tail, rfl, below⟩ := mem_codewords_fork.mp member
      cases bit
      · simpa [walk] using ihLeft below
      · simpa [walk] using ihRight below

/-- A walk that ends has read a codeword. -/
theorem walk_sound {tree : CodeTree α} {bits : List Bool} {symbol : α} {count : Nat}
    (ended : tree.walk bits = some (symbol, count)) :
    count ≤ bits.length ∧ (symbol, bits.take count) ∈ tree.codewords := by
  induction tree generalizing bits count with
  | leaf other =>
      simp only [walk, Option.some.injEq, Prod.mk.injEq] at ended
      obtain ⟨rfl, rfl⟩ := ended
      simp
  | fork left right ihLeft ihRight =>
      cases bits with
      | nil => simp [walk] at ended
      | cons bit bits =>
          simp only [walk, Option.map_eq_some_iff, Prod.mk.injEq, Prod.exists] at ended
          obtain ⟨other, used, below, rfl, rfl⟩ := ended
          have child : used ≤ bits.length ∧
              (other, bits.take used) ∈ (if bit then right else left).codewords := by
            cases bit
            · exact ihLeft below
            · exact ihRight below
          refine ⟨Nat.succ_le_succ child.1, ?_⟩
          rw [List.take_succ_cons]
          exact mem_codewords_fork.mpr ⟨bit, _, rfl, child.2⟩

/-- The walk runs out of bits exactly when no codeword starts them. -/
theorem walk_eq_none_iff {tree : CodeTree α} {bits : List Bool} :
    tree.walk bits = none ↔ ∀ entry ∈ tree.codewords, ¬ entry.2 <+: bits := by
  constructor
  · rintro stuck ⟨symbol, word⟩ member ⟨rest, rfl⟩
    rw [walk_codeword member] at stuck
    contradiction
  · intro absent
    cases found : tree.walk bits with
    | none => rfl
    | some result =>
        have read := walk_sound found
        exact absurd (List.take_prefix _ _) (absent _ read.2)

/-- No codeword starts another one. -/
theorem codewords_prefixFree {tree : CodeTree α} {first second : α × List Bool}
    (memberFirst : first ∈ tree.codewords) (memberSecond : second ∈ tree.codewords)
    (starts : first.2 <+: second.2) : first = second := by
  obtain ⟨rest, split⟩ := starts
  have long := walk_codeword memberFirst rest
  have whole := walk_codeword memberSecond []
  rw [List.append_nil, ← split, long] at whole
  simp only [Option.some.injEq, Prod.mk.injEq] at whole
  have empty : rest = [] := by
    have lengths := congrArg List.length split
    rw [List.length_append, whole.2, ← split] at lengths
    simpa using lengths
  rw [empty, List.append_nil] at split
  exact Prod.ext whole.1 split

/-- No code word of a fork is empty. -/
theorem codeword_ne_nil {tree : CodeTree α} (isFork : tree.IsFork) {entry : α × List Bool}
    (member : entry ∈ tree.codewords) : entry.2 ≠ [] := by
  cases tree with
  | leaf symbol => exact isFork.elim
  | fork left right =>
      obtain ⟨bit, rest, equal, _⟩ := mem_codewords_fork.mp member
      simp [equal]

private theorem sum_longer (entries : List (α × List Bool)) (bit : Bool) :
    ((entries.map fun entry => (entry.1, bit :: entry.2)).map
      fun entry => (1 / 2 : ℚ) ^ entry.2.length).sum =
      (entries.map fun entry => (1 / 2 : ℚ) ^ entry.2.length).sum / 2 := by
  induction entries with
  | nil => simp
  | cons entry entries ih =>
      simp only [List.map_cons, List.sum_cons, ih, List.length_cons, pow_succ]
      ring

/-- The code of a tree is complete. -/
theorem kraft_sum (tree : CodeTree α) :
    (tree.codewords.map fun entry => (1 / 2 : ℚ) ^ entry.2.length).sum = 1 := by
  induction tree with
  | leaf symbol => simp [codewords]
  | fork left right ihLeft ihRight =>
      rw [codewords, List.map_append, List.sum_append, sum_longer, sum_longer, ihLeft, ihRight]
      norm_num

section Weight

variable (weight : α → Nat)

/-- The weight of a tree is the sum over its leaves. -/
def totalWeight (tree : CodeTree α) : Nat := (tree.leaves.map weight).sum

@[simp] theorem totalWeight_leaf (symbol : α) : totalWeight weight (leaf symbol) = weight symbol := by
  simp [totalWeight, leaves]

@[simp] theorem totalWeight_fork (left right : CodeTree α) :
    totalWeight weight (fork left right) = totalWeight weight left + totalWeight weight right := by
  simp [totalWeight, leaves]

/-- The children of the root, if any, weigh at most the bound. -/
def ChildrenWithin (bound : Nat) : CodeTree α → Prop
  | leaf _ => True
  | fork left right => totalWeight weight left ≤ bound ∧ totalWeight weight right ≤ bound

/-- No tree outweighs its uncle. -/
def Balanced : CodeTree α → Prop
  | leaf _ => True
  | fork left right => Balanced left ∧ Balanced right ∧
      ChildrenWithin weight (totalWeight weight right) left ∧
      ChildrenWithin weight (totalWeight weight left) right

variable {weight}

/-- A larger bound holds too. -/
theorem ChildrenWithin.mono {small large : Nat} {tree : CodeTree α}
    (within : ChildrenWithin weight small tree) (le : small ≤ large) :
    ChildrenWithin weight large tree := by
  cases tree with
  | leaf symbol => trivial
  | fork left right => exact ⟨within.1.trans le, within.2.trans le⟩

private theorem least_le_totalWeight {tree : CodeTree α} {least : Nat}
    (heavy : ∀ symbol ∈ tree.leaves, least ≤ weight symbol) : least ≤ totalWeight weight tree := by
  obtain ⟨symbol, member⟩ := List.exists_mem_of_ne_nil _ (leaves_ne_nil tree)
  exact (heavy symbol member).trans (List.single_le_sum (fun _ _ => Nat.zero_le _) _
    (List.mem_map_of_mem member))

/-- The uncle bound makes the weights along a path grow at least like the Fibonacci numbers. -/
private theorem fib_path {tree : CodeTree α} {least : Nat} (balanced : Balanced weight tree)
    (heavy : ∀ symbol ∈ tree.leaves, least ≤ weight symbol) {symbol : α} {word : List Bool}
    (member : (symbol, word) ∈ tree.codewords) :
    least * Nat.fib (word.length + 2) ≤ totalWeight weight tree ∧
      ∀ bound, least ≤ bound → ChildrenWithin weight bound tree →
        least * Nat.fib (word.length + 1) ≤ bound := by
  induction tree generalizing word with
  | leaf other =>
      obtain ⟨rfl, rfl⟩ := Prod.mk.inj (mem_codewords_leaf.mp member)
      exact ⟨by simpa using least_le_totalWeight heavy, fun bound enough _ => by simpa using enough⟩
  | fork left right ihLeft ihRight =>
      obtain ⟨balancedLeft, balancedRight, leftWithin, rightWithin⟩ := balanced
      have heavyLeft : ∀ symbol ∈ left.leaves, least ≤ weight symbol :=
        fun symbol inside => heavy symbol (List.mem_append_left _ inside)
      have heavyRight : ∀ symbol ∈ right.leaves, least ≤ weight symbol :=
        fun symbol inside => heavy symbol (List.mem_append_right _ inside)
      obtain ⟨bit, rest, rfl, below⟩ := mem_codewords_fork.mp member
      have step : Nat.fib (rest.length + 3) = Nat.fib (rest.length + 1) + Nat.fib (rest.length + 2) :=
        Nat.fib_add_two
      rw [List.length_cons, show rest.length + 1 + 2 = rest.length + 3 from rfl, step, Nat.mul_add]
      cases bit with
      | false =>
          have path := ihLeft balancedLeft heavyLeft below
          have uncle := path.2 _ (least_le_totalWeight heavyRight) leftWithin
          refine ⟨?_, fun bound _ within => path.1.trans within.1⟩
          rw [totalWeight_fork]
          exact (Nat.add_comm _ _).trans_le (Nat.add_le_add path.1 uncle)
      | true =>
          have path := ihRight balancedRight heavyRight below
          have uncle := path.2 _ (least_le_totalWeight heavyLeft) rightWithin
          refine ⟨?_, fun bound _ within => path.1.trans within.2⟩
          rw [totalWeight_fork]
          exact Nat.add_le_add uncle path.1

/-- A leaf at depth `d` forces a total weight of `fib (d + 2)` times the least leaf weight. -/
theorem Balanced.fib_depth {tree : CodeTree α} (least : Nat) (balanced : Balanced weight tree)
    (heavy : ∀ symbol ∈ tree.leaves, least ≤ weight symbol) {entry : α × List Bool}
    (member : entry ∈ tree.codewords) :
    least * Nat.fib (entry.2.length + 2) ≤ totalWeight weight tree :=
  (fib_path balanced heavy member).1

/-- A forest that grew by merging lightest trees: no child outweighs any tree of the forest. -/
structure Settled (weight : α → Nat) (forest : List (CodeTree α)) : Prop where
  balanced : ∀ tree ∈ forest, Balanced weight tree
  within : ∀ tree ∈ forest, ∀ other ∈ forest, ChildrenWithin weight (totalWeight weight other) tree

/-- A forest of leaves is settled. -/
theorem Settled.of_leaves {forest : List (CodeTree α)}
    (single : ∀ tree ∈ forest, ¬ tree.IsFork) : Settled weight forest where
  balanced tree member := by
    cases tree with
    | leaf symbol => trivial
    | fork left right => exact (single _ member trivial).elim
  within tree member _ _ := by
    cases tree with
    | leaf symbol => trivial
    | fork left right => exact (single _ member trivial).elim

/-- Each part of a settled forest is settled. -/
theorem Settled.subset {forest others : List (CodeTree α)} (settled : Settled weight forest)
    (inside : others ⊆ forest) : Settled weight others where
  balanced tree member := settled.balanced tree (inside member)
  within tree member other memberOther := settled.within tree (inside member) other (inside memberOther)

/-- Merging the two lightest trees keeps the forest settled. -/
theorem Settled.merge {first second : CodeTree α} {forest : List (CodeTree α)}
    (settled : Settled weight (first :: second :: forest))
    (lightFirst : ∀ tree ∈ forest, totalWeight weight first ≤ totalWeight weight tree)
    (lightSecond : ∀ tree ∈ forest, totalWeight weight second ≤ totalWeight weight tree) :
    Settled weight (fork first second :: forest) where
  balanced tree member := by
    rcases List.mem_cons.mp member with rfl | member
    · exact ⟨settled.balanced first (by simp), settled.balanced second (by simp),
        settled.within first (by simp) second (by simp),
        settled.within second (by simp) first (by simp)⟩
    · exact settled.balanced tree (by simp [member])
  within tree member other memberOther := by
    rcases List.mem_cons.mp member with rfl | member
    · rcases List.mem_cons.mp memberOther with rfl | memberOther
      · exact ⟨by simp, by simp⟩
      · exact ⟨lightFirst other memberOther, lightSecond other memberOther⟩
    · rcases List.mem_cons.mp memberOther with rfl | memberOther
      · exact (settled.within tree (by simp [member]) first (by simp)).mono (by simp)
      · exact settled.within tree (by simp [member]) other (by simp [memberOther])

end Weight

end CodeTree

end CellBag
