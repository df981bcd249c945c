import CellBag.Library.Kraft
import CellBag.Model.Huffman

/-!
The constructor of the Huffman coder: no node is lost, no check fails, and the code table
holds the codewords of the tree.
-/

namespace CellBag.Huffman
open BitString CodeTree

/-- The weight that the constructor gives to a symbol. -/
def symbolWeight (freq : List Nat) (symbol : Nat) : Nat := max 1 (freq.getD symbol 0)

/-- The sum of the weights, `sum_freq` before any wrap. -/
def sumFreq (freq : List Nat) : Nat := (freq.map (max 1)).sum

/-- The comparison of nodes, key by key. -/
theorem cmp_iff (a b : Node) : cmp a b = true ↔
    a.freq < b.freq ∨ (a.freq = b.freq ∧ (a.minDepth < b.minDepth ∨
      (a.minDepth = b.minDepth ∧ a.minSymbol < b.minSymbol))) := by
  unfold cmp
  split
  · simp; omega
  · split <;> simp <;> omega

/-- The comparison of nodes is transitive. -/
theorem cmp_trans {a b c : Node} (first : cmp a b = true) (second : cmp b c = true) :
    cmp a c = true := by
  rw [cmp_iff] at *
  omega

/-- A node before another one is not heavier. -/
theorem freq_le_of_cmp {a b : Node} (before : cmp a b = true) : a.freq ≤ b.freq := by
  have order := (cmp_iff a b).mp before
  omega

/-- Nodes with different least symbols never compare equal. -/
theorem cmp_total {a b : Node} (different : a.minSymbol ≠ b.minSymbol) (not : cmp a b ≠ true) :
    cmp b a = true := by
  rw [Ne, cmp_iff] at not
  rw [cmp_iff]
  omega

/-- The set stays ordered and keeps all nodes. -/
theorem insertNode_spec (node : Node) (nodes : List Node)
    (ordered : nodes.Pairwise fun a b => cmp a b = true)
    (fresh : ∀ other ∈ nodes, other.minSymbol ≠ node.minSymbol) :
    ∃ next, insertNode node nodes = some next ∧ next.Perm (node :: nodes) ∧
      next.Pairwise fun a b => cmp a b = true := by
  induction nodes with
  | nil => exact ⟨[node], rfl, List.Perm.refl _, by simp⟩
  | cons other rest ih =>
      obtain ⟨least, restOrdered⟩ := List.pairwise_cons.mp ordered
      by_cases before : cmp node other = true
      · refine ⟨node :: other :: rest, by simp [insertNode, before], List.Perm.refl _, ?_⟩
        refine List.pairwise_cons.mpr ⟨?_, ordered⟩
        intro later member
        rcases List.mem_cons.mp member with rfl | member
        · exact before
        · exact cmp_trans before (least later member)
      · have after := cmp_total (fresh other (by simp)).symm before
        obtain ⟨next, inserted, perm, nextOrdered⟩ :=
          ih restOrdered fun later member => fresh later (by simp [member])
        refine ⟨other :: next, by simp [insertNode, before, after, inserted], ?_, ?_⟩
        · exact (perm.cons other).trans (List.Perm.swap node other rest)
        · refine List.pairwise_cons.mpr ⟨?_, nextOrdered⟩
          intro later member
          rcases List.mem_cons.mp (perm.mem_iff.mp member) with rfl | member
          · exact after
          · exact least later member

/-- The nodes of the set cover the symbols and record what their trees say. -/
structure Forest (weight : Nat → Nat) (symbols : List Nat) (nodes : List Node) : Prop where
  freq : ∀ node ∈ nodes, node.freq = totalWeight weight node.tree
  minSymbol : ∀ node ∈ nodes, node.minSymbol ∈ node.tree.leaves
  settled : Settled weight (nodes.map Node.tree)
  leaves : (nodes.flatMap fun node => node.tree.leaves).Perm symbols

/-- The order of the nodes does not matter to the forest. -/
theorem Forest.perm {weight : Nat → Nat} {symbols : List Nat} {nodes next : List Node}
    (forest : Forest weight symbols nodes) (perm : next.Perm nodes) :
    Forest weight symbols next where
  freq node member := forest.freq node (perm.mem_iff.mp member)
  minSymbol node member := forest.minSymbol node (perm.mem_iff.mp member)
  settled := forest.settled.subset (perm.map Node.tree).subset
  leaves := (perm.flatMap_right _).trans forest.leaves

/-- Trees over distinct symbols have distinct least symbols. -/
theorem Forest.fresh {weight : Nat → Nat} {symbols : List Nat} {node : Node} {nodes : List Node}
    (distinct : symbols.Nodup) (forest : Forest weight symbols (node :: nodes)) :
    ∀ other ∈ nodes, other.minSymbol ≠ node.minSymbol := by
  intro other member same
  have nodup : ((node :: nodes).flatMap fun node => node.tree.leaves).Nodup :=
    forest.leaves.nodup_iff.mpr distinct
  rw [List.flatMap_cons] at nodup
  have disjoint := List.disjoint_of_nodup_append nodup
  apply disjoint (forest.minSymbol node (by simp))
  rw [← same]
  exact List.mem_flatMap.mpr ⟨other, member, forest.minSymbol other (by simp [member])⟩

/-- An insertion never meets an equivalent node. -/
theorem Forest.insertNode {weight : Nat → Nat} {symbols : List Nat} {node : Node}
    {nodes : List Node} (distinct : symbols.Nodup) (forest : Forest weight symbols (node :: nodes))
    (ordered : nodes.Pairwise fun a b => cmp a b = true) :
    ∃ next, Huffman.insertNode node nodes = some next ∧ next.Perm (node :: nodes) ∧
      Forest weight symbols next ∧ next.Pairwise fun a b => cmp a b = true := by
  obtain ⟨next, inserted, perm, nextOrdered⟩ :=
    insertNode_spec node nodes ordered (forest.fresh distinct)
  exact ⟨next, inserted, perm, forest.perm perm, nextOrdered⟩

/-- The weights of the trees sum up to those of the leaves. -/
theorem sum_totalWeight (weight : Nat → Nat) (nodes : List Node) :
    (nodes.map fun node => totalWeight weight node.tree).sum =
      ((nodes.flatMap fun node => node.tree.leaves).map weight).sum := by
  induction nodes with
  | nil => rfl
  | cons node nodes ih =>
      rw [List.map_cons, List.sum_cons, ih, List.flatMap_cons, List.map_append, List.sum_append]
      rfl

/-- The parent of the two least nodes takes their place; its frequency does not wrap. -/
theorem Forest.merge {weight : Nat → Nat} {symbols : List Nat} {a b : Node} {nodes : List Node}
    (forest : Forest weight symbols (a :: b :: nodes))
    (ordered : (a :: b :: nodes).Pairwise fun a b => cmp a b = true)
    (small : ∀ symbol ∈ symbols, symbol < 2 ^ 32) (fits : (symbols.map weight).sum < 2 ^ 32) :
    Forest weight symbols (Node.ofPair a b :: nodes) := by
  obtain ⟨leastA, ordered⟩ := List.pairwise_cons.mp ordered
  obtain ⟨leastB, ordered⟩ := List.pairwise_cons.mp ordered
  have freqA := forest.freq a (by simp)
  have freqB := forest.freq b (by simp)
  have light : ∀ node ∈ nodes, a.freq ≤ node.freq ∧ b.freq ≤ node.freq := by
    intro node member
    have first := (cmp_iff a node).mp (leastA node (by simp [member]))
    have second := (cmp_iff b node).mp (leastB node member)
    omega
  have sum := (sum_totalWeight weight (a :: b :: nodes)).trans (forest.leaves.map weight).sum_eq
  simp only [List.map_cons, List.sum_cons, ← freqA, ← freqB] at sum
  have leaf : ∀ node ∈ a :: b :: nodes, node.minSymbol < 2 ^ 32 := by
    intro node member
    refine small _ (forest.leaves.mem_iff.mp ?_)
    exact List.mem_flatMap.mpr ⟨node, member, forest.minSymbol node member⟩
  have leafA := leaf a (by simp)
  have leafB := leaf b (by simp)
  refine ⟨?_, ?_, ?_, ?_⟩
  · intro node member
    rcases List.mem_cons.mp member with rfl | member
    · simp only [Node.ofPair, totalWeight_fork, ← freqA, ← freqB]
      exact Nat.mod_eq_of_lt (by omega)
    · exact forest.freq node (by simp [member])
  · intro node member
    rcases List.mem_cons.mp member with rfl | member
    · have least : (Node.ofPair a b).minSymbol = a.minSymbol ∨
          (Node.ofPair a b).minSymbol = b.minSymbol := by
        simp only [Node.ofPair]
        omega
      rcases least with same | same <;> rw [same]
      · exact List.mem_append_left _ (forest.minSymbol a (by simp))
      · exact List.mem_append_right _ (forest.minSymbol b (by simp))
    · exact forest.minSymbol node (by simp [member])
  · rw [List.map_cons]
    refine Settled.merge (by simpa using forest.settled) ?_ ?_
    · intro tree member
      obtain ⟨node, inside, rfl⟩ := List.mem_map.mp member
      rw [← freqA, ← forest.freq node (by simp [inside])]
      exact (light node inside).1
    · intro tree member
      obtain ⟨node, inside, rfl⟩ := List.mem_map.mp member
      rw [← freqB, ← forest.freq node (by simp [inside])]
      exact (light node inside).2
  · simpa [Node.ofPair, CodeTree.leaves] using forest.leaves

/-- The loop merges the whole set into one tree, whatever the frequencies are. -/
theorem mergeNodes_spec {weight : Nat → Nat} {symbols : List Nat} (distinct : symbols.Nodup)
    (small : ∀ symbol ∈ symbols, symbol < 2 ^ 32) (fits : (symbols.map weight).sum < 2 ^ 32)
    (fuel : Nat) (nodes : List Node) (enough : nodes.length ≤ fuel + 1) (nonempty : nodes ≠ [])
    (forest : Forest weight symbols nodes)
    (ordered : nodes.Pairwise fun a b => cmp a b = true) :
    ∃ root, mergeNodes fuel nodes = some root ∧ Forest weight symbols [root] ∧
      (2 ≤ nodes.length ∨ (∃ node ∈ nodes, node.tree.IsFork) → root.tree.IsFork) ∧
      Kraft.Beats weight root.tree (nodes.map Node.tree) := by
  induction fuel generalizing nodes with
  | zero =>
      match nodes, nonempty, enough with
      | [root], _, _ => exact ⟨root, by simp [mergeNodes], forest, by simp, Kraft.beats_self _⟩
  | succ fuel ih =>
      match nodes, nonempty with
      | [root], _ => exact ⟨root, by simp [mergeNodes], forest, by simp, Kraft.beats_self _⟩
      | a :: b :: rest, _ =>
          have merged := forest.merge ordered small fits
          obtain ⟨leastA, restOrdered⟩ := List.pairwise_cons.mp ordered
          obtain ⟨leastB, restOrdered⟩ := List.pairwise_cons.mp restOrdered
          obtain ⟨next, inserted, perm, nextForest, nextOrdered⟩ :=
            merged.insertNode distinct restOrdered
          have length := perm.length_eq
          have nextNonempty : next ≠ [] := by
            intro empty
            simp [empty] at length
          obtain ⟨root, found, rootForest, isFork, beats⟩ := ih next (by simp at length enough; omega)
            nextNonempty nextForest nextOrdered
          refine ⟨root, by simp [mergeNodes, inserted, found], rootForest, fun _ => isFork ?_, ?_⟩
          · exact Or.inr ⟨Node.ofPair a b, perm.mem_iff.mpr (by simp), trivial⟩
          · apply (beats.perm (perm.map Node.tree)).of_merge
            · rw [← forest.freq a (by simp), ← forest.freq b (by simp)]
              exact freq_le_of_cmp (leastA b (by simp))
            · intro tree member
              obtain ⟨node, inside, rfl⟩ := List.mem_map.mp member
              rw [← forest.freq b (by simp), ← forest.freq node (by simp [inside])]
              exact freq_le_of_cmp (leastB node inside)

namespace HuffmanEncoderDecoder

/-- Every symbol enters the set with its weight. -/
theorem leafNodes_loop (weight : Nat → Nat) (todo : List Nat) (start : Nat) (nodes : List Node)
    (weights : ∀ entry ∈ todo.zipIdx start, max 1 entry.1 = weight entry.2)
    (forest : Forest weight (List.range start) nodes)
    (single : ∀ node ∈ nodes, ¬ node.tree.IsFork)
    (ordered : nodes.Pairwise fun a b => cmp a b = true) :
    ∃ next, (todo.zipIdx start).foldlM
        (fun nodes entry => insertNode (Node.ofSymbol entry.2 (max 1 entry.1)) nodes) nodes = some next ∧
      Forest weight (List.range (start + todo.length)) next ∧
      next.length = nodes.length + todo.length ∧
      (next.Pairwise fun a b => cmp a b = true) ∧ ∀ node ∈ next, ¬ node.tree.IsFork := by
  induction todo generalizing start nodes with
  | nil => exact ⟨nodes, rfl, by simpa using forest, by simp, ordered, single⟩
  | cons first todo ih =>
      have weightFirst : max 1 first = weight start := weights (first, start) (by simp)
      let node := Node.ofSymbol start (max 1 first)
      have allSingle : ∀ other ∈ node :: nodes, ¬ other.tree.IsFork := by
        intro other member
        rcases List.mem_cons.mp member with rfl | member
        · exact fun isFork => isFork
        · exact single other member
      have grown : Forest weight (List.range (start + 1)) (node :: nodes) := by
        refine ⟨?_, ?_, ?_, ?_⟩
        · intro other member
          rcases List.mem_cons.mp member with rfl | member
          · simp [node, Node.ofSymbol, weightFirst]
          · exact forest.freq other member
        · intro other member
          rcases List.mem_cons.mp member with rfl | member
          · simp [node, Node.ofSymbol, CodeTree.leaves]
          · exact forest.minSymbol other member
        · apply Settled.of_leaves
          intro tree member
          obtain ⟨other, inside, rfl⟩ := List.mem_map.mp member
          exact allSingle other inside
        · rw [List.flatMap_cons, List.range_succ]
          exact (List.Perm.cons start forest.leaves).trans
            (@List.perm_append_comm _ [start] (List.range start))
      obtain ⟨next, inserted, perm, nextForest, nextOrdered⟩ :=
        grown.insertNode List.nodup_range ordered
      obtain ⟨last, folded, lastForest, length, lastOrdered, lastSingle⟩ := ih (start + 1) next
        (fun entry member => weights entry (by simp [member])) nextForest
        (fun other member => allSingle other (perm.mem_iff.mp member)) nextOrdered
      refine ⟨last, ?_, ?_, ?_, lastOrdered, lastSingle⟩
      · rw [List.zipIdx_cons, List.foldlM_cons]
        simp only [node] at inserted
        simp [inserted, folded]
      · rwa [List.length_cons, Nat.add_comm todo.length, ← Nat.add_assoc]
      · rw [length, perm.length_eq, List.length_cons, List.length_cons]
        omega

/-- Trees without forks are their leaves. -/
theorem map_leaf_leaves (nodes : List Node) (single : ∀ node ∈ nodes, ¬ node.tree.IsFork) :
    (nodes.flatMap fun node => node.tree.leaves).map .leaf = nodes.map Node.tree := by
  induction nodes with
  | nil => rfl
  | cons node nodes ih =>
      rw [List.flatMap_cons, List.map_append, ih fun other member => single other (by simp [member])]
      cases tree : node.tree with
      | leaf symbol => simp [CodeTree.leaves, tree]
      | fork left right =>
          have isFork : node.tree.IsFork := by rw [tree]; trivial
          exact absurd isFork (single node (by simp))

/-- All symbols get a node: none of the insertions loses one. -/
theorem leafNodes_spec (freq : List Nat) :
    ∃ nodes, leafNodes freq = some nodes ∧
      Forest (symbolWeight freq) (List.range freq.length) nodes ∧
      nodes.length = freq.length ∧ (nodes.Pairwise fun a b => cmp a b = true) ∧
      (nodes.map Node.tree).Perm ((List.range freq.length).map .leaf) := by
  have weights : ∀ entry ∈ freq.zipIdx 0, max 1 entry.1 = symbolWeight freq entry.2 := by
    intro entry member
    obtain ⟨inRange, equal⟩ := List.mem_zipIdx' member
    simp [symbolWeight, equal, List.getD_eq_getElem?_getD, List.getElem?_eq_getElem inRange]
  have empty : Forest (symbolWeight freq) (List.range 0) [] :=
    ⟨by simp, by simp, Settled.of_leaves (by simp), by simp⟩
  obtain ⟨nodes, folded, forest, length, ordered, single⟩ :=
    leafNodes_loop _ freq 0 [] weights empty (by simp) (by simp)
  rw [Nat.zero_add] at forest
  refine ⟨nodes, folded, forest, by simpa using length, ordered, ?_⟩
  rw [← map_leaf_leaves nodes single]
  exact forest.leaves.map _

/-- A code below 64 bits takes one more bit without a wrap. -/
theorem toNat_snoc_mod (path : List Bool) (bit : Bool) (room : path.length + 1 ≤ 64) :
    (toNat path * 2 + bit.toNat) % 2 ^ 64 = toNat (path ++ [bit]) := by
  have power : 2 ^ (path.length + 1) ≤ 2 ^ 64 := Nat.pow_le_pow_right (by decide) room
  have below := toNat_lt path
  have single := Bool.toNat_le bit
  rw [pow_succ] at power
  rw [Nat.mod_eq_of_lt (by omega), toNat_append]
  cases bit <;> rfl

theorem length_snoc_add (path rest : List Bool) (bit : Bool) :
    (path ++ [bit]).length + rest.length = path.length + (bit :: rest).length := by
  rw [List.length_append, List.length_singleton, List.length_cons]
  omega

/-- The traversal stores the codeword of each leaf; lengths up to 64 neither wrap nor fail. -/
theorem dfs_spec (tree : CodeTree Nat) (path : List Bool) (codes : List (Nat × Nat))
    (distinct : tree.leaves.Nodup) (inRange : ∀ symbol ∈ tree.leaves, symbol < codes.length)
    (short : ∀ entry ∈ tree.codewords, path.length + entry.2.length ≤ 64) :
    ∃ filled, dfs tree (toNat path) path.length codes = some filled ∧
      filled.length = codes.length ∧
      (∀ entry ∈ tree.codewords, filled[entry.1]? =
        some (toNat (path ++ entry.2), path.length + entry.2.length)) ∧
      ∀ symbol, symbol ∉ tree.leaves → filled[symbol]? = codes[symbol]? := by
  induction tree generalizing path codes with
  | leaf symbol =>
      have bound : path.length ≤ 64 := short (symbol, []) (by simp)
      have inside : symbol < codes.length := inRange symbol (by simp [CodeTree.leaves])
      refine ⟨codes.set symbol (toNat path, path.length), ?_, by simp, ?_, ?_⟩
      · simp [dfs, check, bound, inside]
      · intro entry member
        obtain rfl := mem_codewords_leaf.mp member
        simp [inside]
      · intro other absent
        have different : symbol ≠ other := by
          intro same
          simp [CodeTree.leaves, same] at absent
        exact List.getElem?_set_ne different
  | fork left right ihLeft ihRight =>
      rw [CodeTree.leaves, List.nodup_append] at distinct
      obtain ⟨distinctLeft, distinctRight, apart⟩ := distinct
      have shortLeft : ∀ entry ∈ left.codewords, (path ++ [false]).length + entry.2.length ≤ 64 := by
        intro entry member
        rw [length_snoc_add]
        exact short (entry.1, false :: entry.2) (mem_codewords_fork.mpr ⟨false, _, rfl, member⟩)
      have shortRight : ∀ entry ∈ right.codewords, (path ++ [true]).length + entry.2.length ≤ 64 := by
        intro entry member
        rw [length_snoc_add]
        exact short (entry.1, true :: entry.2) (mem_codewords_fork.mpr ⟨true, _, rfl, member⟩)
      obtain ⟨first, firstMember⟩ := List.exists_mem_of_ne_nil _ (leaves_ne_nil left)
      obtain ⟨word, wordMember⟩ := mem_leaves_iff.mp firstMember
      have room : path.length + 1 ≤ 64 := by
        have bound := shortLeft _ wordMember
        simp at bound
        omega
      have codeLeft : toNat path * 2 % 2 ^ 64 = toNat (path ++ [false]) :=
        toNat_snoc_mod path false room
      have codeRight : (toNat path * 2 + 1) % 2 ^ 64 = toNat (path ++ [true]) :=
        toNat_snoc_mod path true room
      have lengthBit (bit : Bool) : (path.length + 1) % 2 ^ 8 = (path ++ [bit]).length := by
        rw [Nat.mod_eq_of_lt (by omega), List.length_append]
        rfl
      obtain ⟨half, ranLeft, lengthLeft, storedLeft, keptLeft⟩ := ihLeft (path ++ [false]) codes
        distinctLeft (fun symbol member => inRange symbol (List.mem_append_left _ member)) shortLeft
      obtain ⟨filled, ranRight, lengthRight, storedRight, keptRight⟩ := ihRight (path ++ [true]) half
        distinctRight (fun symbol member => by
          rw [lengthLeft]; exact inRange symbol (List.mem_append_right _ member)) shortRight
      refine ⟨filled, ?_, lengthRight.trans lengthLeft, ?_, ?_⟩
      · rw [dfs, codeLeft, codeRight]
        conv_lhs => rw [lengthBit false, ranLeft]
        simp only [Option.bind_eq_bind, Option.bind_some]
        rw [show (path ++ [false]).length = (path ++ [true]).length by simp]
        exact ranRight
      · rintro ⟨symbol, word⟩ member
        obtain ⟨bit, rest, rfl, below⟩ := mem_codewords_fork.mp member
        cases bit with
        | false =>
            have leafLeft : symbol ∈ left.leaves := mem_leaves_iff.mpr ⟨rest, below⟩
            have absent : symbol ∉ right.leaves := fun inside => apart symbol leafLeft symbol inside rfl
            rw [keptRight symbol absent, storedLeft (symbol, rest) below, length_snoc_add,
              List.append_assoc]
            rfl
        | true =>
            rw [storedRight (symbol, rest) below, length_snoc_add, List.append_assoc]
            rfl
      · intro symbol absent
        rw [CodeTree.leaves, List.mem_append, not_or] at absent
        rw [keptRight symbol absent.2, keptLeft symbol absent.1]

/-- What the constructor builds: a tree over all symbols and the table of its codewords. -/
structure Codec (coder : HuffmanEncoderDecoder) (size : Nat) : Prop where
  leaves : coder.root.leaves.Perm (List.range size)
  isFork : coder.root.IsFork
  codes : ∀ entry ∈ coder.root.codewords,
    coder.codes[entry.1]? = some (toNat entry.2, entry.2.length)
  codes_length : coder.codes.length = size

theorem fib_48 : Nat.fib 48 = 4807526976 := by norm_num

/-- The weights of the symbols sum up to `sum_freq`. -/
theorem sum_symbolWeight (freq : List Nat) :
    ((List.range freq.length).map (symbolWeight freq)).sum = sumFreq freq := by
  have same : (List.range freq.length).map (symbolWeight freq) = freq.map (max 1) := by
    apply List.ext_getElem (by simp)
    intro index inRange _
    have inside : index < freq.length := by simpa using inRange
    simp [symbolWeight, List.getD_eq_getElem?_getD, List.getElem?_eq_getElem inside]
  rw [same, sumFreq]

/-- A leaf at depth `d` forces a sum of at least `fib (d + 2)`, so no leaf is deeper than 45. -/
theorem depth_le {freq : List Nat} {root : CodeTree Nat} (balanced : Balanced (symbolWeight freq) root)
    (leaves : root.leaves.Perm (List.range freq.length)) (fits : sumFreq freq < 2 ^ 32)
    {entry : Nat × List Bool} (member : entry ∈ root.codewords) :
    Nat.fib (entry.2.length + 2) ≤ sumFreq freq ∧ entry.2.length ≤ 45 := by
  have depth := balanced.fib_depth 1 (fun symbol _ => Nat.le_max_left 1 _) member
  have total : totalWeight (symbolWeight freq) root = sumFreq freq := by
    rw [totalWeight, (leaves.map _).sum_eq, sum_symbolWeight]
  rw [total, Nat.one_mul] at depth
  refine ⟨depth, ?_⟩
  by_contra long
  have grows : Nat.fib 48 ≤ Nat.fib (entry.2.length + 2) := Nat.fib_mono (by omega)
  rw [fib_48] at grows
  omega

/-- What the constructor builds from any vector whose sum fits. -/
structure Built (freq : List Nat) (coder : HuffmanEncoderDecoder) : Prop where
  leaves : coder.root.leaves.Perm (List.range freq.length)
  balanced : Balanced (symbolWeight freq) coder.root
  codes : ∀ entry ∈ coder.root.codewords,
    coder.codes[entry.1]? = some (toNat entry.2, entry.2.length)
  codes_length : coder.codes.length = freq.length
  isFork : 2 ≤ freq.length → coder.root.IsFork
  beats : Kraft.Beats (symbolWeight freq) coder.root ((List.range freq.length).map .leaf)

/-- The constructor builds the coder of its vector. -/
theorem ofFreq_built (freq : List Nat) (nonempty : freq ≠ []) (fits : sumFreq freq < 2 ^ 32) :
    ∃ coder, ofFreq freq = some coder ∧ Built freq coder := by
  obtain ⟨nodes, inserted, forest, length, ordered, single⟩ := leafNodes_spec freq
  have nonemptyNodes : nodes ≠ [] := by
    intro empty
    exact nonempty (List.length_eq_zero_iff.mp (by simpa [empty] using length.symm))
  have atLeast : freq.length ≤ sumFreq freq := by
    have ones : (freq.map fun _ => 1).sum ≤ (freq.map (max 1)).sum :=
      List.sum_le_sum fun entry _ => Nat.le_max_left 1 entry
    simpa [sumFreq] using ones
  have fitsWeight : ((List.range freq.length).map (symbolWeight freq)).sum < 2 ^ 32 := by
    rwa [sum_symbolWeight]
  have small : ∀ symbol ∈ List.range freq.length, symbol < 2 ^ 32 := by
    intro symbol member
    have inRange := List.mem_range.mp member
    omega
  obtain ⟨root, merged, rootForest, isFork, beats⟩ := mergeNodes_spec List.nodup_range small fitsWeight
    nodes.length nodes (by omega) nonemptyNodes forest ordered
  have leaves : root.tree.leaves.Perm (List.range freq.length) := by simpa using rootForest.leaves
  have balanced := rootForest.settled.balanced root.tree (by simp)
  obtain ⟨codes, filled, codesLength, stored, _⟩ := dfs_spec root.tree []
    (List.replicate freq.length (0, 0)) (leaves.nodup_iff.mpr List.nodup_range)
    (fun symbol member => by simpa using List.mem_range.mp (leaves.mem_iff.mp member))
    (fun entry member => by simpa using (depth_le balanced leaves fits member).2.trans (by decide))
  refine ⟨⟨codes, root.tree⟩, ?_, leaves, balanced, ?_, by simpa using codesLength,
    fun two => isFork (Or.inl (by omega)), beats.perm single⟩
  · simp only [toNat_nil, List.length_nil] at filled
    simp [ofFreq, inserted, check, nonemptyNodes, merged, filled]
  · intro entry member
    simpa using stored entry member

/-- The constructor succeeds on every vector of two or more frequencies whose sum fits. -/
theorem ofFreq_spec (freq : List Nat) (two : 2 ≤ freq.length) (fits : sumFreq freq < 2 ^ 32) :
    ∃ coder, ofFreq freq = some coder ∧ Codec coder freq.length ∧
      Balanced (symbolWeight freq) coder.root := by
  have nonempty : freq ≠ [] := List.ne_nil_of_length_pos (by omega)
  obtain ⟨coder, made, built⟩ := ofFreq_built freq nonempty fits
  exact ⟨coder, made, ⟨built.leaves, built.isFork two, built.codes, built.codes_length⟩, built.balanced⟩

end HuffmanEncoderDecoder

end CellBag.Huffman
