import CellBag.Proof.HuffmanCodec

/-!
The code lengths of the tables in the source. A copy of the constructor compares with the Boolean functions that
the kernel evaluates, and stops at the tree.
-/

namespace CellBag.Huffman
open CodeTree HuffmanEncoderDecoder

/-- The comparator of the set. -/
def before (a b : Node) : Bool :=
  Nat.blt a.freq b.freq || (Nat.beq a.freq b.freq && (Nat.blt a.minDepth b.minDepth ||
    (Nat.beq a.minDepth b.minDepth && Nat.blt a.minSymbol b.minSymbol)))

/-- The comparison is that of the set. -/
theorem before_eq (a b : Node) : before a b = cmp a b := by
  rw [Bool.eq_iff_iff, cmp_iff]
  simp [before]

/-- `insertNode` with the Boolean comparator. -/
def insertBefore (node : Node) : List Node → Option (List Node)
  | [] => some [node]
  | other :: rest =>
      match before node other with
      | true => some (node :: other :: rest)
      | false =>
          match before other node with
          | true => (insertBefore node rest).map (other :: ·)
          | false => none

/-- So is the insertion. -/
theorem insertBefore_eq (node : Node) (nodes : List Node) :
    insertBefore node nodes = insertNode node nodes := by
  induction nodes with
  | nil => rfl
  | cons other rest ih =>
      rw [insertBefore, insertNode, before_eq, before_eq, ih]
      cases cmp node other <;> cases cmp other node <;> rfl

/-- `mergeNodes` with the Boolean comparator. -/
def mergeBefore : Nat → List Node → Option Node
  | _, [] => none
  | _, [root] => some root
  | 0, _ :: _ :: _ => none
  | fuel + 1, a :: b :: rest => (insertBefore (Node.ofPair a b) rest).bind (mergeBefore fuel)

/-- So is the merging. -/
theorem mergeBefore_eq (fuel : Nat) (nodes : List Node) :
    mergeBefore fuel nodes = mergeNodes fuel nodes := by
  induction fuel generalizing nodes with
  | zero => rcases nodes with _ | ⟨a, _ | ⟨b, rest⟩⟩ <;> rfl
  | succ fuel ih =>
      rcases nodes with _ | ⟨a, _ | ⟨b, rest⟩⟩
      · rfl
      · rfl
      · rw [mergeBefore, mergeNodes, insertBefore_eq, funext ih]
        rfl

/-- `leafNodes` with the Boolean comparator. -/
def leavesBefore (freq : List Nat) : Option (List Node) :=
  freq.zipIdx.foldlM (fun nodes entry => insertBefore (Node.ofSymbol entry.2 (max 1 entry.1)) nodes) []

/-- So are the leaves. -/
theorem leavesBefore_eq (freq : List Nat) : leavesBefore freq = leafNodes freq := by
  simp only [leavesBefore, leafNodes, insertBefore_eq]

/-- Each leaf has a symbol and a depth that pass the test. -/
def leavesPass (test : Nat → Nat → Bool) : CodeTree Nat → Nat → Bool
  | .leaf symbol, depth => test symbol depth
  | .fork left right, depth => leavesPass test left (depth + 1) && leavesPass test right (depth + 1)

/-- A test of all leaves is one of all codewords. -/
theorem leavesPass_codewords {test : Nat → Nat → Bool} {tree : CodeTree Nat} {depth : Nat}
    (passed : leavesPass test tree depth = true) :
    ∀ entry ∈ tree.codewords, test entry.1 (depth + entry.2.length) = true := by
  induction tree generalizing depth with
  | leaf symbol =>
      intro entry member
      obtain rfl := mem_codewords_leaf.mp member
      exact passed
  | fork left right ihLeft ihRight =>
      rw [leavesPass, Bool.and_eq_true] at passed
      rintro ⟨symbol, word⟩ member
      obtain ⟨bit, rest, rfl, inside⟩ := mem_codewords_fork.mp member
      rw [List.length_cons, Nat.add_comm rest.length, ← Nat.add_assoc]
      cases bit with
      | false => exact ihLeft passed.1 _ inside
      | true => exact ihRight passed.2 _ inside

/-- The tree of the constructor passes the test at each leaf. -/
def tablePasses (test : Nat → Nat → Bool) (freq : List Nat) : Bool :=
  match (leavesBefore freq).bind fun nodes => mergeBefore nodes.length nodes with
  | some node => leavesPass test node.tree 0
  | none => false

/-- A test that the table passes holds of each symbol with its code length. -/
theorem HuffmanEncoderDecoder.Codec.length_word_passes {test : Nat → Nat → Bool} {freq : List Nat} {coder : HuffmanEncoderDecoder}
    (passes : tablePasses test freq = true) (built : ofFreq freq = some coder) {size : Nat}
    (codec : Codec coder size) : ∀ s < size, test s (coder.word s).length = true := by
  obtain ⟨nodes, leaves, built⟩ := Option.bind_eq_some_iff.mp built
  obtain ⟨_, _, built⟩ := Option.bind_eq_some_iff.mp built
  obtain ⟨root, merged, built⟩ := Option.bind_eq_some_iff.mp built
  obtain ⟨codes, _, built⟩ := Option.bind_eq_some_iff.mp built
  obtain rfl := Option.some.inj built
  rw [tablePasses, leavesBefore_eq, leaves, Option.bind_some, mergeBefore_eq, merged] at passes
  intro s inRange
  have length := leavesPass_codewords passes _ (codec.word_mem inRange)
  rwa [Nat.zero_add] at length

end CellBag.Huffman
