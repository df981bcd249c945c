import CellBag.Library.OrderedSet
import CellBag.Library.Queue
import CellBag.Model.Cells
import CellBag.Model.SuffAut

/-!
The dictionary of `dictionary.hpp`, built from the automaton of its training strings. Output to
`std::cout` is left out.
-/

namespace CellBag.SuffixAutomaton
open Serializator (setAt)

structure Dictionary where
  base : SuffAutBase
  trainingStrings : List (List Nat)

/-- `Dictionary()`. -/
def Dictionary.empty (C : Nat) : Dictionary := ⟨SuffAutBase.empty C, []⟩

/-- `add_training_data`. -/
def Dictionary.addTrainingData (C : Nat) (dictionary : Dictionary) (data : List Nat) :
    Option Dictionary := do
  let base ← data.foldlM (addC C) dictionary.base
  some ⟨base, dictionary.trainingStrings ++ [data]⟩

/-- The calls of `add_training_data` in `main` of `build_dict.cpp`. -/
def Dictionary.train (C : Nat) (strings : List (List Nat)) : Option Dictionary :=
  strings.foldlM (Dictionary.addTrainingData C) (Dictionary.empty C)

/-- What `std::sort` asks of its comparator. -/
structure StrictWeakOrder (less : Nat → Nat → Bool) : Prop where
  irrefl : ∀ a, less a a = false
  trans : ∀ a b c, less a b = true → less b c = true → less a c = true
  equivalent : ∀ a b c, less a c = true → less a b = true ∨ less b c = true

/-- `std::sort`, which may leave equivalent elements in any order. -/
structure StdSort where
  run : (Nat → Nat → Bool) → List Nat → List Nat
  perm : ∀ less items, StrictWeakOrder less → (run less items).Perm items
  sorted : ∀ less items, StrictWeakOrder less →
    (run less items).Pairwise fun a b => less b a = false

/-- A sort that keeps equivalent elements in their order. -/
def StdSort.insertion : StdSort where
  run less items := items.insertionSort fun a b => less b a = false
  perm _ items _ := List.perm_insertionSort _ items
  sorted less items order := by
    have total : Std.Total fun a b => less b a = false := by
      refine ⟨fun a b => ?_⟩
      rw [or_iff_not_imp_left, Bool.not_eq_false]
      intro after
      by_contra before
      rw [Bool.not_eq_false] at before
      have loop := order.trans a b a before after
      rw [order.irrefl] at loop
      cases loop
    have trans : IsTrans Nat fun a b => less b a = false := by
      refine ⟨fun a b c first second => ?_⟩
      by_contra after
      rw [Bool.not_eq_false] at after
      rcases order.equivalent c b a after with before | before
      · rw [before] at second
        cases second
      · rw [before] at first
        cases first
    exact List.pairwise_insertionSort _ items

/-- `nodes[v].len` where `v` is the index of a node. -/
def lenOf (nodes : List Node) (v : Nat) : Nat := (nodes[v]?.map Node.len).getD 0

/-- The `top_sort` of `build_dict` with its checks. -/
def topSort (sort : StdSort) (automaton : SuffAutBase) : Option (List Nat) := do
  let order := sort.run (fun a b => lenOf automaton.nodes a > lenOf automaton.nodes b)
    (List.range' 1 (automaton.nodes.length - 1))
  let front ← order.head?
  check (front = automaton.last)
  let back ← order.getLast?
  check (back = automaton.root)
  some order

/-- `while (v != root)`: all suffix states. The links lead to shorter nodes. -/
def markSuffixes (nodes : List Node) (root : Nat) : Nat → Nat → List Nat → Option (List Nat)
  | 0, _, _ => none
  | fuel + 1, v, cntOccured =>
      if v = root then some cntOccured
      else do
        let cntOccured ← setAt cntOccured v 1
        let node ← nodes[v]?
        markSuffixes nodes root fuel node.link cntOccured

/-- The turn of the loop over `top_sort` for node `v`. -/
def countNode (nodes : List Node) (cntOccured : List Nat) (v : Nat) : Option (List Nat) := do
  let node ← nodes[v]?
  let cntOccured ← node.targets.foldlM (fun cntOccured target =>
    if target ≠ 0 then do
      let targetNode ← nodes[target]?
      check (targetNode.len > node.len)
      let here ← cntOccured[v]?
      let more ← cntOccured[target]?
      setAt cntOccured v (here + more)
    else some cntOccured) cntOccured
  let count ← cntOccured[v]?
  check (count ≤ nodes.length)
  check (count > 0)
  some cntOccured

/-- The `cnt_occured` of `build_dict` with its checks. -/
def countOccured (automaton : SuffAutBase) (topSort : List Nat) : Option (List Nat) := do
  let nodes := automaton.nodes
  let lastNode ← nodes[automaton.last]?
  let cntOccured ← markSuffixes nodes automaton.root (lastNode.len + 1) automaton.last
    (List.replicate nodes.length 0)
  topSort.foldlM (countNode nodes) cntOccured

/-- The loop that fills `rev_to`. -/
def revTo (nodes : List Node) : Option (List (List Nat)) :=
  (List.range' 1 (nodes.length - 1)).foldlM (fun revTo v => do
      let node ← nodes[v]?
      node.targets.foldlM (fun revTo target =>
        if target ≠ 0 then do
          let froms ← revTo[target]?
          setAt revTo target (froms ++ [v])
        else some revTo) revTo)
    (List.replicate nodes.length [])

/-- `while (v != root)` of `restore_longest_str_for_v`. -/
def restoreLoop (nodes : List Node) (root : Nat) (revTo : List (List Nat)) :
    Nat → Nat → List Nat → Option (List Nat)
  | 0, _, _ => none
  | fuel + 1, v, s =>
      if v = root then some s
      else do
        let node ← nodes[v]?
        let froms ← revTo[v]?
        let from_ ← froms.foldlM (fun from_ other => do
          let otherNode ← nodes[other]?
          some (if node.len = otherNode.len + 1 then other else from_)) 0
        check (from_ ≠ 0)
        let fromNode ← nodes[from_]?
        let ch ← fromNode.targets.findIdx? fun target => target = v
        restoreLoop nodes root revTo fuel from_ (s ++ [ch])

/-- `restore_longest_str_for_v`; a letter that is not found fails `CHECK(found_ch)`. -/
def restoreLongestStr (nodes : List Node) (root : Nat) (revTo : List (List Nat)) (v : Nat) :
    Option (List Nat) := do
  let node ← nodes[v]?
  let s ← restoreLoop nodes root revTo (node.len + 1) v []
  check (s.length = node.len)
  some s.reverse

/-- The vectors of the marking loop: `none` in `lastMarked` is `-1u`. -/
structure Marking where
  cntDiffStrings : List Nat
  lastMarked : List (Option Nat)

/-- `q[qr++] = v`, `++cnt_diff_strings[v]` and `last_marked[v] = it`; `q` has `n` slots. -/
def pushMarked (n it v : Nat) (state : Marking × List Nat) : Option (Marking × List Nat) := do
  check (state.2.length < n)
  let count ← state.1.cntDiffStrings[v]?
  let cntDiffStrings ← setAt state.1.cntDiffStrings v (count + 1)
  let lastMarked ← setAt state.1.lastMarked v (some it)
  some (⟨cntDiffStrings, lastMarked⟩, state.2 ++ [v])

/-- `for (const auto ch: data)`. -/
def markWalk (nodes : List Node) (it : Nat) :
    Nat → List Nat → Marking × List Nat → Option (Marking × List Nat)
  | _, [], state => some state
  | v, ch :: data, state => do
      let node ← nodes[v]?
      let v ← node.targets[ch]?
      check (v ≠ 0)
      let seen ← state.1.lastMarked[v]?
      check (seen ≠ some it)
      let state ← pushMarked nodes.length it v state
      markWalk nodes it v data state

/-- The turn of `while (ql < qr)` for node `v`. -/
def markLink (nodes : List Node) (it v : Nat) (state : Marking × List Nat) :
    Option (Marking × List Nat) := do
  let node ← nodes[v]?
  if node.link ≠ 0 then do
    let seen ← state.1.lastMarked[node.link]?
    if seen ≠ some it then pushMarked nodes.length it node.link state
    else some state
  else some state

/-- The turn of the marking loop for the training string with index `it`. -/
def markString (automaton : SuffAutBase) (marking : Marking) (data : List Nat) (it : Nat) :
    Option Marking := do
  let nodes := automaton.nodes
  let state ← markWalk nodes it automaton.root data (marking, [])
  let (marking, _) ← Queue.loop (markLink nodes it) (nodes.length + 1) 0 state
  some marking

/-- The `cnt_diff_strings` of `build_dict`. -/
def countDiffStrings (dictionary : Dictionary) : Option (List Nat) := do
  let n := dictionary.base.nodes.length
  let marking ← dictionary.trainingStrings.zipIdx.foldlM
    (fun marking entry => markString dictionary.base marking entry.1 entry.2)
    ⟨List.replicate n 0, List.replicate n none⟩
  some marking.cntDiffStrings

/-- `cnt * 1ull * (nodes[v].len - 2)`. -/
def score (nodes : List Node) (cnt : List Nat) (v : Nat) : Nat :=
  cnt.getD v 0 * ((lenOf nodes v + 2 ^ 32 - 2) % 2 ^ 32) % 2 ^ 64

/-- The comparator of the candidates. -/
def candidateCmp (nodes : List Node) (cntOccured cntDiffStrings : List Nat) (a b : Nat) : Bool :=
  if score nodes cntDiffStrings a ≠ score nodes cntDiffStrings b then
    score nodes cntDiffStrings a > score nodes cntDiffStrings b
  else if score nodes cntOccured a ≠ score nodes cntOccured b then
    score nodes cntOccured a > score nodes cntOccured b
  else if cntDiffStrings.getD a 0 ≠ cntDiffStrings.getD b 0 then
    cntDiffStrings.getD a 0 > cntDiffStrings.getD b 0
  else cntOccured.getD a 0 > cntOccured.getD b 0

/-- The sorted `candidates`. -/
def candidates (sort : StdSort) (dictionary : Dictionary) (cntOccured cntDiffStrings : List Nat)
    (maxDictSize minMatchLength : Nat) : List Nat :=
  let nodes := dictionary.base.nodes
  sort.run (candidateCmp nodes cntOccured cntDiffStrings)
    ((List.range' 1 (nodes.length - 1)).filter fun v =>
      lenOf nodes v ≥ minMatchLength ∧ lenOf nodes v ≤ maxDictSize ∧
        cntDiffStrings.getD v 0 > dictionary.trainingStrings.length / 2)

/-- The variables of the candidate loop; `dict_v` is a set in ascending order. -/
structure Selection where
  dictV : List Nat
  killed : List Bool
  inDict : List Bool
  sumLen : Nat

/-- A killed node leaves the dictionary. -/
def evict (nodes : List Node) (u : Nat) (selection : Selection) : Option Selection := do
  let node ← nodes[u]?
  let inDict ← setAt selection.inDict u false
  some { selection with
    dictV := OrderedSet.erase (fun a b => a < b) u selection.dictV
    sumLen := (selection.sumLen + 2 ^ 32 - node.len) % 2 ^ 32
    inDict }

/-- `try_kill`; a push behind the `n` slots of `q` fails. -/
def tryKill (nodes : List Node) (u : Nat) (state : Selection × List Nat) :
    Option (Selection × List Nat) :=
  if u = 0 then some state
  else do
    let dead ← state.1.killed[u]?
    if dead then some state
    else do
      let member ← state.1.inDict[u]?
      let selection ← (if member then evict nodes u state.1 else some state.1)
      let killed ← setAt selection.killed u true
      check (state.2.length < nodes.length)
      some ({ selection with killed }, state.2 ++ [u])

/-- The turn of `while (ql < qr)` for node `v`. -/
def killTurn (nodes : List Node) (revTo : List (List Nat)) (v : Nat) (state : Selection × List Nat) :
    Option (Selection × List Nat) := do
  let node ← nodes[v]?
  let state ← tryKill nodes node.link state
  let froms ← revTo[v]?
  froms.foldlM (fun state from_ => tryKill nodes from_ state) state

/-- The turn of the candidate loop. -/
def selectCandidate (nodes : List Node) (revTo : List (List Nat)) (maxDictSize : Nat)
    (selection : Selection) (candidate : Nat) : Option Selection := do
  let dead ← selection.killed[candidate]?
  let node ← nodes[candidate]?
  if dead ∨ (node.len + selection.sumLen) % 2 ^ 32 > maxDictSize then some selection
  else do
    let started := { selection with sumLen := (selection.sumLen + node.len) % 2 ^ 32 }
    check (0 < nodes.length)
    let (selection, _) ←
      Queue.loop (killTurn nodes revTo) (nodes.length + 1) 0 (started, [candidate])
    let inDict ← setAt selection.inDict candidate true
    some { selection with
      inDict
      dictV := OrderedSet.insert (fun a b => a < b) candidate selection.dictV }

/-- The selection before the candidate loop. -/
def Selection.start (n : Nat) : Selection := ⟨[], List.replicate n false, List.replicate n false, 0⟩

end CellBag.SuffixAutomaton
