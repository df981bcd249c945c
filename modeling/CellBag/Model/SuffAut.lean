import CellBag.Model.Utils

/-!
The suffix automaton of `suff_aut.hpp` and the matches it finds.
-/

namespace CellBag.SuffixAutomaton

/-- A `Node`; `targets` is `to`, with an entry for each of the `C` letters. -/
structure Node where
  targets : List Nat
  link : Nat
  len : Nat
deriving DecidableEq

/-- The automaton; node 0 stands for no node. -/
structure SuffAutBase where
  nodes : List Node
  root : Nat
  last : Nat
deriving DecidableEq

/-- `Node()`. -/
def Node.empty (C : Nat) : Node := ⟨List.replicate C 0, 0, 0⟩

/-- `SuffAutBase()`. -/
def SuffAutBase.empty (C : Nat) : SuffAutBase := ⟨[Node.empty C, Node.empty C], 1, 1⟩

/-- `nodes[p].to[c] = v`. -/
def setTarget (nodes : List Node) (p c v : Nat) : Option (List Node) := do
  let node ← nodes[p]?
  check (c < node.targets.length)
  some (nodes.set p { node with targets := node.targets.set c v })

/-- `nodes[p].link = v`. -/
def setLink (nodes : List Node) (p v : Nat) : Option (List Node) := do
  let node ← nodes[p]?
  some (nodes.set p { node with link := v })

/-- `for (; p && keeps(nodes[p].to[c]); p = nodes[p].link) nodes[p].to[c] = v`. The links lead to ever
shorter nodes, which bounds the turns. -/
def climbLoop (keeps : Nat → Bool) (c v : Nat) : Nat → Nat → List Node → Option (Nat × List Node)
  | 0, _, _ => none
  | fuel + 1, p, nodes =>
      if p = 0 then some (p, nodes)
      else do
        let node ← nodes[p]?
        let target ← node.targets[c]?
        if keeps target then do
          let nodes ← setTarget nodes p c v
          climbLoop keeps c v fuel node.link nodes
        else some (p, nodes)

/-- The first loop of `add_c`, from the last node up to a node with a transition. -/
def extendLoop (c cur : Nat) : Nat → Nat → List Node → Option (Nat × List Node) :=
  climbLoop (fun target => target = 0) c cur

/-- The second loop of `add_c`, from the node above the clone on. -/
def redirectLoop (c q clone : Nat) : Nat → Nat → List Node → Option (Nat × List Node) :=
  climbLoop (fun target => target = q) c clone

/-- `add_c`. -/
def addC (C : Nat) (automaton : SuffAutBase) (c : Nat) : Option SuffAutBase := do
  check (c < C)
  let cur := automaton.nodes.length
  let lastNode ← automaton.nodes[automaton.last]?
  let nodes := automaton.nodes ++ [{ Node.empty C with len := lastNode.len + 1 }]
  let (p, nodes) ← extendLoop c cur (lastNode.len + 2) automaton.last nodes
  if p = 0 then do
    let nodes ← setLink nodes cur automaton.root
    some ⟨nodes, automaton.root, cur⟩
  else do
    let pNode ← nodes[p]?
    let q ← pNode.targets[c]?
    let qNode ← nodes[q]?
    if qNode.len = pNode.len + 1 then do
      let nodes ← setLink nodes cur q
      some ⟨nodes, automaton.root, cur⟩
    else do
      let clone := nodes.length
      let nodes := nodes ++ [{ qNode with len := pNode.len + 1 }]
      let nodes ← setLink nodes q clone
      let nodes ← setLink nodes cur clone
      let (_, nodes) ← redirectLoop c q clone (pNode.len + 2) p nodes
      some ⟨nodes, automaton.root, cur⟩

/-- A `Match`. -/
structure Match where
  start : Nat
  len : Nat
deriving DecidableEq

/-- The automaton of a string with the state of its matches; `none` in `lastSuff` is `-1u`. -/
structure SuffAut where
  base : SuffAutBase
  s : List Nat
  lastSuff : List (Option Nat)
  vs : List Nat
  iPtr : Nat
  minMatchLen : Nat
deriving DecidableEq

/-- `SuffAut(s)` adds the letters from the last to the first. -/
def SuffAut.ofString (C : Nat) (s : List Nat) : Option SuffAut := do
  let base ← s.reverse.foldlM (addC C) (SuffAutBase.empty C)
  some ⟨base, s, [], [], 0, 0⟩

/-- The loop of `prepare_matches` that fills `vs`. -/
def walkBack (nodes : List Node) : Nat → List Nat → Option (List Nat)
  | _, [] => some []
  | v, c :: rest => do
      check (v ≠ 0)
      let node ← nodes[v]?
      let v ← node.targets[c]?
      let vs ← walkBack nodes v rest
      some (v :: vs)

/-- `prepare_matches`. -/
def SuffAut.prepareMatches (automaton : SuffAut) (minMatchLen : Nat) : Option SuffAut := do
  let vs ← walkBack automaton.base.nodes automaton.base.root automaton.s.reverse
  check (vs.length = automaton.s.length)
  some { automaton with
    minMatchLen
    lastSuff := List.replicate automaton.base.nodes.length none
    vs := vs.reverse
    iPtr := 0 }

/-- `while (u && nodes[u].len >= min_match_len)`; the links bound the turns as above. -/
def matchLoop (nodes : List Node) (minMatchLen i : Nat) :
    Nat → Nat → List (Option Nat) → Option (List Match × List (Option Nat))
  | 0, _, _ => none
  | fuel + 1, u, lastSuff =>
      if u = 0 then some ([], lastSuff)
      else do
        let node ← nodes[u]?
        if node.len ≥ minMatchLen then do
          let seen ← lastSuff[u]?
          let (res, lastSuff) ← matchLoop nodes minMatchLen i fuel node.link (lastSuff.set u (some i))
          match seen with
          | some start => some (⟨start, node.len⟩ :: res, lastSuff)
          | none => some (res, lastSuff)
        else some ([], lastSuff)

/-- One turn of `while (i_ptr <= need_i)`. -/
def SuffAut.matchTurn (automaton : SuffAut) : Option (List Match × SuffAut) := do
  let u ← automaton.vs[automaton.iPtr]?
  let (res, lastSuff) ← matchLoop automaton.base.nodes automaton.minMatchLen automaton.iPtr
    (automaton.s.length + 2) u automaton.lastSuff
  some (res, { automaton with lastSuff, iPtr := automaton.iPtr + 1 })

/-- The loop of `get_match` for the given number of turns; each turn clears `res`. -/
def SuffAut.matchTurns : Nat → List Match → SuffAut → Option (List Match × SuffAut)
  | 0, res, automaton => some (res, automaton)
  | turns + 1, _, automaton => do
      let (res, automaton) ← automaton.matchTurn
      matchTurns turns res automaton

/-- `get_match`. -/
def SuffAut.getMatch (automaton : SuffAut) (needI : Nat) : Option (List Match × SuffAut) := do
  check (automaton.iPtr ≤ needI)
  SuffAut.matchTurns (needI + 1 - automaton.iPtr) [] automaton

end CellBag.SuffixAutomaton
