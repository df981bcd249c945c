import CellBag.Proof.SuffAut

/-!
The automaton of a text has few transitions.
-/

namespace CellBag.SuffixAutomaton
open CellBag.Factors

section Count
variable {C : Nat} {t : List Nat} {view : View} {word : Nat → List Nat} {automaton : SuffAutBase}

end Count

end CellBag.SuffixAutomaton
