import Mathlib.Tactic

/-!
Loops whose body may fail, end the loop or go on: what such a loop returns, and a bound for its turns.
-/

namespace WhileLoop

variable {β : Type}

/-- The loop goes on for a number of turns, and then its body ends it with a result or fails. -/
inductive Ends (body : β → Option (ForInStep β)) : Nat → β → Option β → Prop
  | failed {state : β} (fails : body state = none) : Ends body 0 state none
  | done {state result : β} (stops : body state = some (.done result)) : Ends body 0 state (some result)
  | turn {turns : Nat} {state next : β} {answer : Option β} (goes : body state = some (.yield next))
      (rest : Ends body turns next answer) : Ends body (turns + 1) state answer

/-- The loop with a number of turns at hand. -/
def run (body : β → Option (ForInStep β)) : Nat → β → Option β
  | 0, _ => none
  | fuel + 1, state => (body state).bind fun step =>
      match step with
      | .done result => some result
      | .yield next => run body fuel next

section Body
variable {body : β → Option (ForInStep β)} {fuel : Nat} {state next result : β}

/-- A body that fails ends the run without a result. -/
theorem run_failed (fails : body state = none) : run body (fuel + 1) state = none := by
  rw [run, fails]
  rfl

/-- A body that stops ends the run with its result. -/
theorem run_done (stops : body state = some (.done result)) : run body (fuel + 1) state = some result := by
  rw [run, stops]
  rfl

/-- Any other turn of the body takes one of the run. -/
theorem run_turn (goes : body state = some (.yield next)) :
    run body (fuel + 1) state = run body fuel next := by
  rw [run, goes]
  rfl

/-- A rank that each turn lowers bounds the turns, and as many turns at hand are enough. -/
theorem ends_run (rank : Nat → β → Prop)
    (lowers : ∀ n state next, rank n state → body state = some (.yield next) → ∃ m < n, rank m next)
    {n : Nat} (ranked : rank n state) (enough : n < fuel) :
    ∃ turns ≤ n, Ends body turns state (run body fuel state) := by
  induction fuel generalizing n state with
  | zero => omega
  | succ fuel ih =>
      cases step : body state with
      | none =>
          rw [run_failed step]
          exact ⟨0, Nat.zero_le n, .failed step⟩
      | some answer =>
          cases answer with
          | done result =>
              rw [run_done step]
              exact ⟨0, Nat.zero_le n, .done step⟩
          | yield next =>
              obtain ⟨m, lower, rankedNext⟩ := lowers n state next ranked step
              obtain ⟨turns, few, rest⟩ := ih rankedNext (by omega)
              rw [run_turn step]
              exact ⟨turns + 1, by omega, .turn step rest⟩

end Body

end WhileLoop
