import CellBag.Library.Tabulate
import CellBag.Model.Cells

/-!
Stores into vectors that are given as functions of their index.
-/

namespace CellBag.Serializator

theorem setAt_tabulate {α : Type} {n i : Nat} {f : Nat → α} {item : α} (inside : i < n) :
    setAt (tabulate n f) i item = some (tabulate n (Function.update f i item)) := by
  rw [setAt, if_pos (length_tabulate.symm ▸ inside), tabulate_set]

/-- A loop over indices pushes an item to the list at each of them. -/
theorem foldlM_push {n : Nat} (refs : List Nat) (i : Nat) (lists : Nat → List Nat)
    (inside : ∀ ref ∈ refs, ref < n) :
    refs.foldlM (fun whoRefers ref => do
        let referrers ← whoRefers[ref]?
        setAt whoRefers ref (referrers ++ [i])) (tabulate n lists) =
      some (tabulate n fun j => lists j ++ List.replicate (refs.count j) i) := by
  induction refs generalizing lists with
  | nil => simp
  | cons ref refs ih =>
      have within := inside ref List.mem_cons_self
      have step : (do
          let referrers ← (tabulate n lists)[ref]?
          setAt (tabulate n lists) ref (referrers ++ [i])) =
          some (tabulate n (Function.update lists ref (lists ref ++ [i]))) := by
        simp only [tabulate_at within, Option.bind_eq_bind, Option.bind_some, setAt_tabulate within]
      rw [List.foldlM_cons, step]
      apply (ih _ fun other member => inside other (List.mem_cons_of_mem _ member)).trans
      apply congrArg some
      apply List.map_congr_left
      intro j _
      by_cases same : j = ref
      · subst same
        simp [List.replicate_succ]
      · simp [Function.update_of_ne same, List.count_cons_of_ne (Ne.symm same)]

end CellBag.Serializator
