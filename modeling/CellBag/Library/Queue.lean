import Mathlib.Tactic

/-!
Loops over a queue that grows while it is read: the read elements stay in front of the others.
-/

namespace CellBag.Queue

variable {σ α : Type}

/-- `while (ql < qr) { v = q[ql++]; ... }`. -/
def loop (turn : α → σ × List α → Option (σ × List α)) : Nat → Nat → σ × List α → Option (σ × List α)
  | 0, _, _ => none
  | fuel + 1, ql, state =>
      match state.2[ql]? with
      | none => some state
      | some v => do
          let state ← turn v state
          loop turn fuel (ql + 1) state

/-- The invariant of a loop whose queue stays short. -/
theorem loop_invariant (turn : α → σ × List α → Option (σ × List α)) (room : Nat)
    (good : Nat → σ → List α → Prop)
    (short : ∀ ql state q, good ql state q → ql ≤ q.length ∧ q.length ≤ room)
    (step : ∀ ql state q v, good ql state q → q[ql]? = some v →
      ∃ state' q', turn v (state, q) = some (state', q') ∧ good (ql + 1) state' q')
    (fuel ql : Nat) (state : σ) (q : List α) (start : good ql state q) (enough : room < ql + fuel) :
    ∃ state' q', loop turn fuel ql (state, q) = some (state', q') ∧ good q'.length state' q' := by
  induction fuel generalizing ql state q with
  | zero =>
      have := short ql state q start
      omega
  | succ fuel ih =>
      rw [loop]
      cases look : q[ql]? with
      | none =>
          have passed := List.getElem?_eq_none_iff.mp look
          obtain rfl : ql = q.length := Nat.le_antisymm (short ql state q start).1 passed
          exact ⟨state, q, by simp, start⟩
      | some v =>
          obtain ⟨state', q', ran, next⟩ := step ql state q v start look
          obtain ⟨final, q'', rest, done⟩ := ih (ql + 1) state' q' next (by omega)
          exact ⟨final, q'', by simp [ran, rest], done⟩

/-- A search from the elements of `first` with `ql` elements of its queue read: what they lead to is
queued or was known before. -/
structure Explored (member : α → Prop) (next : α → α → Prop) (old : α → Prop) (first : List α)
    (ql : Nat) (q : List α) : Prop where
  distinct : q.Nodup
  kept : first <+: q
  sound : ∀ v ∈ q, member v
  read : ∀ v ∈ q.take ql, ∀ u, next v u → u ∈ q ∨ old u
  bound : ql ≤ q.length

section Search
variable {member : α → Prop} {next : α → α → Prop} {old : α → Prop} {first q : List α}
  {ql : Nat}

/-- The queue is read past an element whose successors are queued. -/
theorem Explored.pass (explored : Explored member next old first ql q) {v : α} (look : q[ql]? = some v)
    (settled : ∀ u, next v u → u ∈ q ∨ old u) : Explored member next old first (ql + 1) q := by
  have inside : ql < q.length := (List.getElem?_eq_some_iff.mp look).1
  refine ⟨explored.distinct, explored.kept, explored.sound, ?_, inside⟩
  intro u passed
  rw [List.take_add_one, look, Option.toList_some, List.mem_append, List.mem_singleton] at passed
  rcases passed with earlier | rfl
  · exact explored.read u earlier
  · exact settled

/-- A new element is added to the end of the queue. -/
theorem Explored.push (explored : Explored member next old first ql q) {u : α} (fresh : u ∉ q)
    (valid : member u) : Explored member next old first ql (q ++ [u]) := by
  constructor
  case distinct =>
    rw [List.nodup_append_comm]
    exact List.nodup_cons.mpr ⟨fresh, explored.distinct⟩
  case kept => exact explored.kept.trans (List.prefix_append q [u])
  case sound =>
    intro v found
    rcases List.mem_append.mp found with before | new
    · exact explored.sound v before
    · rwa [List.mem_singleton.mp new]
  case read =>
    intro v passed u leads
    rw [List.take_append_of_le_length explored.bound] at passed
    exact (explored.read v passed u leads).imp_left (List.mem_append_left _)
  case bound =>
    rw [List.length_append]
    exact Nat.le_add_right_of_le explored.bound

end Search

end CellBag.Queue
