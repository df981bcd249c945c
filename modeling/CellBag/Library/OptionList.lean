import Mathlib.Tactic

/-!
Loops over lists in the option monad, and lists that are related entry by entry.
-/

namespace CellBag.OptionList

variable {α β γ σ : Type}

/-- A loop whose calls all succeed collects their results. -/
theorem mapM_eq_map {f : α → Option β} {g : α → β} {items : List α}
    (succeeds : ∀ item ∈ items, f item = some (g item)) : items.mapM f = some (items.map g) := by
  induction items with
  | nil => rfl
  | cons item items ih =>
      rw [List.mapM_cons, succeeds item (by simp), ih fun later member => succeeds later (by simp [member])]
      rfl

/-- A loop over the indices of a list reads the list back. -/
theorem mapM_range_getElem? (items : List α) {f : Nat → Option α}
    (reads : ∀ index < items.length, f index = items[index]?) :
    (List.range items.length).mapM f = some items := by
  cases items with
  | nil => rfl
  | cons first rest =>
      have succeeds : ∀ index ∈ List.range (first :: rest).length,
          f index = some ((first :: rest).getD index first) := by
        intro index member
        have inRange := List.mem_range.mp member
        rw [reads index inRange, List.getD_eq_getElem?_getD, List.getElem?_eq_getElem inRange]
        rfl
      rw [mapM_eq_map succeeds]
      congr 1
      apply List.ext_getElem (by simp)
      intro index _ inRange
      rw [List.getElem_map, List.getElem_range, List.getD_eq_getElem?_getD,
        List.getElem?_eq_getElem inRange]
      rfl

/-- A loop invariant: each step succeeds from a good state and keeps it good. -/
theorem foldlM_invariant (items : List α) (start : σ) (step : σ → α → Option σ)
    (good : List α → σ → Prop) (initial : good [] start)
    (progress : ∀ done item rest state, items = done ++ item :: rest → good done state →
      ∃ next, step state item = some next ∧ good (done ++ [item]) next) :
    ∃ final, items.foldlM step start = some final ∧ good items final := by
  suffices run : ∀ rest done state, items = done ++ rest → good done state →
      ∃ final, rest.foldlM step state = some final ∧ good items final from
    run items [] start rfl initial
  intro rest
  induction rest with
  | nil =>
      intro done state split holds
      rw [List.append_nil] at split
      exact ⟨state, rfl, split ▸ holds⟩
  | cons item rest ih =>
      intro done state split holds
      obtain ⟨next, stepped, nextHolds⟩ := progress done item rest state split holds
      obtain ⟨final, ran, finalHolds⟩ := ih (done ++ [item]) next (by simpa using split) nextHolds
      exact ⟨final, by simp [List.foldlM_cons, stepped, ran], finalHolds⟩

/-- Loops whose steps agree on the items of the list agree. -/
theorem foldlM_congr {items : List α} {first second : σ → α → Option σ}
    (same : ∀ item ∈ items, ∀ state, first state item = second state item) (start : σ) :
    items.foldlM first start = items.foldlM second start := by
  induction items generalizing start with
  | nil => rfl
  | cons item items ih =>
      rw [List.foldlM_cons, List.foldlM_cons, same item (by simp)]
      congr 1
      funext next
      exact ih (fun later member => same later (by simp [member])) next

/-- A loop over mapped items runs as the loop over the items, if each step does. -/
theorem foldlM_map_eq {τ : Type} {items : List α} {step : σ → α → Option σ} {stepMapped : τ → β → Option τ}
    {onItem : α → β} {onState : σ → τ} (commutes : ∀ item ∈ items, ∀ state,
      stepMapped (onState state) (onItem item) = (step state item).map onState) (start : σ) :
    (items.map onItem).foldlM stepMapped (onState start) =
      (items.foldlM step start).map onState := by
  induction items generalizing start with
  | nil => rfl
  | cons item items ih =>
      rw [List.map_cons, List.foldlM_cons, List.foldlM_cons, commutes item (by simp)]
      cases stepped : step start item with
      | none => rfl
      | some next => exact ih (fun later member => commutes later (by simp [member])) next

/-- A loop over mapped items collects the mapped results. -/
theorem mapM_map_eq {δ : Type} {items : List α} {f : α → Option γ} {fMapped : β → Option δ} {onItem : α → β}
    {onResult : γ → δ} (commutes : ∀ item ∈ items, fMapped (onItem item) = (f item).map onResult) :
    (items.map onItem).mapM fMapped = (items.mapM f).map (List.map onResult) := by
  induction items with
  | nil => rfl
  | cons item items ih =>
      rw [List.map_cons, List.mapM_cons, List.mapM_cons, commutes item (by simp),
        ih fun later member => commutes later (by simp [member])]
      cases f item with
      | none => rfl
      | some first => cases items.mapM f <;> rfl

/-- What each step keeps holds behind a loop that has succeeded. -/
theorem foldlM_preserves {items : List α} {start final : σ} {step : σ → α → Option σ}
    (good : σ → Prop)
    (keeps : ∀ item ∈ items, ∀ state next, good state → step state item = some next → good next)
    (initial : good start) (run : items.foldlM step start = some final) : good final := by
  induction items generalizing start with
  | nil => exact Option.some.inj run ▸ initial
  | cons item items ih =>
      rw [List.foldlM_cons] at run
      obtain ⟨next, stepped, run⟩ := Option.bind_eq_some_iff.mp run
      exact ih (fun later member => keeps later (by simp [member]))
        (keeps item (by simp) start next initial stepped) run

/-- The next item of a loop over different items is new. -/
theorem fresh_of_split {items done rest : List α} {item : α} (distinct : items.Nodup)
    (split : items = done ++ item :: rest) : item ∉ done := by
  rw [split] at distinct
  intro again
  exact (List.nodup_append.mp distinct).2.2 item again item List.mem_cons_self rfl

/-- An entry of an indexed list stands at its index. -/
theorem zipIdx_split {items : List α} {done rest : List (α × Nat)} {entry : α × Nat}
    (split : items.zipIdx = done ++ entry :: rest) :
    entry.2 = done.length ∧ items[done.length]? = some entry.1 := by
  have place : items.zipIdx[done.length]? = some entry := by simp [split]
  rw [List.getElem?_zipIdx, Option.map_eq_some_iff] at place
  obtain ⟨item, look, rfl⟩ := place
  exact ⟨Nat.zero_add _, look⟩

/-- Lists are related when their entries are. -/
theorem forall₂_of_getElem? {R : α → β → Prop} {first : List α} {second : List β}
    (sameLength : first.length = second.length)
    (related : ∀ (index : Nat) (a : α) (b : β), first[index]? = some a → second[index]? = some b → R a b) :
    List.Forall₂ R first second := by
  rw [List.forall₂_iff_get]
  refine ⟨sameLength, fun index inFirst inSecond => related index _ _ ?_ ?_⟩
  · simp [inFirst]
  · simp [inSecond]

/-- The entry of the second list at an index of the first. -/
theorem forall₂_getElem? {R : α → β → Prop} {first : List α} {second : List β}
    (related : List.Forall₂ R first second) {index : Nat} {a : α} (entry : first[index]? = some a) :
    ∃ b, second[index]? = some b ∧ R a b := by
  induction related generalizing index with
  | nil => simp at entry
  | cons headRelated _ ih =>
      cases index with
      | zero => exact ⟨_, rfl, by simpa [← Option.some.inj entry] using headRelated⟩
      | succ index => exact ih entry

theorem forall₂_single {R : α → β → Prop} {items : List α} {b : β}
    (related : List.Forall₂ R items [b]) : ∃ a, items = [a] ∧ R a b := by
  cases related with
  | cons head tail =>
      cases tail
      exact ⟨_, rfl, head⟩

/-- A loop over a list related to another collects a list related to it. -/
theorem mapM_forall₂ {P : α → β → Prop} {Q : γ → β → Prop} {f : α → Option γ} {first : List α}
    {second : List β} (related : List.Forall₂ P first second)
    (step : ∀ a, ∀ b ∈ second, P a b → ∃ c, f a = some c ∧ Q c b) :
    ∃ third, first.mapM f = some third ∧ List.Forall₂ Q third second := by
  induction related with
  | nil => exact ⟨[], rfl, .nil⟩
  | cons headRelated _ ih =>
      obtain ⟨head, ranHead, relatedHead⟩ := step _ _ (by simp) headRelated
      obtain ⟨tail, ranTail, relatedTail⟩ := ih fun a b member => step a b (by simp [member])
      exact ⟨head :: tail, by simp [List.mapM_cons, ranHead, ranTail], .cons relatedHead relatedTail⟩

/-- A loop whose calls all succeed collects results related to its list. -/
theorem mapM_exists {R : β → α → Prop} {f : α → Option β} (items : List α)
    (succeeds : ∀ item ∈ items, ∃ result, f item = some result ∧ R result item) :
    ∃ results, items.mapM f = some results ∧ List.Forall₂ R results items := by
  refine mapM_forall₂ (P := Eq) (List.forall₂_same.mpr fun _ _ => rfl) ?_
  rintro a b member rfl
  exact succeeds a member

/-- The results that a loop has collected are those of its calls. -/
theorem forall₂_of_mapM {f : α → Option β} {items : List α} {results : List β}
    (run : items.mapM f = some results) :
    List.Forall₂ (fun item result => f item = some result) items results := by
  induction items generalizing results with
  | nil =>
      obtain rfl := Option.some.inj run
      exact .nil
  | cons item items ih =>
      rw [List.mapM_cons] at run
      obtain ⟨first, ran, run⟩ := Option.bind_eq_some_iff.mp run
      obtain ⟨rest, ranRest, run⟩ := Option.bind_eq_some_iff.mp run
      obtain rfl := Option.some.inj run
      exact .cons ran (ih ranRest)

end CellBag.OptionList
