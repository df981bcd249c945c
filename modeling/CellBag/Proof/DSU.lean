import CellBag.Library.OptionList
import CellBag.Library.UnionFind
import CellBag.Model.UtilsLocal

/-!
The components of `DSU` are those of the united pairs after every order of its calls.
-/

namespace CellBag.DSU
open UnionFind

/-- The entries of `par` for some representatives. The rank of an element grows along its path, and it
is logarithmic in the size of the component. -/
structure Forest (par : List Int) (root rank : Nat → Nat) : Prop where
  idem : ∀ x, root (root x) = root x
  inside : ∀ x < par.length, root x < par.length
  top : ∀ x < par.length, root x = x → par[x]? = some (-(classSize par.length root x : Int))
  parent : ∀ x < par.length, root x ≠ x → ∃ p : Nat, par[x]? = some (p : Int) ∧ p < par.length ∧
    root p = root x ∧ rank x < rank p
  rank_lt : ∀ x < par.length, root x ≠ x → rank x < rank (root x)
  rank_le : ∀ x < par.length, root x = x → 2 ^ rank x ≤ classSize par.length root x

section Forest
variable {par : List Int} {root rank : Nat → Nat} {x : Nat}

/-- Before the first union each element is a root. -/
theorem Forest.start (n : Nat) : Forest (List.replicate n (-1)) id fun _ => 0 where
  idem _ := rfl
  inside _ inside := inside
  top x inside _ := by
    rw [List.length_replicate] at inside ⊢
    simp [inside, classSize_id inside]
  parent _ _ moved := absurd rfl moved
  rank_lt _ _ moved := absurd rfl moved
  rank_le x inside fixed := classSize_pos inside fixed

/-- A path has a logarithmic length. -/
theorem Forest.rank_root (forest : Forest par root rank) (inside : x < par.length) :
    rank (root x) ≤ Nat.log 2 par.length := by
  refine Nat.le_log_of_pow_le (by decide) ?_
  exact (forest.rank_le _ (forest.inside x inside) (forest.idem x)).trans classSize_le

/-- An entry on a path may be set to the representative. -/
theorem Forest.compress (forest : Forest par root rank) (inside : x < par.length)
    (moved : root x ≠ x) : Forest (par.set x (root x : Int)) root rank where
  idem := forest.idem
  inside := by simpa using forest.inside
  top y insideY fixed := by
    rw [List.length_set] at insideY ⊢
    have other : x ≠ y := fun same => moved (same ▸ fixed)
    rw [List.getElem?_set_ne other]
    exact forest.top y insideY fixed
  parent y insideY movedY := by
    rw [List.length_set] at insideY ⊢
    by_cases same : x = y
    · subst same
      exact ⟨root x, by simp [inside], forest.inside x inside, forest.idem x, forest.rank_lt x inside moved⟩
    · rw [List.getElem?_set_ne same]
      exact forest.parent y insideY movedY
  rank_lt := by simpa using forest.rank_lt
  rank_le := by simpa using forest.rank_le

/-- `get_comp` returns the representative after as many calls as the ranks allow. -/
theorem Forest.getCompFrom {fuel : Nat} (forest : Forest par root rank) (inside : x < par.length)
    (enough : rank (root x) - rank x < fuel) :
    ∃ par', DSU.getCompFrom fuel par x = some (root x, par') ∧ par'.length = par.length ∧
      Forest par' root rank := by
  induction fuel generalizing x with
  | zero => omega
  | succ fuel ih =>
      by_cases fixed : root x = x
      · have entry := forest.top x inside fixed
        have positive := classSize_pos inside fixed
        have negative : -(classSize par.length root x : Int) < 0 := by omega
        refine ⟨par, ?_, rfl, forest⟩
        simp only [DSU.getCompFrom, entry, if_pos negative, fixed, Option.bind_eq_bind, Option.bind_some]
      · obtain ⟨p, entry, insideP, same, higher⟩ := forest.parent x inside fixed
        have below := forest.rank_lt x inside fixed
        obtain ⟨par', ran, length, forest'⟩ := ih insideP (by rw [same]; omega)
        refine ⟨par'.set x (root x : Int), ?_, by rw [List.length_set, length],
          forest'.compress (length ▸ inside) fixed⟩
        have notNegative : ¬ ((p : Int) < 0) := by omega
        simp [DSU.getCompFrom, entry, notNegative, ran, same]

section Link
variable {winner loser : Nat}

/-- The ranks when the component of `loser` goes over to `winner`. -/
def linkedRank (rank : Nat → Nat) (winner loser : Nat) : Nat → Nat :=
  Function.update rank winner (max (rank winner) (rank loser + 1))

/-- The rank of the root that stays. -/
theorem linkedRank_winner :
    linkedRank rank winner loser winner = max (rank winner) (rank loser + 1) :=
  Function.update_self _ _ _

theorem linkedRank_other (other : x ≠ winner) : linkedRank rank winner loser x = rank x :=
  Function.update_of_ne other _ _

theorem le_linkedRank : rank x ≤ linkedRank rank winner loser x := by
  by_cases won : x = winner
  · rw [won, linkedRank_winner]
    exact Nat.le_max_left _ _
  · rw [linkedRank_other won]

/-- Ranks still grow towards the root. -/
theorem Forest.linkedRank_lt (forest : Forest par root rank) (fixedW : root winner = winner)
    (fixedL : root loser = loser) (different : winner ≠ loser) (inside : x < par.length)
    (moved : merge root winner loser x ≠ x) :
    linkedRank rank winner loser x < linkedRank rank winner loser (merge root winner loser x) := by
  have notWinner : x ≠ winner := fun won => moved (won.symm ▸ merge_winner fixedW)
  rw [linkedRank_other notWinner, merge]
  split_ifs with lost
  · rw [linkedRank_winner]
    by_cases isLoser : x = loser
    · subst isLoser
      omega
    · have below := forest.rank_lt x inside (by rw [lost]; exact Ne.symm isLoser)
      rw [lost] at below
      omega
  · have below := forest.rank_lt x inside fun fixed =>
      moved ((merge_eq_self_iff fixedW fixedL different).mpr ⟨fixed, fun same => lost (same ▸ fixedL)⟩)
    exact below.trans_le le_linkedRank

/-- A root still has two to its rank elements. -/
theorem Forest.two_pow_linkedRank_le (forest : Forest par root rank) (insideL : loser < par.length)
    (fixedL : root loser = loser) (different : winner ≠ loser)
    (larger : classSize par.length root loser ≤ classSize par.length root winner) (inside : x < par.length)
    (fixed : root x = x) (notLoser : x ≠ loser) :
    2 ^ linkedRank rank winner loser x ≤ classSize par.length (merge root winner loser) x := by
  have own := forest.rank_le x inside fixed
  by_cases won : x = winner
  · subst won
    have lost := forest.rank_le loser insideL fixedL
    rw [linkedRank_winner, classSize_merge_winner different]
    rcases Nat.le_total (rank x) (rank loser + 1) with less | less
    · rw [Nat.max_eq_right less, pow_succ]
      omega
    · rw [Nat.max_eq_left less]
      omega
  · rw [linkedRank_other won, classSize_merge_other won notLoser]
    exact own

/-- The component with fewer elements goes over to the other one. -/
theorem Forest.link (forest : Forest par root rank) (insideW : winner < par.length)
    (insideL : loser < par.length) (fixedW : root winner = winner) (fixedL : root loser = loser)
    (different : winner ≠ loser)
    (larger : classSize par.length root loser ≤ classSize par.length root winner) :
    Forest ((par.set winner (-(classSize par.length root winner : Int) +
        -(classSize par.length root loser : Int))).set loser (winner : Int))
      (merge root winner loser) (linkedRank rank winner loser) where
  idem := merge_idem forest.idem fixedW
  inside := by
    intro x inside
    simp only [List.length_set] at inside ⊢
    rw [merge]
    split_ifs
    · exact insideW
    · exact forest.inside x inside
  top := by
    intro x inside fixed
    simp only [List.length_set] at inside ⊢
    obtain ⟨fixedX, notLoser⟩ := (merge_eq_self_iff fixedW fixedL different).mp fixed
    rw [List.getElem?_set_ne (Ne.symm notLoser)]
    by_cases won : winner = x
    · subst won
      rw [List.getElem?_set_self inside, classSize_merge_winner different]
      congr 1
      push_cast
      ring
    · rw [List.getElem?_set_ne won, forest.top x inside fixedX,
        classSize_merge_other (Ne.symm won) notLoser]
  parent := by
    intro x inside moved
    simp only [List.length_set] at inside ⊢
    by_cases isLoser : loser = x
    · subst isLoser
      have kept : merge root winner loser loser = winner := if_pos fixedL
      refine ⟨winner, by simp [insideL], insideW, (merge_winner fixedW).trans kept.symm, ?_⟩
      have below := forest.linkedRank_lt fixedW fixedL different insideL (by rw [kept]; exact different)
      rwa [kept] at below
    · have movedX : root x ≠ x := fun fixed =>
        moved ((merge_eq_self_iff fixedW fixedL different).mpr ⟨fixed, Ne.symm isLoser⟩)
      obtain ⟨p, entry, insideP, same, higher⟩ := forest.parent x inside movedX
      have notWinner : winner ≠ x := fun won => movedX (won ▸ fixedW)
      refine ⟨p, ?_, insideP, by rw [merge, merge, same], ?_⟩
      · rw [List.getElem?_set_ne isLoser, List.getElem?_set_ne notWinner, entry]
      · rw [linkedRank_other (Ne.symm notWinner)]
        exact higher.trans_le le_linkedRank
  rank_lt := by
    intro x inside moved
    simp only [List.length_set] at inside
    exact forest.linkedRank_lt fixedW fixedL different inside moved
  rank_le := by
    intro x inside fixed
    simp only [List.length_set] at inside ⊢
    obtain ⟨fixedX, notLoser⟩ := (merge_eq_self_iff fixedW fixedL different).mp fixed
    exact forest.two_pow_linkedRank_le insideL fixedL different larger inside fixedX notLoser

end Link

end Forest

/-- A call with more fuel returns the same. -/
theorem getCompFrom_mono {fuel more : Nat} {par : List Int} {x : Nat} {result : Nat × List Int}
    (run : getCompFrom fuel par x = some result) (le : fuel ≤ more) :
    getCompFrom more par x = some result := by
  induction fuel generalizing more x result with
  | zero => cases run
  | succ fuel ih =>
      obtain ⟨more, rfl⟩ := Nat.exists_eq_succ_of_ne_zero (show more ≠ 0 by omega)
      rw [getCompFrom] at run ⊢
      cases entry : par[x]? with
      | none =>
          rw [entry] at run
          cases run
      | some value =>
          simp only [entry, Option.bind_eq_bind, Option.bind_some] at run ⊢
          split_ifs at run ⊢ with top
          · exact run
          · obtain ⟨below, ran, run⟩ := Option.bind_eq_some_iff.mp run
            rw [ih ran (Nat.le_of_succ_le_succ le)]
            exact run

/-- The state of a structure for `n` elements in which the given pairs have been united. -/
structure Keeps (n : Nat) (pairs : List (Nat × Nat)) (root : Nat → Nat) (dsu : DSU) : Prop where
  length : dsu.par.length = n
  represents : Represents pairs root
  forest : ∃ rank, Forest dsu.par root rank

section Calls
variable {n : Nat} {pairs : List (Nat × Nat)} {root : Nat → Nat} {dsu : DSU} {x y : Nat}

/-- The new structure joins nothing. -/
theorem keeps_new (n : Nat) : Keeps n [] id (new n) :=
  ⟨List.length_replicate, .start, _, Forest.start n⟩

/-- The recursion of `get_comp` has a logarithmic depth. -/
theorem Keeps.getComp (keeps : Keeps n pairs root dsu) (inside : x < n) :
    ∃ next, getCompFrom (Nat.log 2 n + 1) dsu.par x = some (root x, next.par) ∧
      dsu.getComp x = some (root x, next) ∧ Keeps n pairs root next := by
  obtain ⟨rfl, represents, rank, forest⟩ := keeps
  have shallow := forest.rank_root inside
  have enough : rank (root x) - rank x < Nat.log 2 dsu.par.length + 1 := by omega
  obtain ⟨par, ran, length, forest'⟩ := forest.getCompFrom inside enough
  have few : Nat.log 2 dsu.par.length + 1 ≤ dsu.par.length :=
    Nat.log_lt_self 2 (by omega)
  refine ⟨⟨par⟩, ran, ?_, length, represents, rank, forest'⟩
  rw [DSU.getComp, getCompFrom_mono ran few]
  rfl

/-- `unite` tells if the elements were apart. -/
theorem Keeps.unite (keeps : Keeps n pairs root dsu) (insideX : x < n) (insideY : y < n) :
    ∃ root' next, dsu.unite x y = some (decide (root x ≠ root y), next) ∧
      Keeps n (pairs ++ [(x, y)]) root' next := by
  obtain ⟨middle, -, ranX, keeps'⟩ := keeps.getComp insideX
  obtain ⟨last, -, ranY, rfl, represents, rank, forest⟩ := keeps'.getComp insideY
  rw [DSU.unite, ranX, Option.bind_eq_bind, Option.bind_some]
  simp only [ranY, Option.bind_eq_bind, Option.bind_some]
  by_cases same : root x = root y
  · refine ⟨root, last, by simp [same], rfl, represents.redundant same, rank, forest⟩
  · have insideRx := forest.inside x insideX
    have insideRy := forest.inside y insideY
    have fixedX := represents.idem x
    have fixedY := represents.idem y
    have entryX := forest.top _ insideRx fixedX
    have entryY := forest.top _ insideRy fixedY
    rw [if_neg same]
    simp only [entryX, entryY, Option.bind_some, neg_neg, ne_eq, same, not_false_eq_true, decide_true]
    by_cases smaller : (classSize last.par.length root (root x) : Int) <
        classSize last.par.length root (root y)
    · have linked := forest.link insideRy insideRx fixedY fixedX (Ne.symm same) (by omega)
      rw [if_pos smaller]
      rw [add_comm] at linked
      exact ⟨_, _, rfl, by simp, represents.merged (.inr ⟨rfl, rfl⟩), _, linked⟩
    · have linked := forest.link insideRx insideRy fixedX fixedY same (by omega)
      rw [if_neg smaller]
      exact ⟨_, _, rfl, by simp, represents.merged (.inl ⟨rfl, rfl⟩), _, linked⟩

theorem less_total : OrderedSet.Total fun a b : Nat => decide (a < b) where
  irrefl := by simp
  trans x y z := by
    simp only [decide_eq_true_eq]
    omega
  total x y := by
    simp only [decide_eq_true_eq]
    omega

/-- The set `comps` holds the representatives in their order. -/
theorem Keeps.comps (keeps : Keeps n pairs root dsu) :
    ∃ comps next, dsu.comps = some (comps, next) ∧ Keeps n pairs root next ∧
      comps.Pairwise (· < ·) ∧ ∀ c, c ∈ comps ↔ ∃ x < n, root x = c := by
  obtain ⟨⟨comps, next⟩, ran, keeps', sorted, mem_iff⟩ :=
    OptionList.foldlM_invariant (List.range dsu.par.length) ([], dsu) insertComp
      (fun done state => Keeps n pairs root state.2 ∧
        OrderedSet.Sorted (fun a b => decide (a < b)) state.1 ∧
        ∀ c, c ∈ state.1 ↔ ∃ x ∈ done, root x = c)
      ⟨keeps, List.Pairwise.nil, by simp⟩ (by
        rintro done i rest ⟨comps, dsu'⟩ split ⟨keeps', sorted, mem_iff⟩
        have inside : i < n := by
          rw [← keeps.length]
          exact List.mem_range.mp (by rw [split]; simp)
        obtain ⟨next, -, ran, keepsNext⟩ := keeps'.getComp inside
        refine ⟨_, by simp only [insertComp, ran, Option.bind_eq_bind, Option.bind_some]; rfl, keepsNext, ?_⟩
        have extended (c : Nat) : (∃ x ∈ done ++ [i], root x = c) ↔ root i = c ∨ c ∈ comps := by
          rw [mem_iff c]
          constructor
          · rintro ⟨x, member, equal⟩
            rcases List.mem_append.mp member with member | last
            · exact .inr ⟨x, member, equal⟩
            · exact .inl (List.mem_singleton.mp last ▸ equal)
          · rintro (equal | ⟨x, member, equal⟩)
            · exact ⟨i, by simp, equal⟩
            · exact ⟨x, by simp [member], equal⟩
        by_cases known : root i ∈ comps
        · rw [OrderedSet.insert_of_mem less_total sorted known]
          refine ⟨sorted, fun c => ?_⟩
          rw [extended c]
          exact ⟨.inr, fun either => either.elim (fun equal => equal ▸ known) id⟩
        · refine ⟨OrderedSet.insert_sorted less_total sorted known, fun c => ?_⟩
          rw [(OrderedSet.insert_perm less_total comps known).mem_iff, List.mem_cons, extended c, eq_comm])
  refine ⟨comps, next, ran, keeps', sorted.imp of_decide_eq_true, fun c => ?_⟩
  rw [mem_iff c, keeps.length]
  simp only [List.mem_range]

/-- The sizes that `comp_sizes` reads. -/
theorem Keeps.sizes (keeps : Keeps n pairs root dsu) (small : n < 2 ^ 31) {comps : List Nat}
    (reps : ∀ c ∈ comps, ∃ x < n, root x = c) :
    (comps.mapM fun c => do
      let entry ← dsu.par[c]?
      some (-entry % 2 ^ 32).toNat) = some (comps.map (classSize n root)) := by
  obtain ⟨rfl, represents, rank, forest⟩ := keeps
  refine OptionList.mapM_eq_map fun c member => ?_
  obtain ⟨x, inside, rfl⟩ := reps c member
  rw [forest.top _ (forest.inside x inside) (represents.idem x), Option.bind_eq_bind, Option.bind_some]
  have bound : classSize dsu.par.length root (root x) ≤ dsu.par.length := classSize_le
  congr 1
  omega

/-- The entries fit into an `int`. -/
theorem Keeps.bounded (keeps : Keeps n pairs root dsu) : ∀ entry ∈ dsu.par, -(n : Int) ≤ entry ∧
    entry < n := by
  obtain ⟨rfl, represents, rank, forest⟩ := keeps
  intro entry member
  obtain ⟨x, look⟩ := List.getElem?_of_mem member
  have inside := (List.getElem?_eq_some_iff.mp look).1
  by_cases fixed : root x = x
  · obtain rfl := Option.some.inj ((forest.top x inside fixed).symm.trans look)
    have positive := classSize_pos inside fixed
    have bound : classSize dsu.par.length root x ≤ dsu.par.length := classSize_le
    omega
  · obtain ⟨p, found, insideP, -⟩ := forest.parent x inside fixed
    obtain rfl := Option.some.inj (found.symm.trans look)
    omega

end Calls

/-- The states after any calls in any order, with the pairs that have been united. -/
inductive Reached (n : Nat) : List (Nat × Nat) → DSU → Prop
  | start : Reached n [] (new n)
  | getComp {pairs : List (Nat × Nat)} {dsu next : DSU} {x comp : Nat} : Reached n pairs dsu →
      dsu.getComp x = some (comp, next) → Reached n pairs next
  | unite {pairs : List (Nat × Nat)} {dsu next : DSU} {x y : Nat} {united : Bool} :
      Reached n pairs dsu → dsu.unite x y = some (united, next) → Reached n (pairs ++ [(x, y)]) next
  | compSizes {pairs : List (Nat × Nat)} {dsu next : DSU} {sizes : List Nat} : Reached n pairs dsu →
      dsu.compSizes = some (sizes, next) → Reached n pairs next
  | cntComps {pairs : List (Nat × Nat)} {dsu next : DSU} {cnt : Nat} : Reached n pairs dsu →
      dsu.cntComps = some (cnt, next) → Reached n pairs next

section Run
variable {n : Nat} {pairs : List (Nat × Nat)} {dsu : DSU}

/-- A call of `get_comp` that returns had an element. -/
theorem getComp_inside {x : Nat} {result : Nat × DSU} (run : dsu.getComp x = some result) :
    x < dsu.par.length := by
  obtain ⟨_, ran, -⟩ := Option.bind_eq_some_iff.mp run
  cases length : dsu.par.length with
  | zero =>
      rw [length] at ran
      cases ran
  | succ fuel =>
      rw [length, getCompFrom] at ran
      obtain ⟨entry, look, -⟩ := Option.bind_eq_some_iff.mp ran
      exact length ▸ (List.getElem?_eq_some_iff.mp look).1

/-- Every reached structure keeps the joined pairs. -/
theorem Reached.keeps (reached : Reached n pairs dsu) : ∃ root, Keeps n pairs root dsu := by
  induction reached with
  | start => exact ⟨id, keeps_new n⟩
  | getComp _ run ih =>
      obtain ⟨root, keeps⟩ := ih
      obtain ⟨_, -, ran, kept⟩ := keeps.getComp (keeps.length ▸ getComp_inside run)
      obtain ⟨-, rfl⟩ := Prod.mk.inj (Option.some.inj (ran.symm.trans run))
      exact ⟨root, kept⟩
  | unite _ run ih =>
      obtain ⟨root, keeps⟩ := ih
      obtain ⟨⟨_, middle⟩, ranX, run'⟩ := Option.bind_eq_some_iff.mp run
      obtain ⟨⟨_, last⟩, ranY, -⟩ := Option.bind_eq_some_iff.mp run'
      have insideX := keeps.length ▸ getComp_inside ranX
      obtain ⟨_, -, ran, kept⟩ := keeps.getComp insideX
      obtain ⟨-, rfl⟩ := Prod.mk.inj (Option.some.inj (ran.symm.trans ranX))
      obtain ⟨root', _, ran', kept'⟩ := keeps.unite insideX (kept.length ▸ getComp_inside ranY)
      obtain ⟨-, rfl⟩ := Prod.mk.inj (Option.some.inj (ran'.symm.trans run))
      exact ⟨root', kept'⟩
  | compSizes _ run ih =>
      obtain ⟨root, keeps⟩ := ih
      obtain ⟨comps, next, ran, kept, -⟩ := keeps.comps
      obtain ⟨⟨_, last⟩, ran', run⟩ := Option.bind_eq_some_iff.mp run
      obtain ⟨rfl, rfl⟩ := Prod.mk.inj (Option.some.inj (ran.symm.trans ran'))
      obtain ⟨_, -, run⟩ := Option.bind_eq_some_iff.mp run
      obtain ⟨-, rfl⟩ := Prod.mk.inj (Option.some.inj run)
      exact ⟨root, kept⟩
  | cntComps _ run ih =>
      obtain ⟨root, keeps⟩ := ih
      obtain ⟨comps, next, ran, kept, -⟩ := keeps.comps
      obtain ⟨⟨_, last⟩, ran', run⟩ := Option.bind_eq_some_iff.mp run
      obtain ⟨rfl, rfl⟩ := Prod.mk.inj (Option.some.inj (ran.symm.trans ran'))
      obtain ⟨-, rfl⟩ := Prod.mk.inj (Option.some.inj run)
      exact ⟨root, kept⟩

end Run

/-- What the calls return when the given pairs have been united. -/
structure Answers (n : Nat) (pairs : List (Nat × Nat)) (root : Nat → Nat) (dsu : DSU) : Prop where
  joined : ∀ x y, root x = root y ↔ Joined pairs x y
  fixed : ∀ x, root (root x) = root x
  own : ∀ x, Joined pairs x (root x)
  getComp : ∀ x < n, ∃ next, dsu.getComp x = some (root x, next) ∧
    getCompFrom (Nat.log 2 n + 1) dsu.par x = some (root x, next.par)
  unite : ∀ x < n, ∀ y < n, ∃ united next, dsu.unite x y = some (united, next) ∧
    (united = true ↔ ¬ Joined pairs x y)
  comps : ∃ (comps : List Nat) (next : DSU), dsu.cntComps = some (comps.length, next) ∧
    dsu.compSizes = some (comps.map (classSize n root), next) ∧ comps.Pairwise (· < ·) ∧
    ∀ c, c ∈ comps ↔ ∃ x < n, root x = c
  bounded : ∀ entry ∈ dsu.par, -(n : Int) ≤ entry ∧ entry < n

/-- After any calls in any order the components are those of the united pairs. -/
theorem reached_answers {n : Nat} (small : n < 2 ^ 31) {pairs : List (Nat × Nat)} {dsu : DSU}
    (reached : Reached n pairs dsu) : ∃ root, Answers n pairs root dsu := by
  obtain ⟨root, keeps⟩ := reached.keeps
  refine ⟨root, keeps.represents.eq_iff, keeps.represents.idem, keeps.represents.joined_root,
    fun x inside => ?_, fun x insideX y insideY => ?_, ?_, keeps.bounded⟩
  · obtain ⟨next, deep, ran, -⟩ := keeps.getComp inside
    exact ⟨next, ran, deep⟩
  · obtain ⟨_, next, ran, -⟩ := keeps.unite insideX insideY
    refine ⟨_, next, ran, ?_⟩
    rw [decide_eq_true_eq, ne_eq, keeps.represents.eq_iff]
  · obtain ⟨comps, next, ran, kept, sorted, mem_iff⟩ := keeps.comps
    refine ⟨comps, next, by rw [cntComps, ran]; rfl, ?_, sorted, mem_iff⟩
    have sizes := kept.sizes small fun c member => (mem_iff c).mp member
    simp only [compSizes, ran, Option.bind_eq_bind, Option.bind_some] at sizes ⊢
    rw [sizes, Option.bind_some]

theorem reached_answers_three : ∃ dsu root, (new 3).unite 0 2 = some (true, dsu) ∧
    Answers 3 [(0, 2)] root dsu := by
  have run : (new 3).unite 0 2 = some (true, ⟨[-2, -1, 0]⟩) := by decide
  obtain ⟨root, answers⟩ := reached_answers (by decide) (Reached.start.unite run)
  exact ⟨_, root, run, answers⟩

end CellBag.DSU
