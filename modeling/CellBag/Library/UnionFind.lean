import Mathlib.Tactic

/-!
Representatives of the classes that united pairs make, and the sizes of the classes.
-/

namespace CellBag.UnionFind

variable {α : Type} {pairs : List (α × α)} {root : α → α} {x y a b : α}

/-- The equivalence that the united pairs generate. -/
def Joined (pairs : List (α × α)) : α → α → Prop := Relation.EqvGen fun x y => (x, y) ∈ pairs

/-- Without pairs every element is alone. -/
theorem joined_nil_iff : Joined [] a b ↔ a = b := by
  constructor
  · intro joined
    induction joined with
    | rel _ _ member => cases member
    | refl => rfl
    | symm _ _ _ ih => exact ih.symm
    | trans _ _ _ _ _ first second => exact first.trans second
  · rintro rfl
    exact .refl a

/-- Another pair takes no two elements apart. -/
theorem Joined.snoc (joined : Joined pairs a b) : Joined (pairs ++ [(x, y)]) a b :=
  Relation.EqvGen.mono (fun _ _ member => List.mem_append_left _ member) _ _ joined

/-- A representative of each class. -/
structure Represents (pairs : List (α × α)) (root : α → α) : Prop where
  idem : ∀ a, root (root a) = root a
  eq_iff : ∀ a b, root a = root b ↔ Joined pairs a b

/-- The representatives when the class of `loser` goes over to `winner`. -/
def merge [DecidableEq α] (root : α → α) (winner loser : α) (a : α) : α :=
  if root a = loser then winner else root a

section Merge
variable [DecidableEq α] {winner loser : α}

/-- The winner stays a representative. -/
theorem merge_winner (fixed : root winner = winner) : merge root winner loser winner = winner := by
  rw [merge, fixed, ite_self]

/-- The representatives after a merge represent themselves. -/
theorem merge_idem (idem : ∀ a, root (root a) = root a) (fixed : root winner = winner) (a : α) :
    merge root winner loser (merge root winner loser a) = merge root winner loser a := by
  by_cases lost : root a = loser
  · have here : merge root winner loser a = winner := if_pos lost
    rw [here, merge_winner fixed]
  · have here : merge root winner loser a = root a := if_neg lost
    rw [here, merge, idem, if_neg lost]

/-- All representatives but the loser stay. -/
theorem merge_eq_self_iff (fixedW : root winner = winner) (fixedL : root loser = loser)
    (different : winner ≠ loser) : merge root winner loser a = a ↔ root a = a ∧ a ≠ loser := by
  rw [merge]
  split_ifs with lost
  · constructor
    · rintro rfl
      exact absurd (fixedW.symm.trans lost) different
    · rintro ⟨fixed, other⟩
      exact absurd (fixed.symm.trans lost) other
  · exact ⟨fun fixed => ⟨fixed, fun same => lost (same ▸ fixedL)⟩, fun both => both.1⟩

end Merge

namespace Represents

/-- Before the first pair every element represents itself. -/
theorem start : Represents [] (id : α → α) where
  idem _ := rfl
  eq_iff _ _ := joined_nil_iff.symm

/-- An element and its representative are in one class. -/
theorem joined_root (represents : Represents pairs root) (a : α) : Joined pairs a (root a) :=
  (represents.eq_iff a (root a)).mp (represents.idem a).symm

/-- A pair from one class changes nothing. -/
theorem redundant (represents : Represents pairs root) (same : root x = root y) :
    Represents (pairs ++ [(x, y)]) root where
  idem := represents.idem
  eq_iff a b := by
    refine ⟨fun equal => ((represents.eq_iff a b).mp equal).snoc, fun joined => ?_⟩
    induction joined with
    | rel a b member =>
        rcases List.mem_append.mp member with member | last
        · exact (represents.eq_iff a b).mpr (.rel a b member)
        · obtain ⟨rfl, rfl⟩ := Prod.mk.inj (List.mem_singleton.mp last)
          exact same
    | refl => rfl
    | symm _ _ _ ih => exact ih.symm
    | trans _ _ _ _ _ first second => exact first.trans second

/-- A pair from two classes makes them one. -/
theorem merged [DecidableEq α] (represents : Represents pairs root) {winner loser : α}
    (ends : winner = root x ∧ loser = root y ∨ winner = root y ∧ loser = root x) :
    Represents (pairs ++ [(x, y)]) (merge root winner loser) where
  idem := by
    apply merge_idem represents.idem
    rcases ends with ⟨rfl, -⟩ | ⟨rfl, -⟩
    · exact represents.idem x
    · exact represents.idem y
  eq_iff a b := by
    have united : Joined (pairs ++ [(x, y)]) winner loser := by
      have middle : Joined (pairs ++ [(x, y)]) x y := .rel x y (by simp)
      have first := (represents.joined_root x).snoc (x := x) (y := y)
      have second := (represents.joined_root y).snoc (x := x) (y := y)
      have across := (first.symm.trans _ _ _ middle).trans _ _ _ second
      rcases ends with ⟨rfl, rfl⟩ | ⟨rfl, rfl⟩
      · exact across
      · exact across.symm
    have reached (c : α) : Joined (pairs ++ [(x, y)]) c (merge root winner loser c) := by
      have own := (represents.joined_root c).snoc (x := x) (y := y)
      rw [merge]
      split_ifs with lost
      · exact own.trans _ _ _ (lost ▸ united.symm)
      · exact own
    constructor
    · intro equal
      exact (reached a).trans _ _ _ (equal ▸ (reached b).symm)
    · intro joined
      induction joined with
      | rel a b member =>
          rcases List.mem_append.mp member with member | last
          · rw [merge, merge, (represents.eq_iff a b).mpr (.rel a b member)]
          · obtain ⟨rfl, rfl⟩ := Prod.mk.inj (List.mem_singleton.mp last)
            rcases ends with ⟨rfl, rfl⟩ | ⟨rfl, rfl⟩ <;> simp [merge]
      | refl => rfl
      | symm _ _ _ ih => exact ih.symm
      | trans _ _ _ _ _ first second => exact first.trans second

end Represents

/-- The number of elements below `n` in the class of a representative. -/
def classSize (n : Nat) (root : Nat → Nat) (r : Nat) : Nat :=
  (List.range n).countP fun a => root a = r

section Size
variable {n : Nat} {root : Nat → Nat} {winner loser r : Nat}

/-- A class has at most all elements. -/
theorem classSize_le : classSize n root r ≤ n :=
  List.countP_le_length.trans_eq List.length_range

/-- The class of a representative holds the representative. -/
theorem classSize_pos (inside : r < n) (fixed : root r = r) : 0 < classSize n root r :=
  List.countP_pos_iff.mpr ⟨r, List.mem_range.mpr inside, by simpa using fixed⟩

/-- An element that is alone makes a class of size one. -/
theorem classSize_id (inside : r < n) : classSize n id r = 1 := by
  have counted : classSize n id r = (List.range n).count r := by
    rw [classSize, List.count_eq_countP]
    exact List.countP_congr fun a _ => by simp
  rw [counted]
  exact List.count_eq_one_of_mem List.nodup_range (List.mem_range.mpr inside)

/-- The class of the winner grows by the one of the loser. -/
theorem classSize_merge_winner (different : winner ≠ loser) :
    classSize n (merge root winner loser) winner =
      classSize n root winner + classSize n root loser := by
  have split (items : List Nat) : items.countP (fun a => merge root winner loser a = winner) =
      items.countP (fun a => root a = winner) + items.countP fun a => root a = loser := by
    induction items with
    | nil => rfl
    | cons a items ih =>
        have won : merge root winner loser a = winner ↔ root a = winner ∨ root a = loser := by
          rw [merge]
          split_ifs with lost
          · simp [lost]
          · simp [lost]
        rw [List.countP_cons, List.countP_cons, List.countP_cons, ih]
        simp only [decide_eq_true_eq, won]
        by_cases first : root a = winner
        · simp only [first, different, true_or, if_true, if_false]
          omega
        · simp only [first, false_or, if_false]
          omega
  exact split _

/-- All other classes keep their sizes. -/
theorem classSize_merge_other (notWinner : r ≠ winner) (notLoser : r ≠ loser) :
    classSize n (merge root winner loser) r = classSize n root r := by
  refine List.countP_congr fun a _ => ?_
  rw [decide_eq_true_eq, decide_eq_true_eq, merge]
  split_ifs with lost
  · rw [lost]
    exact ⟨fun equal => absurd equal.symm notWinner, fun equal => absurd equal.symm notLoser⟩
  · rfl

end Size

end CellBag.UnionFind
