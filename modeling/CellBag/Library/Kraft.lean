import Mathlib.Tactic
import Mathlib.InformationTheory.Coding.KraftMcMillan
import CellBag.Library.CodeTree

/-!
Length assignments with a Kraft sum of at most one, and the trees that merge two lightest trees at
a time: no assignment costs less than such a tree.
-/

namespace CellBag.Kraft

/-- The Kraft sum of code lengths. -/
def kraft (lengths : List Nat) : ℚ := (lengths.map fun length => (1 / 2 : ℚ) ^ length).sum

@[simp] theorem kraft_nil : kraft [] = 0 := rfl

@[simp] theorem kraft_cons (length : Nat) (lengths : List Nat) :
    kraft (length :: lengths) = (1 / 2 : ℚ) ^ length + kraft lengths := rfl

/-- The Kraft sum does not depend on the order. -/
theorem kraft_perm {first second : List Nat} (perm : first.Perm second) :
    kraft first = kraft second := (perm.map _).sum_eq

/-- The Kraft sum is not negative. -/
theorem kraft_nonneg (lengths : List Nat) : 0 ≤ kraft lengths := by
  induction lengths with
  | nil => exact le_refl _
  | cons length lengths ih =>
      rw [kraft_cons]
      positivity

/-- The sum is a multiple of the term of a longest length. -/
theorem exists_mul_pow {longest : Nat} (lengths : List Nat) (bound : ∀ length ∈ lengths, length ≤ longest) :
    ∃ count : Nat, kraft lengths * 2 ^ longest = count := by
  induction lengths with
  | nil => exact ⟨0, by simp⟩
  | cons length lengths ih =>
      obtain ⟨count, same⟩ := ih fun other member => bound other (List.mem_cons_of_mem _ member)
      obtain ⟨extra, rfl⟩ := Nat.exists_eq_add_of_le (bound length List.mem_cons_self)
      refine ⟨2 ^ extra + count, ?_⟩
      have term : (1 / 2 : ℚ) ^ length * 2 ^ (length + extra) = 2 ^ extra := by
        rw [pow_add, ← mul_assoc, ← mul_pow]
        norm_num
      rw [kraft_cons, add_mul, same, term]
      push_cast
      rfl

/-- A longest length can be as short as the second longest. -/
theorem kraft_shorten {longest second : Nat} {lengths : List Nat}
    (bound : ∀ length ∈ lengths, length ≤ second)
    (fits : kraft (longest :: second :: lengths) ≤ 1) : kraft (second :: second :: lengths) ≤ 1 := by
  have within : ∀ length ∈ second :: lengths, length ≤ second := by
    intro length member
    rcases List.mem_cons.mp member with rfl | member
    · exact le_refl _
    · exact bound length member
  obtain ⟨count, same⟩ := exists_mul_pow _ within
  have positive : (0 : ℚ) < 2 ^ second := by positivity
  have room : (count : ℚ) < 2 ^ second := by
    have term : (0 : ℚ) < (1 / 2 : ℚ) ^ longest := by positivity
    rw [kraft_cons] at fits
    have below : kraft (second :: lengths) < 1 := by linarith
    rw [← same]
    exact mul_lt_of_lt_one_left positive below
  have whole : count + 1 ≤ 2 ^ second := by exact_mod_cast room
  have unit : (1 / 2 : ℚ) ^ second * 2 ^ second = 1 := by
    rw [← mul_pow]
    norm_num
  have scaled : kraft (second :: second :: lengths) * 2 ^ second ≤ 1 * 2 ^ second := by
    rw [kraft_cons, add_mul, same, unit, one_mul]
    have cast : ((count + 1 : Nat) : ℚ) ≤ ((2 ^ second : Nat) : ℚ) := by exact_mod_cast whole
    push_cast at cast
    linarith
  exact le_of_mul_le_mul_right scaled positive

section Cost

variable {β : Type} (weight : β → Nat)

/-- The weighted sum of the lengths. -/
def cost (entries : List (β × Nat)) : Nat := (entries.map fun entry => weight entry.1 * entry.2).sum

@[simp] theorem cost_nil : cost weight [] = 0 := rfl

@[simp] theorem cost_cons (entry : β × Nat) (entries : List (β × Nat)) :
    cost weight (entry :: entries) = weight entry.1 * entry.2 + cost weight entries := rfl

/-- The cost does not depend on the order. -/
theorem cost_perm {first second : List (β × Nat)} (perm : first.Perm second) :
    cost weight first = cost weight second := (perm.map _).sum_eq

variable {weight}

/-- A lightest symbol can take a longest length at no cost. -/
theorem exists_longest {a : β} (length : Nat) (rest : List (β × Nat))
    (light : ∀ entry ∈ rest, weight a ≤ weight entry.1) :
    ∃ longest others, others.map Prod.fst = rest.map Prod.fst ∧
      (longest :: others.map Prod.snd).Perm (length :: rest.map Prod.snd) ∧
      (∀ entry ∈ others, entry.2 ≤ longest) ∧
      cost weight ((a, longest) :: others) ≤ cost weight ((a, length) :: rest) := by
  induction rest with
  | nil => exact ⟨length, [], rfl, List.Perm.refl _, by simp, Nat.le_refl _⟩
  | cons entry rest ih =>
      obtain ⟨longest, others, symbols, perm, bound, cheap⟩ :=
        ih fun other member => light other (List.mem_cons_of_mem _ member)
      simp only [cost_cons] at cheap
      by_cases short : entry.2 ≤ longest
      · refine ⟨longest, entry :: others, by simp [symbols], ?_, ?_, ?_⟩
        · exact (List.Perm.swap _ _ _).trans ((perm.cons entry.2).trans (List.Perm.swap _ _ _))
        · intro other member
          rcases List.mem_cons.mp member with rfl | member
          · exact short
          · exact bound other member
        · simp only [cost_cons]
          omega
      · have lighter := light entry List.mem_cons_self
        refine ⟨entry.2, (entry.1, longest) :: others, by simp [symbols], ?_, ?_, ?_⟩
        · exact (perm.cons entry.2).trans (List.Perm.swap _ _ _)
        · intro other member
          rcases List.mem_cons.mp member with rfl | member
          · simp only
            omega
          · exact (bound other member).trans (by omega)
        · have exchange := mul_add_mul_le_mul_add_mul lighter (Nat.le_of_not_le short)
          simp only [cost_cons]
          omega

/-- Two lightest symbols can be merged: the assignment of the merged symbol saves their weight. -/
theorem exists_merged {a b c : β} {first second : Nat} {rest : List (β × Nat)}
    (sum : weight c = weight a + weight b) (lightA : weight a ≤ weight b)
    (lightB : ∀ entry ∈ rest, weight b ≤ weight entry.1)
    (fits : kraft (first :: second :: rest.map Prod.snd) ≤ 1) :
    ∃ length others, others.map Prod.fst = rest.map Prod.fst ∧
      kraft (length :: others.map Prod.snd) ≤ 1 ∧
      cost weight ((c, length) :: others) + weight c ≤
        cost weight ((a, first) :: (b, second) :: rest) := by
  obtain ⟨longest, entries, symbols, permA, boundA, cheapA⟩ :=
    @exists_longest _ weight a first ((b, second) :: rest) fun entry member => by
      rcases List.mem_cons.mp member with rfl | member
      · exact lightA
      · exact lightA.trans (lightB entry member)
  obtain ⟨entry, tail, rfl⟩ : ∃ entry tail, entries = entry :: tail := by
    cases entries with
    | nil => simp at symbols
    | cons entry tail => exact ⟨entry, tail, rfl⟩
  simp only [List.map_cons, List.cons.injEq] at symbols
  obtain ⟨same, symbols⟩ := symbols
  have lightTail : ∀ other ∈ tail, weight b ≤ weight other.1 := by
    intro other member
    have inside : other.1 ∈ rest.map Prod.fst := symbols ▸ List.mem_map_of_mem member
    obtain ⟨entry, member, equal⟩ := List.mem_map.mp inside
    exact equal ▸ lightB entry member
  obtain ⟨next, others, symbols', permB, boundB, cheapB⟩ :=
    @exists_longest _ weight b entry.2 tail lightTail
  have order : next ≤ longest := by
    have member : next ∈ entry.2 :: tail.map Prod.snd := permB.subset List.mem_cons_self
    rcases List.mem_cons.mp member with rfl | member
    · exact boundA entry List.mem_cons_self
    · obtain ⟨other, inside, rfl⟩ := List.mem_map.mp member
      exact boundA other (List.mem_cons_of_mem _ inside)
  have fits' : kraft (next :: next :: others.map Prod.snd) ≤ 1 := by
    apply @kraft_shorten longest
    · intro length member
      obtain ⟨other, inside, rfl⟩ := List.mem_map.mp member
      exact boundB other inside
    · have perm : (longest :: next :: others.map Prod.snd).Perm
          (first :: second :: rest.map Prod.snd) := (permB.cons longest).trans permA
      rwa [kraft_perm perm]
  have positive : next ≠ 0 := by
    intro zero
    have rest := kraft_nonneg (others.map Prod.snd)
    rw [zero, kraft_cons, kraft_cons] at fits'
    norm_num at fits'
    linarith
  obtain ⟨length, rfl⟩ := Nat.exists_eq_succ_of_ne_zero positive
  refine ⟨length, others, symbols'.trans symbols, ?_, ?_⟩
  · have halves : (1 / 2 : ℚ) ^ length = (1 / 2) ^ (length + 1) + (1 / 2) ^ (length + 1) := by
      rw [pow_succ]
      ring
    rw [kraft_cons, halves]
    simpa only [kraft_cons, add_assoc] using fits'
  · simp only [cost_cons, same] at cheapA cheapB ⊢
    have shorter : weight a * (length + 1) ≤ weight a * longest := Nat.mul_le_mul_left _ order
    rw [sum]
    simp only [Nat.succ_eq_add_one, Nat.mul_add, Nat.add_mul] at *
    omega

end Cost

section Trees

variable {α : Type} (weight : α → Nat)
open CodeTree

/-- The weighted sum of the depths of the leaves. -/
def pathCost (tree : CodeTree α) : Nat :=
  (tree.codewords.map fun entry => weight entry.1 * entry.2.length).sum

@[simp] theorem pathCost_leaf (symbol : α) : pathCost weight (.leaf symbol) = 0 := by
  simp [pathCost, codewords]

/-- Paths longer by a step cost the weight of their leaves more. -/
theorem sum_deeper (entries : List (α × List Bool)) (bit : Bool) :
    ((entries.map fun entry => (entry.1, bit :: entry.2)).map
      fun entry => weight entry.1 * entry.2.length).sum =
      (entries.map fun entry => weight entry.1 * entry.2.length).sum +
        ((entries.map Prod.fst).map weight).sum := by
  induction entries with
  | nil => rfl
  | cons entry entries ih =>
      simp only [List.map_cons, List.sum_cons, ih, List.length_cons, Nat.mul_succ]
      omega

/-- A fork puts all leaves one level deeper. -/
theorem pathCost_fork (left right : CodeTree α) : pathCost weight (.fork left right) =
    pathCost weight left + pathCost weight right + totalWeight weight (.fork left right) := by
  rw [pathCost, codewords, List.map_append, List.sum_append, sum_deeper, sum_deeper,
    codewords_map_fst, codewords_map_fst, totalWeight_fork]
  simp only [pathCost, totalWeight]
  omega

/-- The tree costs at most what any assignment of lengths to the trees of the forest costs. -/
def Beats (root : CodeTree α) (forest : List (CodeTree α)) : Prop :=
  ∀ entries : List (CodeTree α × Nat), (entries.map Prod.fst).Perm forest →
    kraft (entries.map Prod.snd) ≤ 1 →
    pathCost weight root ≤ cost (totalWeight weight) entries + (forest.map (pathCost weight)).sum

variable {weight}

/-- A tree costs no more than itself. -/
theorem beats_self (root : CodeTree α) : Beats weight root [root] := by
  intro entries _ _
  simp

/-- The order of the forest does not matter. -/
theorem Beats.perm {root : CodeTree α} {forest others : List (CodeTree α)}
    (beats : Beats weight root forest) (perm : forest.Perm others) : Beats weight root others := by
  intro entries symbols fits
  have bound := beats entries (symbols.trans perm.symm) fits
  rwa [(perm.map _).sum_eq] at bound

/-- The tree that beats a forest beats it before the merge of two lightest trees. -/
theorem Beats.of_merge {root a b : CodeTree α} {rest : List (CodeTree α)}
    (beats : Beats weight root (.fork a b :: rest))
    (lightA : totalWeight weight a ≤ totalWeight weight b)
    (lightB : ∀ tree ∈ rest, totalWeight weight b ≤ totalWeight weight tree) :
    Beats weight root (a :: b :: rest) := by
  intro entries symbols fits
  obtain ⟨ordered, same, perm⟩ :=
    (congrFun (congrFun (List.eq_map_comp_perm Prod.fst) _) entries).mpr symbols.symm
  obtain ⟨⟨a', first⟩, tail, rfl⟩ : ∃ entry tail, ordered = entry :: tail := by
    cases ordered with
    | nil => simp at same
    | cons entry tail => exact ⟨entry, tail, rfl⟩
  obtain ⟨⟨b', second⟩, tail, rfl⟩ : ∃ entry others, tail = entry :: others := by
    cases tail with
    | nil => simp at same
    | cons entry others => exact ⟨entry, others, rfl⟩
  simp only [List.map_cons, List.cons.injEq] at same
  obtain ⟨rfl, rfl, rfl⟩ := same
  rw [← kraft_perm (perm.map Prod.snd)] at fits
  obtain ⟨length, others, symbols', fits', cheap⟩ :=
    @exists_merged _ (totalWeight weight) a b (.fork a b) first second tail
      (totalWeight_fork weight a b) lightA
      (fun entry member => lightB entry.1 (List.mem_map_of_mem member)) fits
  have bound := beats ((.fork a b, length) :: others) (by simp [symbols']) fits'
  rw [← cost_perm _ perm]
  simp only [List.map_cons, List.sum_cons, pathCost_fork] at bound ⊢
  omega

end Trees

section PrefixFree

variable {words : List (List Bool)}

/-- The words of a prefix-free code can be read back from their concatenation. -/
theorem uniquelyDecodable (inner : ∀ word ∈ words, word ≠ [])
    (prefixFree : ∀ first ∈ words, ∀ second ∈ words, first <+: second → first = second) :
    InformationTheory.UniquelyDecodable {word | word ∈ words} := by
  intro firsts
  induction firsts with
  | nil =>
      intro seconds _ memberSecond same
      cases seconds with
      | nil => rfl
      | cons second seconds =>
          have empty := List.append_eq_nil_iff.mp (show second ++ seconds.flatten = [] from same.symm)
          exact absurd empty.1 (inner second (memberSecond second List.mem_cons_self))
  | cons first firsts ih =>
      intro seconds memberFirst memberSecond same
      cases seconds with
      | nil =>
          have empty := List.append_eq_nil_iff.mp (show first ++ firsts.flatten = [] from same)
          exact absurd empty.1 (inner first (memberFirst first List.mem_cons_self))
      | cons second seconds =>
          have memberA := memberFirst first List.mem_cons_self
          have memberB := memberSecond second List.mem_cons_self
          rw [List.flatten_cons, List.flatten_cons] at same
          have startA : first <+: first ++ firsts.flatten := List.prefix_append _ _
          have startB : second <+: first ++ firsts.flatten := same ▸ List.prefix_append _ _
          have equal : first = second := by
            rcases List.prefix_or_prefix_of_prefix startA startB with start | start
            · exact prefixFree first memberA second memberB start
            · exact (prefixFree second memberB first memberA start).symm
          subst equal
          rw [ih seconds (fun word member => memberFirst word (List.mem_cons_of_mem _ member))
            (fun word member => memberSecond word (List.mem_cons_of_mem _ member))
            (List.append_cancel_left same)]

/-- No word of the code starts another one. -/
def PrefixFree (words : List (List Bool)) : Prop :=
  words.Pairwise fun first second => ¬ first <+: second ∧ ¬ second <+: first

/-- Prefix-free words differ. -/
theorem PrefixFree.nodup (free : PrefixFree words) : words.Nodup := by
  apply List.Pairwise.imp _ free
  intro first second pair same
  exact pair.1 (same ▸ List.prefix_refl first)

/-- A word that starts another one is that word. -/
theorem PrefixFree.eq_of_prefix (free : PrefixFree words) {first second : List Bool}
    (memberFirst : first ∈ words) (memberSecond : second ∈ words) (start : first <+: second) :
    first = second := by
  have symmetric : Std.Symm fun first second : List Bool =>
      ¬ first <+: second ∧ ¬ second <+: first := ⟨fun _ _ pair => pair.symm⟩
  by_contra different
  exact (List.Pairwise.forall free memberFirst memberSecond different).1 start

/-- With two or more words none is empty. -/
theorem PrefixFree.ne_nil (free : PrefixFree words) (two : 2 ≤ words.length) :
    ∀ word ∈ words, word ≠ [] := by
  intro word member empty
  subst empty
  have single : words ⊆ [[]] := fun other inside =>
    List.mem_singleton.mpr (free.eq_of_prefix member inside List.nil_prefix).symm
  have small := (free.nodup.subperm single).length_le
  rw [List.length_singleton] at small
  omega

/-- The lengths of a prefix-free code have a Kraft sum of at most one. -/
theorem PrefixFree.kraft_le_one (free : PrefixFree words) (two : 2 ≤ words.length) :
    kraft (words.map List.length) ≤ 1 := by
  have distinct := free.nodup
  have decodable := uniquelyDecodable (free.ne_nil two)
    fun _ memberFirst _ memberSecond => free.eq_of_prefix memberFirst memberSecond
  have members : {word | word ∈ words} = (words.toFinset : Set (List Bool)) := by
    ext word
    simp
  rw [members] at decodable
  have bound := InformationTheory.kraft_mcmillan_inequality decodable
  rw [List.sum_toFinset _ distinct, Fintype.card_bool] at bound
  have cast : ((kraft (words.map List.length) : ℚ) : ℝ) =
      (words.map fun word => (1 / (2 : Nat) : ℝ) ^ word.length).sum := by
    clear bound members decodable distinct two free
    induction words with
    | nil => simp
    | cons word words ih =>
        rw [List.map_cons, kraft_cons, List.map_cons, List.sum_cons, ← ih]
        push_cast
        rfl
  rw [← cast] at bound
  exact_mod_cast bound

end PrefixFree

end CellBag.Kraft
