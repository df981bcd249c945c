import CellBag.Library.Entropy
import CellBag.Library.Tabulate
import CellBag.Proof.HuffmanCodec
import CellBag.Proof.HuffmanOptimal

/-!
The code made from the counts of a sequence writes the sequence close to its information.
-/

namespace CellBag.Huffman
open Entropy Kraft HuffmanEncoderDecoder

/-- The sequence and behind it the symbols that it lacks: the constructor counts these as one. -/
def smoothed (kinds : Nat) (symbols : List Nat) : List Nat :=
  symbols ++ (List.range kinds).filter (· ∉ symbols)

section Counts
variable {kinds s : Nat} {symbols : List Nat}

/-- The counted symbols are in range. -/
theorem smoothed_lt (inRange : ∀ s ∈ symbols, s < kinds) : ∀ s ∈ smoothed kinds symbols, s < kinds := by
  intro s member
  rcases List.mem_append.mp member with member | member
  · exact inRange s member
  · exact List.mem_range.mp (List.mem_filter.mp member).1

/-- Each symbol is counted at least once. -/
theorem count_smoothed (inside : s < kinds) :
    (smoothed kinds symbols).count s = max 1 (symbols.count s) := by
  have lacks : ((List.range kinds).filter (· ∉ symbols)).count s = if s ∈ symbols then 0 else 1 := by
    split_ifs with member
    · exact List.count_eq_zero_of_not_mem fun lack => by simp [member] at lack
    · refine List.count_eq_one_of_mem (List.nodup_range.filter _) ?_
      simp [inside, member]
  rw [smoothed, List.count_append, lacks]
  split_ifs with member
  · have occurs := List.count_pos_iff.mpr member
    omega
  · rw [List.count_eq_zero_of_not_mem member]
    rfl

/-- Without a wrap the loop counts the symbols. -/
theorem countSymbols_eq (inRange : ∀ s ∈ symbols, s < kinds) (fits : symbols.length < 2 ^ 32) :
    countSymbols kinds symbols = some (tabulate kinds symbols.count) := by
  induction symbols using List.reverseRecOn with
  | nil =>
      rw [countSymbols, List.foldlM_nil, replicate_eq_tabulate]
      rfl
  | append_singleton symbols s ih =>
      rw [List.length_append, List.length_singleton] at fits
      have earlier := ih (fun t member => inRange t (by simp [member])) (by omega)
      have inside : s < kinds := inRange s (by simp)
      have small : symbols.count s + 1 < 2 ^ 32 := by
        have bound : symbols.count s ≤ symbols.length := List.count_le_length
        omega
      rw [countSymbols] at earlier
      rw [countSymbols, List.foldlM_append, earlier]
      simp only [Option.bind_eq_bind, Option.bind_some, List.foldlM_cons, List.foldlM_nil,
        tabulate_at inside, tabulate_set, Nat.mod_eq_of_lt small]
      refine congrArg some (tabulate_congr fun t _ => ?_)
      by_cases same : t = s
      · subst same
        simp
      · simp [Function.update_of_ne same, List.count_append, Ne.symm same]

/-- The constructor gives each symbol its count in the smoothed sequence. -/
theorem symbolWeight_counts (inside : s < kinds) :
    symbolWeight (tabulate kinds symbols.count) s = (smoothed kinds symbols).count s := by
  rw [symbolWeight, List.getD_eq_getElem?_getD, tabulate_at inside, Option.getD_some,
    count_smoothed inside]

/-- The frequencies sum up to the number of counted symbols. -/
theorem sumFreq_counts (inRange : ∀ s ∈ symbols, s < kinds) :
    sumFreq (tabulate kinds symbols.count) = (smoothed kinds symbols).length := by
  have ones : ((List.range kinds).map fun s => (smoothed kinds symbols).count s * 1).sum =
      ((smoothed kinds symbols).map fun _ => 1).sum :=
    sum_count_mul List.nodup_range fun s member => List.mem_range.mpr (smoothed_lt inRange s member)
  rw [← sum_symbolWeight, length_tabulate, List.map_congr_left fun s member =>
    symbolWeight_counts (List.mem_range.mp member)]
  simpa using ones

end Counts

namespace HuffmanEncoderDecoder

section Bounds
variable {kinds : Nat} {symbols : List Nat} {coder : HuffmanEncoderDecoder}

/-- A length for each symbol costs what it spends on the smoothed sequence. -/
theorem codeCost_counts (inRange : ∀ s ∈ symbols, s < kinds) {length : Nat → Nat} {lengths : List Nat}
    (each : lengths = tabulate kinds length) :
    codeCost (tabulate kinds symbols.count) lengths = ((smoothed kinds symbols).map length).sum := by
  subst each
  have total : ((List.range kinds).map fun s => (smoothed kinds symbols).count s * length s).sum = _ :=
    sum_count_mul List.nodup_range fun s member => List.mem_range.mpr (smoothed_lt inRange s member)
  rw [codeCost_eq (by simp), length_tabulate, ← total]
  refine congrArg List.sum (List.map_congr_left fun s member => ?_)
  have inside := List.mem_range.mp member
  rw [symbolWeight_counts inside, List.getD_eq_getElem?_getD, tabulate_at inside, Option.getD_some]

/-- The lengths of the codes are those of the words. -/
theorem Codec.lengths_eq (codec : Codec coder kinds) :
    coder.codes.map Prod.snd = tabulate kinds fun s => (coder.word s).length := by
  apply List.ext_getElem?
  intro s
  by_cases inside : s < kinds
  · rw [List.getElem?_map, codec.codes_eq inside, tabulate_at inside]
    rfl
  · rw [List.getElem?_eq_none (by simpa [codec.codes_length] using inside),
      List.getElem?_eq_none (by simpa using inside)]

/-- The lengths of the code cost at most the rounded information of the smoothed sequence. -/
theorem Built.smoothed_lt (built : Built (tabulate kinds symbols.count) coder) (codec : Codec coder kinds)
    (inRange : ∀ s ∈ symbols, s < kinds) (positive : 0 < kinds) :
    ((((smoothed kinds symbols).map fun s => (coder.word s).length).sum : Nat) : ℝ) <
      ownInformation (smoothed kinds symbols) + (smoothed kinds symbols).length := by
  have nonempty : smoothed kinds symbols ≠ [] := by
    rintro empty
    have first : (smoothed kinds symbols).count 0 = max 1 (symbols.count 0) := count_smoothed positive
    rw [empty, List.count_nil] at first
    omega
  have heavy : ∀ s ∈ List.range kinds, 0 < (smoothed kinds symbols).count s := by
    intro s member
    rw [count_smoothed (List.mem_range.mp member)]
    omega
  have total : ((List.range kinds).map (smoothed kinds symbols).count).sum =
      (smoothed kinds symbols).length := by
    rw [← sumFreq_counts inRange, ← sum_symbolWeight, length_tabulate]
    exact congrArg List.sum (List.map_congr_left fun s member =>
      (symbolWeight_counts (List.mem_range.mp member)).symm)
  have fits : kraft (tabulate kinds (shannonLength (smoothed kinds symbols).count
      (smoothed kinds symbols).length)) ≤ 1 :=
    kraft_shannonLength_le heavy (List.length_pos_iff.mpr nonempty) total
  have best := built.optimal (by simp) fits
  rw [codeCost_counts inRange codec.lengths_eq, codeCost_counts inRange rfl] at best
  have short : (((smoothed kinds symbols).map (shannonLength (smoothed kinds symbols).count
      (smoothed kinds symbols).length)).sum : Nat) < ownInformation (smoothed kinds symbols) + _ :=
    sum_shannonLength_lt (fun s member => List.count_pos_iff.mpr member)
      (fun s _ => List.count_le_length) nonempty
  have cast : ((((smoothed kinds symbols).map fun s => (coder.word s).length).sum : Nat) : ℝ) ≤
      (((smoothed kinds symbols).map (shannonLength (smoothed kinds symbols).count
        (smoothed kinds symbols).length)).sum : Nat) := by exact_mod_cast best
  exact cast.trans_lt short

end Bounds

/-- The coder made from the counts of a sequence writes it with at least its information, and with less than
one bit for each symbol more than the information that it has with the lacking symbols. -/
theorem countSymbols_near_information (kinds : Nat) (two : 2 ≤ kinds) (symbols : List Nat)
    (inRange : ∀ s ∈ symbols, s < kinds) (fits : (smoothed kinds symbols).length < 2 ^ 32)
    (size : Nat) : ∃ freq coder ptr, countSymbols kinds symbols = some freq ∧
      ofFreq freq = some coder ∧ coder.encodeSymbols (BitPtr.start size) symbols = some ptr ∧
      ownInformation symbols ≤ ptr.bits.length ∧
      ptr.bits.length < ownInformation (smoothed kinds symbols) + symbols.length := by
  have few : symbols.length < 2 ^ 32 := by
    rw [smoothed, List.length_append] at fits
    omega
  have kindsEq : (tabulate kinds symbols.count).length = kinds := length_tabulate
  obtain ⟨coder, made, built⟩ := ofFreq_built (tabulate kinds symbols.count)
    (List.ne_nil_of_length_pos (by omega)) (sumFreq_counts inRange ▸ fits)
  have codec : Codec coder kinds := by
    rw [← kindsEq]
    exact ⟨built.leaves, built.isFork (by omega), built.codes, built.codes_length⟩
  have written : ((symbols.flatMap coder.word).length) =
      (symbols.map fun s => (coder.word s).length).sum := List.length_flatMap
  have lower : ownInformation symbols ≤ ((symbols.map fun s => (coder.word s).length).sum : Nat) := by
    refine ownInformation_le List.nodup_range (fun s member => List.mem_range.mpr (inRange s member)) ?_
    rw [kraft, List.map_map]
    exact codec.kraft_sum.le
  have upper := built.smoothed_lt codec inRange (by omega)
  -- each lacking symbol has a bit at least
  have lacking : ((List.range kinds).filter (· ∉ symbols)).length ≤
      (((List.range kinds).filter (· ∉ symbols)).map fun s => (coder.word s).length).sum := by
    have ones : (((List.range kinds).filter (· ∉ symbols)).map fun _ => 1).sum ≤ _ :=
      List.sum_le_sum fun s member =>
        codec.word_pos (List.mem_range.mp (List.mem_filter.mp member).1)
    simpa using ones
  refine ⟨_, coder, _, countSymbols_eq inRange few, made, codec.encodeSymbols_eq inRange _, ?_, ?_⟩
  · rw [BitPtr.push_bits, BitPtr.start_bits, List.nil_append, written]
    exact lower
  · rw [BitPtr.push_bits, BitPtr.start_bits, List.nil_append, written]
    rw [smoothed, List.map_append, List.sum_append, List.length_append, ← smoothed] at upper
    have cast : (((List.range kinds).filter (· ∉ symbols)).length : ℝ) ≤
        ((((List.range kinds).filter (· ∉ symbols)).map fun s => (coder.word s).length).sum : Nat) := by
      exact_mod_cast lacking
    rw [Nat.cast_add, Nat.cast_add] at upper
    linarith

theorem countSymbols_near_information_three : ∃ freq coder ptr,
    countSymbols 3 [2, 0, 2, 2] = some freq ∧ ofFreq freq = some coder ∧
      coder.encodeSymbols (BitPtr.start 100) [2, 0, 2, 2] = some ptr ∧
      ownInformation [2, 0, 2, 2] ≤ ptr.bits.length ∧
      ptr.bits.length < ownInformation (smoothed 3 [2, 0, 2, 2]) + [2, 0, 2, 2].length :=
  countSymbols_near_information 3 (by decide) [2, 0, 2, 2] (by decide) (by decide) 100

end HuffmanEncoderDecoder

end CellBag.Huffman
