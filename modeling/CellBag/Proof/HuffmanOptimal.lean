import CellBag.Library.Kraft
import CellBag.Proof.HuffmanCodec

/-!
The code of the constructor: no prefix-free code is cheaper, and its lengths fit the machine types.
-/

namespace CellBag.Huffman
open BitString CodeTree Kraft

namespace HuffmanEncoderDecoder

/-- The bits that code lengths spend on the weighted symbols. -/
def codeCost (freq lengths : List Nat) : Nat :=
  (List.zipWith (fun f length => max 1 f * length) freq lengths).sum

theorem codeCost_eq {freq lengths : List Nat} (size : lengths.length = freq.length) :
    codeCost freq lengths =
      ((List.range freq.length).map fun s => symbolWeight freq s * lengths.getD s 0).sum := by
  unfold codeCost
  congr 1
  apply List.ext_getElem
  · simp [size]
  · intro index inRange _
    have inside : index < freq.length := by
      simp only [List.length_zipWith] at inRange
      omega
    simp [symbolWeight, List.getD_eq_getElem?_getD, List.getElem?_eq_getElem inside,
      List.getElem?_eq_getElem (size ▸ inside : index < lengths.length)]

section Built
variable {freq : List Nat} {coder : HuffmanEncoderDecoder}

/-- The code table spends what the tree costs. -/
theorem Built.codeCost_codes (built : Built freq coder) :
    codeCost freq (coder.codes.map Prod.snd) = pathCost (symbolWeight freq) coder.root := by
  have each : ∀ entry ∈ coder.root.codewords,
      symbolWeight freq entry.1 * entry.2.length =
        symbolWeight freq entry.1 * (coder.codes.map Prod.snd).getD entry.1 0 := by
    intro entry member
    simp [List.getD_eq_getElem?_getD, built.codes entry member]
  rw [codeCost_eq (by simp [built.codes_length]), pathCost, List.map_congr_left each,
    ← (built.leaves.map _).sum_eq, ← codewords_map_fst, List.map_map]
  rfl

/-- An assignment with a Kraft sum of at most one spends at least what the tree costs. -/
theorem Built.optimal (built : Built freq coder) {lengths : List Nat}
    (size : lengths.length = freq.length) (fits : kraft lengths ≤ 1) :
    codeCost freq (coder.codes.map Prod.snd) ≤ codeCost freq lengths := by
  let entries : List (CodeTree Nat × Nat) :=
    (List.range freq.length).map fun s => (.leaf s, lengths.getD s 0)
  have symbols : entries.map Prod.fst = (List.range freq.length).map .leaf := by
    simp [entries, Function.comp_def]
  have same : entries.map Prod.snd = lengths := by
    apply List.ext_getElem
    · simp [entries, size]
    · intro index _ inRange
      simp [entries, List.getD_eq_getElem?_getD, List.getElem?_eq_getElem inRange]
  have bound := built.beats entries (symbols ▸ List.Perm.refl _) (same ▸ fits)
  have free : (((List.range freq.length).map CodeTree.leaf).map
      (pathCost (symbolWeight freq))).sum = 0 := by
    simp [Function.comp_def]
  have spent : cost (totalWeight (symbolWeight freq)) entries = codeCost freq lengths := by
    rw [codeCost_eq size, cost]
    simp only [entries, List.map_map, Function.comp_def, totalWeight_leaf]
  rw [built.codeCost_codes]
  omega

end Built

section Codec
variable {coder : HuffmanEncoderDecoder} {size : Nat} (codec : Codec coder size)
include codec

/-- The table holds the codewords in the order of their symbols. -/
theorem Codec.codes_words :
    (coder.codes.map fun code => ofNat code.2 code.1) = (List.range size).map coder.word := by
  apply List.ext_getElem
  · simp [codec.codes_length]
  · intro s inTable inRange
    rw [List.length_map, List.length_range] at inRange
    have entry := codec.codes_eq inRange
    rw [List.getElem?_eq_getElem (by simpa using inTable), Option.some.injEq] at entry
    rw [List.getElem_map, List.getElem_map, List.getElem_range, entry]
    exact ofNat_toNat _

/-- The codewords of the table are a prefix-free code. -/
theorem Codec.codes_prefixFree : PrefixFree (coder.codes.map fun code => ofNat code.2 code.1) := by
  rw [codec.codes_words, PrefixFree, List.pairwise_map]
  refine List.pairwise_lt_range.imp_of_mem fun {s t} memberS memberT before => ?_
  have inRangeS := List.mem_range.mp memberS
  have inRangeT := List.mem_range.mp memberT
  exact ⟨fun starts => Nat.ne_of_lt before (codec.word_prefixFree inRangeS inRangeT starts),
    fun starts => Nat.ne_of_lt before (codec.word_prefixFree inRangeT inRangeS starts).symm⟩

/-- The lengths of the table are those of a complete code. -/
theorem Codec.codes_kraft : kraft (coder.codes.map Prod.snd) = 1 := by
  have lengths : coder.codes.map Prod.snd = ((List.range size).map coder.word).map List.length := by
    rw [← codec.codes_words, List.map_map]
    exact List.map_congr_left fun code _ => (length_ofNat _ _).symm
  rw [lengths, kraft, List.map_map, List.map_map]
  exact codec.kraft_sum

end Codec

/-- The code table is a complete prefix-free code. No prefix-free code, and no assignment of lengths with a Kraft
sum of at most one, spends fewer bits than it. -/
theorem ofFreq_optimal (freq : List Nat) (two : 2 ≤ freq.length) (fits : sumFreq freq < 2 ^ 32) :
    ∃ coder, ofFreq freq = some coder ∧ coder.codes.length = freq.length ∧
      PrefixFree (coder.codes.map fun code => ofNat code.2 code.1) ∧ kraft (coder.codes.map Prod.snd) = 1 ∧
      (∀ lengths : List Nat, lengths.length = freq.length → kraft lengths ≤ 1 →
        codeCost freq (coder.codes.map Prod.snd) ≤ codeCost freq lengths) ∧
      ∀ words : List (List Bool), words.length = freq.length → PrefixFree words →
        codeCost freq (coder.codes.map Prod.snd) ≤ codeCost freq (words.map List.length) := by
  have nonempty : freq ≠ [] := List.ne_nil_of_length_pos (by omega)
  obtain ⟨coder, made, built⟩ := ofFreq_built freq nonempty fits
  have codec : Codec coder freq.length := ⟨built.leaves, built.isFork two, built.codes, built.codes_length⟩
  refine ⟨coder, made, built.codes_length, codec.codes_prefixFree, codec.codes_kraft,
    fun lengths size sum => built.optimal size sum, ?_⟩
  intro words size free
  exact built.optimal (by simp [size]) (free.kraft_le_one (size ▸ two))

theorem ofFreq_optimal_three : 2 ≤ [3, 0, 5].length ∧ sumFreq [3, 0, 5] < 2 ^ 32 ∧
    ∃ coder, ofFreq [3, 0, 5] = some coder ∧ coder.codes.length = 3 ∧
      PrefixFree (coder.codes.map fun code => ofNat code.2 code.1) ∧ kraft (coder.codes.map Prod.snd) = 1 ∧
      (∀ lengths : List Nat, lengths.length = 3 → kraft lengths ≤ 1 →
        codeCost [3, 0, 5] (coder.codes.map Prod.snd) ≤ codeCost [3, 0, 5] lengths) ∧
      ∀ words : List (List Bool), words.length = 3 → PrefixFree words →
        codeCost [3, 0, 5] (coder.codes.map Prod.snd) ≤ codeCost [3, 0, 5] (words.map List.length) :=
  ⟨by decide, by decide, ofFreq_optimal [3, 0, 5] (by decide) (by decide)⟩

/-- The constructor stops at no check but that for an empty set. A leaf at depth `d` forces a sum of
at least `fib (d + 2)`; no code is longer than 45 bits, and the table holds the codes unreduced. -/
theorem ofFreq_lengths (freq : List Nat) (fits : sumFreq freq < 2 ^ 32) :
    (ofFreq freq = none ↔ freq = []) ∧
    ∀ coder, ofFreq freq = some coder → coder.codes.length = freq.length ∧
      (∀ s < freq.length, ∃ word, (s, word) ∈ coder.root.codewords) ∧
      (∀ s word, (s, word) ∈ coder.root.codewords →
        Nat.fib (word.length + 2) ≤ sumFreq freq ∧ word.length ≤ 45 ∧
          coder.codes[s]? = some (toNat word, word.length)) ∧
      ∀ ptr s width ptr', coder.encodeSymbol ptr s = some (width, ptr') →
        width ≤ 45 ∧ ∃ code, ptr' = ptr.storeUint code width := by
  by_cases nonempty : freq = []
  · subst nonempty
    simp [ofFreq, leafNodes, check]
  · obtain ⟨coder, made, built⟩ := ofFreq_built freq nonempty fits
    refine ⟨by simp [made, nonempty], ?_⟩
    intro other same
    obtain rfl : coder = other := by rwa [made, Option.some.injEq] at same
    have each : ∀ s word, (s, word) ∈ coder.root.codewords →
        Nat.fib (word.length + 2) ≤ sumFreq freq ∧ word.length ≤ 45 ∧
          coder.codes[s]? = some (toNat word, word.length) := by
      intro s word member
      obtain ⟨heavy, short⟩ := depth_le built.balanced built.leaves fits member
      exact ⟨heavy, short, built.codes (s, word) member⟩
    have covered : ∀ s < freq.length, ∃ word, (s, word) ∈ coder.root.codewords := by
      intro s inRange
      exact mem_leaves_iff.mp (built.leaves.mem_iff.mpr (List.mem_range.mpr inRange))
    refine ⟨built.codes_length, covered, each, ?_⟩
    intro ptr s width ptr' stored
    simp only [encodeSymbol, Option.bind_eq_bind, Option.bind_eq_some_iff] at stored
    obtain ⟨code, look, _, _, result⟩ := stored
    have inRange : s < freq.length := built.codes_length ▸ (List.getElem?_eq_some_iff.mp look).1
    obtain ⟨word, member⟩ := covered s inRange
    obtain ⟨_, short, entry⟩ := each s word member
    rw [look, Option.some.injEq] at entry
    subst entry
    simp only [Option.some.injEq, Prod.mk.injEq] at result
    obtain ⟨rfl, rfl⟩ := result
    exact ⟨short, _, rfl⟩

/-- The table of these frequencies has the deepest leaves that their sum allows. -/
theorem ofFreq_lengths_fibonacci : ∃ coder, ofFreq [1, 1, 2, 3, 5, 8, 13] = some coder ∧
    (∃ word, (0, word) ∈ coder.root.codewords ∧ word.length = 6 ∧
      Nat.fib (word.length + 2) ≤ sumFreq [1, 1, 2, 3, 5, 8, 13]) ∧
    ∃ width ptr', coder.encodeSymbol (BitPtr.start 64) 0 = some (width, ptr') ∧ width = 6 ∧ width ≤ 45 := by
  have codes : (ofFreq [1, 1, 2, 3, 5, 8, 13]).map (fun coder => coder.codes) =
      some [(62, 6), (63, 6), (30, 5), (14, 4), (6, 3), (2, 2), (0, 1)] := by decide +kernel
  obtain ⟨-, lengths⟩ := ofFreq_lengths [1, 1, 2, 3, 5, 8, 13] (by decide)
  cases made : ofFreq [1, 1, 2, 3, 5, 8, 13] with
  | none =>
      rw [made] at codes
      cases codes
  | some coder =>
      rw [made, Option.map_some, Option.some.injEq] at codes
      obtain ⟨-, covered, each, stores⟩ := lengths coder made
      obtain ⟨word, member⟩ := covered 0 (by decide)
      obtain ⟨heavy, -, entry⟩ := each 0 word member
      have stored : coder.encodeSymbol (BitPtr.start 64) 0 = some (6, (BitPtr.start 64).storeUint 62 6) := by
        rw [encodeSymbol, codes]
        rfl
      rw [codes, List.getElem?_cons_zero, Option.some.injEq, Prod.mk.injEq] at entry
      exact ⟨coder, rfl, ⟨word, member, entry.2.symm, heavy⟩, _, _, stored, rfl, (stores _ _ _ _ stored).1⟩

end HuffmanEncoderDecoder

end CellBag.Huffman
