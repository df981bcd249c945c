import CellBag.Proof.HuffmanTree
import CellBag.Model.Tables

/-!
Writing and reading symbols with a coder that the constructor built.
-/

namespace CellBag.Huffman.HuffmanEncoderDecoder
open BitString CodeTree

/-- The stored code of a symbol as a bit string. -/
def word (coder : HuffmanEncoderDecoder) (s : Nat) : List Bool :=
  match coder.codes[s]? with
  | some code => ofNat code.2 code.1
  | none => []

/-- Symbols written one after another. -/
def encodeSymbols (coder : HuffmanEncoderDecoder) (ptr : BitPtr) (symbols : List Nat) :
    Option BitPtr :=
  symbols.foldlM (fun ptr s => (coder.encodeSymbol ptr s).map Prod.snd) ptr

/-- Symbols read one after another without a cutoff. -/
def decodeSymbols (coder : HuffmanEncoderDecoder) (bits : List Bool) :
    Nat → Nat → Option (List Nat × Nat)
  | 0, offs => some ([], offs)
  | count + 1, offs => do
      let (answer, offs) ← coder.decodeSymbol bits offs none
      let symbol ← answer
      let (symbols, offs) ← decodeSymbols coder bits count offs
      some (symbol :: symbols, offs)

section Codec

variable {coder : HuffmanEncoderDecoder} {size : Nat} (codec : Codec coder size)
include codec

/-- All leaves are symbols. -/
theorem Codec.lt_size {entry : Nat × List Bool} (member : entry ∈ coder.root.codewords) :
    entry.1 < size := by
  have leaf : entry.1 ∈ coder.root.leaves := mem_leaves_iff.mpr ⟨entry.2, member⟩
  exact List.mem_range.mp (codec.leaves.mem_iff.mp leaf)

/-- The codeword of a leaf is its path. -/
theorem Codec.word_of_mem {entry : Nat × List Bool} (member : entry ∈ coder.root.codewords) :
    coder.word entry.1 = entry.2 := by
  rw [word, codec.codes entry member]
  exact ofNat_toNat entry.2

/-- Each symbol has a leaf at its codeword. -/
theorem Codec.word_mem {s : Nat} (inRange : s < size) : (s, coder.word s) ∈ coder.root.codewords := by
  have leaf : s ∈ coder.root.leaves := codec.leaves.mem_iff.mpr (List.mem_range.mpr inRange)
  obtain ⟨path, member⟩ := mem_leaves_iff.mp leaf
  rwa [codec.word_of_mem member]

/-- The table holds the codewords as numbers with their lengths. -/
theorem Codec.codes_eq {s : Nat} (inRange : s < size) :
    coder.codes[s]? = some (toNat (coder.word s), (coder.word s).length) :=
  codec.codes _ (codec.word_mem inRange)

/-- No codeword is empty. -/
theorem Codec.word_ne_nil {s : Nat} (inRange : s < size) : coder.word s ≠ [] :=
  codeword_ne_nil codec.isFork (codec.word_mem inRange)

/-- A codeword takes at least a bit. -/
theorem Codec.word_pos {s : Nat} (inRange : s < size) : 0 < (coder.word s).length :=
  List.length_pos_iff.mpr (codec.word_ne_nil inRange)

/-- No codeword starts another one. -/
theorem Codec.word_prefixFree {s t : Nat} (inRangeS : s < size) (inRangeT : t < size)
    (starts : coder.word s <+: coder.word t) : s = t :=
  congrArg Prod.fst (codewords_prefixFree (codec.word_mem inRangeS) (codec.word_mem inRangeT) starts)

/-- The entries of the table are the codewords of the tree, up to their order. -/
theorem Codec.codewords_perm :
    coder.root.codewords.Perm ((List.range size).map fun s => (s, coder.word s)) := by
  have same : coder.root.codewords = coder.root.leaves.map fun s => (s, coder.word s) := by
    rw [← codewords_map_fst, List.map_map]
    refine (List.map_id _).symm.trans (List.map_congr_left ?_)
    intro entry member
    simp [codec.word_of_mem member]
  rw [same]
  exact codec.leaves.map _

/-- The codewords have a Kraft sum of one. -/
theorem Codec.kraft_sum :
    ((List.range size).map fun s => (1 / 2 : ℚ) ^ (coder.word s).length).sum = 1 := by
  have perm := codec.codewords_perm.map fun entry => (1 / 2 : ℚ) ^ entry.2.length
  rw [List.map_map] at perm
  exact perm.sum_eq.symm.trans (CodeTree.kraft_sum coder.root)

/-- Encoding appends the codeword. -/
theorem Codec.encodeSymbol_eq {s : Nat} (inRange : s < size) (ptr : BitPtr) :
    coder.encodeSymbol ptr s = some ((coder.word s).length, ptr.push (coder.word s)) := by
  simp [encodeSymbol, codec.codes_eq inRange, check, codec.word_pos inRange,
    BitPtr.storeUint_eq_push, ofNat_toNat]

/-- A sequence is written as its codewords. -/
theorem Codec.encodeSymbols_eq {symbols : List Nat} (inRange : ∀ s ∈ symbols, s < size)
    (ptr : BitPtr) :
    coder.encodeSymbols ptr symbols = some (ptr.push (symbols.flatMap coder.word)) := by
  induction symbols generalizing ptr with
  | nil => simp [encodeSymbols]
  | cons s symbols ih =>
      have rest := ih (fun t member => inRange t (by simp [member])) (ptr.push (coder.word s))
      rw [encodeSymbols] at rest
      rw [encodeSymbols, List.foldlM_cons, codec.encodeSymbol_eq (inRange s (by simp))]
      simp [rest]

end Codec

/-- With a cutoff inside the buffer the loop walks the bits before the cutoff. -/
theorem decodeLoop_cutoff (bits : List Bool) (initialOffs cutoff : Nat)
    (inside : cutoff ≤ bits.length) (tree : CodeTree Nat) (offs : Nat) (before : offs ≤ cutoff) :
    decodeLoop bits initialOffs (some cutoff) tree offs =
      match tree.walk ((bits.take cutoff).drop offs) with
      | none => some (none, initialOffs)
      | some found => some (some found.1, offs + found.2) := by
  induction tree generalizing offs with
  | leaf symbol => simp [decodeLoop, walk, check, before]
  | fork left right ihLeft ihRight =>
      by_cases atCutoff : cutoff ≤ offs
      · have equal : cutoff = offs := Nat.le_antisymm atCutoff before
        have empty : (bits.take cutoff).drop offs = [] := by
          rw [List.drop_eq_nil_iff, List.length_take]
          omega
        simp [decodeLoop, equal, check, walk]
      · have inRange : offs < bits.length := by omega
        have taken : offs < (bits.take cutoff).length := by rw [List.length_take]; omega
        have next : (bits.take cutoff).drop offs =
            bits[offs] :: (bits.take cutoff).drop (offs + 1) := by
          rw [List.drop_eq_getElem_cons taken, List.getElem_take]
        have step (found : Nat × Nat) : offs + 1 + found.2 = offs + (found.2 + 1) := by omega
        rw [next, walk]
        simp only [decodeLoop, Option.mem_some_iff, exists_eq_left', atCutoff, if_false, getBit_eq,
          List.getElem?_eq_getElem inRange, Option.bind_eq_bind, Option.bind_some]
        cases bits[offs] with
        | false =>
            simp only [Bool.false_eq_true, if_false]
            rw [ihLeft (offs + 1) (by omega)]
            cases left.walk ((bits.take cutoff).drop (offs + 1)) <;> simp [step]
        | true =>
            simp only [if_true]
            rw [ihRight (offs + 1) (by omega)]
            cases right.walk ((bits.take cutoff).drop (offs + 1)) <;> simp [step]

/-- Without a cutoff the loop reads the codeword that the buffer holds at the offset. -/
theorem decodeLoop_none (bits : List Bool) (initialOffs : Nat) (tree : CodeTree Nat) (offs : Nat)
    {found : Nat × Nat} (walked : tree.walk (bits.drop offs) = some found) :
    decodeLoop bits initialOffs none tree offs = some (some found.1, offs + found.2) := by
  induction tree generalizing offs found with
  | leaf symbol =>
      simp only [walk, Option.some.injEq] at walked
      simp [decodeLoop, check, ← walked]
  | fork left right ihLeft ihRight =>
      by_cases inRange : offs < bits.length
      · rw [List.drop_eq_getElem_cons inRange, walk, Option.map_eq_some_iff] at walked
        obtain ⟨below, walked, rfl⟩ := walked
        simp only [decodeLoop, Option.not_mem_none, false_and, exists_false, if_false, getBit_eq,
          List.getElem?_eq_getElem inRange, Option.bind_eq_bind, Option.bind_some]
        have step : offs + 1 + below.2 = offs + (below.2 + 1) := by omega
        cases bit : bits[offs] with
        | false =>
            simp only [bit, Bool.false_eq_true, if_false] at walked
            rw [ihLeft (offs + 1) walked, step]
        | true =>
            simp only [bit, if_true] at walked
            rw [ihRight (offs + 1) walked, step]
      · rw [List.drop_eq_nil_of_le (by omega)] at walked
        simp [walk] at walked

section Codec

variable {coder : HuffmanEncoderDecoder} {size : Nat} (codec : Codec coder size)
include codec

/-- A written symbol is read back, whatever follows it. -/
theorem Codec.decodeSymbol_word {s : Nat} (inRange : s < size) (before after : List Bool) :
    coder.decodeSymbol (before ++ (coder.word s ++ after)) before.length none =
      some (some s, before.length + (coder.word s).length) := by
  rw [decodeSymbol]
  refine decodeLoop_none _ _ _ _ (?_ : _ = some (s, (coder.word s).length))
  rw [List.drop_left]
  exact walk_codeword (codec.word_mem inRange) after

/-- The codewords of a sequence are read as the sequence, whatever follows them. -/
theorem Codec.decodeSymbols_words {symbols : List Nat} (inRange : ∀ s ∈ symbols, s < size)
    (before after : List Bool) :
    coder.decodeSymbols (before ++ (symbols.flatMap coder.word ++ after)) symbols.length
      before.length = some (symbols, before.length + (symbols.flatMap coder.word).length) := by
  induction symbols generalizing before with
  | nil => simp [decodeSymbols]
  | cons s symbols ih =>
      have rest := ih (fun t member => inRange t (by simp [member])) (before ++ coder.word s)
      rw [List.append_assoc, List.length_append] at rest
      rw [List.flatMap_cons, List.append_assoc, List.length_cons, decodeSymbols,
        codec.decodeSymbol_word (inRange s (by simp))]
      simp [rest, Nat.add_assoc]

/-- A read that finds no whole codeword before the cutoff changes nothing. -/
theorem Codec.decodeSymbol_none {bits : List Bool} {offs ptrLen : Nat} (before : offs ≤ ptrLen)
    (inside : ptrLen ≤ bits.length)
    (absent : ∀ s < size, ¬ coder.word s <+: (bits.take ptrLen).drop offs) :
    coder.decodeSymbol bits offs (some ptrLen) = some (none, offs) := by
  have stuck : coder.root.walk ((bits.take ptrLen).drop offs) = none := by
    rw [walk_eq_none_iff]
    intro entry member starts
    rw [← codec.word_of_mem member] at starts
    exact absent entry.1 (codec.lt_size member) starts
  rw [decodeSymbol, decodeLoop_cutoff bits offs ptrLen inside _ _ before, stuck]

/-- A read with a whole codeword before the cutoff returns its symbol. -/
theorem Codec.decodeSymbol_some {bits : List Bool} {offs ptrLen s : Nat} (before : offs ≤ ptrLen)
    (inside : ptrLen ≤ bits.length) (inRange : s < size)
    (starts : coder.word s <+: (bits.take ptrLen).drop offs) :
    coder.decodeSymbol bits offs (some ptrLen) =
      some (some s, offs + (coder.word s).length) := by
  obtain ⟨rest, split⟩ := starts
  rw [decodeSymbol, decodeLoop_cutoff bits offs ptrLen inside _ _ before, ← split,
    walk_codeword (codec.word_mem inRange)]

end Codec

/-- The coder is a complete prefix code on its symbols with exact incremental decoding. -/
structure CompleteCode (coder : HuffmanEncoderDecoder) (size : Nat) : Prop where
  /-- Each symbol has a nonempty code, stored with its length. -/
  codes : ∀ s < size, coder.word s ≠ [] ∧
    coder.codes[s]? = some (toNat (coder.word s), (coder.word s).length)
  prefixFree : ∀ s < size, ∀ t < size, coder.word s <+: coder.word t → s = t
  kraft : ((List.range size).map fun s => (1 / 2 : ℚ) ^ (coder.word s).length).sum = 1
  /-- Written symbols are read back, whatever was stored before them or follows them. -/
  roundTrip : ∀ symbols : List Nat, (∀ s ∈ symbols, s < size) → ∀ (ptr : BitPtr) (after : List Bool),
    ∃ written, coder.encodeSymbols ptr symbols = some written ∧
      coder.decodeSymbols (written.bits ++ after) symbols.length ptr.offs =
        some (symbols, written.offs)
  /-- A read up to a cutoff fails no check; it returns `-1u` exactly when no codeword ends before the cutoff, and
  it is at the old offset then. Otherwise it returns the only symbol whose codeword does. -/
  cutoff : ∀ (bits : List Bool) (offs ptrLen : Nat), offs ≤ ptrLen → ptrLen ≤ bits.length →
    ∃ answer next, coder.decodeSymbol bits offs (some ptrLen) = some (answer, next) ∧
      (answer = none ↔ ∀ s < size, ¬ coder.word s <+: (bits.take ptrLen).drop offs) ∧
      (answer = none → next = offs) ∧ ∀ s, answer = some s → s < size ∧ next = offs + (coder.word s).length ∧
        ∀ t < size, coder.word t <+: (bits.take ptrLen).drop offs ↔ t = s

/-- A codec is a complete prefix code. -/
theorem Codec.completeCode {coder : HuffmanEncoderDecoder} {size : Nat}
    (codec : Codec coder size) : CompleteCode coder size where
  codes s inRange := ⟨codec.word_ne_nil inRange, codec.codes_eq inRange⟩
  prefixFree s inRangeS t inRangeT starts := codec.word_prefixFree inRangeS inRangeT starts
  kraft := codec.kraft_sum
  roundTrip symbols inRange ptr after := by
    refine ⟨_, codec.encodeSymbols_eq inRange ptr, ?_⟩
    rw [BitPtr.push_bits, List.append_assoc, BitPtr.push_offs]
    exact codec.decodeSymbols_words inRange ptr.bits after
  cutoff bits offs ptrLen before inside := by
    by_cases whole : ∃ s < size, coder.word s <+: (bits.take ptrLen).drop offs
    · obtain ⟨s, inRange, starts⟩ := whole
      refine ⟨some s, _, codec.decodeSymbol_some before inside inRange starts, ?_, ?_, ?_⟩
      · constructor
        · intro impossible
          contradiction
        · intro absent
          exact absurd starts (absent s inRange)
      · intro impossible
        contradiction
      · rintro _ ⟨rfl⟩
        refine ⟨inRange, rfl, fun t inRangeT => ⟨fun other => ?_, fun same => same ▸ starts⟩⟩
        rcases List.prefix_or_prefix_of_prefix other starts with shorter | longer
        · exact codec.word_prefixFree inRangeT inRange shorter
        · exact (codec.word_prefixFree inRange inRangeT longer).symm
    · have absent : ∀ s < size, ¬ coder.word s <+: (bits.take ptrLen).drop offs :=
        fun s inRange starts => whole ⟨s, inRange, starts⟩
      refine ⟨none, offs, codec.decodeSymbol_none before inside absent, ?_, fun _ => rfl, ?_⟩
      · exact ⟨fun _ => absent, fun _ => rfl⟩
      · intro s impossible
        contradiction

/-- Two or more frequencies with a sum below `2 ^ 32` give a complete prefix code. -/
theorem ofFreq_completeCode (freq : List Nat) (two : 2 ≤ freq.length)
    (fits : sumFreq freq < 2 ^ 32) :
    ∃ coder, ofFreq freq = some coder ∧ coder.codes.length = freq.length ∧
      CompleteCode coder freq.length := by
  obtain ⟨coder, built, codec, _⟩ := ofFreq_spec freq two fits
  exact ⟨coder, built, codec.codes_length, codec.completeCode⟩

/-- The code of the first descriptors. -/
theorem ofFreq_completeCode_d1 :
    ∃ coder, ofFreq d1Freq = some coder ∧ coder.codes.length = d1Freq.length ∧
      CompleteCode coder d1Freq.length :=
  ofFreq_completeCode d1Freq (by decide) (by decide)

end CellBag.Huffman.HuffmanEncoderDecoder
