import CellBag.Proof.HuffmanCodec

/-!
The coders of tables that are long enough and light enough.
-/

namespace CellBag.Huffman
open BitString HuffmanEncoderDecoder

/-- A coder with short codewords for the first symbols. -/
structure Usable (coder : HuffmanEncoderDecoder) (symbols : Nat) : Prop where
  codec : ∃ size, symbols ≤ size ∧ Codec coder size
  short : ∀ s < symbols, (coder.word s).length ≤ 45

/-- The constructor builds a usable coder from any table that is long enough and whose sum fits. -/
theorem usable_of_sum {freq : List Nat} {symbols : Nat} (two : 2 ≤ freq.length)
    (long : symbols ≤ freq.length) (fits : sumFreq freq < 2 ^ 32) :
    ∃ coder, ofFreq freq = some coder ∧ Usable coder symbols := by
  obtain ⟨coder, built, codec, balanced⟩ := ofFreq_spec freq two fits
  refine ⟨coder, built, ⟨_, long, codec⟩, fun s inRange => ?_⟩
  have member := codec.word_mem (Nat.lt_of_lt_of_le inRange long)
  exact (depth_le balanced codec.leaves fits member).2

/-- A table with short codewords: its sum stays below the 25th Fibonacci number. -/
structure TableFits (freq : List Nat) (symbols : Nat) : Prop where
  two : 2 ≤ freq.length
  long : symbols ≤ freq.length
  light : sumFreq freq < 75025

/-- The 25th Fibonacci number. -/
theorem fib_25 : Nat.fib 25 = 75025 := by norm_num

/-- A table with short codewords gives a usable coder. -/
theorem TableFits.usable {freq : List Nat} {symbols : Nat} (fits : TableFits freq symbols) :
    ∃ coder, ofFreq freq = some coder ∧ Usable coder symbols := by
  have light := fits.light
  exact usable_of_sum fits.two fits.long (by omega)

/-- The codewords of a light table. -/
theorem TableFits.length_word_le {freq : List Nat} {symbols s : Nat} {coder : HuffmanEncoderDecoder}
    (fits : TableFits freq symbols) (built : ofFreq freq = some coder) (inRange : s < symbols) :
    (coder.word s).length ≤ 22 := by
  have light := fits.light
  obtain ⟨_, same, codec, balanced⟩ := ofFreq_spec freq fits.two (by omega)
  obtain rfl := Option.some.inj (built.symm.trans same)
  by_contra long
  have member := codec.word_mem (Nat.lt_of_lt_of_le inRange fits.long)
  have heavy := (depth_le balanced codec.leaves (by omega) member).1
  have grows : Nat.fib 25 ≤ Nat.fib ((coder.word s).length + 2) := Nat.fib_mono (by omega)
  rw [fib_25] at grows
  simp only at heavy
  omega

section Usable
variable {coder : HuffmanEncoderDecoder} {symbols s : Nat}

/-- No codeword is empty. -/
theorem Usable.word_pos (usable : Usable coder symbols) (inRange : s < symbols) :
    0 < (coder.word s).length := by
  obtain ⟨size, enough, codec⟩ := usable.codec
  exact codec.word_pos (Nat.lt_of_lt_of_le inRange enough)

/-- `encode_symbol` stores the codeword. -/
theorem Usable.encodeSymbol_eq (usable : Usable coder symbols) (inRange : s < symbols)
    (ptr : BitPtr) :
    coder.encodeSymbol ptr s = some ((coder.word s).length, ptr.push (coder.word s)) := by
  obtain ⟨size, enough, codec⟩ := usable.codec
  exact codec.encodeSymbol_eq (Nat.lt_of_lt_of_le inRange enough) ptr

/-- `decode_symbol` reads a codeword, whatever follows it. -/
theorem Usable.decodeSymbol_word (usable : Usable coder symbols) (inRange : s < symbols)
    (before after : List Bool) :
    coder.decodeSymbol (before ++ (coder.word s ++ after)) before.length none =
      some (some s, before.length + (coder.word s).length) := by
  obtain ⟨size, enough, codec⟩ := usable.codec
  exact codec.decodeSymbol_word (Nat.lt_of_lt_of_le inRange enough) before after

/-- A read before the cutoff returns the symbol whose codeword comes next if all of it is there. -/
theorem Usable.decodeSymbol_cutoff (usable : Usable coder symbols) (inRange : s < symbols)
    {buffer rest : List Bool} {offs ptrLen : Nat} (before : offs ≤ ptrLen)
    (inside : ptrLen ≤ buffer.length)
    (next : (buffer.take ptrLen).drop offs = (coder.word s ++ rest).take (ptrLen - offs)) :
    coder.decodeSymbol buffer offs (some ptrLen) =
      if offs + (coder.word s).length ≤ ptrLen then some (some s, offs + (coder.word s).length)
      else some (none, offs) := by
  obtain ⟨size, enough, codec⟩ := usable.codec
  have inSize := Nat.lt_of_lt_of_le inRange enough
  by_cases whole : offs + (coder.word s).length ≤ ptrLen
  · rw [if_pos whole]
    apply codec.decodeSymbol_some before inside inSize
    rw [next, List.prefix_take_iff]
    exact ⟨List.prefix_append _ _, by omega⟩
  · rw [if_neg whole]
    refine codec.decodeSymbol_none before inside fun other inSizeOther starts => ?_
    rw [next] at starts
    have short := starts.length_le
    rw [List.length_take] at short
    have both : coder.word other <+: coder.word s ++ rest := starts.trans (List.take_prefix _ _)
    rcases List.prefix_or_prefix_of_prefix both (List.prefix_append _ _) with shorter | longer
    · have same := codec.word_prefixFree inSizeOther inSize shorter
      rw [same] at short
      omega
    · have same := codec.word_prefixFree inSize inSizeOther longer
      rw [← same] at short
      omega

end Usable

/-- Tables whose coders reach the symbols that the serializer uses. -/
structure Tables.Valid (tables : Tables) : Prop where
  d1 : TableFits tables.d1Freq 13
  dataSize : TableFits tables.dataSizeFreq 1024
  literalLengths : TableFits tables.literalLengthsFreq 501
  matchLen : TableFits tables.matchLenFreq 301
  cellIdOffset : TableFits tables.cellIdOffsetFreq 1001
  offsetWithinCell : TableFits tables.offsetWithinCellFreq 1048

/-- All static tables fit. -/
theorem sourceTables_valid : sourceTables.Valid where
  d1 := ⟨by decide +kernel, by decide +kernel, by decide +kernel⟩
  dataSize := ⟨by decide +kernel, by decide +kernel, by decide +kernel⟩
  literalLengths := ⟨by decide +kernel, by decide +kernel, by decide +kernel⟩
  matchLen := ⟨by decide +kernel, by decide +kernel, by decide +kernel⟩
  cellIdOffset := ⟨by decide +kernel, by decide +kernel, by decide +kernel⟩
  offsetWithinCell := ⟨by decide +kernel, by decide +kernel, by decide +kernel⟩

/-- The coders that valid tables give. -/
structure Coders (tables : Tables) where
  d1 : HuffmanEncoderDecoder
  dataSize : HuffmanEncoderDecoder
  literalLen : HuffmanEncoderDecoder
  matchLen : HuffmanEncoderDecoder
  cellIdOffset : HuffmanEncoderDecoder
  offsetWithinCell : HuffmanEncoderDecoder
  d1_built : ofFreq tables.d1Freq = some d1
  dataSize_built : ofFreq tables.dataSizeFreq = some dataSize
  literalLen_built : ofFreq tables.literalLengthsFreq = some literalLen
  matchLen_built : ofFreq tables.matchLenFreq = some matchLen
  cellIdOffset_built : ofFreq tables.cellIdOffsetFreq = some cellIdOffset
  offsetWithinCell_built : ofFreq tables.offsetWithinCellFreq = some offsetWithinCell
  d1_usable : Usable d1 13
  dataSize_usable : Usable dataSize 1024
  literalLen_usable : Usable literalLen 501
  matchLen_usable : Usable matchLen 301
  cellIdOffset_usable : Usable cellIdOffset 1001
  offsetWithinCell_usable : Usable offsetWithinCell 1048

/-- Fitting tables have coders. -/
theorem Tables.Valid.coders {tables : Tables} (valid : tables.Valid) : Nonempty (Coders tables) := by
  obtain ⟨d1, d1Built, d1Usable⟩ := valid.d1.usable
  obtain ⟨dataSize, dataSizeBuilt, dataSizeUsable⟩ := valid.dataSize.usable
  obtain ⟨literalLen, literalLenBuilt, literalLenUsable⟩ := valid.literalLengths.usable
  obtain ⟨matchLen, matchLenBuilt, matchLenUsable⟩ := valid.matchLen.usable
  obtain ⟨cellIdOffset, cellIdOffsetBuilt, cellIdOffsetUsable⟩ := valid.cellIdOffset.usable
  obtain ⟨offset, offsetBuilt, offsetUsable⟩ := valid.offsetWithinCell.usable
  exact ⟨⟨d1, dataSize, literalLen, matchLen, cellIdOffset, offset, d1Built, dataSizeBuilt,
    literalLenBuilt, matchLenBuilt, cellIdOffsetBuilt, offsetBuilt, d1Usable, dataSizeUsable,
    literalLenUsable, matchLenUsable, cellIdOffsetUsable, offsetUsable⟩⟩

end CellBag.Huffman
