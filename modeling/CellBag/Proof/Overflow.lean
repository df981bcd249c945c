import CellBag.Proof.ParseCost
import CellBag.Proof.SerializedBits

/-!
The two buffers whose sizes are a guess: the output of `run_lz`, and the bits that `deserialise` restores.
-/

namespace CellBag.Serializator
open BitString CommonPrefix Huffman Recurrence

/-- `serialize` is `run_lz` on its bits. -/
theorem serialize_eq {tables : Tables} {root : Cell} {bits : List Bool} {metas : List SerializeMetaData}
    (handed : serializeBits tables root = some (bits, metas)) :
    serialize tables root = runLz tables bits metas := by
  rw [serialize, handed]
  rfl

section Sizes
variable {tables : Tables} {coders : Coders tables} {myCells : List MyCell}

variable (coders) in
/-- The stores of `run_lz` for any parse. -/
theorem runTokens_inside (valid : WritableCells myCells) {tokens : List Token}
    (parses : Parses (streamBits coders myCells) 0 tokens) :
    ∃ ptr, (lzContext coders myCells).runTokens tokens = some ptr ∧
      ptr.size = outputRoom (streamBits coders myCells).length ∧
      ptr.offs = (lzContext coders myCells).parseCost tokens ∧
      storedBytes ptr = markedBytes ((lzContext coders myCells).payload tokens) ∧
      (ptr.inside = true ↔
        (lzContext coders myCells).parseCost tokens ≤ outputRoom (streamBits coders myCells).length) := by
  have cost := length_payload (lzContext coders myCells) parses
  refine ⟨_, runTokens_eq valid parses, rfl, ?_, storedBytes_eq _ _, ?_⟩
  · rw [BitPtr.push_offs, List.length_append, List.length_singleton, cost, BitPtr.start_offs, Nat.zero_add]
  · rw [BitPtr.start_push_inside, List.length_append, List.length_singleton, cost]
    rfl

variable (coders) in
/-- The stores of `run_lz` are the greedy parse and the end mark. -/
theorem runLzBits_inside (valid : WritableCells myCells) :
    ∃ ptr, runLzBits tables (streamBits coders myCells) (streamMetas coders myCells) = some ptr ∧
      ptr.size = outputRoom (streamBits coders myCells).length ∧
      ptr.offs = (lzContext coders myCells).parseCost (greedyTokens (streamBits coders myCells)) ∧
      storedBytes ptr =
        markedBytes ((lzContext coders myCells).payload (greedyTokens (streamBits coders myCells))) ∧
      (ptr.inside = true ↔ (lzContext coders myCells).parseCost (greedyTokens (streamBits coders myCells)) ≤
        outputRoom (streamBits coders myCells).length) := by
  have parses := greedyTokens_parses (streamBits coders myCells)
  obtain ⟨ptr, ran, counts⟩ := runTokens_inside coders valid parses
  rw [runTokens_eq valid parses] at ran
  exact ⟨ptr, (runLzBits_eq valid).trans ran, counts⟩

variable (coders) in
/-- `run_lz` has an output exactly if the greedy parse fits into `output_bytes`. -/
theorem runLz_eq (valid : WritableCells myCells) :
    runLz tables (streamBits coders myCells) (streamMetas coders myCells) =
      if (lzContext coders myCells).parseCost (greedyTokens (streamBits coders myCells)) ≤
        outputRoom (streamBits coders myCells).length then some (markedBytes
          ((lzContext coders myCells).payload (greedyTokens (streamBits coders myCells)))) else none := by
  obtain ⟨ptr, stored, -, -, bytes, inside⟩ := runLzBits_inside coders valid
  rw [runLz, stored, Option.bind_eq_bind, Option.bind_some, lzOutput_eq, bytes]
  exact if_congr inside rfl rfl

/-- The bytes of a parse. -/
theorem length_lz {tokens : List Token} (parses : Parses (streamBits coders myCells) 0 tokens) :
    (markedBytes ((lzContext coders myCells).payload tokens)).length =
      ((lzContext coders myCells).parseCost tokens + 7) / 8 := by
  rw [markedBytes, length_toBytes, ← length_payload (lzContext coders myCells) parses]

/-- The bytes of a parse hold at least the bits that no token matches. -/
theorem le_length_lz {tokens : List Token} (parses : Parses (streamBits coders myCells) 0 tokens) :
    (streamBits coders myCells).length + 21 ≤
      8 * (markedBytes ((lzContext coders myCells).payload tokens)).length + matchedBits tokens := by
  have bytes := length_lz parses
  have cost := le_parseCost (lzContext coders myCells) parses
  change (streamBits coders myCells).length + 21 ≤
    (lzContext coders myCells).parseCost tokens + matchedBits tokens at cost
  omega

variable (coders) in
/-- The output of `run_lz` holds at least the bits that are not repeated. -/
theorem le_length_runLz (valid : WritableCells myCells) {lz : List UInt8}
    (written : runLz tables (streamBits coders myCells) (streamMetas coders myCells) = some lz) :
    (streamBits coders myCells).length + 21 ≤ 8 * lz.length + repeatedBits (streamBits coders myCells) := by
  have bytes := le_length_lz (greedyTokens_parses (streamBits coders myCells))
  have matched := matchedBits_greedy_le (streamBits coders myCells)
  rw [runLz_eq coders valid] at written
  split_ifs at written
  obtain rfl := Option.some.inj written
  omega

/-- The reader of a parse stays inside its buffer exactly if twice the bytes of the parse hold all bits. -/
theorem readLz_room (valid : ValidCells myCells) {tokens : List Token}
    (parses : Parses (streamBits coders myCells) 0 tokens) :
    ∃ reader parser, readLz tables (markedBytes ((lzContext coders myCells).payload tokens)) =
        some (reader, parser, reader.lzCntBits) ∧
      parser.outBits.bits = streamBits coders myCells ∧
      parser.myCells = cellsAt myCells (4 * myCells.length) ∧
      parser.outBits.size = 16 * (markedBytes ((lzContext coders myCells).payload tokens)).length ∧
      (parser.outBits.inside = true ↔ (streamBits coders myCells).length ≤
        16 * (markedBytes ((lzContext coders myCells).payload tokens)).length) := by
  refine ⟨_, _, readLz_eq valid parses, by simp [view], rfl, ?_, ?_⟩
  · simp only [view, BitPtr.push_size, BitPtr.start_size]
    omega
  · rw [BitPtr.inside_iff]
    simp only [view, BitPtr.push_size, BitPtr.start_size, BitPtr.push_bits, BitPtr.start_bits,
      List.nil_append, List.take_length]
    omega

end Sizes

/-- The codeword of a cell without refs has four bits. -/
theorem d1Word_length (coders : Coders sourceTables) : (coders.d1.word 0).length = 4 := by
  have code : (HuffmanEncoderDecoder.ofFreq d1Freq).map (fun coder => (coder.word 0).length) = some 4 := by
    decide +kernel
  have built : HuffmanEncoderDecoder.ofFreq d1Freq = some coders.d1 := coders.d1_built
  rwa [built, Option.map_some, Option.some.injEq] at code

/-- Twelve bytes whose first six bits occur once, and no 32 bits twice. -/
def freshBytes : List UInt8 :=
  [0xfd, 0x8e, 0x1d, 0x5d, 0xd9, 0x25, 0x89, 0x08, 0x2d, 0x85, 0x2a, 0x71]

/-- A bag of one cell of these bytes. -/
def bytesLeaf : Cell := .leaf (ofBytes freshBytes)

/-- The first six bits come only once. -/
theorem freshBytes_once : ∀ a < 91, 0 < a →
    ((ofBytes freshBytes).drop a).take 6 ≠ (ofBytes freshBytes).take 6 := by decide +kernel

/-- No stretch of the bytes comes again. -/
theorem freshBytes_fresh : ∀ a < 65, ¬ Recurs MIN_MATCH_LEN (ofBytes freshBytes) a := by decide +kernel

/-- The leaf is valid. -/
theorem bytesLeaf_valid : ∀ cell, bytesLeaf.Reaches cell → cell.Valid :=
  Cell.leaf_valid (by decide)

/-- No bits of this bag are repeated, and one literal of its bits fits. -/
theorem bytesLeaf_bits (coders : Coders sourceTables) : ∃ myCell, WritableCells [myCell] ∧
    serializeBits sourceTables bytesLeaf =
      some (streamBits coders [myCell], streamMetas coders [myCell]) ∧
    repeatedBits (streamBits coders [myCell]) = 0 ∧ LiteralFits (streamBits coders [myCell]).length := by
  have size : (ofBytes freshBytes).length = 96 := by rw [length_ofBytes]; rfl
  obtain ⟨myCell, writable, stream, run⟩ := serializeBits_leaf coders (show (ofBytes freshBytes).length ≤ 1023 by omega)
  have d1 := d1Word_length coders
  have dataSize := sourceTables_valid.dataSize.length_word_le coders.dataSize_built
    (show (ofBytes freshBytes).length < 1024 by omega)
  refine ⟨myCell, writable, run, ?_, ?_⟩
  · rw [stream, ← List.append_assoc]
    refine covered_eq_zero (not_recurs_append (k := 6) ?_ ?_ ?_)
    · rw [List.length_append, d1]
      change 4 + _ + 6 ≤ 32
      omega
    · intro a later inside
      exact freshBytes_once a (by omega) later
    · intro a recurs
      exact freshBytes_fresh a (by have inside : a + 32 ≤ _ := recurs.1; omega) recurs
  · rw [stream, List.length_append, List.length_append, size]
    exact .inr (by omega)

/-- `serialize` has an output for this bag, and twice that output holds its bits. -/
theorem bytesLeaf_written : ∃ bits metas lz, serializeBits sourceTables bytesLeaf = some (bits, metas) ∧
    serialize sourceTables bytesLeaf = some lz ∧ bits.length ≤ 16 * lz.length := by
  obtain ⟨coders⟩ := sourceTables_valid.coders
  obtain ⟨myCell, writable, run, fresh, fits⟩ := bytesLeaf_bits coders
  have written : ∃ lz, runLz sourceTables (streamBits coders [myCell]) (streamMetas coders [myCell]) =
      some lz := by
    rw [runLz_eq coders writable, if_pos ((parseCost_fresh_iff coders fresh).mpr fits)]
    exact ⟨_, rfl⟩
  obtain ⟨lz, written⟩ := written
  have bytes := le_length_runLz coders writable written
  exact ⟨_, _, lz, run, (serialize_eq run).trans written, by omega⟩

/-- The stores of `run_lz` stay inside its buffer if a small part of the bits is repeated. Without repeated bits they
do so exactly for the lengths of a fitting literal. -/
theorem runLzBits_inside_iff {root : Cell} (coherent : root.Coherent)
    (valid : ∀ cell, root.Reaches cell → cell.Valid) :
    ∃ cells, Flattened root cells ∧ (cells.length < 2 ^ BITS_FOR_N_CELLS → ∃ bits metas ptr,
      serializeBits sourceTables root = some (bits, metas) ∧
      runLzBits sourceTables bits metas = some ptr ∧
      ptr.size = 8 * ((bits.length / 8 + 1) * 4 / 3) ∧
      (repeatedBits bits = 0 → (ptr.inside = true ↔ LiteralFits bits.length)) ∧
      (10 * repeatedBits bits + 131 ≤ bits.length → ptr.inside = true)) := by
  obtain ⟨coders⟩ := sourceTables_valid.coders
  obtain ⟨cells, newCells, myCells, flattened, -, -, handed⟩ := serializeBits_spec coders coherent valid
  refine ⟨cells, flattened, fun few => ?_⟩
  obtain ⟨sent, run⟩ := handed few
  obtain ⟨ptr, stored, size, -, -, inside⟩ := runLzBits_inside coders sent.toWritableCells
  refine ⟨_, _, ptr, run, stored, size, fun fresh => ?_, fun most => ?_⟩
  · rw [inside]
    exact parseCost_fresh_iff coders fresh
  · rw [inside]
    exact parseCost_greedy_le coders sent most

/-- The leaf fits into the buffer of `run_lz` as one literal. -/
theorem runLzBits_inside_iff_bytes : ∃ bits metas ptr,
    serializeBits sourceTables bytesLeaf = some (bits, metas) ∧
      runLzBits sourceTables bits metas = some ptr ∧ repeatedBits bits = 0 ∧ LiteralFits bits.length ∧
      ptr.inside = true := by
  obtain ⟨coders⟩ := sourceTables_valid.coders
  obtain ⟨myCell, -, run, fresh, fits⟩ := bytesLeaf_bits coders
  obtain ⟨cells, flattened, runs⟩ := runLzBits_inside_iff (Cell.leaf_coherent _) bytesLeaf_valid
  obtain rfl := flattened.eq_single fun cell => Cell.leaf_reaches
  obtain ⟨bits, metas, ptr, handed, stored, -, inside, -⟩ := runs (by decide)
  obtain ⟨rfl, rfl⟩ := Prod.mk.inj (Option.some.inj (run.symm.trans handed))
  exact ⟨_, _, ptr, run, stored, fresh, fits, (inside fresh).mpr fits⟩

/-- A bag of one empty cell takes more bits than its buffer has. -/
theorem runLzBits_leaf_outside : (Cell.leaf []).Coherent ∧
    (∀ cell, (Cell.leaf []).Reaches cell → cell.Valid) ∧
    ∃ bits metas ptr, serializeBits sourceTables (Cell.leaf []) = some (bits, metas) ∧
      runLzBits sourceTables bits metas = some ptr ∧ ptr.inside = false ∧ ptr.size < ptr.offs := by
  obtain ⟨coders⟩ := sourceTables_valid.coders
  obtain ⟨myCell, writable, stream, run⟩ := serializeBits_leaf coders (show [].length ≤ 1023 from Nat.zero_le _)
  have d1 := d1Word_length coders
  have dataSize := sourceTables_valid.dataSize.length_word_le coders.dataSize_built
    (show 0 < 1024 by decide)
  have short : (streamBits coders [myCell]).length ≤ 26 := by
    rw [stream, List.length_append, List.append_nil, d1]
    change 4 + (coders.dataSize.word 0).length ≤ 26
    omega
  obtain ⟨ptr, stored, size, offs, -, inside⟩ := runLzBits_inside coders writable
  have fresh : repeatedBits (streamBits coders [myCell]) = 0 :=
    covered_eq_zero fun a recurs => absurd recurs.1 (by change ¬ a + 32 ≤ _; omega)
  have long : ¬ LiteralFits (streamBits coders [myCell]).length := by
    rw [LiteralFits]
    simp only [List.mem_cons, List.not_mem_nil, or_false]
    omega
  rw [← parseCost_fresh_iff coders fresh] at long
  refine ⟨Cell.leaf_coherent [], Cell.leaf_valid (Nat.zero_le 1023), _, _, ptr, run, stored, ?_, ?_⟩
  · rw [Bool.eq_false_iff, ne_eq, inside]
    exact long
  · rw [size, offs]
    exact Nat.not_le.mp long

/-- `deserialise` stays inside the buffer for its output if at most half of the bits are repeated. -/
theorem readLz_inside {root : Cell} (coherent : root.Coherent)
    (valid : ∀ cell, root.Reaches cell → cell.Valid) :
    ∃ cells, Flattened root cells ∧ (cells.length < 2 ^ BITS_FOR_N_CELLS →
      ∀ lz, serialize sourceTables root = some lz → ∃ bits metas reader parser,
        serializeBits sourceTables root = some (bits, metas) ∧
        readLz sourceTables lz = some (reader, parser, reader.lzCntBits) ∧
        parser.outBits.bits = bits ∧ parser.outBits.size = 16 * lz.length ∧
        (2 * repeatedBits bits ≤ bits.length + 42 →
          bits.length ≤ 16 * lz.length ∧ parser.outBits.inside = true)) := by
  obtain ⟨coders⟩ := sourceTables_valid.coders
  obtain ⟨cells, newCells, myCells, flattened, -, -, handed⟩ := serializeBits_spec coders coherent valid
  refine ⟨cells, flattened, fun few lz written => ?_⟩
  obtain ⟨sent, run⟩ := handed few
  rw [serialize_eq run] at written
  have bytes := le_length_runLz coders sent.toWritableCells written
  rw [runLz_eq coders sent.toWritableCells] at written
  split_ifs at written
  obtain rfl := Option.some.inj written
  obtain ⟨reader, parser, read, bits, -, size, inside⟩ := readLz_room sent (greedyTokens_parses _)
  refine ⟨_, _, reader, parser, run, read, bits, size, fun fresh => ?_⟩
  have room : (streamBits coders myCells).length ≤ 16 * (markedBytes ((lzContext coders myCells).payload
      (greedyTokens (streamBits coders myCells)))).length := by omega
  exact ⟨room, inside.mpr room⟩

/-- Its bits fit into the buffer of `deserialise`. -/
theorem readLz_inside_bytes : ∃ lz bits metas reader parser,
    serialize sourceTables bytesLeaf = some lz ∧
      serializeBits sourceTables bytesLeaf = some (bits, metas) ∧
      readLz sourceTables lz = some (reader, parser, reader.lzCntBits) ∧
      2 * repeatedBits bits ≤ bits.length + 42 ∧ bits.length ≤ 16 * lz.length ∧
      parser.outBits.inside = true := by
  obtain ⟨coders⟩ := sourceTables_valid.coders
  obtain ⟨myCell, -, run, fresh, -⟩ := bytesLeaf_bits coders
  obtain ⟨_, _, lz, -, written, -⟩ := bytesLeaf_written
  obtain ⟨cells, flattened, runs⟩ := readLz_inside (Cell.leaf_coherent _) bytesLeaf_valid
  obtain rfl := flattened.eq_single fun cell => Cell.leaf_reaches
  obtain ⟨bits, metas, reader, parser, handed, read, -, -, inside⟩ := runs (by decide) lz written
  obtain ⟨rfl, rfl⟩ := Prod.mk.inj (Option.some.inj (run.symm.trans handed))
  have half : 2 * repeatedBits (streamBits coders [myCell]) ≤ (streamBits coders [myCell]).length + 42 := by
    omega
  obtain ⟨room, held⟩ := inside half
  exact ⟨lz, _, _, reader, parser, written, run, read, half, room, held⟩

/-- A run of zeros behind a short start costs few bits. -/
theorem parseCost_zeros {coders : Coders sourceTables} {myCells : List MyCell}
    (valid : WritableCells myCells) (single : myCells.length = 1) {z : Nat}
    (zeros : ZerosFrom (streamBits coders myCells) z) (small : z ≤ 26)
    (long : 500 ≤ (streamBits coders myCells).length)
    (short : (streamBits coders myCells).length ≤ 1049) :
    (lzContext coders myCells).parseCost (greedyTokens (streamBits coders myCells)) ≤ 254 := by
  have th : MIN_MATCH_LEN = 32 := rfl
  have one := cellIdOffset_lt coders valid
    ⟨z + 1, z, (streamBits coders myCells).length - (z + 1)⟩
  obtain ⟨_, _, _, _, within, _⟩ := context_at coders valid (show z < _ by omega)
  have literal : symbolCost coders.literalLen LITERAL_LEN_TH BITS_TO_DUMP_LITERAL_LEN (z + 1) ≤ 22 := by
    apply (symbolCost_le sourceTables_valid.literalLengths coders.literalLen_built _ _).trans
    rw [if_neg (show ¬ 500 ≤ z + 1 by omega)]
  have length : symbolCost coders.matchLen MATCH_LEN_TH BITS_TO_DUMP_MATCH_LEN
      ((streamBits coders myCells).length - (z + 1)) ≤ 46 := by
    apply (symbolCost_le sourceTables_valid.matchLen coders.matchLen_built _ _).trans
    split_ifs
    · change 22 + 8 * (((streamBits coders myCells).length - (z + 1) - 300) / 255 + 1) ≤ 46
      omega
    · omega
  have offset : symbolCost coders.offsetWithinCell OFFSET_WITHIN_CELL_TH
      BITS_FOR_WITHIN_CELL_OFFSET_CURPLUS ((lzContext coders myCells).withinCellOffset.getD z 0) ≤ 110 := by
    apply (symbolCost_le sourceTables_valid.offsetWithinCell coders.offsetWithinCell_built _ _).trans
    split_ifs
    · change 22 + 4 * (((lzContext coders myCells).withinCellOffset.getD z 0 - 1047) / 15 + 1) ≤ 110
      omega
    · omega
  have cell : cellIdOffsetCost coders.cellIdOffset myCells.length 0 ≤ 22 :=
    sourceTables_valid.cellIdOffset.length_word_le coders.cellIdOffset_built (by decide)
  have whole : z + 1 + ((streamBits coders myCells).length - (z + 1)) =
      (streamBits coders myCells).length := by omega
  have header : BITS_FOR_N_CELLS = 20 := rfl
  rw [single, Nat.lt_one_iff] at one
  rw [zeros.greedyTokens_eq (by omega) (by omega), LzContext.parseCost, LzContext.tokensCost,
    LzContext.tokensCost, LzContext.tokenCost, one, literalCost, whole, Nat.sub_zero, header]
  rw [if_neg (show ¬ (streamBits coders myCells).length < (lzContext coders myCells).bits.length from
    Nat.lt_irrefl _)]
  change 20 + (symbolCost coders.literalLen LITERAL_LEN_TH BITS_TO_DUMP_LITERAL_LEN (z + 1) + (z + 1) +
    symbolCost coders.matchLen MATCH_LEN_TH BITS_TO_DUMP_MATCH_LEN
      ((streamBits coders myCells).length - (z + 1)) +
    cellIdOffsetCost coders.cellIdOffset myCells.length 0 +
    symbolCost coders.offsetWithinCell OFFSET_WITHIN_CELL_TH BITS_FOR_WITHIN_CELL_OFFSET_CURPLUS
      ((lzContext coders myCells).withinCellOffset.getD z 0) + 0) + 1 ≤ 254
  omega

/-- A bag of one cell with a long run of zeros overruns the buffer of its reader. -/
theorem zeros_overrun {k : Nat} (long : 512 ≤ k) (short : k ≤ 1023) :
    ∃ bits metas lz reader parser,
      serializeBits sourceTables (Cell.leaf (List.replicate k false)) = some (bits, metas) ∧
        serialize sourceTables (Cell.leaf (List.replicate k false)) = some lz ∧
        16 * lz.length < bits.length ∧
        readLz sourceTables lz = some (reader, parser, reader.lzCntBits) ∧
        parser.outBits.inside = false := by
  obtain ⟨coders⟩ := sourceTables_valid.coders
  have size : (List.replicate k false).length = k := List.length_replicate
  obtain ⟨myCell, writable, stream, run⟩ := serializeBits_leaf coders (size.trans_le short)
  have d1 := d1Word_length coders
  have dataSize := sourceTables_valid.dataSize.length_word_le coders.dataSize_built
    (show k < 1024 by omega)
  have total : (streamBits coders [myCell]).length = 4 + (coders.dataSize.word k).length + k := by
    rw [stream, List.length_append, List.length_append, d1, size, Nat.add_assoc]
  obtain ⟨z, small, zeros⟩ := exists_zerosFrom (coders.d1.word 0 ++ coders.dataSize.word k) k
  rw [List.length_append, d1] at small
  rw [size] at stream
  rw [List.append_assoc, ← stream] at zeros
  have cost := parseCost_zeros writable rfl zeros (by omega) (by omega) (by omega)
  have parses := greedyTokens_parses (streamBits coders [myCell])
  have bytes := length_lz parses
  have fits : (lzContext coders [myCell]).parseCost (greedyTokens (streamBits coders [myCell])) ≤
      outputRoom (streamBits coders [myCell]).length := by
    rw [outputRoom]
    omega
  obtain ⟨reader, parser, read, -, -, -, inside⟩ := readLz_room ⟨writable, show 1 < 2 ^ 20 by decide⟩ parses
  have longer : ¬ (streamBits coders [myCell]).length ≤ 16 * (markedBytes ((lzContext coders
      [myCell]).payload (greedyTokens (streamBits coders [myCell])))).length := by omega
  refine ⟨_, _, _, reader, parser, run, ?_, Nat.not_le.mp longer, read, ?_⟩
  · rw [serialize_eq run, runLz_eq coders writable, if_pos fits]
  · rw [Bool.eq_false_iff, ne_eq, inside]
    exact longer

/-- A bag of one cell with 1023 zeros. -/
theorem readLz_leaf_outside : (Cell.leaf (List.replicate 1023 false)).Coherent ∧
    (∀ cell, (Cell.leaf (List.replicate 1023 false)).Reaches cell → cell.Valid) ∧
    ∃ bits metas lz reader parser,
      serializeBits sourceTables (Cell.leaf (List.replicate 1023 false)) = some (bits, metas) ∧
        serialize sourceTables (Cell.leaf (List.replicate 1023 false)) = some lz ∧
        16 * lz.length < bits.length ∧
        readLz sourceTables lz = some (reader, parser, reader.lzCntBits) ∧
        parser.outBits.inside = false :=
  ⟨Cell.leaf_coherent _, Cell.leaf_valid (List.length_replicate.trans_le (Nat.le_refl 1023)),
    zeros_overrun (by decide) (Nat.le_refl 1023)⟩

end CellBag.Serializator
