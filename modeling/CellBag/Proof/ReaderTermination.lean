import CellBag.Library.WhileLoop
import CellBag.Proof.ByteStream
import CellBag.Proof.ReaderSafety

/-!
The loops of `decode_8` and `deserialise` end on any input: each turn that goes on reads a bit or a field.
-/

namespace CellBag.Huffman
open BitString CodeTree HuffmanEncoderDecoder WhileLoop

/-- A symbol of a coder with two symbols takes a bit. -/
theorem decodeSymbol_lt {coder : HuffmanEncoderDecoder} (isFork : coder.root.IsFork) {bits : List Bool}
    {offs next : Nat} {answer : Option Nat}
    (read : coder.decodeSymbol bits offs none = some (answer, next)) : offs < next := by
  obtain ⟨found, walked, -, reached⟩ := decodeLoop_walk read
  cases tree : coder.root with
  | leaf symbol =>
      rw [tree] at isFork
      exact isFork.elim
  | fork left right =>
      rw [tree] at walked
      cases tail : bits.drop offs with
      | nil =>
          rw [tail, walk] at walked
          cases walked
      | cons bit rest =>
          rw [tail, walk, Option.map_eq_some_iff] at walked
          obtain ⟨below, -, rfl⟩ := walked
          omega

/-- A symbol does not move the offset back. -/
theorem decodeSymbol_offs_le {coder : HuffmanEncoderDecoder} {bits : List Bool} {offs next : Nat}
    {answer : Option Nat} (read : coder.decodeSymbol bits offs none = some (answer, next)) :
    offs ≤ next := by
  obtain ⟨found, -, -, reached⟩ := decodeLoop_walk read
  omega

/-- The body of the loop of `decode_8`. -/
def decode8Turn (decoder : HuffmanEncoderDecoder) (bits : List Bool) (cntBits : Nat) (state : List UInt8 × Nat) :
    Option (ForInStep (List UInt8 × Nat)) :=
  if state.2 < cntBits then do
    let (symbol, offs) ← decoder.decodeSymbol bits state.2 none
    let symbol ← symbol
    some (.yield (state.1 ++ [UInt8.ofNat symbol], offs))
  else some (.done state)

/-- The loop of `decode8` is the run of its turn. -/
theorem run_decode8Turn (decoder : HuffmanEncoderDecoder) (bits : List Bool) (cntBits fuel : Nat)
    (data : List UInt8) (offs : Nat) :
    run (decode8Turn decoder bits cntBits) fuel (data, offs) =
      (decode8Loop decoder bits cntBits fuel offs).map (Prod.map (data ++ ·) id) := by
  induction fuel generalizing data offs with
  | zero => rfl
  | succ fuel ih =>
      rw [run, decode8Turn, decode8Loop]
      split_ifs with inside
      · cases read : decoder.decodeSymbol bits offs none with
        | none => rfl
        | some answer =>
            obtain ⟨symbol, next⟩ := answer
            cases symbol with
            | none => rfl
            | some symbol =>
                simp only [Option.bind_eq_bind, Option.bind_some, ih]
                cases decode8Loop decoder bits cntBits fuel next <;> simp [Prod.map]
      · simp [Prod.map]

/-- The loop of `decode_8` takes at most a turn for each bit. -/
theorem decode8Loop_ends {decoder : HuffmanEncoderDecoder} (isFork : decoder.root.IsFork) (bits : List Bool)
    (cntBits : Nat) : ∃ turns ≤ cntBits, Ends (decode8Turn decoder bits cntBits) turns ([], 0)
      (decode8Loop decoder bits cntBits (cntBits + 1) 0) := by
  have same := run_decode8Turn decoder bits cntBits (cntBits + 1) [] 0
  have whole : Prod.map (([] : List UInt8) ++ ·) (id : Nat → Nat) = id := rfl
  rw [whole, Option.map_id, id] at same
  rw [← same]
  refine ends_run (fun n state => n = cntBits - state.2) ?_ rfl (Nat.lt_succ_self cntBits)
  rintro n ⟨data, offs⟩ next rfl goes
  rw [decode8Turn] at goes
  split_ifs at goes with inside
  · obtain ⟨⟨answer, later⟩, read, goes⟩ := Option.bind_eq_some_iff.mp goes
    obtain ⟨symbol, -, goes⟩ := Option.bind_eq_some_iff.mp goes
    obtain rfl := ForInStep.yield.inj (Option.some.inj goes)
    have reads := decodeSymbol_lt isFork read
    exact ⟨_, by simp only at inside ⊢; omega, rfl⟩
  · cases goes

end CellBag.Huffman

namespace CellBag.Serializator
open BitString Huffman WhileLoop

/-- A dumped number does not move the offset back. -/
theorem readDumpedLoop_offs_le {bits : List Bool} {blen fuel offs num next : Nat}
    (read : readDumpedLoop bits blen fuel offs = some (num, next)) : offs ≤ next := by
  induction fuel generalizing offs num with
  | zero => cases read
  | succ fuel ih =>
      obtain ⟨cur, -, read⟩ := Option.bind_eq_some_iff.mp read
      split_ifs at read with last
      · obtain ⟨-, rfl⟩ := Prod.mk.inj (Option.some.inj read)
        exact Nat.le_add_right _ _
      · obtain ⟨⟨rest, final⟩, loop, read⟩ := Option.bind_eq_some_iff.mp read
        obtain ⟨-, rfl⟩ := Prod.mk.inj (Option.some.inj read)
        have later := ih loop
        omega

/-- The body of the loop of `read_dumped_num`. -/
def readDumpedTurn (bits : List Bool) (blen : Nat) (state : Nat × Nat) : Option (ForInStep (Nat × Nat)) := do
  let cur ← getUint bits state.2 blen
  if cur < 2 ^ blen - 1 then some (.done ((state.1 + cur) % 2 ^ 32, state.2 + blen))
  else some (.yield ((state.1 + cur) % 2 ^ 32, state.2 + blen))

/-- The loop of a dumped number is the run of its turn. -/
theorem run_readDumpedTurn (bits : List Bool) (blen fuel num offs : Nat) :
    run (readDumpedTurn bits blen) fuel (num, offs) =
      (readDumpedLoop bits blen fuel offs).map fun answer => ((num + answer.1) % 2 ^ 32, answer.2) := by
  induction fuel generalizing num offs with
  | zero => rfl
  | succ fuel ih =>
      rw [run, readDumpedTurn, readDumpedLoop]
      cases read : getUint bits offs blen with
      | none => rfl
      | some cur =>
          simp only [Option.bind_eq_bind, Option.bind_some]
          split_ifs with last
          · rfl
          · simp only [Option.bind_some, ih]
            cases readDumpedLoop bits blen fuel (offs + blen) with
            | none => rfl
            | some answer => simp [Nat.add_assoc]

/-- The sum of the read numbers is an `unsigned`. -/
theorem readDumpedLoop_lt {bits : List Bool} {blen fuel offs num next : Nat} (narrow : blen ≤ 32)
    (read : readDumpedLoop bits blen fuel offs = some (num, next)) : num < 2 ^ 32 := by
  cases fuel with
  | zero => cases read
  | succ fuel =>
      obtain ⟨cur, -, read⟩ := Option.bind_eq_some_iff.mp read
      split_ifs at read with last
      · obtain ⟨rfl, -⟩ := Prod.mk.inj (Option.some.inj read)
        have most := Nat.pow_le_pow_right (show 0 < 2 by decide) narrow
        omega
      · obtain ⟨⟨rest, final⟩, -, read⟩ := Option.bind_eq_some_iff.mp read
        obtain ⟨rfl, -⟩ := Prod.mk.inj (Option.some.inj read)
        exact Nat.mod_lt _ (by decide)

/-- The loop of `read_dumped_num` takes at most a turn for each bit. -/
theorem readDumpedNum_ends (bits : List Bool) {blen : Nat} (positive : 0 < blen) (narrow : blen ≤ 32) (offs : Nat) :
    ∃ turns ≤ bits.length, Ends (readDumpedTurn bits blen) turns (0, offs) (readDumpedNum bits offs blen) := by
  have same := run_readDumpedTurn bits blen (bits.length + 1) 0 offs
  have whole : (readDumpedLoop bits blen (bits.length + 1) offs).map
      (fun answer => ((0 + answer.1) % 2 ^ 32, answer.2)) = readDumpedNum bits offs blen := by
    rw [readDumpedNum]
    cases read : readDumpedLoop bits blen (bits.length + 1) offs with
    | none => rfl
    | some answer =>
        rw [Option.map_some, Nat.zero_add, Nat.mod_eq_of_lt (readDumpedLoop_lt narrow read)]
  rw [← whole, ← same]
  refine ends_run (fun n state => bits.length - state.2 ≤ n) ?_ (Nat.sub_le _ _) (Nat.lt_succ_self _)
  rintro n ⟨num, offs⟩ next ranked goes
  obtain ⟨cur, read, goes⟩ := Option.bind_eq_some_iff.mp goes
  have inside : offs + blen ≤ bits.length := by
    rw [getUint] at read
    split_ifs at read with inside
    exact inside
  split_ifs at goes
  · cases goes
  · obtain rfl := ForInStep.yield.inj (Option.some.inj goes)
    exact ⟨bits.length - (offs + blen), by simp only at ranked; omega, Nat.le_refl _⟩

/-- A symbol moves the offset on as soon as the code has two symbols. -/
theorem readSymbol_offs {decoder : HuffmanEncoderDecoder} {threshold blen offs num next : Nat}
    {bits : List Bool} (read : readSymbol decoder threshold blen bits offs = some (num, next)) :
    offs ≤ next ∧ (decoder.root.IsFork → offs < next) := by
  obtain ⟨⟨answer, middle⟩, decoded, read⟩ := Option.bind_eq_some_iff.mp read
  obtain ⟨symbol, -, read⟩ := Option.bind_eq_some_iff.mp read
  have low := decodeSymbol_offs_le decoded
  have later (isFork : decoder.root.IsFork) := decodeSymbol_lt isFork decoded
  split_ifs at read with dumped
  · obtain ⟨⟨rest, final⟩, loop, read⟩ := Option.bind_eq_some_iff.mp read
    obtain ⟨-, rfl⟩ := Prod.mk.inj (Option.some.inj read)
    have high := readDumpedLoop_offs_le loop
    exact ⟨low.trans high, fun isFork => (later isFork).trans_le high⟩
  · obtain ⟨-, rfl⟩ := Prod.mk.inj (Option.some.inj read)
    exact ⟨low, later⟩

/-- A cell offset does not move the offset back. -/
theorem readCellIdOffset_offs_le {reader : LzReader} {offs num next : Nat}
    (read : reader.readCellIdOffset offs = some (num, next)) : offs ≤ next := by
  obtain ⟨⟨answer, middle⟩, decoded, read⟩ := Option.bind_eq_some_iff.mp read
  obtain ⟨symbol, -, read⟩ := Option.bind_eq_some_iff.mp read
  have low := decodeSymbol_offs_le decoded
  split_ifs at read with dumped
  · obtain ⟨more, -, read⟩ := Option.bind_eq_some_iff.mp read
    obtain ⟨-, rfl⟩ := Prod.mk.inj (Option.some.inj read)
    omega
  · obtain ⟨-, rfl⟩ := Prod.mk.inj (Option.some.inj read)
    exact low

/-- A turn of the main loop reads a bit. -/
theorem advanceLzDecoder_lt {reader : LzReader} (isFork : reader.literalLenDecoder.root.IsFork)
    {parser next : Parser} {offs later : Nat}
    (run : reader.advanceLzDecoder (parser, offs) = some (next, later)) : offs < later := by
  obtain ⟨_, -, run⟩ := Option.bind_eq_some_iff.mp run
  obtain ⟨⟨literalLen, offs₁⟩, read₁, run⟩ := Option.bind_eq_some_iff.mp run
  obtain ⟨literal, -, run⟩ := Option.bind_eq_some_iff.mp run
  obtain ⟨middle, -, run⟩ := Option.bind_eq_some_iff.mp run
  have first := (readSymbol_offs read₁).2 isFork
  split_ifs at run with ends
  · obtain ⟨_, -, run⟩ := Option.bind_eq_some_iff.mp run
    obtain ⟨-, rfl⟩ := Prod.mk.inj (Option.some.inj run)
    omega
  · obtain ⟨⟨matchLen, offs₂⟩, read₂, run⟩ := Option.bind_eq_some_iff.mp run
    have second := (readSymbol_offs read₂).1
    simp only at run
    split_ifs at run with nothing
    · obtain ⟨-, rfl⟩ := Prod.mk.inj (Option.some.inj run)
      omega
    · obtain ⟨⟨cellIdOffset, offs₃⟩, read₃, run⟩ := Option.bind_eq_some_iff.mp run
      obtain ⟨m, -, run⟩ := Option.bind_eq_some_iff.mp run
      obtain ⟨⟨offsetWithinRefCell, offs₄⟩, read₄, run⟩ := Option.bind_eq_some_iff.mp run
      obtain ⟨cellMeta, -, run⟩ := Option.bind_eq_some_iff.mp run
      obtain ⟨start, -, run⟩ := Option.bind_eq_some_iff.mp run
      obtain ⟨copied, -, run⟩ := Option.bind_eq_some_iff.mp run
      obtain ⟨final, -, run⟩ := Option.bind_eq_some_iff.mp run
      obtain ⟨-, rfl⟩ := Prod.mk.inj (Option.some.inj run)
      have third := readCellIdOffset_offs_le read₃
      have fourth := (readSymbol_offs read₄).1
      omega

/-- The body of the main loop of `deserialise`. -/
def LzReader.lzTurn (reader : LzReader) (state : Parser × Nat) : Option (ForInStep (Parser × Nat)) :=
  if state.2 < reader.lzCntBits then (reader.advanceLzDecoder state).map .yield else some (.done state)

/-- The loop of the decoder is the run of its turn. -/
theorem run_lzTurn (reader : LzReader) (fuel : Nat) (state : Parser × Nat) :
    run reader.lzTurn fuel state = reader.lzLoop fuel state := by
  induction fuel generalizing state with
  | zero => rfl
  | succ fuel ih =>
      rw [run, LzReader.lzTurn, LzReader.lzLoop]
      split_ifs with inside
      · cases turn : reader.advanceLzDecoder state with
        | none => rfl
        | some next => simpa using ih next
      · rfl

/-- The main loop of `deserialise` takes at most a turn for each bit. -/
theorem lzLoop_ends {reader : LzReader} (isFork : reader.literalLenDecoder.root.IsFork) (parser : Parser)
    (offs : Nat) : ∃ turns ≤ reader.lzCntBits - offs, Ends reader.lzTurn turns (parser, offs)
      (reader.lzLoop (reader.lzCntBits + 1) (parser, offs)) := by
  rw [← run_lzTurn]
  refine ends_run (fun n state => n = reader.lzCntBits - state.2) ?_ rfl (by omega)
  rintro n ⟨parser, offs⟩ next rfl goes
  rw [LzReader.lzTurn] at goes
  split_ifs at goes with inside
  · obtain ⟨⟨read, later⟩, turn, goes⟩ := Option.map_eq_some_iff.mp goes
    obtain rfl := ForInStep.yield.inj goes
    have reads := advanceLzDecoder_lt isFork turn
    exact ⟨_, by simp only at inside ⊢; omega, rfl⟩
  · cases goes

/-- The body of the loop of `predict_next_meta`. -/
def predictTurn (myCells : List MyCell) (m : SerializeMetaData) : Option (ForInStep SerializeMetaData) := do
  let cellId ← m.cellId
  let next := nextMetaDummy myCells.length cellId m.fieldType
  match next.cellId, next.fieldType with
  | some cellId, .refs => do
      let myCell ← myCells[cellId]?
      some (if myCell.cntRefs > 0 then .done next else .yield next)
  | some cellId, .data => do
      let myCell ← myCells[cellId]?
      some (if myCell.cntBits > 0 then .done next else .yield next)
  | _, _ => some (.done next)

/-- The loop of the prediction is the run of its turn. -/
theorem run_predictTurn (myCells : List MyCell) (fuel cellId : Nat) (fieldType : FieldType) :
    run (predictTurn myCells) fuel ⟨some cellId, fieldType⟩ = predictLoop myCells fuel cellId fieldType := by
  induction fuel generalizing cellId fieldType with
  | zero => rfl
  | succ fuel ih =>
      rw [run, predictTurn, predictLoop]
      simp only [Option.bind_eq_bind, Option.bind_some]
      rcases nextMetaDummy myCells.length cellId fieldType with ⟨_ | cell, type⟩
      · rfl
      · cases type with
        | none => rfl
        | d1 => rfl
        | dataSize => rfl
        | refs =>
            dsimp only
            cases myCells[cell]? with
            | none => rfl
            | some myCell =>
                simp only [Option.bind_some]
                split_ifs
                · rfl
                · exact ih cell .refs
        | data =>
            dsimp only
            cases myCells[cell]? with
            | none => rfl
            | some myCell =>
                simp only [Option.bind_some]
                split_ifs
                · rfl
                · exact ih cell .data

/-- A turn that goes on is at the next meta, which is one of a cell. -/
theorem predictTurn_yield {myCells : List MyCell} {m next : SerializeMetaData}
    (goes : predictTurn myCells m = some (.yield next)) : ∃ cellId, m.cellId = some cellId ∧
      next = nextMetaDummy myCells.length cellId m.fieldType ∧ next.cellId ≠ none := by
  obtain ⟨cellId, cell, goes⟩ := Option.bind_eq_some_iff.mp goes
  refine ⟨cellId, cell, ?_⟩
  dsimp only at goes
  generalize nextMetaDummy myCells.length cellId m.fieldType = other at goes ⊢
  rcases other with ⟨_ | cell, type⟩
  · cases goes
  · cases type with
    | none => cases goes
    | d1 => cases goes
    | dataSize => cases goes
    | refs =>
        obtain ⟨myCell, -, goes⟩ := Option.bind_eq_some_iff.mp goes
        split_ifs at goes
        · cases goes
        · cases goes
          exact ⟨rfl, Option.some_ne_none cell⟩
    | data =>
        obtain ⟨myCell, -, goes⟩ := Option.bind_eq_some_iff.mp goes
        split_ifs at goes
        · cases goes
        · cases goes
          exact ⟨rfl, Option.some_ne_none cell⟩

/-- The loop of `predict_next_meta` takes at most a turn for each field. -/
theorem predictNextMeta_ends {myCells : List MyCell} {q : Nat} (inRange : q < 4 * myCells.length) :
    ∃ turns ≤ 4 * myCells.length, Ends (predictTurn myCells) turns (rankMeta myCells.length q)
      (predictNextMeta myCells (rankMeta myCells.length q)) := by
  have loop : predictNextMeta myCells (rankMeta myCells.length q) =
      run (predictTurn myCells) (4 * myCells.length + 1) (rankMeta myCells.length q) :=
    (run_predictTurn myCells _ _ _).symm
  rw [loop]
  refine ends_run (fun n m => ∃ q < 4 * myCells.length, m = rankMeta myCells.length q ∧
    4 * myCells.length - q ≤ n) ?_ ⟨q, inRange, rfl, Nat.sub_le _ _⟩ (Nat.lt_succ_self _)
  rintro n _ next ⟨q, inRange, rfl, left⟩ goes
  obtain ⟨cellId, cell, rfl, isCell⟩ := predictTurn_yield goes
  obtain rfl := Option.some.inj cell
  rw [rankMeta, nextMetaDummy_eq inRange, metaAt] at isCell ⊢
  split_ifs at isCell ⊢ with more
  · exact ⟨4 * myCells.length - (q + 1), by omega, q + 1, more, rfl, Nat.le_refl _⟩
  · exact absurd rfl isCell

/-- The body of the loop of `advance_cells_read`. -/
def Parser.advanceTurn (decoders : FieldDecoders) (parser : Parser) : Option (ForInStep Parser) := do
  let m ← predictNextMeta parser.myCells parser.lastReadMeta
  match m.cellId with
  | none => some (.done parser)
  | some cellId => do
      match ← parser.tryRead decoders cellId m.fieldType with
      | none => some (.done parser)
      | some read => do
          let read ← read.setPlace cellId parser.offs (read.offs - parser.offs) m.fieldType
          some (.yield { read with lastReadMeta := m })

/-- The loop of the parser is the run of its turn. -/
theorem run_advanceTurn (decoders : FieldDecoders) (fuel : Nat) (parser : Parser) :
    run (Parser.advanceTurn decoders) fuel parser = parser.advanceLoop decoders fuel := by
  induction fuel generalizing parser with
  | zero => rfl
  | succ fuel ih =>
      rw [run, Parser.advanceTurn, Parser.advanceLoop]
      cases predictNextMeta parser.myCells parser.lastReadMeta with
      | none => rfl
      | some m =>
          simp only [Option.bind_eq_bind, Option.bind_some]
          cases m.cellId with
          | none => rfl
          | some cellId =>
              simp only
              cases parser.tryRead decoders cellId m.fieldType with
              | none => rfl
              | some answer =>
                  cases answer with
                  | none => rfl
                  | some read =>
                      simp only [Option.bind_some]
                      cases read.setPlace cellId parser.offs (read.offs - parser.offs) m.fieldType with
                      | none => rfl
                      | some placed => exact ih { placed with lastReadMeta := m }

/-- The loop of `advance_cells_read` ends after at most a turn for each field. -/
def Parser.AdvanceEnds (decoders : FieldDecoders) (parser : Parser) : Prop :=
  ∃ turns ≤ 4 * parser.myCells.length, Ends (Parser.advanceTurn decoders) turns parser
    (parser.advanceLoop decoders (4 * parser.myCells.length + 1))

/-- On a tiled parser the loop ends. -/
theorem Tiled.advanceEnds {parser : Parser} {k : Nat} (tiled : Tiled parser k) (decoders : FieldDecoders) :
    parser.AdvanceEnds decoders := by
  rw [Parser.AdvanceEnds, ← run_advanceTurn]
  have sizes := tiled.sizes
  refine ends_run (fun n parser => ∃ k, Tiled parser k ∧ 4 * parser.cellMetas.length - k ≤ n) ?_
    ⟨k, tiled, by omega⟩ (Nat.lt_succ_self _)
  rintro n parser next ⟨k, tiled, left⟩ goes
  obtain ⟨m, predict, goes⟩ := Option.bind_eq_some_iff.mp goes
  cases cell : m.cellId with
  | none => simp [cell] at goes
  | some i =>
      simp only [cell] at goes
      obtain ⟨answer, read, goes⟩ := Option.bind_eq_some_iff.mp goes
      cases answer with
      | none => simp at goes
      | some next =>
          obtain ⟨placed, set, goes⟩ := Option.bind_eq_some_iff.mp goes
          obtain rfl := ForInStep.yield.inj (Option.some.inj goes)
          obtain ⟨⟨k', later, tiled'⟩, -, size⟩ := tiled.turn predict cell read set
          have le := tiled'.le
          exact ⟨4 * placed.cellMetas.length - k', by simp only [size] at le ⊢; omega, k', tiled', Nat.le_refl _⟩

/-- On any input the loops of the decoder end, with a result or a failed check, after a bounded number of turns: the
loop of `decode_8`, the main loop of `deserialise`, the loop of `advance_cells_read` behind each literal and each
copy, and those of `predict_next_meta` and `read_dumped_num`. -/
theorem decoder_terminates {lzBytes : List UInt8} {reader : LzReader}
    (built : LzReader.build sourceTables lzBytes = some reader) :
    (∀ decoder bits cntBits, HuffmanEncoderDecoder.ofFreq bytesFreq = some decoder → ∃ turns ≤ cntBits,
      Ends (decode8Turn decoder bits cntBits) turns ([], 0)
        (decode8Loop decoder bits cntBits (cntBits + 1) 0)) ∧
    (∀ parser offs, ∃ turns ≤ reader.lzCntBits - offs, Ends reader.lzTurn turns (parser, offs)
      (reader.lzLoop (reader.lzCntBits + 1) (parser, offs))) ∧
    (∀ size parser offs literal, reader.Reached size parser offs →
      (parser.storeOut literal).AdvanceEnds reader.fieldDecoders ∧
      ∀ middle copy, (parser.storeOut literal).advanceCellsRead reader.fieldDecoders = some middle →
        (middle.storeOut copy).AdvanceEnds reader.fieldDecoders) ∧
    (∀ (myCells : List MyCell) (q : Nat), q < 4 * myCells.length → ∃ turns ≤ 4 * myCells.length,
      Ends (predictTurn myCells) turns (rankMeta myCells.length q)
        (predictNextMeta myCells (rankMeta myCells.length q))) ∧
    ∀ blen offs, 0 < blen → blen ≤ 32 → ∃ turns ≤ reader.lzBits.length,
      Ends (readDumpedTurn reader.lzBits blen) turns (0, offs) (readDumpedNum reader.lzBits offs blen) := by
  have isFork : reader.literalLenDecoder.root.IsFork := by
    obtain ⟨coders⟩ := sourceTables_valid.coders
    obtain ⟨size, -, codec⟩ := coders.literalLen_usable.codec
    have fork := codec.isFork
    have same : reader.literalLenDecoder = coders.literalLen := by
      simp only [LzReader.build, coders.d1_built, coders.dataSize_built, coders.literalLen_built,
        coders.matchLen_built, coders.cellIdOffset_built, coders.offsetWithinCell_built,
        Option.bind_eq_bind, Option.bind_some] at built
      obtain ⟨back, -, built⟩ := Option.bind_eq_some_iff.mp built
      obtain ⟨_, -, built⟩ := Option.bind_eq_some_iff.mp built
      obtain ⟨nCells, -, built⟩ := Option.bind_eq_some_iff.mp built
      rw [← Option.some.inj built]
    rwa [same]
  refine ⟨fun decoder bits cntBits table => ?_, lzLoop_ends isFork, ?_,
    fun myCells q => predictNextMeta_ends, fun blen offs positive narrow =>
      readDumpedNum_ends reader.lzBits positive narrow offs⟩
  · obtain ⟨coder, same, codec, -⟩ := byteCoder_spec
    obtain rfl := Option.some.inj (same.symm.trans table)
    exact decode8Loop_ends codec.isFork bits cntBits
  · intro size parser offs literal reached
    obtain ⟨k, tiled⟩ := (reached_settled reached).1.tiled
    refine ⟨(tiled.storeOut literal).advanceEnds _, fun middle copy stored => ?_⟩
    obtain ⟨k', tiled'⟩ := ((tiled.storeOut literal).advanceCellsRead stored).1.tiled
    exact (tiled'.storeOut copy).advanceEnds _

theorem decoder_terminates_shared : ∃ lz reader parser turns,
    LzReader.build sourceTables lz = some reader ∧ turns ≤ reader.lzCntBits - BITS_FOR_N_CELLS ∧
      Ends reader.lzTurn turns (Parser.start (8 * (lz.length * 2)) reader.nCells, BITS_FOR_N_CELLS)
        (some (parser, reader.lzCntBits)) ∧ parser.myCells.length = 3 := by
  obtain ⟨cells, flattened, runs⟩ := serialized_spec sharedRoot_bag.coherent sharedRoot_bag.valid
  have count := sharedRoot_count flattened
  obtain ⟨newCells, _, ptr, reader, parser, -, same, numbering, -, read, -⟩ := runs (by rw [count]; decide)
  obtain ⟨again, built, loop⟩ := Option.bind_eq_some_iff.mp read
  obtain ⟨state, loop, final⟩ := Option.bind_eq_some_iff.mp loop
  obtain ⟨rfl, rfl⟩ := Prod.mk.inj (Option.some.inj final)
  obtain ⟨turns, few, ends⟩ := (decoder_terminates built).2.1 _ _
  rw [loop] at ends
  exact ⟨_, again, parser, turns, built, few, ends,
    numbering.length_eq.trans (same.length_eq.trans count)⟩

end CellBag.Serializator
