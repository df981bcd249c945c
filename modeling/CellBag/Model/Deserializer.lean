import CellBag.Model.Serializer

/-!
The deserializer of `serializator.hpp`: it parses the cells out of the bits that it decompresses. Offsets are
natural numbers; those of fewer than `2 ^ 27` compressed bytes are an `int` in both buffers.
-/

namespace CellBag.Serializator
open BitString Huffman SuffixAutomaton

/-- The place of a field among the bits; a `start` of `none` is `-1u`. -/
structure FieldPlace where
  start : Option Nat
  cnt : Nat
deriving DecidableEq, Repr

/-- The members of a `CellMeta` that no bit has set. -/
def FieldPlace.unset : FieldPlace := ⟨none, 0⟩

structure CellMeta where
  d1 : FieldPlace
  dataSize : FieldPlace
  refs : FieldPlace
  data : FieldPlace
deriving DecidableEq, Repr

namespace CellMeta

/-- `CellMeta()`. -/
def default : CellMeta := ⟨.unset, .unset, .unset, .unset⟩

/-- `get_pos`. -/
def getPos (cellMeta : CellMeta) (offset : Nat) : Option Nat :=
  if offset < cellMeta.d1.cnt then cellMeta.d1.start.map (· + offset)
  else
    let offset := offset - cellMeta.d1.cnt
    if offset < cellMeta.dataSize.cnt then cellMeta.dataSize.start.map (· + offset)
    else
      let offset := offset - cellMeta.dataSize.cnt
      if offset < cellMeta.refs.cnt then cellMeta.refs.start.map (· + offset)
      else do
        let offset := offset - cellMeta.refs.cnt
        check (offset < cellMeta.data.cnt)
        cellMeta.data.start.map (· + offset)

/-- Sets the start and the count of a field. -/
def setPlace (cellMeta : CellMeta) (place : FieldPlace) : FieldType → Option CellMeta
  | .none => none
  | .d1 => some { cellMeta with d1 := place }
  | .dataSize => some { cellMeta with dataSize := place }
  | .refs => some { cellMeta with refs := place }
  | .data => some { cellMeta with data := place }

end CellMeta

/-- The buffer behind a pointer. -/
def BitPtr.buffer (ptr : BitPtr) : List Bool := ptr.bits ++ List.replicate (ptr.size - ptr.offs) false

/-- The variables of `deserialise` about the decompressed bits; the offset of `outBits` is
`out_bits_write_ptr`, and `offs` is the offset of `out_bits`. -/
structure Parser where
  outBits : BitPtr
  offs : Nat
  myCells : List MyCell
  cellMetas : List CellMeta
  lastReadMeta : SerializeMetaData

/-- The two decoders of `deserialise` for the fields. -/
structure FieldDecoders where
  d1Decoder : HuffmanEncoderDecoder
  dataSizeDecoder : HuffmanEncoderDecoder

namespace Parser

/-- The variables before the first bit. -/
def start (size nCells : Nat) : Parser where
  outBits := BitPtr.start size
  offs := 0
  myCells := List.replicate nCells MyCell.default
  cellMetas := List.replicate nCells CellMeta.default
  lastReadMeta := ⟨none, .none⟩

/-- `store_out_uint` of each of the bits. -/
def storeOut (parser : Parser) (bits : List Bool) : Parser :=
  { parser with outBits := parser.outBits.push bits }

/-- `out_bits_write_ptr`. -/
def writePtr (parser : Parser) : Nat := parser.outBits.offs

/-- `try_read_d1`; `none` in the answer means that the field is not complete. -/
def tryReadD1 (decoders : FieldDecoders) (parser : Parser) (i : Nat) : Option (Option Parser) := do
  let myCell ← parser.myCells[i]?
  let (d1, offs) ←
    decoders.d1Decoder.decodeSymbol (BitPtr.buffer parser.outBits) parser.offs (some parser.writePtr)
  match d1 with
  | none => some none
  | some d1 => do
      let cntRefs := d1 % 8
      check (cntRefs ≤ 4)
      some (some { parser with
        offs
        myCells := parser.myCells.set i { myCell with cntRefs, isSpecial := d1.testBit 3 } })

/-- `try_read_data_size`. -/
def tryReadDataSize (decoders : FieldDecoders) (parser : Parser) (i : Nat) :
    Option (Option Parser) := do
  let myCell ← parser.myCells[i]?
  let (dataSize, offs) ← decoders.dataSizeDecoder.decodeSymbol (BitPtr.buffer parser.outBits)
    parser.offs (some parser.writePtr)
  match dataSize with
  | none => some none
  | some cntBits =>
      some (some { parser with offs, myCells := parser.myCells.set i { myCell with cntBits } })

/-- The loop of `try_read_refs`; `none` in the answer is `fail`. -/
def readRefs (parser : Parser) (nCells i bitLen : Nat) : Nat → Nat → Option (Option (List Nat × Nat))
  | 0, offs => some (some ([], offs))
  | cnt + 1, offs =>
      if offs + bitLen > parser.writePtr then some none
      else do
        let stored ← getUint (BitPtr.buffer parser.outBits) offs bitLen
        let idStore := stored + 1
        let refId := wrapSub (nCells + i) idStore % nCells
        match ← readRefs parser nCells i bitLen cnt (offs + bitLen) with
        | none => some none
        | some (refs, offs) => some (some (refId :: refs, offs))

/-- `try_read_refs`. -/
def tryReadRefs (parser : Parser) (i : Nat) : Option (Option Parser) := do
  let nCells := parser.myCells.length
  let myCell ← parser.myCells[i]?
  check (myCell.cntRefs > 0)
  let bitLen := lenInBits (nCells - 1)
  match ← readRefs parser nCells i bitLen myCell.cntRefs parser.offs with
  | none => some none
  | some (refs, offs) => do
      check (refs.length ≤ 4)
      some (some { parser with
        offs
        myCells := parser.myCells.set i
          { myCell with refs := refs ++ List.replicate (4 - refs.length) 0 } })

/-- `try_read_data`; the `data` of the cell is empty before. -/
def tryReadData (parser : Parser) (i : Nat) : Option (Option Parser) := do
  let myCell ← parser.myCells[i]?
  let cntBits := myCell.cntBits
  check (cntBits > 0)
  if parser.offs + cntBits > parser.writePtr then some none
  else do
    let bits ← (List.range cntBits).mapM fun j =>
      getBit (BitPtr.buffer parser.outBits) (parser.offs + j)
    some (some { parser with
      offs := parser.offs + cntBits
      myCells := parser.myCells.set i { myCell with data := toBytes ((cntBits + 7) / 8) bits } })

end Parser

/-- The next enumerator. -/
def FieldType.next : FieldType → FieldType
  | .none => .d1
  | .d1 => .dataSize
  | .dataSize => .refs
  | .refs => .data
  | .data => .none

/-- `next_meta_dummy` for the meta of a cell. -/
def nextMetaDummy (nCells cellId : Nat) (fieldType : FieldType) : SerializeMetaData :=
  if cellId + 1 < nCells then ⟨some (cellId + 1), fieldType⟩
  else if fieldType = .data then ⟨none, .none⟩
  else ⟨some 0, fieldType.next⟩

/-- The loop of `predict_next_meta` after a meta of a cell; there are four metas for each cell. -/
def predictLoop (myCells : List MyCell) : Nat → Nat → FieldType → Option SerializeMetaData
  | 0, _, _ => none
  | fuel + 1, cellId, fieldType =>
      let m := nextMetaDummy myCells.length cellId fieldType
      match m.cellId, m.fieldType with
      | some cellId, .refs => do
          let myCell ← myCells[cellId]?
          if myCell.cntRefs > 0 then some m else predictLoop myCells fuel cellId .refs
      | some cellId, .data => do
          let myCell ← myCells[cellId]?
          if myCell.cntBits > 0 then some m else predictLoop myCells fuel cellId .data
      | _, _ => some m

/-- `predict_next_meta`. -/
def predictNextMeta (myCells : List MyCell) (m : SerializeMetaData) : Option SerializeMetaData :=
  match m.cellId with
  | none => some ⟨some 0, .d1⟩
  | some cellId => predictLoop myCells (4 * myCells.length + 1) cellId m.fieldType

namespace Parser

/-- The read that the type of a field asks for. -/
def tryRead (decoders : FieldDecoders) (parser : Parser) (cellId : Nat) :
    FieldType → Option (Option Parser)
  | .none => none
  | .d1 => tryReadD1 decoders parser cellId
  | .dataSize => tryReadDataSize decoders parser cellId
  | .refs => tryReadRefs parser cellId
  | .data => tryReadData parser cellId

/-- Sets the start and the count of a field of a cell. -/
def setPlace (parser : Parser) (cellId start cnt : Nat) (fieldType : FieldType) : Option Parser := do
  let cellMeta ← parser.cellMetas[cellId]?
  let cellMeta ← cellMeta.setPlace ⟨some start, cnt⟩ fieldType
  some { parser with cellMetas := parser.cellMetas.set cellId cellMeta }

/-- The loop of `advance_cells_read`; each turn but the last reads a field. -/
def advanceLoop (decoders : FieldDecoders) : Nat → Parser → Option Parser
  | 0, _ => none
  | fuel + 1, parser => do
      let m ← predictNextMeta parser.myCells parser.lastReadMeta
      match m.cellId with
      | none => some parser
      | some cellId => do
          match ← parser.tryRead decoders cellId m.fieldType with
          | none => some parser
          | some read => do
              let read ← read.setPlace cellId parser.offs (read.offs - parser.offs) m.fieldType
              advanceLoop decoders fuel { read with lastReadMeta := m }

/-- `advance_cells_read`. -/
def advanceCellsRead (decoders : FieldDecoders) (parser : Parser) : Option Parser := do
  let parser ← advanceLoop decoders (4 * parser.myCells.length + 1) parser
  if parser.offs < parser.writePtr then do
    let m ← predictNextMeta parser.myCells parser.lastReadMeta
    let cellId ← m.cellId
    parser.setPlace cellId parser.offs (parser.writePtr - parser.offs) m.fieldType
  else some parser

end Parser

/-- The loop of `read_dumped_num`; each turn reads bits. -/
def readDumpedLoop (bits : List Bool) (blen : Nat) : Nat → Nat → Option (Nat × Nat)
  | 0, _ => none
  | fuel + 1, offs => do
      let mx := 2 ^ blen - 1
      let cur ← getUint bits offs blen
      if cur < mx then some (cur, offs + blen)
      else do
        let (num, offs) ← readDumpedLoop bits blen fuel (offs + blen)
        some ((cur + num) % 2 ^ 32, offs)

/-- `read_dumped_num` returns the number and the new offset. -/
def readDumpedNum (bits : List Bool) (offs blen : Nat) : Option (Nat × Nat) :=
  readDumpedLoop bits blen (bits.length + 1) offs

/-- A symbol and the rest of the number dumped behind the threshold. -/
def readSymbol (decoder : HuffmanEncoderDecoder) (threshold blen : Nat) (bits : List Bool)
    (offs : Nat) : Option (Nat × Nat) := do
  let (symbol, offs) ← decoder.decodeSymbol bits offs none
  let symbol ← symbol
  if symbol = threshold then do
    let (num, offs) ← readDumpedNum bits offs blen
    some ((symbol + num) % 2 ^ 32, offs)
  else some (symbol, offs)

/-- The variables of `deserialise` about the compressed bits. -/
structure LzReader where
  lzBits : List Bool
  lzCntBits : Nat
  nCells : Nat
  fieldDecoders : FieldDecoders
  literalLenDecoder : HuffmanEncoderDecoder
  matchLenDecoder : HuffmanEncoderDecoder
  cellIdOffsetDecoder : HuffmanEncoderDecoder
  offsetWithinCellDecoder : HuffmanEncoderDecoder

namespace LzReader

/-- The loop that copies a match; it may read bits that it has just written. -/
def copyMatch : Nat → Nat → Parser → Option Parser
  | 0, _, parser => some parser
  | matchLen + 1, pos, parser => do
      let bit ← getBit (BitPtr.buffer parser.outBits) pos
      copyMatch matchLen (pos + 1) (parser.storeOut [bit])

/-- The offset of the referred cell. -/
def readCellIdOffset (reader : LzReader) (offs : Nat) : Option (Nat × Nat) := do
  let (symbol, offs) ← reader.cellIdOffsetDecoder.decodeSymbol reader.lzBits offs none
  let cellIdOffset ← symbol
  if cellIdOffset = CELL_ID_OFFSET_TH then do
    let blen := lenInBits (wrapSub (reader.nCells - 1) CELL_ID_OFFSET_TH)
    let more ← getUint reader.lzBits offs blen
    some ((cellIdOffset + more) % 2 ^ 32, offs + blen)
  else some (cellIdOffset, offs)

/-- `advance_lz_decoder`, with the offset of `lz_bits`. -/
def advanceLzDecoder (reader : LzReader) (state : Parser × Nat) : Option (Parser × Nat) := do
  let (parser, offs) := state
  check (offs < reader.lzCntBits)
  let (literalLen, offs) ←
    readSymbol reader.literalLenDecoder LITERAL_LEN_TH BITS_TO_DUMP_LITERAL_LEN reader.lzBits offs
  let literal ← (List.range literalLen).mapM fun j => getBit reader.lzBits (offs + j)
  let offs := offs + literalLen
  let parser ← (parser.storeOut literal).advanceCellsRead reader.fieldDecoders
  if offs ≥ reader.lzCntBits then do
    check (offs = reader.lzCntBits)
    some (parser, offs)
  else do
    let (matchLen, offs) ←
      readSymbol reader.matchLenDecoder MATCH_LEN_TH BITS_TO_DUMP_MATCH_LEN reader.lzBits offs
    if matchLen = 0 then some (parser, offs)
    else do
      let (cellIdOffset, offs) ← reader.readCellIdOffset offs
      let m ← predictNextMeta parser.myCells parser.lastReadMeta
      let curCellId := m.cellId.getD (2 ^ 32 - 1)
      let refCellId := wrapSub (reader.nCells + curCellId) cellIdOffset % reader.nCells
      let (offsetWithinRefCell, offs) ← readSymbol reader.offsetWithinCellDecoder
        OFFSET_WITHIN_CELL_TH BITS_FOR_WITHIN_CELL_OFFSET_CURPLUS reader.lzBits offs
      let cellMeta ← parser.cellMetas[refCellId]?
      let start ← cellMeta.getPos offsetWithinRefCell
      let parser ← copyMatch matchLen start parser
      let parser ← parser.advanceCellsRead reader.fieldDecoders
      some (parser, offs)

/-- `while (lz_bits.offs < lz_cnt_bits)`; each turn reads bits. -/
def lzLoop (reader : LzReader) : Nat → Parser × Nat → Option (Parser × Nat)
  | 0, _ => none
  | fuel + 1, state =>
      if state.2 < reader.lzCntBits then do
        let state ← reader.advanceLzDecoder state
        lzLoop reader fuel state
      else some state

/-- The variables of `deserialise` before its main loop. -/
def build (tables : Tables) (lzBytes : List UInt8) : Option LzReader := do
  -- a string ends with a zero byte, which can be read
  let lzBits := ofBytes (lzBytes ++ [0])
  let back ← lzBytes.getLast?
  -- a negative count wraps around to one that no buffer reaches
  check (countTrailingZeroes32 back.toNat + 1 ≤ lzBytes.length * 8)
  let lzCntBits := lzBytes.length * 8 - (countTrailingZeroes32 back.toNat + 1)
  let d1Decoder ← HuffmanEncoderDecoder.ofFreq tables.d1Freq
  let dataSizeDecoder ← HuffmanEncoderDecoder.ofFreq tables.dataSizeFreq
  let literalLenDecoder ← HuffmanEncoderDecoder.ofFreq tables.literalLengthsFreq
  let matchLenDecoder ← HuffmanEncoderDecoder.ofFreq tables.matchLenFreq
  let cellIdOffsetDecoder ← HuffmanEncoderDecoder.ofFreq tables.cellIdOffsetFreq
  let offsetWithinCellDecoder ← HuffmanEncoderDecoder.ofFreq tables.offsetWithinCellFreq
  let nCells ← getUint lzBits 0 BITS_FOR_N_CELLS
  some {
    lzBits, lzCntBits, nCells
    fieldDecoders := ⟨d1Decoder, dataSizeDecoder⟩
    literalLenDecoder, matchLenDecoder, cellIdOffsetDecoder, offsetWithinCellDecoder }

end LzReader

/-- `deserialise` up to the end of its reading loop, with the last offset of `lz_bits`; whether `out_bytes` holds
the stores is left to `outBits`. -/
def readLz (tables : Tables) (lzBytes : List UInt8) : Option (LzReader × Parser × Nat) := do
  let reader ← LzReader.build tables lzBytes
  let state ← reader.lzLoop (reader.lzCntBits + 1)
    (Parser.start (8 * (lzBytes.length * 2)) reader.nCells, BITS_FOR_N_CELLS)
  some (reader, state)

/-- `deserialise`. -/
def deserialise (library : CellLibrary) (tables : Tables) (lzBytes : List UInt8) : Option VmCell := do
  let (_, parser, _) ← readLz tables lzBytes
  -- stores behind `out_bytes` have no outcome
  check (parser.outBits.inside = true)
  myCellsToVmRoot library parser.myCells

end CellBag.Serializator
