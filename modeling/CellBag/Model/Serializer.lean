import CellBag.Model.Cells
import CellBag.Model.Huffman
import CellBag.Model.SuffAut

/-!
The serializer of `serializator.hpp`: the fields of the cells as one bit string, and its compression.
-/

namespace CellBag.Serializator
open BitString Huffman SuffixAutomaton

def MIN_MATCH_LEN : Nat := 32
def BITS_FOR_N_CELLS : Nat := 20
def BITS_TO_DUMP_LITERAL_LEN : Nat := 9
def BITS_TO_DUMP_MATCH_LEN : Nat := 8
def BITS_FOR_WITHIN_CELL_OFFSET_CURPLUS : Nat := 4
def LITERAL_LEN_TH : Nat := 500
def CELL_ID_OFFSET_TH : Nat := 1000
def MATCH_LEN_TH : Nat := 300
def OFFSET_WITHIN_CELL_TH : Nat := 1047

inductive FieldType
  | none
  | d1
  | dataSize
  | refs
  | data
deriving DecidableEq, Repr

/-- The cell and the field of a bit; a `cellId` of `none` is `-1u`. -/
structure SerializeMetaData where
  cellId : Option Nat
  fieldType : FieldType
deriving DecidableEq, Repr

/-- The written bits and the `meta` of `my_cells_to_bit_str`. -/
structure Writer where
  ptr : BitPtr
  metas : List SerializeMetaData
deriving DecidableEq

namespace Writer

/-- Marks the bits that were just written. -/
def mark (writer : Writer) (ptr : BitPtr) (cnt cellId : Nat) (fieldType : FieldType) : Writer :=
  ⟨ptr, writer.metas ++ List.replicate cnt ⟨some cellId, fieldType⟩⟩

/-- `push_d1`. -/
def pushD1 (d1Encoder : HuffmanEncoderDecoder) (myCells : List MyCell) (writer : Writer) (i : Nat) :
    Option Writer := do
  let myCell ← myCells[i]?
  let (spentBits, ptr) ← d1Encoder.encodeSymbol writer.ptr myCell.d1
  some (writer.mark ptr spentBits i .d1)

/-- `push_data_size`. -/
def pushDataSize (dataSizeEncoder : HuffmanEncoderDecoder) (myCells : List MyCell) (writer : Writer)
    (i : Nat) : Option Writer := do
  let myCell ← myCells[i]?
  let (spentBits, ptr) ← dataSizeEncoder.encodeSymbol writer.ptr myCell.cntBits
  some (writer.mark ptr spentBits i .dataSize)

/-- `push_refs`. -/
def pushRefs (myCells : List MyCell) (writer : Writer) (i : Nat) : Option Writer := do
  let nCells := myCells.length
  let bitLen := lenInBits (nCells - 1)
  let myCell ← myCells[i]?
  let refs ← myCell.usedRefs
  refs.foldlM (fun writer ref => do
      check (ref ≠ i)
      check ((nCells + i - ref) % nCells > 0)
      let refStore := (nCells + i - ref) % nCells - 1
      some (writer.mark (writer.ptr.storeUint refStore bitLen) bitLen i .refs)) writer

/-- `push_data`. -/
def pushData (myCells : List MyCell) (writer : Writer) (i : Nat) : Option Writer := do
  let myCell ← myCells[i]?
  let bits ← (List.range myCell.cntBits).mapM (getBit (ofBytes myCell.data))
  some (writer.mark (writer.ptr.push bits) myCell.cntBits i .data)

end Writer

/-- The stores of `my_cells_to_bit_str` into its buffer, with `meta`. -/
def myCellsToBits (tables : Tables) (myCells : List MyCell) : Option Writer := do
  let nCells := myCells.length
  let d1Encoder ← HuffmanEncoderDecoder.ofFreq tables.d1Freq
  let dataSizeEncoder ← HuffmanEncoderDecoder.ofFreq tables.dataSizeFreq
  let start := BitPtr.start (8 * (50 + nCells + nCells * 4 * 3 + nCells * 256))
  let writer ← (List.range nCells).foldlM (Writer.pushD1 d1Encoder myCells) ⟨start, []⟩
  let writer ← (List.range nCells).foldlM (Writer.pushDataSize dataSizeEncoder myCells) writer
  let writer ← (List.range nCells).foldlM (Writer.pushRefs myCells) writer
  let writer ← (List.range nCells).foldlM (Writer.pushData myCells) writer
  some ⟨writer.ptr.storeUint 1 1, writer.metas⟩

/-- The bytes up to the offset, in a buffer that is large enough. -/
def storedBytes (ptr : BitPtr) : List UInt8 := toBytes ((ptr.offs + 7) / 8) ptr.bits

/-- `my_cells_to_bit_str`. -/
def myCellsToBitStr (tables : Tables) (myCells : List MyCell) :
    Option (List UInt8 × List SerializeMetaData) := do
  let writer ← myCellsToBits tables myCells
  some (storedBytes writer.ptr, writer.metas)

/-- The loop of `build_offsets_within_cells`; the map `seen_bits_for_cell` starts with zeros. -/
def offsetsLoop : (Nat → Nat) → List SerializeMetaData → List Nat
  | _, [] => []
  | seenBits, m :: rest =>
      match m.cellId with
      | none => (2 ^ 16 - 1) :: offsetsLoop seenBits rest
      | some cellId =>
          seenBits cellId % 2 ^ 16 ::
            offsetsLoop (Function.update seenBits cellId (seenBits cellId + 1)) rest

/-- `build_offsets_within_cells`. -/
def buildOffsetsWithinCells (metas : List SerializeMetaData) : List Nat := offsetsLoop (fun _ => 0) metas

/-- The loop of `dump_num`; each turn but the last takes `mx` off the number. -/
def dumpNumLoop (blen : Nat) : Nat → BitPtr → Nat → Option BitPtr
  | 0, _, _ => none
  | fuel + 1, ptr, num =>
      let mx := 2 ^ blen - 1
      let cur := min num mx
      let ptr := ptr.storeUint cur blen
      if cur < mx then some ptr else dumpNumLoop blen fuel ptr (num - cur)

/-- `dump_num`. -/
def dumpNum (ptr : BitPtr) (num blen : Nat) : Option BitPtr := dumpNumLoop blen (num + 1) ptr num

/-- A number as its symbol, with the rest of it dumped from the threshold on. -/
def dumpSymbol (encoder : HuffmanEncoderDecoder) (threshold blen num : Nat) (ptr : BitPtr) :
    Option BitPtr := do
  let symbol := min threshold num
  let (_, ptr) ← encoder.encodeSymbol ptr symbol
  if symbol = threshold then dumpNum ptr (num - threshold) blen else some ptr

/-- The variables of `run_lz` that its lambdas capture, without the counters. -/
structure LzContext where
  bits : List Bool
  metas : List SerializeMetaData
  nCells : Nat
  withinCellOffset : List Nat
  literalLenEncoder : HuffmanEncoderDecoder
  matchLenEncoder : HuffmanEncoderDecoder
  cellIdOffsetEncoder : HuffmanEncoderDecoder
  offsetWithinCellEncoder : HuffmanEncoderDecoder

/-- The variables of `run_lz` before its main loop. -/
def LzContext.build (tables : Tables) (bits : List Bool) (metas : List SerializeMetaData) :
    Option LzContext := do
  let nCells := metas.foldl (fun nCells m => max nCells (m.cellId.elim 0 fun cellId => cellId + 1)) 0
  let literalLenEncoder ← HuffmanEncoderDecoder.ofFreq tables.literalLengthsFreq
  let matchLenEncoder ← HuffmanEncoderDecoder.ofFreq tables.matchLenFreq
  let cellIdOffsetEncoder ← HuffmanEncoderDecoder.ofFreq tables.cellIdOffsetFreq
  let offsetWithinCellEncoder ← HuffmanEncoderDecoder.ofFreq tables.offsetWithinCellFreq
  some {
    bits, metas, nCells
    withinCellOffset := buildOffsetsWithinCells metas
    literalLenEncoder, matchLenEncoder, cellIdOffsetEncoder, offsetWithinCellEncoder }

/-- A match that a token refers to: the bits from `i` on repeat those from `s` on. -/
structure Token where
  i : Nat
  s : Nat
  matchLen : Nat
deriving DecidableEq, Repr

/-- The output and the end of the last token. -/
structure LzState where
  bitPtr : BitPtr
  lastLiteralStart : Nat
deriving DecidableEq

namespace LzContext

/-- `dump_literal`. -/
def dumpLiteral (context : LzContext) (ptr : BitPtr) (literalLen start : Nat) : Option BitPtr := do
  let ptr ← dumpSymbol context.literalLenEncoder LITERAL_LEN_TH BITS_TO_DUMP_LITERAL_LEN literalLen ptr
  let literal ← (List.range literalLen).mapM fun j => context.bits[start + j]?
  some (ptr.push literal)

/-- The offset of the referred cell. -/
def dumpCellIdOffset (context : LzContext) (ptr : BitPtr) (cellIdOffset : Nat) : Option BitPtr := do
  let cellIdOffsetSymbol := min cellIdOffset CELL_ID_OFFSET_TH
  let (_, ptr) ← context.cellIdOffsetEncoder.encodeSymbol ptr cellIdOffsetSymbol
  if cellIdOffsetSymbol = CELL_ID_OFFSET_TH then
    some (ptr.storeUint (cellIdOffset - CELL_ID_OFFSET_TH)
      (lenInBits (context.nCells - 1 - CELL_ID_OFFSET_TH)))
  else some ptr

/-- `dump_token`. -/
def dumpToken (context : LzContext) (state : LzState) (token : Token) : Option BitPtr := do
  let literalLen := token.i - state.lastLiteralStart
  let ptr ← context.dumpLiteral state.bitPtr literalLen state.lastLiteralStart
  let ptr ← dumpSymbol context.matchLenEncoder MATCH_LEN_TH BITS_TO_DUMP_MATCH_LEN token.matchLen ptr
  let refMeta ← context.metas[token.s]?
  let refCellId ← refMeta.cellId
  let curMeta ← context.metas[token.i]?
  let curCellId ← curMeta.cellId
  let cellIdOffset := wrapSub (context.nCells + curCellId) refCellId % context.nCells
  let ptr ← context.dumpCellIdOffset ptr cellIdOffset
  let offsetWithinCell ← context.withinCellOffset[token.s]?
  dumpSymbol context.offsetWithinCellEncoder OFFSET_WITHIN_CELL_TH BITS_FOR_WITHIN_CELL_OFFSET_CURPLUS
    offsetWithinCell ptr

/-- `dump_token` with the update of the state behind it. -/
def runToken (context : LzContext) (state : LzState) (token : Token) : Option LzState := do
  let bitPtr ← context.dumpToken state token
  some ⟨bitPtr, token.i + token.matchLen⟩

/-- The loop over the matches of a position: the first of the longest ones whose start has a cell. -/
def bestMatch (context : LzContext) (matches_ : List Match) : Option (Option (Nat × Nat)) :=
  matches_.foldlM (fun best m => do
      let startMeta ← context.metas[m.start]?
      if startMeta.cellId.isSome ∧ m.len > best.elim 0 Prod.snd then some (some (m.start, m.len))
      else some best) none

/-- The main loop of `run_lz`; each turn moves `i` on. -/
def lzLoop (context : LzContext) : Nat → Nat → SuffAut → LzState → Option LzState
  | 0, _, _, _ => none
  | fuel + 1, i, suffAut, state =>
      if i < context.bits.length then do
        let m ← context.metas[i]?
        let (best, suffAut) ←
          if m.cellId.isSome then do
            let (matches_, suffAut) ← suffAut.getMatch i
            let best ← context.bestMatch matches_
            some (best, suffAut)
          else some (none, suffAut)
        match best with
        | some (s, matchLen) => do
            let state ← context.runToken state ⟨i, s, matchLen⟩
            lzLoop context fuel (i + matchLen) suffAut state
        | none => lzLoop context fuel (i + 1) suffAut state
      else some state

/-- The output before the main loop: the number of cells. -/
def begin (context : LzContext) : LzState :=
  ⟨(BitPtr.start (8 * ((context.bits.length / 8 + 1) * 4 / 3))).storeUint context.nCells
    BITS_FOR_N_CELLS, 0⟩

/-- The output behind the main loop: the last literal and the end mark. -/
def finish (context : LzContext) (state : LzState) : Option BitPtr := do
  let n := context.bits.length
  let ptr ←
    if state.lastLiteralStart < n then
      context.dumpLiteral state.bitPtr (n - state.lastLiteralStart) state.lastLiteralStart
    else some state.bitPtr
  some (ptr.storeUint 1 1)

/-- The stores of `run_lz` with the given tokens in place of the chosen ones. -/
def runTokens (context : LzContext) (tokens : List Token) : Option BitPtr := do
  let state ← tokens.foldlM context.runToken context.begin
  context.finish state

end LzContext

/-- The stores of `run_lz` into its buffer. -/
def runLzBits (tables : Tables) (bits : List Bool) (metas : List SerializeMetaData) : Option BitPtr := do
  let suffAut ← SuffAut.ofString 2 (bits.map Bool.toNat)
  let suffAut ← suffAut.prepareMatches MIN_MATCH_LEN
  let context ← LzContext.build tables bits metas
  let state ← context.lzLoop (bits.length + 1) 0 suffAut context.begin
  context.finish state

/-- The `output` of `run_lz`; stores behind `output_bytes` leave it undefined. -/
def lzOutput (ptr : BitPtr) : Option (List UInt8) := do
  check (ptr.inside = true)
  some (storedBytes ptr)

/-- `run_lz`. -/
def runLz (tables : Tables) (bits : List Bool) (metas : List SerializeMetaData) : Option (List UInt8) := do
  let ptr ← runLzBits tables bits metas
  lzOutput ptr

/-- The `bits` and `meta` that `serialize` hands to `run_lz`. -/
def serializeBits (tables : Tables) (root : Cell) : Option (List Bool × List SerializeMetaData) := do
  let myCells ← convertToMyCells root
  let initialOrder ← initialCellOrder myCells
  let myCells ← applyOrder myCells initialOrder
  let (output, metas) ← myCellsToBitStr tables myCells
  let bits ← bytesStrToBitStr output true
  some (bits, metas)

/-- `serialize`. -/
def serialize (tables : Tables) (root : Cell) : Option (List UInt8) := do
  let (bits, metas) ← serializeBits tables root
  runLz tables bits metas

end CellBag.Serializator
