import CellBag.Proof.Parsing
import CellBag.Proof.Tokens

/-!
A dumped token among any other bits: `advance_lz_decoder` reads its numbers and goes on with them.
-/

namespace CellBag.Serializator
open BitString Huffman

/-- A distance between cells leads back, unless the sum of the number of cells and the current cell
wraps around and gets too small. -/
theorem wrapSub_back {n a place : Nat} (inside : place < n) (fits : place ≤ a % 2 ^ 32) :
    wrapSub a place % n ≤ a % 2 ^ 32 ∧ wrapSub a (wrapSub a place % n) % n = place := by
  have bound : (a % 2 ^ 32 - place) % n ≤ a % 2 ^ 32 := (Nat.mod_le _ _).trans (Nat.sub_le _ _)
  rw [wrapSub_of_le fits, wrapSub_of_le bound]
  exact ⟨bound, distance_back inside fits⟩

/-- What `advance_lz_decoder` does behind the numbers of a token. -/
def LzReader.finishToken (reader : LzReader) (parser : Parser) (refCellId matchLen offset offs : Nat) :
    Option (Parser × Nat) := do
  let cellMeta ← parser.cellMetas[refCellId]?
  let start ← cellMeta.getPos offset
  let parser ← copyMatch matchLen start parser
  let parser ← parser.advanceCellsRead reader.fieldDecoders
  some (parser, offs)

section Token

variable {tables : Tables} (coders : Coders tables) (nCells : Nat)

/-- The variables of `run_lz` for any bits. -/
def tokenContext (bits : List Bool) (metas : List SerializeMetaData) (withinCellOffset : List Nat) :
    LzContext where
  bits := bits
  metas := metas
  nCells := nCells
  withinCellOffset := withinCellOffset
  literalLenEncoder := coders.literalLen
  matchLenEncoder := coders.matchLen
  cellIdOffsetEncoder := coders.cellIdOffset
  offsetWithinCellEncoder := coders.offsetWithinCell

/-- The variables of `deserialise` for any bits. -/
def tokenReader (lzBits : List Bool) (lzCntBits : Nat) : LzReader where
  lzBits := lzBits
  lzCntBits := lzCntBits
  nCells := nCells
  fieldDecoders := fieldDecoders coders
  literalLenDecoder := coders.literalLen
  matchLenDecoder := coders.matchLen
  cellIdOffsetDecoder := coders.cellIdOffset
  offsetWithinCellDecoder := coders.offsetWithinCell

/-- The bits of the numbers behind a literal. -/
def dumpedNumbers (matchLen cellIdOffset offset : Nat) : List Bool :=
  symbolBits coders.matchLen MATCH_LEN_TH BITS_TO_DUMP_MATCH_LEN matchLen ++
    (cellIdOffsetBits coders.cellIdOffset nCells cellIdOffset ++
      symbolBits coders.offsetWithinCell OFFSET_WITHIN_CELL_TH BITS_FOR_WITHIN_CELL_OFFSET_CURPLUS
        offset)

/-- The bits of a literal and the numbers behind it. -/
def dumpedToken (literal : List Bool) (matchLen cellIdOffset offset : Nat) : List Bool :=
  literalBits coders.literalLen literal ++ dumpedNumbers coders nCells matchLen cellIdOffset offset

variable {coders nCells}

/-- `dump_token` appends the bits of its token. -/
theorem dumpToken_eq {bits : List Bool} {metas : List SerializeMetaData} {withinCellOffset : List Nat}
    {state : LzState} {token : Token} {curCellId refCellId offset : Nat} {curField refField : FieldType}
    (later : state.lastLiteralStart ≤ token.i) (inside : token.i ≤ bits.length)
    (cur : metas[token.i]? = some ⟨some curCellId, curField⟩)
    (ref : metas[token.s]? = some ⟨some refCellId, refField⟩)
    (within : withinCellOffset[token.s]? = some offset) :
    (tokenContext coders nCells bits metas withinCellOffset).dumpToken state token = some
      (state.bitPtr.push (dumpedToken coders nCells
        ((bits.drop state.lastLiteralStart).take (token.i - state.lastLiteralStart)) token.matchLen
        (wrapSub (nCells + curCellId) refCellId % nCells) offset)) := by
  set context := tokenContext coders nCells bits metas withinCellOffset
  have literal : context.dumpLiteral state.bitPtr (token.i - state.lastLiteralStart)
      state.lastLiteralStart = some (state.bitPtr.push (literalBits coders.literalLen
        ((bits.drop state.lastLiteralStart).take (token.i - state.lastLiteralStart)))) :=
    dumpLiteral_eq context coders.literalLen_usable state.bitPtr (show _ ≤ bits.length by omega)
  have length (ptr : BitPtr) : dumpSymbol context.matchLenEncoder MATCH_LEN_TH BITS_TO_DUMP_MATCH_LEN
      token.matchLen ptr = some (ptr.push (symbolBits coders.matchLen MATCH_LEN_TH
        BITS_TO_DUMP_MATCH_LEN token.matchLen)) :=
    dumpSymbol_eq coders.matchLen_usable (by decide) token.matchLen ptr
  have cell (ptr : BitPtr) (cellIdOffset : Nat) : context.dumpCellIdOffset ptr cellIdOffset =
      some (ptr.push (cellIdOffsetBits coders.cellIdOffset nCells cellIdOffset)) :=
    dumpCellIdOffset_eq coders.cellIdOffset_usable ptr cellIdOffset
  have place (ptr : BitPtr) : dumpSymbol context.offsetWithinCellEncoder OFFSET_WITHIN_CELL_TH
      BITS_FOR_WITHIN_CELL_OFFSET_CURPLUS offset ptr = some (ptr.push (symbolBits
        coders.offsetWithinCell OFFSET_WITHIN_CELL_TH BITS_FOR_WITHIN_CELL_OFFSET_CURPLUS offset)) :=
    dumpSymbol_eq coders.offsetWithinCell_usable (by decide) offset ptr
  have curMeta : context.metas[token.i]? = _ := cur
  have refMeta : context.metas[token.s]? = _ := ref
  have offsetAt : context.withinCellOffset[token.s]? = _ := within
  simp only [LzContext.dumpToken, literal, length, refMeta, curMeta, cell, offsetAt, place,
    Option.bind_eq_bind, Option.bind_some, BitPtr.push_push, dumpedToken, dumpedNumbers]
  rfl

section Reader

variable {lzBits literal rest : List Bool} {lzCntBits matchLen cellIdOffset offset offs : Nat}
  (few : nCells < 2 ^ 32) (matchWord : matchLen < 2 ^ 32) (small : cellIdOffset < nCells)
  (offsetWord : offset < 2 ^ 32)

variable (lzCntBits) in
include few matchWord small offsetWord in
/-- The numbers of a token are read one behind the other. -/
theorem readDumpedNumbers_eq
    (ahead : Ahead lzBits offs (dumpedNumbers coders nCells matchLen cellIdOffset offset ++ rest)) :
    ∃ afterLen afterCell,
      readSymbol coders.matchLen MATCH_LEN_TH BITS_TO_DUMP_MATCH_LEN lzBits offs =
        some (matchLen, afterLen) ∧
      (tokenReader coders nCells lzBits lzCntBits).readCellIdOffset afterLen =
        some (cellIdOffset, afterCell) ∧
      readSymbol coders.offsetWithinCell OFFSET_WITHIN_CELL_TH BITS_FOR_WITHIN_CELL_OFFSET_CURPLUS
        lzBits afterCell =
          some (offset, offs + (dumpedNumbers coders nCells matchLen cellIdOffset offset).length) := by
  have usable : Usable coders.matchLen (MATCH_LEN_TH + 1) := coders.matchLen_usable
  have usableOffset : Usable coders.offsetWithinCell (OFFSET_WITHIN_CELL_TH + 1) :=
    coders.offsetWithinCell_usable
  rw [dumpedNumbers, List.append_assoc] at ahead
  have readMatch := readSymbol_eq usable (by decide) matchWord ahead
  have aheadCell := ahead.next
  rw [List.append_assoc] at aheadCell
  have readCell : (tokenReader coders nCells lzBits lzCntBits).readCellIdOffset _ = some
      (cellIdOffset, _ + (cellIdOffsetBits coders.cellIdOffset nCells cellIdOffset).length) :=
    readCellIdOffset_eq coders.cellIdOffset_usable few small aheadCell
  have readOffset := readSymbol_eq usableOffset (by decide) offsetWord aheadCell.next
  refine ⟨_, _, readMatch, readCell, ?_⟩
  rw [readOffset, dumpedNumbers, List.length_append, List.length_append, ← Nat.add_assoc,
    ← Nat.add_assoc]

/-- The literal in front of the numbers is read. -/
theorem readLiteral_eq (literalWord : literal.length < 2 ^ 32)
    (ahead : Ahead lzBits offs (literalBits coders.literalLen literal ++ rest)) :
    ∃ mid, readSymbol coders.literalLen LITERAL_LEN_TH BITS_TO_DUMP_LITERAL_LEN lzBits offs =
        some (literal.length, mid) ∧
      ((List.range literal.length).mapM fun j => getBit lzBits (mid + j)) = some literal ∧
      mid + literal.length = offs + (literalBits coders.literalLen literal).length := by
  have usable : Usable coders.literalLen (LITERAL_LEN_TH + 1) := coders.literalLen_usable
  rw [literalBits, List.append_assoc] at ahead
  refine ⟨_, readSymbol_eq usable (by decide) literalWord ahead, ahead.next.getBits, ?_⟩
  rw [literalBits, List.length_append, Nat.add_assoc]

/-- The numbers behind a literal take at least a bit. -/
theorem dumpedNumbers_pos : 0 < (dumpedNumbers coders nCells matchLen cellIdOffset offset).length := by
  have bits := symbolBits_pos coders.matchLen_usable BITS_TO_DUMP_MATCH_LEN matchLen
  rw [dumpedNumbers, List.length_append]
  exact Nat.lt_of_lt_of_le bits (Nat.le_add_right ..)

include few matchWord small offsetWord in
/-- From the bits of a token `advance_lz_decoder` goes on with the numbers of the token. -/
theorem advanceLzDecoder_eq {parser next : Parser} {m : SerializeMetaData}
    (literalWord : literal.length < 2 ^ 32) (matches_ : 1 ≤ matchLen)
    (ahead : Ahead lzBits offs
      (dumpedToken coders nCells literal matchLen cellIdOffset offset ++ rest))
    (room : offs + (dumpedToken coders nCells literal matchLen cellIdOffset offset).length ≤ lzCntBits)
    (fed : (parser.storeOut literal).advanceCellsRead (fieldDecoders coders) = some next)
    (predicted : predictNextMeta next.myCells next.lastReadMeta = some m) :
    (tokenReader coders nCells lzBits lzCntBits).advanceLzDecoder (parser, offs) =
      (tokenReader coders nCells lzBits lzCntBits).finishToken next
        (wrapSub (nCells + m.cellId.getD (2 ^ 32 - 1)) cellIdOffset % nCells) matchLen offset
        (offs + (dumpedToken coders nCells literal matchLen cellIdOffset offset).length) := by
  rw [dumpedToken, List.append_assoc] at ahead
  obtain ⟨mid, readLen, bits, afterLiteral⟩ := readLiteral_eq literalWord ahead
  obtain ⟨afterLen, afterCell, readMatch, readCell, readOffset⟩ :=
    readDumpedNumbers_eq lzCntBits few matchWord small offsetWord ahead.next
  have numbers : 0 < (dumpedNumbers coders nCells matchLen cellIdOffset offset).length :=
    dumpedNumbers_pos
  rw [dumpedToken, List.length_append] at room ⊢
  have start : check (offs < (tokenReader coders nCells lzBits lzCntBits).lzCntBits) = some () :=
    check_of (show offs < lzCntBits by omega)
  have running : ¬ mid + literal.length ≥ lzCntBits := by omega
  have nonzero : matchLen ≠ 0 := by omega
  unfold LzReader.advanceLzDecoder
  simp only [start, Option.bind_eq_bind, Option.bind_some]
  simp only [tokenReader, readLen, bits, fed, Option.bind_some, if_neg running]
  rw [afterLiteral, readMatch, Option.bind_some]
  simp only [if_neg nonzero]
  change ((tokenReader coders nCells lzBits lzCntBits).readCellIdOffset _).bind _ = _
  rw [readCell, Option.bind_some, predicted, Option.bind_some]
  simp only
  rw [readOffset, Option.bind_some, ← Nat.add_assoc]
  rfl

end Reader

variable (coders nCells) in
/-- Wherever the bits of a token stand, `advance_lz_decoder` reads the literal, goes on with the numbers
when it predicts the given cell, and has read just these bits. -/
def ReadsAs (curCellId : Nat) (word literal : List Bool) (refCellId matchLen offset : Nat) : Prop :=
  ∀ before after lzCntBits parser next m, before.length + word.length ≤ lzCntBits →
    (parser.storeOut literal).advanceCellsRead (fieldDecoders coders) = some next →
    predictNextMeta next.myCells next.lastReadMeta = some m → m.cellId = some curCellId →
    (tokenReader coders nCells (before ++ (word ++ after)) lzCntBits).advanceLzDecoder
        (parser, before.length) =
      (tokenReader coders nCells (before ++ (word ++ after)) lzCntBits).finishToken next refCellId
        matchLen offset (before.length + word.length)

/-- The bits of a token are read as the token. -/
theorem dumpedToken_readsAs {curCellId refCellId matchLen cellIdOffset offset : Nat}
    {literal : List Bool} (few : nCells < 2 ^ 32) (small : cellIdOffset < nCells)
    (literalWord : literal.length < 2 ^ 32) (matches_ : 1 ≤ matchLen) (matchWord : matchLen < 2 ^ 32)
    (offsetWord : offset < 2 ^ 32)
    (back : wrapSub (nCells + curCellId) cellIdOffset % nCells = refCellId) :
    ReadsAs coders nCells curCellId (dumpedToken coders nCells literal matchLen cellIdOffset offset)
      literal refCellId matchLen offset := by
  intro before after lzCntBits parser next m room fed predicted owner
  rw [advanceLzDecoder_eq few matchWord small offsetWord literalWord matches_ (ahead_append before _)
    room fed predicted, owner, Option.getD_some, back]

/-- The sum of the number of cells and the current cell does not get too small below `2 ^ 31` cells. -/
theorem le_sum_of_few {curCellId refCellId : Nat} (few : nCells ≤ 2 ^ 31)
    (insideCur : curCellId < nCells) (insideRef : refCellId < nCells) :
    refCellId ≤ (nCells + curCellId) % 2 ^ 32 := by
  omega

end Token

/-- Stores one behind the other are one store. -/
theorem storeOut_storeOut (parser : Parser) (first second : List Bool) :
    (parser.storeOut first).storeOut second = parser.storeOut (first ++ second) := by
  simp [Parser.storeOut]

/-- A copy repeats earlier bits, also those that it has just written. -/
theorem copyMatch_eq (bits : List Bool) (len pos j : Nat) (parser : Parser)
    (stored : parser.outBits.bits = bits.take j) (earlier : pos < j) (inside : j + len ≤ bits.length)
    (same : ∀ k < len, bits[pos + k]? = bits[j + k]?) :
    LzReader.copyMatch len pos parser = some (parser.storeOut ((bits.drop j).take len)) := by
  induction len generalizing pos j parser with
  | zero => simp [LzReader.copyMatch, Parser.storeOut]
  | succ len ih =>
      have within : j < bits.length := by omega
      have here := same 0 (by omega)
      rw [Nat.add_zero, Nat.add_zero, List.getElem?_eq_getElem within] at here
      have read : getBit (BitPtr.buffer parser.outBits) pos = some bits[j] := by
        rw [getBit_eq, BitPtr.buffer, stored, List.getElem?_append_left (by simp; omega),
          List.getElem?_take_of_lt earlier, here]
      have next := ih (pos + 1) (j + 1) (parser.storeOut [bits[j]])
        (by simp [Parser.storeOut, stored]) (by omega) (by omega) (fun k less => by
          have later := same (k + 1) (by omega)
          rwa [show pos + 1 + k = pos + (k + 1) by omega, show j + 1 + k = j + (k + 1) by omega])
      rw [LzReader.copyMatch, read, List.drop_eq_getElem_cons within, List.take_succ_cons]
      simp only [Option.bind_eq_bind, Option.bind_some, next, storeOut_storeOut, List.singleton_append]

/-- `advance_cells_read` waits in front of data that is not complete, and only notes the bits that are there. -/
theorem advanceCellsRead_waits (decoders : FieldDecoders) {parser : Parser} {cellId : Nat} {myCell : MyCell}
    {cellMeta : CellMeta} (predicted : predictNextMeta parser.myCells parser.lastReadMeta =
      some ⟨some cellId, .data⟩)
    (look : parser.myCells[cellId]? = some myCell) (told : parser.cellMetas[cellId]? = some cellMeta)
    (begun : parser.offs < parser.writePtr) (short : parser.writePtr < parser.offs + myCell.cntBits) :
    parser.advanceCellsRead decoders = some { parser with
      cellMetas := parser.cellMetas.set cellId
        { cellMeta with data := ⟨some parser.offs, parser.writePtr - parser.offs⟩ } } := by
  have waits : parser.tryRead decoders cellId .data = some none := by
    simp only [Parser.tryRead, Parser.tryReadData, look, Option.bind_eq_bind, Option.bind_some,
      check_of (show myCell.cntBits > 0 by omega), if_pos short]
  have stays : parser.advanceLoop decoders (4 * parser.myCells.length + 1) = some parser := by
    simp only [Parser.advanceLoop, predicted, Option.bind_eq_bind, Option.bind_some, waits]
  simp only [Parser.advanceCellsRead, stays, Option.bind_eq_bind, Option.bind_some, if_pos begun, predicted,
    Parser.setPlace, told, CellMeta.setPlace]

/-- What `dump_num` and `dump_token` write is read back by `read_dumped_num` and `advance_lz_decoder`. -/
theorem dumpToken_readsAs {tables : Tables} (coders : Coders tables) (bits : List Bool)
    (metas : List SerializeMetaData) (withinCellOffset : List Nat) (state : LzState) (token : Token)
    (nCells curCellId refCellId offset : Nat) (curField refField : FieldType)
    (few : nCells < 2 ^ BITS_FOR_N_CELLS) (insideCur : curCellId < nCells) (insideRef : refCellId < nCells)
    (later : state.lastLiteralStart ≤ token.i) (inside : token.i ≤ bits.length)
    (literalWord : token.i - state.lastLiteralStart < 2 ^ 32) (matches_ : 1 ≤ token.matchLen)
    (matchWord : token.matchLen < 2 ^ 32)
    (cur : metas[token.i]? = some ⟨some curCellId, curField⟩)
    (ref : metas[token.s]? = some ⟨some refCellId, refField⟩)
    (within : withinCellOffset[token.s]? = some offset) (offsetWord : offset < 2 ^ 32) :
    let literal := (bits.drop state.lastLiteralStart).take (token.i - state.lastLiteralStart)
    let cellIdOffset := wrapSub (nCells + curCellId) refCellId % nCells
    (∀ blen num, 1 ≤ blen → blen ≤ 31 → num < 2 ^ 32 → ∀ ptr,
      ∃ word, dumpNum ptr num blen = some (ptr.push word) ∧ ∀ before after,
        readDumpedNum (before ++ (word ++ after)) before.length blen =
          some (num, before.length + word.length)) ∧
      (∃ word, (tokenContext coders nCells bits metas withinCellOffset).dumpToken state token =
          some (state.bitPtr.push word) ∧
        ReadsAs coders nCells curCellId word literal refCellId token.matchLen offset) ∧
      nCells + curCellId < 2 ^ 32 ∧ refCellId ≤ nCells + curCellId ∧
      cellIdOffset ≤ nCells + curCellId ∧
      (CELL_ID_OFFSET_TH ≤ cellIdOffset → CELL_ID_OFFSET_TH ≤ nCells - 1) := by
  intro literal cellIdOffset
  have fewer : nCells < 2 ^ 20 := few
  have small : cellIdOffset < nCells := Nat.mod_lt _ (Nat.zero_lt_of_lt insideRef)
  have back := (wrapSub_back insideRef (le_sum_of_few (by omega) insideCur insideRef)).2
  have short : literal.length < 2 ^ 32 := by
    rw [List.length_take]
    exact Nat.lt_of_le_of_lt (Nat.min_le_left _ _) literalWord
  refine ⟨fun blen num wide _ numWord ptr => ?_, ⟨_, dumpToken_eq later inside cur ref within, ?_⟩,
    by omega, by omega, by omega, fun escape => by omega⟩
  · refine ⟨numBits blen num, dumpNum_eq wide ptr num, fun before after => ?_⟩
    exact readDumpedNum_eq wide numWord (ahead_append before _)
  · exact dumpedToken_readsAs (by omega) small short matches_ matchWord offsetWord back

/-- The metas of two cells with 1000 cells from one to the other. -/
def distantMetas : List SerializeMetaData :=
  List.replicate 1048 ⟨some 0, .data⟩ ++ List.replicate 900 ⟨some 1000, .data⟩

/-- The metas of 1001 cells of which only the first and the last one have data. -/
def farCellMetas (cnt : Nat) : List CellMeta :=
  ⟨⟨some 0, 5⟩, ⟨some 5, 10⟩, ⟨some 15, 10⟩, ⟨some 25, 1023⟩⟩ ::
    (List.replicate 999 CellMeta.default ++ [{ CellMeta.default with data := ⟨some 1048, cnt⟩ }])

/-- The parser in front of the data of cell 1000, when some of its 1023 bits are there. -/
def waitingParser (cnt : Nat) : Parser where
  outBits := (BitPtr.start 4000).push (List.replicate (1048 + cnt) true)
  offs := 1048
  myCells := List.replicate 1001 { MyCell.default with cntBits := 1023 }
  cellMetas := farCellMetas cnt
  lastReadMeta := ⟨some 999, .data⟩

/-- The data waits for the rest of its bits. -/
theorem waitingParser_feed (decoders : FieldDecoders) {cnt more : Nat} (begun : 0 < cnt + more)
    (short : cnt + more < 1023) :
    ((waitingParser cnt).storeOut (List.replicate more true)).advanceCellsRead decoders =
      some (waitingParser (cnt + more)) := by
  have predicted : predictNextMeta (waitingParser 0).myCells (waitingParser 0).lastReadMeta =
      some ⟨some 1000, .data⟩ := by decide +kernel
  have stored : (waitingParser cnt).outBits.push (List.replicate more true) =
      (waitingParser (cnt + more)).outBits := by
    simp only [waitingParser, BitPtr.push_push, List.replicate_append_replicate, Nat.add_assoc]
  have ends : ((waitingParser cnt).storeOut (List.replicate more true)).writePtr = 1048 + (cnt + more) := by
    rw [Parser.writePtr, Parser.storeOut, stored]
    simp only [waitingParser, BitPtr.push_offs, BitPtr.start_offs, List.length_replicate, Nat.zero_add]
  have told : (farCellMetas cnt)[1000]? = some { CellMeta.default with data := ⟨some 1048, cnt⟩ } := by
    rw [farCellMetas, List.getElem?_cons_succ, List.getElem?_append_right (by rw [List.length_replicate]),
      List.length_replicate]
    rfl
  have noted : (farCellMetas cnt).set 1000 { CellMeta.default with data := ⟨some 1048, cnt + more⟩ } =
      farCellMetas (cnt + more) := by
    rw [farCellMetas, List.set_cons_succ, List.set_append_right _ _ (by rw [List.length_replicate]),
      List.length_replicate]
    rfl
  have fed := advanceCellsRead_waits decoders (show predictNextMeta
      ((waitingParser cnt).storeOut (List.replicate more true)).myCells _ = _ from predicted)
    (List.getElem?_replicate_of_lt (by decide)) told
    (by rw [ends]; exact Nat.lt_add_of_pos_right begun)
    (by rw [ends]; exact Nat.add_lt_add_left short _)
  rw [fed, ends, Parser.storeOut, stored]
  simp only [waitingParser, Nat.add_sub_cancel_left, noted]

/-- A match copies the set bits. -/
theorem waitingParser_copy {cnt len pos : Nat} (earlier : pos < 1048 + cnt) :
    LzReader.copyMatch len pos (waitingParser cnt) =
      some ((waitingParser cnt).storeOut (List.replicate len true)) := by
  have stored : (waitingParser cnt).outBits.bits =
      (List.replicate (1048 + cnt + len) true).take (1048 + cnt) := by
    rw [List.take_replicate, Nat.min_eq_left (Nat.le_add_right _ _)]
    rfl
  have copied := copyMatch_eq (List.replicate (1048 + cnt + len) true) len pos (1048 + cnt)
    (waitingParser cnt) stored earlier (by rw [List.length_replicate]) fun k less => by
      rw [List.getElem?_replicate_of_lt (by omega), List.getElem?_replicate_of_lt (by omega)]
  rw [copied, List.drop_replicate, List.take_replicate, Nat.add_sub_cancel_left, Nat.min_self]

/-- All four numbers of the token are at their thresholds, and the sum of the number of cells and the current
cell wraps around. -/
theorem dumpToken_readsAs_thresholds : ∃ coders : Coders sourceTables, ∃ word,
    (tokenContext coders 1001 (List.replicate 1948 true) distantMetas
        (buildOffsetsWithinCells distantMetas)).dumpToken ⟨BitPtr.start 8000, 1048⟩ ⟨1548, 1047, 300⟩ =
      some ((BitPtr.start 8000).push word) ∧
    wrapSub (1001 + 1000) 0 % 1001 = CELL_ID_OFFSET_TH ∧
    ∀ before after, (tokenReader coders 1001 (before ++ (word ++ after))
        (before.length + word.length)).advanceLzDecoder (waitingParser 0, before.length) =
      some (waitingParser 800, before.length + word.length) := by
  obtain ⟨coders⟩ := sourceTables_valid.coders
  obtain ⟨-, ⟨word, dumped, reads⟩, -⟩ := dumpToken_readsAs coders (List.replicate 1948 true) distantMetas
    (buildOffsetsWithinCells distantMetas) ⟨BitPtr.start 8000, 1048⟩ ⟨1548, 1047, 300⟩ 1001 1000 0 1047
    .data .data (by decide) (by decide) (by decide) (by decide) (by decide +kernel) (by decide) (by decide)
    (by decide) (by decide +kernel) (by decide +kernel) (by decide +kernel) (by decide)
  rw [List.drop_replicate, List.take_replicate] at reads
  have predicted : predictNextMeta (waitingParser 500).myCells (waitingParser 500).lastReadMeta =
      some ⟨some 1000, .data⟩ := by decide +kernel
  have told : (waitingParser 500).cellMetas[0]? =
      some ⟨⟨some 0, 5⟩, ⟨some 5, 10⟩, ⟨some 15, 10⟩, ⟨some 25, 1023⟩⟩ := rfl
  have place : CellMeta.getPos ⟨⟨some 0, 5⟩, ⟨some 5, 10⟩, ⟨some 15, 10⟩, ⟨some 25, 1023⟩⟩ 1047 =
      some 1047 := by decide
  refine ⟨coders, word, dumped, by decide, fun before after => ?_⟩
  have token := reads before after _ (waitingParser 0) (waitingParser 500) _ le_rfl
    (waitingParser_feed _ (by decide) (by decide)) predicted rfl
  rw [token, LzReader.finishToken, told, Option.bind_eq_bind, Option.bind_some, place, Option.bind_eq_bind,
    Option.bind_some, waitingParser_copy (by decide), Option.bind_eq_bind, Option.bind_some,
    waitingParser_feed _ (by decide) (by decide), Option.bind_some]
  rfl

end CellBag.Serializator
