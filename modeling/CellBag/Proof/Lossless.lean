import CellBag.Proof.TokenReader

/-!
The reader follows each left-to-right parse of the bits into literals and repetitions.
-/

namespace CellBag.Serializator
open BitString Huffman

/-- The bits from `i` on repeat earlier ones. -/
structure Token.Repeats (bits : List Bool) (token : Token) : Prop where
  earlier : token.s < token.i
  positive : 1 ≤ token.matchLen
  inside : token.i + token.matchLen ≤ bits.length
  same : (bits.drop token.s).take token.matchLen = (bits.drop token.i).take token.matchLen

/-- The tokens go through the bits from left to right, with literals between them. -/
def Parses (bits : List Bool) : Nat → List Token → Prop
  | last, [] => last ≤ bits.length
  | last, token :: tokens => last ≤ token.i ∧ token.Repeats bits ∧
      Parses bits (token.i + token.matchLen) tokens

namespace LzContext

/-- The cell of a bit. -/
def cellOf (context : LzContext) (i : Nat) : Nat := (context.metas[i]?.bind (·.cellId)).getD 0

/-- The distance from the referred cell to the current one. -/
def cellIdOffset (context : LzContext) (token : Token) : Nat :=
  wrapSub (context.nCells + context.cellOf token.i) (context.cellOf token.s) % context.nCells

/-- The bits of a token with the literal before it. -/
def tokenBits (context : LzContext) (last : Nat) (token : Token) : List Bool :=
  literalBits context.literalLenEncoder ((context.bits.drop last).take (token.i - last)) ++
    (symbolBits context.matchLenEncoder MATCH_LEN_TH BITS_TO_DUMP_MATCH_LEN token.matchLen ++
      (cellIdOffsetBits context.cellIdOffsetEncoder context.nCells (context.cellIdOffset token) ++
        symbolBits context.offsetWithinCellEncoder OFFSET_WITHIN_CELL_TH
          BITS_FOR_WITHIN_CELL_OFFSET_CURPLUS (context.withinCellOffset.getD token.s 0)))

/-- The bits of the tokens and of the last literal. -/
def tokensBits (context : LzContext) : Nat → List Token → List Bool
  | last, [] =>
      if last < context.bits.length then
        literalBits context.literalLenEncoder (context.bits.drop last)
      else []
  | last, token :: tokens =>
      context.tokenBits last token ++ context.tokensBits (token.i + token.matchLen) tokens

/-- All bits before the end mark. -/
def payload (context : LzContext) (tokens : List Token) : List Bool :=
  ofNat BITS_FOR_N_CELLS context.nCells ++ context.tokensBits 0 tokens

end LzContext

section Context
variable {tables : Tables} (coders : Coders tables) (myCells : List MyCell)

/-- The variables of `run_lz` for the bits of the cells. -/
def lzContext : LzContext where
  bits := streamBits coders myCells
  metas := streamMetas coders myCells
  nCells := myCells.length
  withinCellOffset := buildOffsetsWithinCells (streamMetas coders myCells)
  literalLenEncoder := coders.literalLen
  matchLenEncoder := coders.matchLen
  cellIdOffsetEncoder := coders.cellIdOffset
  offsetWithinCellEncoder := coders.offsetWithinCell

/-- The variables of `deserialise` for a marked payload. -/
def lzReader (payload : List Bool) : LzReader where
  lzBits := ofBytes (markedBytes payload ++ [0])
  lzCntBits := payload.length
  nCells := myCells.length
  fieldDecoders := fieldDecoders coders
  literalLenDecoder := coders.literalLen
  matchLenDecoder := coders.matchLen
  cellIdOffsetDecoder := coders.cellIdOffset
  offsetWithinCellDecoder := coders.offsetWithinCell

variable {coders myCells}

/-- A maximum that is reached. -/
theorem foldl_max_eq {α : Type} {f : α → Nat} {items : List α} {n start : Nat}
    (bounded : ∀ item ∈ items, f item ≤ n) (low : start ≤ n)
    (reached : start = n ∨ ∃ item ∈ items, f item = n) :
    items.foldl (fun most item => max most (f item)) start = n := by
  induction items generalizing start with
  | nil =>
      rcases reached with same | ⟨item, member, _⟩
      · exact same
      · cases member
  | cons first rest ih =>
      have head := bounded first (by simp)
      rw [List.foldl_cons]
      refine ih (fun item member => bounded item (by simp [member])) (by omega) ?_
      rcases reached with same | ⟨item, member, same⟩
      · exact .inl (by omega)
      · rcases List.mem_cons.mp member with rfl | member
        · exact .inl (by omega)
        · exact .inr ⟨item, member, same⟩

/-- `run_lz` counts the cells by their metas. -/
theorem build_eq (valid : WritableCells myCells) :
    LzContext.build tables (streamBits coders myCells) (streamMetas coders myCells) =
      some (lzContext coders myCells) := by
  have inside : myCells.length - 1 < myCells.length := by
    have := valid.nonempty
    omega
  have look := List.getElem?_eq_getElem inside
  have bits := (fieldOf_pos coders (k := 0) valid look).mpr (by simp [passType])
  have lastMeta := streamMetas_at coders (rank_lt inside (by omega)) bits
  rw [rankMeta_rank inside] at lastMeta
  have count : (streamMetas coders myCells).foldl (fun nCells m =>
      max nCells (m.cellId.elim 0 fun cellId => cellId + 1)) 0 = myCells.length := by
    refine foldl_max_eq (f := fun m : SerializeMetaData => m.cellId.elim 0 fun cellId => cellId + 1)
      (fun m member => ?_) (Nat.zero_le _) (.inr ⟨_, List.mem_of_getElem? lastMeta, ?_⟩)
    · obtain ⟨i, small, owner⟩ := mem_streamMetas member
      rw [owner]
      exact small
    · exact Nat.sub_add_cancel valid.nonempty
  simp only [LzContext.build, count, coders.literalLen_built, coders.matchLen_built,
    coders.cellIdOffset_built, coders.offsetWithinCell_built, Option.bind_eq_bind, Option.bind_some]
  rfl

variable (coders) in
/-- A payload that starts with the number of cells. -/
theorem readerBuild_eq (valid : ValidCells myCells) (rest : List Bool) :
    LzReader.build tables (markedBytes (ofNat BITS_FOR_N_CELLS myCells.length ++ rest)) =
      some (lzReader coders myCells (ofNat BITS_FOR_N_CELLS myCells.length ++ rest)) := by
  set payload := ofNat BITS_FOR_N_CELLS myCells.length ++ rest with payloadEq
  obtain ⟨back, last, _, mark, clear⟩ := markedBytes_getLast payload
  have trailing : countTrailingZeroes32 back.toNat = markTail payload.length :=
    countTrailingZeroes_mark (by decide) mark clear
  have size := length_markedBytes payload
  have room : markTail payload.length + 1 ≤ (markedBytes payload).length * 8 := by omega
  have count : (markedBytes payload).length * 8 - (markTail payload.length + 1) = payload.length := by
    omega
  have cells : getUint (ofBytes (markedBytes payload ++ [0])) 0 BITS_FOR_N_CELLS =
      some myCells.length := by
    rw [ofBytes_append, ofBytes_markedBytes, payloadEq, List.append_assoc, List.append_assoc]
    exact getUint_ofNat valid.few [] _
  simp only [LzReader.build, last, trailing, check_of room, count, coders.d1_built,
    coders.dataSize_built, coders.literalLen_built, coders.matchLen_built, coders.cellIdOffset_built,
    coders.offsetWithinCell_built, cells, Option.bind_eq_bind, Option.bind_some]
  rfl

variable (coders) in
/-- The cell of a bit and its offset within the cell. -/
theorem context_at (valid : WritableCells myCells) {s : Nat}
    (before : s < (streamBits coders myCells).length) :
    ∃ fieldType, (streamMetas coders myCells)[s]? =
        some ⟨some ((lzContext coders myCells).cellOf s), fieldType⟩ ∧
      (lzContext coders myCells).cellOf s < myCells.length ∧
      (lzContext coders myCells).withinCellOffset[s]? =
        some ((lzContext coders myCells).withinCellOffset.getD s 0) ∧
      (lzContext coders myCells).withinCellOffset.getD s 0 ≤ 1369 ∧
      ∀ w ≤ (streamBits coders myCells).length, s < w → ∃ cellMeta,
        (cellMetasAt coders myCells w)[(lzContext coders myCells).cellOf s]? = some cellMeta ∧
        cellMeta.getPos ((lzContext coders myCells).withinCellOffset.getD s 0) = some s := by
  obtain ⟨cellId, fieldType, _, offset, small, owner, within, short, _, _⟩ :=
    view_getPos coders valid before (Nat.le_refl _)
  have cell : (lzContext coders myCells).cellOf s = cellId := by
    simp [LzContext.cellOf, lzContext, owner]
  have place : (lzContext coders myCells).withinCellOffset[s]? = some offset := within
  have offset_ : (lzContext coders myCells).withinCellOffset.getD s 0 = offset := by
    rw [List.getD_eq_getElem?_getD, place, Option.getD_some]
  rw [cell, offset_]
  refine ⟨fieldType, owner, small, place, short, fun w le received => ?_⟩
  obtain ⟨cellId', fieldType', cellMeta, offset', _, owner', within', _, look, found⟩ :=
    view_getPos coders valid received le
  rw [owner, Option.some.injEq, SerializeMetaData.mk.injEq, Option.some.injEq] at owner'
  rw [within, Option.some.injEq] at within'
  obtain ⟨rfl, _⟩ := owner'
  obtain rfl := within'
  exact ⟨cellMeta, look, found⟩

variable (coders) in
/-- An offset between cells is below their number. -/
theorem cellIdOffset_lt (valid : WritableCells myCells) (token : Token) :
    (lzContext coders myCells).cellIdOffset token < myCells.length :=
  Nat.mod_lt _ valid.nonempty

/-- The bits of the numbers of a token. -/
def numberBits (coders : Coders tables) (myCells : List MyCell) (token : Token) : List Bool :=
  symbolBits coders.matchLen MATCH_LEN_TH BITS_TO_DUMP_MATCH_LEN token.matchLen ++
    (cellIdOffsetBits coders.cellIdOffset myCells.length
      ((lzContext coders myCells).cellIdOffset token) ++
      symbolBits coders.offsetWithinCell OFFSET_WITHIN_CELL_TH BITS_FOR_WITHIN_CELL_OFFSET_CURPLUS
        ((lzContext coders myCells).withinCellOffset.getD token.s 0))

/-- A token is its literal and its numbers. -/
theorem tokenBits_eq (last : Nat) (token : Token) : (lzContext coders myCells).tokenBits last token =
    literalBits coders.literalLen (((streamBits coders myCells).drop last).take (token.i - last)) ++
      numberBits coders myCells token := rfl

/-- `dump_token` appends the bits of its token. -/
theorem runToken_eq (valid : WritableCells myCells) {state : LzState} {token : Token}
    (later : state.lastLiteralStart ≤ token.i) (repeats : token.Repeats (streamBits coders myCells)) :
    (lzContext coders myCells).runToken state token = some
      ⟨state.bitPtr.push ((lzContext coders myCells).tokenBits state.lastLiteralStart token),
        token.i + token.matchLen⟩ := by
  have earlier := repeats.earlier
  have positive := repeats.positive
  have inside := repeats.inside
  obtain ⟨_, metaS, _, within, _, _⟩ := context_at coders valid
    (show token.s < _ by omega)
  obtain ⟨_, metaI, _⟩ := context_at coders valid (show token.i < _ by omega)
  have dumped : (lzContext coders myCells).dumpToken state token = some (state.bitPtr.push
      ((lzContext coders myCells).tokenBits state.lastLiteralStart token)) :=
    dumpToken_eq later (show token.i ≤ (streamBits coders myCells).length by omega) metaI metaS within
  rw [LzContext.runToken, dumped]
  rfl

/-- The main loop of `run_lz` and the last literal append the bits of their tokens. -/
theorem foldlM_runToken_eq (valid : WritableCells myCells) {tokens : List Token} {state : LzState}
    (parses : Parses (streamBits coders myCells) state.lastLiteralStart tokens) :
    ((tokens.foldlM (lzContext coders myCells).runToken state).bind
      (lzContext coders myCells).finish) = some (state.bitPtr.push
        ((lzContext coders myCells).tokensBits state.lastLiteralStart tokens ++ [true])) := by
  induction tokens generalizing state with
  | nil =>
      have mark : ofNat 1 1 = [true] := rfl
      rw [List.foldlM_nil]
      simp only [Option.pure_def, Option.bind_some, LzContext.finish, LzContext.tokensBits]
      by_cases more : state.lastLiteralStart < (lzContext coders myCells).bits.length
      · have literal := dumpLiteral_eq (lzContext coders myCells) coders.literalLen_usable
          state.bitPtr (Nat.add_sub_of_le more.le).le
        rw [if_pos more, if_pos more, literal, List.take_of_length_le (by simp)]
        simp only [Option.bind_eq_bind, Option.bind_some, BitPtr.storeUint_eq_push, BitPtr.push_push, mark]
      · rw [if_neg more, if_neg more]
        simp only [Option.bind_eq_bind, Option.bind_some, BitPtr.storeUint_eq_push, mark,
          List.nil_append]
  | cons token tokens ih =>
      obtain ⟨later, repeats, rest⟩ := parses
      rw [List.foldlM_cons, runToken_eq valid later repeats]
      simp only [Option.bind_eq_bind, Option.bind_some]
      have tail := @ih ⟨state.bitPtr.push
        ((lzContext coders myCells).tokenBits state.lastLiteralStart token),
        token.i + token.matchLen⟩ rest
      rw [tail, BitPtr.push_push, LzContext.tokensBits, List.append_assoc]

/-- The output for the given tokens is their payload and an end mark. -/
theorem runTokens_eq (valid : WritableCells myCells) {tokens : List Token}
    (parses : Parses (streamBits coders myCells) 0 tokens) :
    (lzContext coders myCells).runTokens tokens = some
      ((BitPtr.start (8 * (((streamBits coders myCells).length / 8 + 1) * 4 / 3))).push
        ((lzContext coders myCells).payload tokens ++ [true])) := by
  have run := @foldlM_runToken_eq _ coders _ valid _ (lzContext coders myCells).begin parses
  rw [LzContext.runTokens, Option.bind_eq_bind, run, LzContext.begin, BitPtr.storeUint_eq_push,
    BitPtr.push_push, LzContext.payload, List.append_assoc]
  rfl

/-- The stored bytes of a payload with its mark. -/
theorem storedBytes_eq (size : Nat) (payload : List Bool) :
    storedBytes ((BitPtr.start size).push (payload ++ [true])) = markedBytes payload := by
  simp [storedBytes, markedBytes]

/-- A repeated bit, by its place. -/
theorem Token.Repeats.at {bits : List Bool} {token : Token} (repeats : token.Repeats bits) :
    ∀ k < token.matchLen, bits[token.s + k]? = bits[token.i + k]? := by
  intro k less
  have entry := congrArg (fun part => part[k]?) repeats.same
  simpa [List.getElem?_take_of_lt less] using entry

section Reader
variable {payload rest : List Bool} (size : Nat) {q last offs : Nat}

/-- Storing the bits behind a place moves `deserialise` over them. -/
theorem feedChunk_eq (valid : ValidCells myCells) (here : At coders myCells q last) {len : Nat}
    (inside : last + len ≤ (streamBits coders myCells).length) :
    ∃ q', At coders myCells q' (last + len) ∧
      ((view coders myCells size q last last).storeOut
        (((streamBits coders myCells).drop last).take len)).advanceCellsRead (fieldDecoders coders) =
          some (view coders myCells size q' (last + len) (last + len)) := by
  obtain ⟨q', hereEnd, fed⟩ := feed_eq valid size here (by omega)
    (List.take_prefix len ((streamBits coders myCells).drop last))
  rw [length_chunk (by omega)] at hereEnd fed
  exact ⟨q', hereEnd, fed⟩

/-- The offset of a token leads back from the current cell to the referred one. -/
theorem cellOf_back (valid : ValidCells myCells) {token : Token}
    (repeats : token.Repeats (streamBits coders myCells)) :
    wrapSub (myCells.length + (lzContext coders myCells).cellOf token.i)
        ((lzContext coders myCells).cellIdOffset token) % myCells.length =
      (lzContext coders myCells).cellOf token.s := by
  have earlier := repeats.earlier
  have positive := repeats.positive
  have inside := repeats.inside
  have few : myCells.length < 2 ^ 20 := valid.few
  obtain ⟨_, _, smallI, _⟩ := context_at coders valid.toWritableCells (show token.i < _ by omega)
  obtain ⟨_, _, smallS, _⟩ := context_at coders valid.toWritableCells (show token.s < _ by omega)
  exact (wrapSub_back smallS (le_sum_of_few (by omega) smallI smallS)).2

/-- The copy of a token and the call of `advance_cells_read` behind it. -/
theorem copyToken_eq (valid : ValidCells myCells) {token : Token} (here : At coders myCells q token.i)
    (repeats : token.Repeats (streamBits coders myCells)) :
    ∃ parser q', LzReader.copyMatch token.matchLen token.s (view coders myCells size q token.i token.i) =
        some parser ∧ At coders myCells q' (token.i + token.matchLen) ∧
      parser.advanceCellsRead (fieldDecoders coders) = some
        (view coders myCells size q' (token.i + token.matchLen) (token.i + token.matchLen)) := by
  have inside := repeats.inside
  have copied := copyMatch_eq (streamBits coders myCells) token.matchLen token.s token.i
    (view coders myCells size q token.i token.i) (by simp [view]) repeats.earlier inside repeats.at
  obtain ⟨q', hereEnd, fed⟩ := feedChunk_eq size valid here inside
  exact ⟨_, q', copied, hereEnd, fed⟩

/-- `advance_lz_decoder` follows a token. -/
theorem advanceLzDecoder_token (valid : ValidCells myCells) {token : Token}
    (here : At coders myCells q last) (later : last ≤ token.i)
    (repeats : token.Repeats (streamBits coders myCells))
    (ahead : Ahead (ofBytes (markedBytes payload ++ [0])) offs
      ((lzContext coders myCells).tokenBits last token ++ rest))
    (room : offs + ((lzContext coders myCells).tokenBits last token).length ≤ payload.length) :
    ∃ q', At coders myCells q' (token.i + token.matchLen) ∧
      (lzReader coders myCells payload).advanceLzDecoder (view coders myCells size q last last, offs) =
        some (view coders myCells size q' (token.i + token.matchLen) (token.i + token.matchLen),
          offs + ((lzContext coders myCells).tokenBits last token).length) := by
  have earlier := repeats.earlier
  have positive := repeats.positive
  have inside := repeats.inside
  have total := streamBits_lt coders valid
  have few : myCells.length < 2 ^ 20 := valid.few
  have length : (((streamBits coders myCells).drop last).take (token.i - last)).length =
      token.i - last := length_chunk (by omega)
  obtain ⟨r, hereI, advanced⟩ := feedChunk_eq size valid here
    (show last + (token.i - last) ≤ (streamBits coders myCells).length by omega)
  rw [Nat.add_sub_cancel' later] at hereI advanced
  obtain ⟨_, metaI, _⟩ := context_at coders valid.toWritableCells (show token.i < _ by omega)
  obtain ⟨predict, metaNext, _⟩ := view_predict valid size hereI (by omega)
  rw [metaI, Option.some.injEq] at metaNext
  rw [← metaNext] at predict
  obtain ⟨_, _, _, _, short, places⟩ :=
    context_at coders valid.toWritableCells (show token.s < _ by omega)
  obtain ⟨cellMeta, lookMeta, found⟩ := places token.i (by omega) earlier
  obtain ⟨parser, q', copied, hereEnd, fed⟩ := copyToken_eq size valid hereI repeats
  refine ⟨q', hereEnd, ?_⟩
  have read : (lzReader coders myCells payload).advanceLzDecoder (view coders myCells size q last last,
      offs) = (lzReader coders myCells payload).finishToken _ _ _ _ _ :=
    advanceLzDecoder_eq (by omega) (show token.matchLen < 2 ^ 32 by omega)
      (cellIdOffset_lt coders valid.toWritableCells token) (by omega)
      (length.trans_lt (by omega)) positive ahead room advanced predict
  have place : (view coders myCells size r token.i token.i).cellMetas[
      (lzContext coders myCells).cellOf token.s]? = some cellMeta := lookMeta
  simp only [Option.getD_some] at read
  rw [read, cellOf_back valid repeats, LzReader.finishToken, place]
  simp only [Option.bind_eq_bind, Option.bind_some, found, copied]
  change (parser.advanceCellsRead (fieldDecoders coders)).bind _ = _
  rw [fed]
  rfl

/-- `advance_lz_decoder` reads the last literal. -/
theorem advanceLzDecoder_last (valid : ValidCells myCells) (here : At coders myCells q last)
    (more : last < (streamBits coders myCells).length)
    (ahead : Ahead (ofBytes (markedBytes payload ++ [0])) offs
      (literalBits coders.literalLen ((streamBits coders myCells).drop last) ++ rest))
    (whole : offs + (literalBits coders.literalLen ((streamBits coders myCells).drop last)).length =
      payload.length) :
    ∃ q', At coders myCells q' (streamBits coders myCells).length ∧
      (lzReader coders myCells payload).advanceLzDecoder (view coders myCells size q last last, offs) =
        some (view coders myCells size q' (streamBits coders myCells).length
          (streamBits coders myCells).length, payload.length) := by
  have all : ((streamBits coders myCells).drop last).take ((streamBits coders myCells).length - last) =
      (streamBits coders myCells).drop last := List.take_of_length_le (by simp)
  have total := streamBits_lt coders valid
  have length : (((streamBits coders myCells).drop last).take
      ((streamBits coders myCells).length - last)).length = (streamBits coders myCells).length - last :=
    length_chunk (Nat.le_refl _)
  obtain ⟨q', hereEnd, advanced⟩ := feedChunk_eq size valid here (Nat.add_sub_of_le more.le).le
  rw [Nat.add_sub_cancel' more.le] at hereEnd advanced
  rw [← all] at ahead whole
  obtain ⟨mid, readLen, literal, afterLiteral⟩ := readLiteral_eq (by omega) ahead
  rw [whole] at afterLiteral
  rw [length] at readLen literal afterLiteral
  have usable : Usable coders.literalLen (LITERAL_LEN_TH + 1) := coders.literalLen_usable
  have bits := symbolBits_pos usable BITS_TO_DUMP_LITERAL_LEN
    ((streamBits coders myCells).length - last)
  rw [all, literalBits, List.length_append, List.length_drop] at whole
  have start : check (offs < (lzReader coders myCells payload).lzCntBits) = some () :=
    check_of (show offs < payload.length by omega)
  refine ⟨q', hereEnd, ?_⟩
  unfold LzReader.advanceLzDecoder
  simp only [start, Option.bind_eq_bind, Option.bind_some]
  simp only [lzReader, Option.bind_some, readLen, literal, advanced, afterLiteral, ge_iff_le,
    Nat.le_refl, if_true]
  rw [check_of trivial, Option.bind_some]

/-- A turn of the loop. -/
theorem lzLoop_turn {reader : LzReader} {parser : Parser} {next : Parser × Nat} (fuel : Nat)
    (before : offs < reader.lzCntBits) (turn : reader.advanceLzDecoder (parser, offs) = some next) :
    reader.lzLoop (fuel + 1) (parser, offs) = reader.lzLoop fuel next := by
  rw [LzReader.lzLoop, if_pos before, turn]
  rfl

/-- The loop stops at the last bit. -/
theorem lzLoop_stop (reader : LzReader) (parser : Parser) (fuel : Nat) :
    reader.lzLoop (fuel + 1) (parser, reader.lzCntBits) = some (parser, reader.lzCntBits) := by
  rw [LzReader.lzLoop, if_neg (Nat.lt_irrefl _)]

/-- The main loop of `deserialise` follows the tokens of a payload to its end. -/
theorem lzLoop_eq (valid : ValidCells myCells) {tokens : List Token} (fuel : Nat)
    (parses : Parses (streamBits coders myCells) last tokens) (here : At coders myCells q last)
    (ahead : Ahead (ofBytes (markedBytes payload ++ [0])) offs
      ((lzContext coders myCells).tokensBits last tokens ++ rest))
    (whole : offs + ((lzContext coders myCells).tokensBits last tokens).length = payload.length)
    (enough : payload.length - offs < fuel) :
    ∃ q', At coders myCells q' (streamBits coders myCells).length ∧
      (lzReader coders myCells payload).lzLoop fuel (view coders myCells size q last last, offs) =
        some (view coders myCells size q' (streamBits coders myCells).length
          (streamBits coders myCells).length, payload.length) := by
  induction tokens generalizing q last offs fuel with
  | nil =>
      have le : last ≤ (streamBits coders myCells).length := parses
      rw [LzContext.tokensBits] at ahead whole
      by_cases more : last < (streamBits coders myCells).length
      · rw [if_pos (show last < (lzContext coders myCells).bits.length from more)] at ahead whole
        have literal : (literalBits coders.literalLen ((streamBits coders myCells).drop last)).length =
            payload.length - offs := by
          rw [← whole]
          exact (Nat.add_sub_cancel_left ..).symm
        have positive := literalBits_pos coders.literalLen_usable ((streamBits coders myCells).drop last)
        obtain ⟨q', hereEnd, run⟩ := advanceLzDecoder_last size valid here more ahead whole
        obtain ⟨fuel, rfl⟩ := Nat.exists_eq_add_of_le' (show 2 ≤ fuel by omega)
        refine ⟨q', hereEnd, ?_⟩
        rw [lzLoop_turn _ (show offs < payload.length by omega) run]
        exact lzLoop_stop (lzReader coders myCells payload) _ fuel
      · rw [if_neg (show ¬ last < (lzContext coders myCells).bits.length from more), List.length_nil,
          Nat.add_zero] at whole
        obtain ⟨fuel, rfl⟩ := Nat.exists_eq_succ_of_ne_zero (show fuel ≠ 0 by omega)
        have stop : last = (streamBits coders myCells).length := by omega
        subst stop whole
        exact ⟨q, here, lzLoop_stop (lzReader coders myCells payload) _ fuel⟩
  | cons token tokens ih =>
      obtain ⟨later, repeats, rest_⟩ := parses
      rw [LzContext.tokensBits, List.append_assoc] at ahead
      rw [LzContext.tokensBits, List.length_append] at whole
      obtain ⟨q', hereNext, run⟩ := advanceLzDecoder_token size valid here later repeats
        ahead (by omega)
      have positive : 0 < ((lzContext coders myCells).tokenBits last token).length := by
        have literal := literalBits_pos coders.literalLen_usable
          (((streamBits coders myCells).drop last).take (token.i - last))
        rw [tokenBits_eq, List.length_append]
        omega
      obtain ⟨fuel, rfl⟩ := Nat.exists_eq_succ_of_ne_zero (show fuel ≠ 0 by omega)
      obtain ⟨q'', hereEnd, tail⟩ := ih fuel rest_ hereNext ahead.next (by omega) (by omega)
      exact ⟨q'', hereEnd, by rw [lzLoop_turn _ (show offs < payload.length by omega) run, tail]⟩

end Reader

/-- The fields of a cell that are sent. -/
structure SameFields (first second : MyCell) : Prop where
  cntRefs : first.cntRefs = second.cntRefs
  isSpecial : first.isSpecial = second.isSpecial
  cntBits : first.cntBits = second.cntBits
  refs : first.refs.take first.cntRefs = second.refs.take second.cntRefs
  dataBits : first.dataBits = second.dataBits

/-- Behind the last field all cells are told. -/
theorem cellsAt_same (valid : ValidCells myCells) :
    List.Forall₂ SameFields (cellsAt myCells (4 * myCells.length)) myCells := by
  apply List.forall₂_iff_get.mpr
  refine ⟨by simp, fun i _ inside => ?_⟩
  set myCell := myCells.get ⟨i, inside⟩
  have look : myCells[i]? = some myCell := List.getElem?_eq_getElem inside
  have told := cellsAt_look (r := 4 * myCells.length) look
  rw [List.getElem?_eq_getElem (by simpa using inside), Option.some.injEq] at told
  have done : ∀ pass < 4, Done myCells.length (4 * myCells.length) pass i := by
    intro pass small
    have := Nat.mul_le_mul_right myCells.length (show pass ≤ 3 by omega)
    rw [Done]
    omega
  have refs := (valid.cntRefs _ (List.mem_of_getElem? look)).2
  have size := valid.storable.length_dataBits look
  rw [List.get_eq_getElem, told]
  constructor
  · simp [cellAt, done]
  · simp [cellAt, done]
  · simp [cellAt, done]
  · have long : (myCell.refs.take myCell.cntRefs).length = myCell.cntRefs := by
      rw [List.length_take]
      omega
    simp only [cellAt, done, Nat.reduceLT, if_true]
    exact List.take_left' long
  · rw [MyCell.dataBits]
    simp only [cellAt, done, Nat.reduceLT, if_true]
    rw [ofBytes_toBytes_of_le (by rw [size]; omega)]
    exact List.take_left' size

/-- The reading loop of `deserialise` follows a payload to its end. -/
theorem readLz_eq (valid : ValidCells myCells) {tokens : List Token}
    (parses : Parses (streamBits coders myCells) 0 tokens) :
    readLz tables (markedBytes ((lzContext coders myCells).payload tokens)) = some
      (lzReader coders myCells ((lzContext coders myCells).payload tokens),
        view coders myCells (8 * ((markedBytes ((lzContext coders myCells).payload tokens)).length * 2))
          (4 * myCells.length) (streamBits coders myCells).length (streamBits coders myCells).length,
        ((lzContext coders myCells).payload tokens).length) := by
  set payload := (lzContext coders myCells).payload tokens with payloadEq
  have split : payload = ofNat BITS_FOR_N_CELLS myCells.length ++
      (lzContext coders myCells).tokensBits 0 tokens := payloadEq
  have size : payload.length = BITS_FOR_N_CELLS +
      ((lzContext coders myCells).tokensBits 0 tokens).length := by
    rw [split, List.length_append, length_ofNat]
  have ahead : Ahead (ofBytes (markedBytes payload ++ [0])) BITS_FOR_N_CELLS
      ((lzContext coders myCells).tokensBits 0 tokens ++
        (true :: List.replicate (markTail payload.length) false ++ ofBytes [0])) := by
    have start := ahead_append (ofNat BITS_FOR_N_CELLS myCells.length)
      ((lzContext coders myCells).tokensBits 0 tokens ++
        (true :: List.replicate (markTail payload.length) false ++ ofBytes [0]))
    rwa [length_ofNat, ← List.append_assoc, ← split, ← List.append_assoc, ← ofBytes_markedBytes,
      ← ofBytes_append] at start
  have build := readerBuild_eq coders valid ((lzContext coders myCells).tokensBits 0 tokens)
  rw [← split] at build
  obtain ⟨q, here, run⟩ := lzLoop_eq (8 * ((markedBytes payload).length * 2)) valid
    (payload.length + 1) parses (at_start coders valid) ahead size.symm (by omega)
  have final : At coders myCells (4 * myCells.length) (streamBits coders myCells).length :=
    ⟨Nat.le_refl _, (start_fields_all coders myCells).le, fun inRange => absurd inRange (Nat.lt_irrefl _)⟩
  obtain rfl := here.unique final
  rw [view_start] at run
  rw [readLz, build]
  simp only [Option.bind_eq_bind, Option.bind_some]
  change ((lzReader coders myCells payload).lzLoop (payload.length + 1) (Parser.start
    (8 * ((markedBytes payload).length * 2)) myCells.length, BITS_FOR_N_CELLS)).bind _ = _
  rw [run, Option.bind_some]

end Context

/-- `deserialise` reads all bits and cells out of its input and stops behind the last bit. -/
def Restores (tables : Tables) (bits : List Bool) (myCells : List MyCell) (lz : List UInt8) : Prop :=
  ∃ reader parser, readLz tables lz = some (reader, parser, reader.lzCntBits) ∧
    parser.outBits.bits = bits ∧ List.Forall₂ SameFields parser.myCells myCells

/-- The reader restores the bag from the payload of any parse. -/
theorem restores_payload {tables : Tables} {coders : Coders tables} {myCells : List MyCell}
    (valid : ValidCells myCells) {tokens : List Token}
    (parses : Parses (streamBits coders myCells) 0 tokens) :
    Restores tables (streamBits coders myCells) myCells
      (markedBytes ((lzContext coders myCells).payload tokens)) :=
  ⟨_, _, readLz_eq valid parses, by simp [view], cellsAt_same valid⟩

end CellBag.Serializator
