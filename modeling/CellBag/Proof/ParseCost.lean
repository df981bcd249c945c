import CellBag.Library.Recurrence
import CellBag.Proof.CodeLengths
import CellBag.Proof.Greedy

/-!
The bits that a parse costs: at least those of its literals, and at most what the repeated bits leave over and a
bounded price for each token.
-/

namespace CellBag.Serializator
open BitString CommonPrefix Huffman Recurrence

/-- The bits of a symbol, with the words of its escape from the threshold on. -/
def symbolCost (coder : HuffmanEncoderDecoder) (threshold blen num : Nat) : Nat :=
  (coder.word (min threshold num)).length +
    if threshold ≤ num then blen * ((num - threshold) / (2 ^ blen - 1) + 1) else 0

/-- The bits of the offset of a cell. -/
def cellIdOffsetCost (coder : HuffmanEncoderDecoder) (nCells cellIdOffset : Nat) : Nat :=
  (coder.word (min cellIdOffset CELL_ID_OFFSET_TH)).length +
    if CELL_ID_OFFSET_TH ≤ cellIdOffset then lenInBits (nCells - 1 - CELL_ID_OFFSET_TH) else 0

/-- The bits of a literal with its length. -/
def literalCost (coder : HuffmanEncoderDecoder) (literalLen : Nat) : Nat :=
  symbolCost coder LITERAL_LEN_TH BITS_TO_DUMP_LITERAL_LEN literalLen + literalLen

namespace LzContext

/-- The bits of a token with the literal before it. -/
def tokenCost (context : LzContext) (last : Nat) (token : Token) : Nat :=
  literalCost context.literalLenEncoder (token.i - last) +
    symbolCost context.matchLenEncoder MATCH_LEN_TH BITS_TO_DUMP_MATCH_LEN token.matchLen +
    cellIdOffsetCost context.cellIdOffsetEncoder context.nCells (context.cellIdOffset token) +
    symbolCost context.offsetWithinCellEncoder OFFSET_WITHIN_CELL_TH
      BITS_FOR_WITHIN_CELL_OFFSET_CURPLUS (context.withinCellOffset.getD token.s 0)

/-- The bits of the tokens and of the last literal. -/
def tokensCost (context : LzContext) : Nat → List Token → Nat
  | last, [] =>
      if last < context.bits.length then
        literalCost context.literalLenEncoder (context.bits.length - last)
      else 0
  | last, token :: tokens =>
      context.tokenCost last token + context.tokensCost (token.i + token.matchLen) tokens

/-- The bits of a parse: the number of cells, the tokens and literals, and the end mark. -/
def parseCost (context : LzContext) (tokens : List Token) : Nat :=
  BITS_FOR_N_CELLS + context.tokensCost 0 tokens + 1

end LzContext

/-- The bits of a symbol, counted. -/
theorem length_symbolBits (coder : HuffmanEncoderDecoder) (threshold blen num : Nat) :
    (symbolBits coder threshold blen num).length = symbolCost coder threshold blen num := by
  rw [symbolBits, symbolCost, List.length_append]
  split_ifs
  · rw [length_numBits]
  · rfl

theorem length_cellIdOffsetBits (coder : HuffmanEncoderDecoder) (nCells cellIdOffset : Nat) :
    (cellIdOffsetBits coder nCells cellIdOffset).length =
      cellIdOffsetCost coder nCells cellIdOffset := by
  rw [cellIdOffsetBits, cellIdOffsetCost, List.length_append]
  split_ifs
  · rw [length_ofNat]
  · rfl

theorem length_literalBits (coder : HuffmanEncoderDecoder) (literal : List Bool) :
    (literalBits coder literal).length = literalCost coder literal.length := by
  rw [literalBits, literalCost, List.length_append, length_symbolBits]

section Cost
variable {context : LzContext}

theorem length_tokenBits {last : Nat} {token : Token} (inside : token.i ≤ context.bits.length) :
    (context.tokenBits last token).length = context.tokenCost last token := by
  have literal : ((context.bits.drop last).take (token.i - last)).length = token.i - last :=
    length_chunk (by omega)
  simp only [LzContext.tokenBits, LzContext.tokenCost, List.length_append, length_literalBits,
    length_symbolBits, length_cellIdOffsetBits, literal, Nat.add_assoc]

theorem length_tokensBits {last : Nat} {tokens : List Token}
    (parses : Parses context.bits last tokens) :
    (context.tokensBits last tokens).length = context.tokensCost last tokens := by
  induction tokens generalizing last with
  | nil =>
      rw [LzContext.tokensBits, LzContext.tokensCost]
      split_ifs
      · rw [length_literalBits, List.length_drop]
      · rfl
  | cons token tokens ih =>
      obtain ⟨_, repeats, rest⟩ := parses
      have inside := repeats.inside
      rw [LzContext.tokensBits, LzContext.tokensCost, List.length_append, ih rest,
        length_tokenBits (by omega)]

variable (context) in
/-- The bits of the whole output, counted, with the mark. -/
theorem length_payload {tokens : List Token} (parses : Parses context.bits 0 tokens) :
    (context.payload tokens).length + 1 = context.parseCost tokens := by
  rw [LzContext.payload, List.length_append, length_ofNat, length_tokensBits parses,
    LzContext.parseCost]

end Cost

/-- The bits in stretches of `MIN_MATCH_LEN` bits that occur at an earlier place too. -/
def repeatedBits (bits : List Bool) : Nat := covered MIN_MATCH_LEN bits

/-- The bits that the tokens match. -/
def matchedBits (tokens : List Token) : Nat := (tokens.map Token.matchLen).sum

/-- The greedy parse takes no match below `MIN_MATCH_LEN`. -/
theorem greedyFrom_long (bits : List Bool) (i : Nat) :
    ∀ token ∈ greedyFrom bits i, MIN_MATCH_LEN ≤ token.matchLen := by
  induction i using greedyFrom.induct bits with
  | case1 i inside long ih =>
      rw [greedyFrom_match inside long]
      intro token member
      rcases List.mem_cons.mp member with rfl | member
      · exact long
      · exact ih token member
  | case2 i inside short ih =>
      rw [greedyFrom_skip inside (Nat.not_le.mp short)]
      exact ih
  | case3 i behind =>
      rw [greedyFrom_end (Nat.not_lt.mp behind)]
      exact fun token member => absurd member (List.not_mem_nil)

/-- The greedy matches are long. -/
theorem greedyTokens_long (bits : List Bool) :
    ∀ token ∈ greedyTokens bits, MIN_MATCH_LEN ≤ token.matchLen := greedyFrom_long bits 0

/-- Long matches cover only repeated bits. -/
theorem matchedBits_le {bits : List Bool} {last : Nat} {tokens : List Token}
    (parses : Parses bits last tokens) (long : ∀ token ∈ tokens, MIN_MATCH_LEN ≤ token.matchLen) :
    matchedBits tokens ≤ coveredFrom MIN_MATCH_LEN bits last := by
  induction tokens generalizing last with
  | nil => exact Nat.zero_le _
  | cons token tokens ih =>
      obtain ⟨later, repeats, rest⟩ := parses
      have tail := ih rest fun other member => long other (List.mem_cons_of_mem _ member)
      have here := add_coveredFrom_le (m := MIN_MATCH_LEN) repeats.inside fun j from_ before =>
        covered_of_repetition repeats.earlier repeats.inside repeats.same (long token List.mem_cons_self)
          from_ before (by decide)
      have earlier : coveredFrom MIN_MATCH_LEN bits token.i ≤ coveredFrom MIN_MATCH_LEN bits last :=
        coveredFrom_le later
      rw [matchedBits, List.map_cons, List.sum_cons, ← matchedBits]
      omega

/-- The matches of the greedy parse cover only repeated bits. -/
theorem matchedBits_greedy_le (bits : List Bool) :
    matchedBits (greedyTokens bits) ≤ repeatedBits bits :=
  matchedBits_le (greedyTokens_parses bits) (greedyTokens_long bits)

/-- Without repeated bits the parse is one literal. -/
theorem greedyTokens_fresh {bits : List Bool} (fresh : repeatedBits bits = 0) : greedyTokens bits = [] := by
  have none := matchedBits_greedy_le bits
  have long := greedyTokens_long bits
  rcases same : greedyTokens bits with _ | ⟨token, tokens⟩
  · rfl
  · rw [same] at none long
    have positive : 0 < MIN_MATCH_LEN := by decide
    have first := long token List.mem_cons_self
    rw [matchedBits, List.map_cons, List.sum_cons] at none
    omega

/-- A parse costs at least the bits that no token matches. -/
theorem le_tokensCost (context : LzContext) {last : Nat} {tokens : List Token}
    (parses : Parses context.bits last tokens) :
    context.bits.length ≤ last + context.tokensCost last tokens + matchedBits tokens := by
  induction tokens generalizing last with
  | nil =>
      rw [LzContext.tokensCost, literalCost]
      split_ifs <;> omega
  | cons token tokens ih =>
      obtain ⟨later, repeats, rest⟩ := parses
      have tail := ih rest
      rw [LzContext.tokensCost, LzContext.tokenCost, literalCost, matchedBits, List.map_cons, List.sum_cons,
        ← matchedBits]
      omega

/-- The header and the end mark take 21 more bits. -/
theorem le_parseCost (context : LzContext) {tokens : List Token} (parses : Parses context.bits 0 tokens) :
    context.bits.length + 21 ≤ context.parseCost tokens + matchedBits tokens := by
  have header : BITS_FOR_N_CELLS = 20 := rfl
  have cost := le_tokensCost context parses
  rw [LzContext.parseCost, header]
  omega

/-- The lengths of a single literal that fits into `output_bytes`. -/
def LiteralFits (n : Nat) : Prop := n ∈ [64, 65, 66, 72, 73, 80, 81] ∨ 88 ≤ n

instance (n : Nat) : Decidable (LiteralFits n) := inferInstanceAs (Decidable (_ ∨ _))

/-- The bits of `output_bytes`. -/
def outputRoom (n : Nat) : Nat := 8 * ((n / 8 + 1) * 4 / 3)

/-- The room of a literal, checked for the source's table. -/
theorem literalLengths_passes : tablePasses (fun s depth => Nat.ble depth 16 && (Nat.ble 500 s ||
    (Nat.ble (21 + s + depth) (outputRoom s) == decide (LiteralFits s)))) literalLengthsFreq = true := by
  decide +kernel

/-- A symbol and its escape take at most 22 bits and the dumped rest. -/
theorem symbolCost_le {freq : List Nat} {coder : HuffmanEncoderDecoder} {threshold : Nat}
    (fits : TableFits freq (threshold + 1)) (built : HuffmanEncoderDecoder.ofFreq freq = some coder)
    (blen num : Nat) :
    symbolCost coder threshold blen num ≤
      22 + if threshold ≤ num then blen * ((num - threshold) / (2 ^ blen - 1) + 1) else 0 :=
  Nat.add_le_add_right (fits.length_word_le built (by omega)) _

section Bounds
variable (coders : Coders sourceTables)

/-- The codewords of literal lengths are short, and below the threshold just those of the fitting lengths leave
room for the literal. -/
theorem literalLen_word {s : Nat} (inRange : s < 501) : (coders.literalLen.word s).length ≤ 16 ∧
    (s < 500 → (21 + s + (coders.literalLen.word s).length ≤ outputRoom s ↔ LiteralFits s)) := by
  have fits := sourceTables_valid.literalLengths
  have light := fits.light
  obtain ⟨_, same, codec, -⟩ := HuffmanEncoderDecoder.ofFreq_spec _ fits.two (by omega)
  obtain rfl := Option.some.inj (coders.literalLen_built.symm.trans same)
  have passed := codec.length_word_passes literalLengths_passes coders.literalLen_built s
    (inRange.trans_le fits.long)
  simp only [Bool.and_eq_true, Bool.or_eq_true, Nat.ble_eq, beq_iff_eq] at passed
  refine ⟨passed.1, fun below => ?_⟩
  rw [← Nat.ble_eq, passed.2.resolve_left (by omega), decide_eq_true_iff]

/-- A literal fits with the number of cells and the end mark into `output_bytes` exactly if its length does. -/
theorem literalCost_fits_iff (n : Nat) :
    21 + literalCost coders.literalLen n ≤ outputRoom n ↔ LiteralFits n := by
  have th : LITERAL_LEN_TH = 500 := rfl
  have blen : BITS_TO_DUMP_LITERAL_LEN = 9 := rfl
  rw [literalCost, symbolCost, th, blen]
  by_cases below : n < 500
  · obtain ⟨-, exact_⟩ := literalLen_word coders (show n < 501 by omega)
    rw [← exact_ below, Nat.min_eq_right below.le, if_neg (by omega)]
    omega
  · obtain ⟨short, -⟩ := literalLen_word coders (show 500 < 501 by omega)
    have fits : LiteralFits n := .inr (by omega)
    rw [Nat.min_eq_left (by omega), if_pos (by omega), outputRoom]
    simp only [fits, iff_true]
    omega

/-- A literal costs little more than its bits. -/
theorem literalCost_le (n : Nat) : 50 * literalCost coders.literalLen n ≤ 800 + 51 * n := by
  have th : LITERAL_LEN_TH = 500 := rfl
  have blen : BITS_TO_DUMP_LITERAL_LEN = 9 := rfl
  obtain ⟨short, -⟩ := literalLen_word coders (show min 500 n < 501 by omega)
  rw [literalCost, symbolCost, th, blen]
  split_ifs <;> omega

/-- The fields of a cell that is sent. -/
theorem fieldBits_sent_le {myCells : List MyCell} (valid : ValidCells myCells) {i : Nat} {myCell : MyCell}
    (look : myCells[i]? = some myCell) :
    (myCell.fieldBits coders myCells.length i .d1).length ≤ 22 ∧
      (myCell.fieldBits coders myCells.length i .dataSize).length ≤ 22 ∧
      (myCell.fieldBits coders myCells.length i .refs).length ≤ 80 ∧
      (myCell.fieldBits coders myCells.length i .data).length ≤ 1023 := by
  have member := List.mem_of_getElem? look
  have few : myCells.length < 2 ^ 20 := valid.few
  have small := (valid.storable.cntBits myCell member).1
  have refs := (valid.storable.cntRefs myCell member).1
  refine ⟨sourceTables_valid.d1.length_word_le coders.d1_built (valid.storable.d1_lt look).2,
    sourceTables_valid.dataSize.length_word_le coders.dataSize_built (show myCell.cntBits < 1024 by omega),
    ?_, ?_⟩
  · have width : lenInBits (myCells.length - 1) ≤ 20 :=
      (lenInBits_le_iff (by omega) (by decide)).mpr (by omega)
    have total : ((myCell.refs.take myCell.cntRefs).flatMap (refBits myCells.length i)).length =
        (myCell.refs.take myCell.cntRefs).length * lenInBits (myCells.length - 1) := by
      simp [refBits, List.length_flatMap]
    rw [MyCell.fieldBits, total]
    exact Nat.mul_le_mul ((List.length_take_le _ _).trans refs) width
  · rw [MyCell.fieldBits, valid.storable.length_dataBits look]
    exact small

/-- The bits of a cell that is sent. -/
theorem bitsBefore_sent_le {myCells : List MyCell} (valid : ValidCells myCells) {i : Nat}
    (inside : i < myCells.length) : bitsBefore coders myCells i 4 ≤ 1147 := by
  obtain ⟨myCell, look⟩ : ∃ myCell, myCells[i]? = some myCell := ⟨_, List.getElem?_eq_getElem inside⟩
  obtain ⟨first, second, third, fourth⟩ := fieldBits_sent_le coders valid look
  simp only [bitsBefore_succ, fieldOf_rank look, passType]
  simp only [bitsBefore, List.range_zero, List.map_nil, List.sum_nil]
  omega

/-- The bits of all cells that are sent. -/
theorem length_streamBits_sent_le {myCells : List MyCell} (valid : ValidCells myCells) :
    (streamBits coders myCells).length ≤ myCells.length * 1147 := by
  have short {i : Nat} {myCell : MyCell} (look : myCells[i]? = some myCell) :=
    fieldBits_sent_le coders valid look
  have first := length_pass_le coders (k := 0) fun i myCell look => (short look).1
  have second := length_pass_le coders (k := 1) fun i myCell look => (short look).2.1
  have third := length_pass_le coders (k := 2) fun i myCell look => (short look).2.2.1
  have fourth := length_pass_le coders (k := 3) fun i myCell look => (short look).2.2.2
  rw [streamBits_eq]
  simp only [List.range_succ, List.range_zero, List.nil_append, List.flatMap_append,
    List.flatMap_singleton, List.length_append]
  omega

variable {coders} in
/-- The offset of a bit within its cell is below the bits of the longest cells. -/
theorem withinCellOffset_le {myCells : List MyCell} (valid : ValidCells myCells) {s : Nat}
    (inside : s < (streamBits coders myCells).length) :
    (lzContext coders myCells).withinCellOffset.getD s 0 ≤ 1147 := by
  obtain ⟨_, look, owned, place, -⟩ := context_at coders valid.toWritableCells inside
  have counted := offsets_streamMetas coders valid.storable look rfl
  have offset := place.symm.trans counted
  have fewer : ((streamMetas coders myCells).take s).countP
      (fun other => other.cellId = some ((lzContext coders myCells).cellOf s)) ≤
      (streamMetas coders myCells).countP
        fun other => other.cellId = some ((lzContext coders myCells).cellOf s) :=
    (List.take_sublist s _).countP_le
  rw [Option.some.inj offset]
  refine fewer.trans ?_
  rw [countP_streamMetas coders owned]
  exact bitsBefore_sent_le coders valid owned

/-- The offset of a bit within its cell has a short escape. -/
theorem offsetCost_le {myCells : List MyCell} (valid : ValidCells myCells) {s : Nat}
    (inside : s < (streamBits coders myCells).length) :
    symbolCost coders.offsetWithinCell OFFSET_WITHIN_CELL_TH BITS_FOR_WITHIN_CELL_OFFSET_CURPLUS
      ((lzContext coders myCells).withinCellOffset.getD s 0) ≤ 50 := by
  have within := withinCellOffset_le valid inside
  apply (symbolCost_le sourceTables_valid.offsetWithinCell coders.offsetWithinCell_built _ _).trans
  change 22 + (if 1047 ≤ _ then 4 * ((_ - 1047) / (2 ^ 4 - 1) + 1) else 0) ≤ 50
  split_ifs <;> omega

/-- The offset of a cell has the bits of a codeword and of a number below `2 ^ 20`. -/
theorem cellIdOffsetCost_le {nCells : Nat} (few : nCells < 2 ^ 20) (cellIdOffset : Nat) :
    cellIdOffsetCost coders.cellIdOffset nCells cellIdOffset ≤ 42 := by
  have word := sourceTables_valid.cellIdOffset.length_word_le coders.cellIdOffset_built
    (show min cellIdOffset 1000 < 1001 by omega)
  have width : lenInBits (nCells - 1 - 1000) ≤ 20 :=
    (lenInBits_le_iff (by omega) (by decide)).mpr (by omega)
  change (coders.cellIdOffset.word (min cellIdOffset 1000)).length +
    (if 1000 ≤ cellIdOffset then lenInBits (nCells - 1 - 1000) else 0) ≤ 42
  split_ifs <;> omega

/-- A long enough token costs a bounded number of bits for each bit that it matches, besides its literal. -/
theorem tokenCost_le {myCells : List MyCell} (valid : ValidCells myCells) {last : Nat} {token : Token}
    (repeats : token.Repeats (streamBits coders myCells)) (long : MIN_MATCH_LEN ≤ token.matchLen) :
    1600 * (lzContext coders myCells).tokenCost last token ≤
      1632 * (token.i - last) + 6500 * token.matchLen := by
  have th : 32 ≤ token.matchLen := long
  have earlier := repeats.earlier
  have inside := repeats.inside
  have positive := repeats.positive
  have literal := literalCost_le coders (token.i - last)
  have offset := offsetCost_le coders valid (show token.s < (streamBits coders myCells).length by omega)
  have cell := cellIdOffsetCost_le coders valid.few ((lzContext coders myCells).cellIdOffset token)
  have matched : symbolCost coders.matchLen MATCH_LEN_TH BITS_TO_DUMP_MATCH_LEN token.matchLen ≤
      22 + if 300 ≤ token.matchLen then 8 * ((token.matchLen - 300) / (2 ^ 8 - 1) + 1) else 0 :=
    symbolCost_le sourceTables_valid.matchLen coders.matchLen_built _ _
  change 1600 * (literalCost coders.literalLen (token.i - last) + symbolCost coders.matchLen MATCH_LEN_TH
    BITS_TO_DUMP_MATCH_LEN token.matchLen + cellIdOffsetCost coders.cellIdOffset myCells.length
    ((lzContext coders myCells).cellIdOffset token) + symbolCost coders.offsetWithinCell
      OFFSET_WITHIN_CELL_TH BITS_FOR_WITHIN_CELL_OFFSET_CURPLUS
        ((lzContext coders myCells).withinCellOffset.getD token.s 0)) ≤ _
  split_ifs at matched <;> omega

/-- The price of a parse whose matches are long enough. -/
theorem tokensCost_le {myCells : List MyCell} (valid : ValidCells myCells) {last : Nat} {tokens : List Token}
    (parses : Parses (streamBits coders myCells) last tokens)
    (long : ∀ token ∈ tokens, MIN_MATCH_LEN ≤ token.matchLen) :
    1600 * (lzContext coders myCells).tokensCost last tokens + 1632 * (last + matchedBits tokens) ≤
      1632 * (streamBits coders myCells).length + 6500 * matchedBits tokens + 25600 := by
  induction tokens generalizing last with
  | nil =>
      have inside : last ≤ (streamBits coders myCells).length := parses
      have literal := literalCost_le coders ((streamBits coders myCells).length - last)
      have cost : (lzContext coders myCells).tokensCost last [] ≤
          literalCost coders.literalLen ((streamBits coders myCells).length - last) := by
        rw [LzContext.tokensCost]
        split_ifs
        · exact Nat.le_refl _
        · exact Nat.zero_le _
      rw [matchedBits, List.map_nil, List.sum_nil]
      omega
  | cons token tokens ih =>
      obtain ⟨later, repeats, rest⟩ := parses
      have tail := ih rest fun other member => long other (List.mem_cons_of_mem _ member)
      have head : 1600 * (lzContext coders myCells).tokenCost last token ≤
          1632 * (token.i - last) + 6500 * token.matchLen :=
        tokenCost_le coders valid repeats (long token List.mem_cons_self)
      rw [LzContext.tokensCost, matchedBits, List.map_cons, List.sum_cons, ← matchedBits]
      omega

/-- With few repeated bits the greedy parse fits into `output_bytes`. -/
theorem parseCost_greedy_le {myCells : List MyCell} (valid : ValidCells myCells)
    (few : 10 * repeatedBits (streamBits coders myCells) + 131 ≤ (streamBits coders myCells).length) :
    (lzContext coders myCells).parseCost (greedyTokens (streamBits coders myCells)) ≤
      outputRoom (streamBits coders myCells).length := by
  have header : BITS_FOR_N_CELLS = 20 := rfl
  have matched := matchedBits_greedy_le (streamBits coders myCells)
  have price := tokensCost_le coders valid (greedyTokens_parses _) (greedyTokens_long _)
  rw [LzContext.parseCost, outputRoom, header]
  omega

/-- The parse without tokens fits into `output_bytes` exactly if its one literal does. -/
theorem parseCost_nil_iff (myCells : List MyCell) :
    (lzContext coders myCells).parseCost [] ≤ outputRoom (streamBits coders myCells).length ↔
      LiteralFits (streamBits coders myCells).length := by
  have header : BITS_FOR_N_CELLS = 20 := rfl
  rw [LzContext.parseCost, LzContext.tokensCost, header, Nat.add_right_comm]
  change 21 + (if 0 < (streamBits coders myCells).length then
    literalCost coders.literalLen (streamBits coders myCells).length else 0) ≤ _ ↔ _
  rcases Nat.eq_zero_or_pos (streamBits coders myCells).length with empty | positive
  · rw [empty, if_neg (Nat.lt_irrefl 0)]
    decide
  · rw [if_pos positive]
    exact literalCost_fits_iff coders _

/-- Without repeated bits the greedy parse has no tokens. -/
theorem parseCost_fresh_iff {myCells : List MyCell}
    (fresh : repeatedBits (streamBits coders myCells) = 0) :
    (lzContext coders myCells).parseCost (greedyTokens (streamBits coders myCells)) ≤
      outputRoom (streamBits coders myCells).length ↔ LiteralFits (streamBits coders myCells).length := by
  rw [greedyTokens_fresh fresh]
  exact parseCost_nil_iff coders myCells

end Bounds

end CellBag.Serializator
