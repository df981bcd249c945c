import CellBag.Proof.RoundTrip

/-!
What `deserialise` keeps on any input: every written bit lies in exactly one field of one cell.
-/

namespace CellBag.Serializator
open BitString Huffman

/-- The place of a field of a cell. -/
def CellMeta.place (cellMeta : CellMeta) : FieldType → FieldPlace
  | .none => .unset
  | .d1 => cellMeta.d1
  | .dataSize => cellMeta.dataSize
  | .refs => cellMeta.refs
  | .data => cellMeta.data

/-- A bit lies in a place. -/
def FieldPlace.Contains (place : FieldPlace) (p : Nat) : Prop :=
  ∃ start, place.start = some start ∧ start ≤ p ∧ p < start + place.cnt

/-- The number of known bits of a cell in the passes before one. -/
def CellMeta.cntBefore (cellMeta : CellMeta) (k : Nat) : Nat :=
  ((List.range k).map fun pass => (cellMeta.place (passType pass)).cnt).sum

/-- `get_pos` counts the offset through the fields of the cell. -/
theorem CellMeta.getPos_eq_some_iff (cellMeta : CellMeta) (offset p : Nat) :
    cellMeta.getPos offset = some p ↔ ∃ k < 4, ∃ start,
      (cellMeta.place (passType k)).start = some start ∧ start ≤ p ∧
      p < start + (cellMeta.place (passType k)).cnt ∧ offset + start = cellMeta.cntBefore k + p := by
  have sums : cellMeta.cntBefore 0 = 0 ∧ cellMeta.cntBefore 1 = cellMeta.d1.cnt ∧
      cellMeta.cntBefore 2 = cellMeta.d1.cnt + cellMeta.dataSize.cnt ∧
      cellMeta.cntBefore 3 = cellMeta.d1.cnt + cellMeta.dataSize.cnt + cellMeta.refs.cnt := by
    simp [cntBefore, List.range_succ, passType, place]
    omega
  obtain ⟨none_, one, two, three⟩ := sums
  constructor
  · intro found
    simp only [getPos] at found
    split_ifs at found
    · obtain ⟨start, begins, rfl⟩ := Option.map_eq_some_iff.mp found
      exact ⟨0, by omega, start, begins, by omega, by simp only [passType, place]; omega, by omega⟩
    · obtain ⟨start, begins, rfl⟩ := Option.map_eq_some_iff.mp found
      exact ⟨1, by omega, start, begins, by omega, by simp only [passType, place]; omega, by omega⟩
    · obtain ⟨start, begins, rfl⟩ := Option.map_eq_some_iff.mp found
      exact ⟨2, by omega, start, begins, by omega, by simp only [passType, place]; omega, by omega⟩
    · obtain ⟨_, inData, found⟩ := Option.bind_eq_some_iff.mp found
      rw [check_eq_some] at inData
      obtain ⟨start, begins, rfl⟩ := Option.map_eq_some_iff.mp found
      exact ⟨3, by omega, start, begins, by omega, by simp only [passType, place]; omega, by omega⟩
  · rintro ⟨k, pass, start, begins, low, high, sum⟩
    simp only [getPos]
    interval_cases k <;> simp only [passType, place] at begins high
    · rw [if_pos (by omega), begins, Option.map_some, Option.some.injEq]
      omega
    · rw [if_neg (by omega), if_pos (by omega), begins, Option.map_some, Option.some.injEq]
      omega
    · rw [if_neg (by omega), if_neg (by omega), if_pos (by omega), begins, Option.map_some,
        Option.some.injEq]
      omega
    · rw [if_neg (by omega), if_neg (by omega), if_neg (by omega), check_of (by omega),
        Option.bind_eq_bind, Option.bind_some, begins, Option.map_some, Option.some.injEq]
      omega

/-- Setting the place of a field keeps those of the others. -/
theorem CellMeta.setPlace_place {cellMeta next : CellMeta} {place : FieldPlace} {fieldType : FieldType}
    (set : cellMeta.setPlace place fieldType = some next) (other : FieldType) (isField : other ≠ .none) :
    next.place other = if other = fieldType then place else cellMeta.place other := by
  cases fieldType with
  | none => cases set
  | _ =>
      obtain rfl := Option.some.inj set
      cases other <;> first | contradiction | rfl

theorem passType_ne_none (k : Nat) : passType k ≠ .none := by
  unfold passType
  split <;> simp

theorem passType_inj {k j : Nat} (passK : k < 4) (passJ : j < 4) : passType k = passType j ↔ k = j := by
  interval_cases k <;> interval_cases j <;> simp [passType]

namespace Parser

/-- The field of a rank is known to hold a bit. -/
def Owns (parser : Parser) (r p : Nat) : Prop :=
  ∃ cellMeta, parser.cellMetas[r % parser.cellMetas.length]? = some cellMeta ∧
    (cellMeta.place (passType (r / parser.cellMetas.length))).Contains p

/-- Setting the place of a field changes what this field owns. -/
theorem owns_setPlace {parser next : Parser} {r start cnt : Nat}
    (inRange : r < 4 * parser.cellMetas.length)
    (set : parser.setPlace (r % parser.cellMetas.length) start cnt
      (passType (r / parser.cellMetas.length)) = some next) :
    (∃ cellMetas, next = { parser with cellMetas } ∧
      cellMetas.length = parser.cellMetas.length) ∧
    (∀ p, next.Owns r p ↔ start ≤ p ∧ p < start + cnt) ∧
    ∀ q < 4 * parser.cellMetas.length, q ≠ r → ∀ p, next.Owns q p ↔ parser.Owns q p := by
  obtain ⟨cellMeta, look, set⟩ := Option.bind_eq_some_iff.mp set
  obtain ⟨changed, placed, set⟩ := Option.bind_eq_some_iff.mp set
  obtain rfl := Option.some.inj set
  obtain ⟨k, i, passK, insideI, rfl⟩ := exists_rank inRange
  rw [rank_mod insideI] at look
  rw [rank_div insideI] at placed
  have fields {j : Nat} := CellMeta.setPlace_place placed (passType j) (passType_ne_none j)
  refine ⟨⟨_, rfl, by simp⟩, fun p => ?_, fun q inRangeQ other p => ?_⟩
  · simp [Owns, rank_mod insideI, rank_div insideI, insideI, fields, FieldPlace.Contains]
  · obtain ⟨j, l, passJ, insideL, rfl⟩ := exists_rank inRangeQ
    simp only [Owns, List.length_set, rank_mod insideI, rank_mod insideL, rank_div insideL]
    by_cases cell : l = i
    · subst cell
      have pass : passType j ≠ passType k := fun same =>
        other (by rw [(passType_inj passJ passK).mp same])
      simp only [List.getElem?_set_self insideI, Option.some.injEq, exists_eq_left', fields, if_neg pass,
        look]
    · rw [List.getElem?_set_ne (Ne.symm cell)]

/-- What is written is inside the buffer. -/
theorem writePtr_le_buffer (parser : Parser) :
    parser.writePtr ≤ (BitPtr.buffer parser.outBits).length := by
  rw [BitPtr.buffer, List.length_append]
  exact Nat.le_add_right _ _

end Parser

/-- A read of a symbol stays before its cutoff. -/
theorem decodeSymbol_le {coder : HuffmanEncoderDecoder} {bits : List Bool} {offs cutoff next : Nat}
    {answer : Option Nat} (inside : cutoff ≤ bits.length) (before : offs ≤ cutoff)
    (run : coder.decodeSymbol bits offs (some cutoff) = some (answer, next)) :
    offs ≤ next ∧ next ≤ cutoff := by
  rw [HuffmanEncoderDecoder.decodeSymbol,
    HuffmanEncoderDecoder.decodeLoop_cutoff bits offs cutoff inside _ offs before] at run
  split at run
  · obtain ⟨-, rfl⟩ := Prod.mk.inj (Option.some.inj run)
    exact ⟨Nat.le_refl _, before⟩
  · rename_i found walked
    obtain ⟨-, rfl⟩ := Prod.mk.inj (Option.some.inj run)
    have count := (CodeTree.walk_sound walked).1
    rw [List.length_drop, List.length_take] at count
    omega

/-- An entry that indexes nothing outside a table, whether its fields have been read or not. -/
structure MyCell.InTable (nCells : Nat) (myCell : MyCell) : Prop where
  slots : myCell.refs.length = 4
  refs : ∀ ref ∈ myCell.refs, ref < nCells
  cntRefs : myCell.cntRefs ≤ 4 ∨ myCell.cntRefs = 2 ^ 32 - 1

namespace Parser

/-- What a successful read of a field changes. -/
structure Read (parser : Parser) (i : Nat) (read : Parser) : Prop where
  offs_le : parser.offs ≤ read.offs
  offs_le_writePtr : read.offs ≤ parser.writePtr
  inside : i < parser.myCells.length
  same : ∃ myCell, read = { parser with offs := read.offs, myCells := parser.myCells.set i myCell } ∧
    ((∀ other ∈ parser.myCells, other.InTable parser.myCells.length) →
      myCell.InTable parser.myCells.length)

section Reads
variable {decoders : FieldDecoders} {parser read : Parser} {i : Nat}

/-- `tryReadD1` reads one field. -/
theorem read_d1 (room : parser.offs ≤ parser.writePtr)
    (run : parser.tryReadD1 decoders i = some (some read)) : parser.Read i read := by
  obtain ⟨myCell, look, run⟩ := Option.bind_eq_some_iff.mp run
  obtain ⟨⟨answer, offs⟩, decoded, run⟩ := Option.bind_eq_some_iff.mp run
  have bounds := decodeSymbol_le parser.writePtr_le_buffer room decoded
  cases answer with
  | none => cases run
  | some d1 =>
      obtain ⟨_, few, run⟩ := Option.bind_eq_some_iff.mp run
      obtain rfl := Option.some.inj (Option.some.inj run)
      rw [check_eq_some] at few
      refine ⟨bounds.1, bounds.2, (List.getElem?_eq_some_iff.mp look).1, _, rfl, fun table => ?_⟩
      have old := table myCell (List.mem_of_getElem? look)
      exact ⟨old.slots, old.refs, .inl few⟩

theorem read_dataSize (room : parser.offs ≤ parser.writePtr)
    (run : parser.tryReadDataSize decoders i = some (some read)) : parser.Read i read := by
  obtain ⟨myCell, look, run⟩ := Option.bind_eq_some_iff.mp run
  obtain ⟨⟨answer, offs⟩, decoded, run⟩ := Option.bind_eq_some_iff.mp run
  have bounds := decodeSymbol_le parser.writePtr_le_buffer room decoded
  cases answer with
  | none => cases run
  | some cntBits =>
      obtain rfl := Option.some.inj (Option.some.inj run)
      refine ⟨bounds.1, bounds.2, (List.getElem?_eq_some_iff.mp look).1, _, rfl, fun table => ?_⟩
      have old := table myCell (List.mem_of_getElem? look)
      exact ⟨old.slots, old.refs, old.cntRefs⟩

/-- The refs that the loop has read are numbers of cells. -/
theorem readRefs_lt {nCells bitLen cnt offs next : Nat} {refs : List Nat} (positive : 0 < nCells)
    (room : offs ≤ parser.writePtr)
    (run : parser.readRefs nCells i bitLen cnt offs = some (some (refs, next))) :
    refs.length = cnt ∧ offs ≤ next ∧ next ≤ parser.writePtr ∧ ∀ ref ∈ refs, ref < nCells := by
  induction cnt generalizing offs refs with
  | zero =>
      obtain ⟨rfl, rfl⟩ := Prod.mk.inj (Option.some.inj (Option.some.inj run))
      exact ⟨rfl, Nat.le_refl _, room, by simp⟩
  | succ cnt ih =>
      rw [readRefs] at run
      split_ifs at run with short
      · cases run
      · obtain ⟨stored, -, run⟩ := Option.bind_eq_some_iff.mp run
        obtain ⟨answer, loop, run⟩ := Option.bind_eq_some_iff.mp run
        cases answer with
        | none => cases run
        | some tail =>
            obtain ⟨rfl, rfl⟩ := Prod.mk.inj (Option.some.inj (Option.some.inj run))
            obtain ⟨count, low, high, below⟩ := ih (by omega) loop
            refine ⟨by simp [count], by omega, high, fun ref member => ?_⟩
            rcases List.mem_cons.mp member with rfl | member
            · exact Nat.mod_lt _ positive
            · exact below ref member

theorem read_refs (room : parser.offs ≤ parser.writePtr)
    (run : parser.tryReadRefs i = some (some read)) : parser.Read i read := by
  obtain ⟨myCell, look, run⟩ := Option.bind_eq_some_iff.mp run
  obtain ⟨_, -, run⟩ := Option.bind_eq_some_iff.mp run
  obtain ⟨answer, loop, run⟩ := Option.bind_eq_some_iff.mp run
  have inside := (List.getElem?_eq_some_iff.mp look).1
  cases answer with
  | none => cases run
  | some tail =>
      obtain ⟨refs, offs⟩ := tail
      obtain ⟨_, few, run⟩ := Option.bind_eq_some_iff.mp run
      obtain rfl := Option.some.inj (Option.some.inj run)
      rw [check_eq_some] at few
      obtain ⟨-, low, high, below⟩ := readRefs_lt (by omega) room loop
      refine ⟨low, high, inside, _, rfl, fun table => ?_⟩
      have old := table myCell (List.mem_of_getElem? look)
      refine ⟨by simp; omega, fun ref member => ?_, old.cntRefs⟩
      rcases List.mem_append.mp member with member | zero
      · exact below ref member
      · rw [List.eq_of_mem_replicate zero]
        omega

theorem read_data (run : parser.tryReadData i = some (some read)) : parser.Read i read := by
  obtain ⟨myCell, look, run⟩ := Option.bind_eq_some_iff.mp run
  obtain ⟨_, -, run⟩ := Option.bind_eq_some_iff.mp run
  split_ifs at run with short
  · cases run
  · obtain ⟨bits, -, run⟩ := Option.bind_eq_some_iff.mp run
    obtain rfl := Option.some.inj (Option.some.inj run)
    refine ⟨by simp, by simp only; omega, (List.getElem?_eq_some_iff.mp look).1, _, rfl, fun table => ?_⟩
    have old := table myCell (List.mem_of_getElem? look)
    exact ⟨old.slots, old.refs, old.cntRefs⟩

/-- Whichever pass it is, one field is read. -/
theorem tryRead_spec {fieldType : FieldType} (room : parser.offs ≤ parser.writePtr)
    (run : parser.tryRead decoders i fieldType = some (some read)) : parser.Read i read := by
  cases fieldType with
  | none => cases run
  | d1 => exact read_d1 room run
  | dataSize => exact read_dataSize room run
  | refs => exact read_refs room run
  | data => exact read_data run

end Reads

end Parser

/-- The meta of the field before a rank, or that of the start. -/
def metaBefore (n : Nat) : Nat → SerializeMetaData
  | 0 => ⟨none, .none⟩
  | r + 1 => rankMeta n r

section Predict
variable {myCells : List MyCell} {m : SerializeMetaData}

/-- The loop of `predict_next_meta` goes to a later rank. -/
theorem predictLoop_later {fuel q : Nat} (inRange : q < 4 * myCells.length)
    (run : predictLoop myCells fuel (q % myCells.length) (passType (q / myCells.length)) = some m) :
    ∃ r, q < r ∧ r ≤ 4 * myCells.length ∧ m = metaAt myCells.length r := by
  induction fuel generalizing q with
  | zero => cases run
  | succ fuel ih =>
      rw [predictLoop, nextMetaDummy_eq inRange] at run
      by_cases last : q + 1 < 4 * myCells.length
      · have next : metaAt myCells.length (q + 1) = rankMeta myCells.length (q + 1) := if_pos last
        rw [next] at run
        have skip {fieldType : FieldType} (same : passType ((q + 1) / myCells.length) = fieldType)
            (rest : predictLoop myCells fuel ((q + 1) % myCells.length) fieldType = some m) :
            ∃ r, q < r ∧ r ≤ 4 * myCells.length ∧ m = metaAt myCells.length r := by
          rw [← same] at rest
          obtain ⟨r, later, le, found⟩ := ih last rest
          exact ⟨r, by omega, le, found⟩
        have here (found : some (rankMeta myCells.length (q + 1)) = some m) :
            ∃ r, q < r ∧ r ≤ 4 * myCells.length ∧ m = metaAt myCells.length r :=
          ⟨q + 1, by omega, last.le, by rw [next]; exact (Option.some.inj found).symm⟩
        simp only [rankMeta] at run
        cases pass : passType ((q + 1) / myCells.length) with
        | none => exact absurd pass (passType_ne_none _)
        | d1 => exact here (by simpa [rankMeta, pass] using run)
        | dataSize => exact here (by simpa [rankMeta, pass] using run)
        | refs =>
            simp only [pass] at run
            obtain ⟨myCell, -, run⟩ := Option.bind_eq_some_iff.mp run
            split_ifs at run with some_
            · exact here (by rw [rankMeta, pass, run])
            · exact skip pass run
        | data =>
            simp only [pass] at run
            obtain ⟨myCell, -, run⟩ := Option.bind_eq_some_iff.mp run
            split_ifs at run with some_
            · exact here (by rw [rankMeta, pass, run])
            · exact skip pass run
      · have stop : metaAt myCells.length (q + 1) = ⟨none, .none⟩ := if_neg last
        rw [stop] at run
        exact ⟨q + 1, by omega, by omega, by rw [stop]; exact (Option.some.inj run).symm⟩

/-- `predict_next_meta` goes to a later rank or to the end. -/
theorem predictNextMeta_later {k : Nat} (positive : 0 < myCells.length) (le : k ≤ 4 * myCells.length)
    (run : predictNextMeta myCells (metaBefore myCells.length k) = some m) :
    ∃ r, k ≤ r ∧ r ≤ 4 * myCells.length ∧ m = metaAt myCells.length r := by
  cases k with
  | zero =>
      refine ⟨0, Nat.le_refl _, Nat.zero_le _, ?_⟩
      rw [metaAt, if_pos (by omega), rankMeta, Nat.zero_mod, Nat.zero_div]
      exact (Option.some.inj run).symm
  | succ q =>
      obtain ⟨r, later, below, found⟩ := predictLoop_later (Nat.lt_of_succ_le le) run
      exact ⟨r, later, below, found⟩

end Predict

/-- Different fields have different metas. -/
theorem rankMeta_inj {n q r : Nat} (inRangeQ : q < 4 * n) (inRangeR : r < 4 * n)
    (same : rankMeta n q = rankMeta n r) : q = r := by
  obtain ⟨k, i, passK, insideI, rfl⟩ := exists_rank inRangeQ
  obtain ⟨j, l, passJ, insideL, rfl⟩ := exists_rank inRangeR
  rw [rankMeta_rank insideI, rankMeta_rank insideL, SerializeMetaData.mk.injEq, Option.some.injEq,
    passType_inj passK passJ] at same
  rw [same.1, same.2]

/-- The fields before rank `k` have been read: they own the bits before `offs`. Of the other fields only
the next one may own bits behind. -/
structure Tiled (parser : Parser) (k : Nat) : Prop where
  sizes : parser.cellMetas.length = parser.myCells.length
  le : k ≤ 4 * parser.cellMetas.length
  last : parser.lastReadMeta = metaBefore parser.cellMetas.length k
  offs_le : parser.offs ≤ parser.writePtr
  tiling : Layout.Tiling parser.Owns k parser.offs
  ahead : ∀ r, k ≤ r → r < 4 * parser.cellMetas.length → ∀ p, parser.Owns r p →
    parser.offs ≤ p ∧ p < parser.writePtr ∧
    predictNextMeta parser.myCells parser.lastReadMeta = some (rankMeta parser.cellMetas.length r)
  table : ∀ myCell ∈ parser.myCells, myCell.InTable parser.myCells.length

/-- Each written bit has its field. -/
structure Settled (parser : Parser) : Prop where
  tiled : ∃ k, Tiled parser k
  every : ∀ p, parser.offs ≤ p → p < parser.writePtr →
    ∃ r < 4 * parser.cellMetas.length, parser.Owns r p

section Steps
variable {decoders : FieldDecoders} {parser : Parser} {k : Nat}

/-- The field that is predicted has a rank behind the read ones. -/
theorem Tiled.predicted (tiled : Tiled parser k) {m : SerializeMetaData} {i : Nat}
    (predict : predictNextMeta parser.myCells parser.lastReadMeta = some m)
    (cell : m.cellId = some i) (inside : i < parser.cellMetas.length) :
    ∃ r, k ≤ r ∧ r < 4 * parser.cellMetas.length ∧ m = rankMeta parser.cellMetas.length r ∧
      i = r % parser.cellMetas.length := by
  have predict' := predict
  rw [tiled.last, tiled.sizes] at predict'
  obtain ⟨r, later, le, rfl⟩ :=
    predictNextMeta_later (by rw [← tiled.sizes]; omega) (tiled.sizes ▸ tiled.le) predict'
  rw [metaAt] at cell ⊢
  rw [← tiled.sizes] at *
  split_ifs at cell ⊢ with inRange
  exact ⟨r, later, inRange, rfl, (Option.some.inj cell).symm⟩

/-- A turn of the loop reads the next field. -/
theorem Tiled.turn (tiled : Tiled parser k) {m : SerializeMetaData} {i : Nat} {read placed : Parser}
    (predict : predictNextMeta parser.myCells parser.lastReadMeta = some m) (cell : m.cellId = some i)
    (run : parser.tryRead decoders i m.fieldType = some (some read))
    (set : read.setPlace i parser.offs (read.offs - parser.offs) m.fieldType = some placed) :
    (∃ k', k < k' ∧ Tiled { placed with lastReadMeta := m } k') ∧
      placed.outBits = parser.outBits ∧ placed.cellMetas.length = parser.cellMetas.length := by
  have changes := Parser.tryRead_spec tiled.offs_le run
  obtain ⟨myCell, same, kept⟩ := changes.same
  have metas : read.cellMetas = parser.cellMetas := by rw [same]
  have bits : read.outBits = parser.outBits := by rw [same]
  have cells : read.myCells = parser.myCells.set i myCell := by rw [same]
  obtain ⟨r, later, inRange, rfl, rfl⟩ := tiled.predicted predict cell (tiled.sizes ▸ changes.inside)
  rw [rankMeta, ← metas] at set
  rw [← metas] at inRange
  obtain ⟨⟨cellMetas, rfl, size⟩, next, others⟩ := Parser.owns_setPlace inRange set
  have owns (q p : Nat) : read.Owns q p ↔ parser.Owns q p := by rw [Parser.Owns, Parser.Owns, metas]
  simp only [owns] at others
  rw [metas] at inRange size others
  have low := changes.offs_le
  -- only the predicted field owned bits ahead
  have unread (q : Nat) (new : k ≤ q) (inRangeQ : q < 4 * parser.cellMetas.length) (other : q ≠ r)
      (p : Nat) : ¬ parser.Owns q p := by
    intro has
    have twice := (tiled.ahead q new inRangeQ p has).2.2
    rw [predict, Option.some.injEq] at twice
    exact other (rankMeta_inj inRangeQ inRange twice.symm)
  refine ⟨⟨r + 1, by omega, ?_, ?_, ?_, ?_, ?_, ?_, ?_⟩, bits, size⟩
  · simpa [size, cells] using tiled.sizes
  · simp only [size]
    omega
  · simp [metaBefore, size]
  · exact changes.offs_le_writePtr.trans_eq (by rw [Parser.writePtr, Parser.writePtr, bits])
  · refine tiled.tiling.extend later low (fun q before p => others q (by omega) (by omega) p)
      (fun q new between p has => ?_) fun p => (next p).trans (by simp only; omega)
    exact unread q new (by omega) (by omega) p ((others q (by omega) (by omega) p).mp has)
  · intro q new inRangeQ p has
    simp only [size] at inRangeQ
    exact absurd ((others q inRangeQ (by omega) p).mp has) (unread q (by omega) inRangeQ (by omega) p)
  · intro other member
    simp only [cells, List.length_set] at member ⊢
    rcases List.mem_or_eq_of_mem_set member with member | rfl
    · exact tiled.table other member
    · exact kept tiled.table

/-- The loop of `advance_cells_read` keeps the tiling and the number of cells. -/
theorem Tiled.advanceLoop (tiled : Tiled parser k) {fuel : Nat} {final : Parser}
    (run : parser.advanceLoop decoders fuel = some final) :
    (∃ k', Tiled final k') ∧ final.cellMetas.length = parser.cellMetas.length := by
  induction fuel generalizing parser k with
  | zero => cases run
  | succ fuel ih =>
      obtain ⟨m, predict, run⟩ := Option.bind_eq_some_iff.mp run
      cases cell : m.cellId with
      | none =>
          simp only [cell] at run
          obtain rfl := Option.some.inj run
          exact ⟨⟨k, tiled⟩, rfl⟩
      | some i =>
          simp only [cell] at run
          obtain ⟨answer, read, run⟩ := Option.bind_eq_some_iff.mp run
          cases answer with
          | none =>
              obtain rfl := Option.some.inj run
              exact ⟨⟨k, tiled⟩, rfl⟩
          | some next =>
              obtain ⟨placed, set, run⟩ := Option.bind_eq_some_iff.mp run
              obtain ⟨⟨k', -, tiled'⟩, -, size⟩ := tiled.turn predict cell read set
              obtain ⟨final', size'⟩ := ih tiled' run
              exact ⟨final', size'.trans size⟩

/-- `advance_cells_read` gives each written bit to a field. -/
theorem Tiled.advanceCellsRead (tiled : Tiled parser k) {final : Parser}
    (run : parser.advanceCellsRead decoders = some final) :
    Settled final ∧ final.cellMetas.length = parser.cellMetas.length := by
  obtain ⟨middle, loop, run⟩ := Option.bind_eq_some_iff.mp run
  obtain ⟨⟨k', tiled'⟩, same⟩ := tiled.advanceLoop loop
  split_ifs at run with more
  · obtain ⟨m, predict, run⟩ := Option.bind_eq_some_iff.mp run
    obtain ⟨i, cell, run⟩ := Option.bind_eq_some_iff.mp run
    have inside : i < middle.cellMetas.length := by
      obtain ⟨cellMeta, look, -⟩ := Option.bind_eq_some_iff.mp run
      exact (List.getElem?_eq_some_iff.mp look).1
    obtain ⟨r, later, inRange, rfl, rfl⟩ := tiled'.predicted predict cell inside
    obtain ⟨⟨cellMetas, rfl, size⟩, next, others⟩ := Parser.owns_setPlace inRange run
    refine ⟨⟨⟨k', ?_, ?_, ?_, tiled'.offs_le, ?_, ?_, tiled'.table⟩, fun p low high => ?_⟩, size.trans same⟩
    · exact size.trans tiled'.sizes
    · simpa only [size] using tiled'.le
    · simpa only [size] using tiled'.last
    · exact tiled'.tiling.congr fun q before p => others q (by omega) (by omega) p
    · intro q new inRangeQ p has
      simp only [size] at inRangeQ ⊢
      by_cases same : q = r
      · subst same
        obtain ⟨low, high⟩ := (next p).mp has
        have below : p < middle.writePtr := by omega
        exact ⟨low, below, predict⟩
      · exact tiled'.ahead q new inRangeQ p ((others q inRangeQ same p).mp has)
    · have below : p < middle.writePtr := high
      exact ⟨r, by simpa only [size] using inRange, (next p).mpr ⟨low, by omega⟩⟩
  · obtain rfl := Option.some.inj run
    exact ⟨⟨⟨k', tiled'⟩, fun p low high => absurd high (by omega)⟩, same⟩

/-- Stored bits are given to fields later. -/
theorem Tiled.storeOut (tiled : Tiled parser k) (bits : List Bool) : Tiled (parser.storeOut bits) k where
  sizes := tiled.sizes
  le := tiled.le
  last := tiled.last
  offs_le := by
    have before := tiled.offs_le
    simp only [Parser.writePtr, Parser.storeOut, BitPtr.push_offs] at before ⊢
    omega
  tiling := tiled.tiling
  ahead r new inRange p has := by
    obtain ⟨low, high, predict⟩ := tiled.ahead r new inRange p has
    refine ⟨low, ?_, predict⟩
    simp only [Parser.writePtr, Parser.storeOut, BitPtr.push_offs] at high ⊢
    omega
  table := tiled.table

/-- A call of `advance_cells_read` behind stores keeps all of it. -/
theorem Settled.feed (settled : Settled parser) {literal : List Bool} {next : Parser}
    (run : (parser.storeOut literal).advanceCellsRead decoders = some next) :
    Settled next ∧ next.cellMetas.length = parser.cellMetas.length := by
  obtain ⟨k, tiled⟩ := settled.tiled
  exact (tiled.storeOut literal).advanceCellsRead run

/-- A copy only stores bits. -/
theorem copyMatch_storeOut {len pos : Nat} {copied : Parser}
    (run : LzReader.copyMatch len pos parser = some copied) : ∃ bits, copied = parser.storeOut bits := by
  induction len generalizing pos parser with
  | zero => exact ⟨[], by simpa [LzReader.copyMatch, Parser.storeOut] using run.symm⟩
  | succ len ih =>
      obtain ⟨bit, -, run⟩ := Option.bind_eq_some_iff.mp run
      obtain ⟨bits, rfl⟩ := ih run
      exact ⟨bit :: bits, by simp [Parser.storeOut]⟩

end Steps

section Owners
variable {parser : Parser}

/-- An owned bit is written. -/
theorem Settled.owns_lt (settled : Settled parser) {r p : Nat}
    (inRange : r < 4 * parser.cellMetas.length) (has : parser.Owns r p) : p < parser.writePtr := by
  obtain ⟨k, tiled⟩ := settled.tiled
  rcases Nat.lt_or_ge r k with read | new
  · exact (tiled.tiling.below r read p has).trans_le tiled.offs_le
  · exact (tiled.ahead r new inRange p has).2.1

/-- Each written bit has an owner. -/
theorem Settled.exists_owner (settled : Settled parser) {p : Nat} (written : p < parser.writePtr) :
    ∃ r < 4 * parser.cellMetas.length, parser.Owns r p := by
  obtain ⟨k, tiled⟩ := settled.tiled
  rcases Nat.lt_or_ge p parser.offs with read | new
  · obtain ⟨r, low, has⟩ := tiled.tiling.every p read
    exact ⟨r, low.trans_le tiled.le, has⟩
  · exact settled.every p new written

/-- The owner of a bit is unique. -/
theorem Settled.owner_unique (settled : Settled parser) {r q p : Nat}
    (inRangeR : r < 4 * parser.cellMetas.length) (inRangeQ : q < 4 * parser.cellMetas.length)
    (hasR : parser.Owns r p) (hasQ : parser.Owns q p) : r = q := by
  obtain ⟨k, tiled⟩ := settled.tiled
  rcases Nat.lt_or_ge r k with readR | newR <;> rcases Nat.lt_or_ge q k with readQ | newQ
  · exact tiled.tiling.single r readR q readQ p hasR hasQ
  · exact absurd (tiled.ahead q newQ inRangeQ p hasQ).1
      (Nat.not_le.mpr (tiled.tiling.below r readR p hasR))
  · exact absurd (tiled.ahead r newR inRangeR p hasR).1
      (Nat.not_le.mpr (tiled.tiling.below q readQ p hasQ))
  · have predictR := (tiled.ahead r newR inRangeR p hasR).2.2
    have predictQ := (tiled.ahead q newQ inRangeQ p hasQ).2.2
    rw [predictR, Option.some.injEq] at predictQ
    exact rankMeta_inj inRangeR inRangeQ predictQ

/-- A cell and an offset that lead to a bit name the field that owns it. -/
theorem getPos_owns {i offset p : Nat} {cellMeta : CellMeta} (look : parser.cellMetas[i]? = some cellMeta)
    (found : cellMeta.getPos offset = some p) : ∃ k < 4, parser.Owns (k * parser.cellMetas.length + i) p ∧
      ∃ start, (cellMeta.place (passType k)).start = some start ∧
        offset + start = cellMeta.cntBefore k + p := by
  obtain ⟨k, pass, start, begins, low, high, sum⟩ := (cellMeta.getPos_eq_some_iff offset p).mp found
  have inside := (List.getElem?_eq_some_iff.mp look).1
  refine ⟨k, pass, ⟨cellMeta, ?_, start, ?_, low, ?_⟩, start, begins, sum⟩
  · rwa [rank_mod inside]
  · rwa [rank_div inside]
  · rwa [rank_div inside]

end Owners

/-- References of matches: a cell and an offset within it lead to a written bit, and each written bit has
just one cell and offset. The cells index nothing outside their table. -/
structure References (parser : Parser) : Prop where
  offs_le : parser.offs ≤ parser.writePtr
  metas : parser.cellMetas.length = parser.myCells.length
  written : ∀ (i offset p : Nat) (cellMeta : CellMeta), parser.cellMetas[i]? = some cellMeta →
    cellMeta.getPos offset = some p → p < parser.writePtr
  unique : ∀ p < parser.writePtr, ∃! ref : Nat × Nat, ∃ cellMeta : CellMeta,
    parser.cellMetas[ref.1]? = some cellMeta ∧ cellMeta.getPos ref.2 = some p
  table : ∀ myCell ∈ parser.myCells, myCell.InTable parser.myCells.length

/-- A settled parser refers to what is written only. -/
theorem Settled.references {parser : Parser} (settled : Settled parser) : References parser where
  offs_le := settled.tiled.elim fun _ tiled => tiled.offs_le
  metas := settled.tiled.elim fun _ tiled => tiled.sizes
  written := by
    intro i offset p cellMeta look found
    obtain ⟨k, pass, owns, -⟩ := getPos_owns look found
    exact settled.owns_lt (rank_lt (List.getElem?_eq_some_iff.mp look).1 pass) owns
  unique := by
    intro p written
    obtain ⟨r, inRange, cellMeta, look, start, begins, low, high⟩ := settled.exists_owner written
    obtain ⟨k, i, pass, inside, rfl⟩ := exists_rank inRange
    have owns : parser.Owns (k * parser.cellMetas.length + i) p :=
      ⟨cellMeta, look, start, begins, low, high⟩
    rw [rank_mod inside] at look
    rw [rank_div inside] at begins high
    refine ⟨(i, cellMeta.cntBefore k + p - start), ⟨cellMeta, look, ?_⟩, ?_⟩
    · exact (cellMeta.getPos_eq_some_iff _ p).mpr ⟨k, pass, start, begins, low, high, by omega⟩
    · rintro ⟨j, offset⟩ ⟨other, lookOther, found⟩
      obtain ⟨l, passL, ownsL, start', begins', sum⟩ := getPos_owns lookOther found
      have insideJ := (List.getElem?_eq_some_iff.mp lookOther).1
      have same := settled.owner_unique (rank_lt insideJ passL) inRange ownsL owns
      have passes := congrArg (· / parser.cellMetas.length) same
      have cells := congrArg (· % parser.cellMetas.length) same
      simp only [rank_div insideJ, rank_div inside, rank_mod insideJ, rank_mod inside] at passes cells
      subst passes cells
      rw [look, Option.some.injEq] at lookOther
      subst lookOther
      rw [begins, Option.some.injEq] at begins'
      subst begins'
      rw [Prod.mk.injEq]
      exact ⟨rfl, by omega⟩
  table := settled.tiled.elim fun _ tiled => tiled.table

/-- The parser is settled at the start. -/
theorem settled_start (size nCells : Nat) : Settled (Parser.start size nCells) := by
  have nothing (r p : Nat) : ¬ (Parser.start size nCells).Owns r p := by
    rintro ⟨cellMeta, look, start, begins, -⟩
    have unset := List.eq_of_mem_replicate (List.mem_of_getElem? look)
    subst unset
    cases type : passType (r / (Parser.start size nCells).cellMetas.length) <;> rw [type] at begins <;>
      cases begins
  refine ⟨⟨0, by simp [Parser.start], Nat.zero_le _, rfl, Nat.le_refl _, .nothing _,
    fun r _ _ p has => absurd has (nothing r p), fun myCell member => ?_⟩,
    fun p _ written => absurd written (Nat.not_lt_zero p)⟩
  have fresh := List.eq_of_mem_replicate (show myCell ∈ List.replicate nCells MyCell.default from member)
  have positive : 0 < nCells := by
    have size := List.length_pos_of_mem member
    simpa [Parser.start] using size
  subst fresh
  refine ⟨by simp [MyCell.default], fun ref inRefs => ?_, .inr rfl⟩
  rw [List.eq_of_mem_replicate inRefs]
  simpa [Parser.start] using positive

/-- A turn of the main loop stores a literal, and then maybe a copy of a written bit and those behind. -/
theorem advanceLzDecoder_stores {reader : LzReader} {parser : Parser} {offs : Nat}
    {next : Parser × Nat} (run : reader.advanceLzDecoder (parser, offs) = some next) :
    ∃ literal middle, (parser.storeOut literal).advanceCellsRead reader.fieldDecoders = some middle ∧
      (next.1 = middle ∨ ∃ matchLen start copied, LzReader.copyMatch matchLen start middle = some copied ∧
        copied.advanceCellsRead reader.fieldDecoders = some next.1) := by
  obtain ⟨_, -, run⟩ := Option.bind_eq_some_iff.mp run
  obtain ⟨⟨literalLen, offs₁⟩, -, run⟩ := Option.bind_eq_some_iff.mp run
  obtain ⟨literal, -, run⟩ := Option.bind_eq_some_iff.mp run
  obtain ⟨middle, stored, run⟩ := Option.bind_eq_some_iff.mp run
  refine ⟨literal, middle, stored, ?_⟩
  split_ifs at run with ends
  · obtain ⟨_, -, run⟩ := Option.bind_eq_some_iff.mp run
    exact .inl (by rw [← Option.some.inj run])
  · obtain ⟨⟨matchLen, offs₂⟩, -, run⟩ := Option.bind_eq_some_iff.mp run
    simp only at run
    split_ifs at run with nothing
    · exact .inl (by rw [← Option.some.inj run])
    · obtain ⟨⟨cellIdOffset, offs₃⟩, -, run⟩ := Option.bind_eq_some_iff.mp run
      obtain ⟨m, -, run⟩ := Option.bind_eq_some_iff.mp run
      obtain ⟨⟨offsetWithinRefCell, offs₄⟩, -, run⟩ := Option.bind_eq_some_iff.mp run
      obtain ⟨cellMeta, -, run⟩ := Option.bind_eq_some_iff.mp run
      obtain ⟨start, -, run⟩ := Option.bind_eq_some_iff.mp run
      obtain ⟨copied, copy, run⟩ := Option.bind_eq_some_iff.mp run
      obtain ⟨final, fed, run⟩ := Option.bind_eq_some_iff.mp run
      exact .inr ⟨_, _, _, copy, by rw [← Option.some.inj run]; exact fed⟩

/-- A turn of the main loop keeps all of it. -/
theorem Settled.turn {reader : LzReader} {parser : Parser} {offs : Nat} {next : Parser × Nat}
    (settled : Settled parser) (run : reader.advanceLzDecoder (parser, offs) = some next) :
    Settled next.1 ∧ next.1.cellMetas.length = parser.cellMetas.length := by
  obtain ⟨literal, middle, stored, same | ⟨matchLen, start, copied, copy, fed⟩⟩ :=
    advanceLzDecoder_stores run
  · exact same ▸ settled.feed stored
  · obtain ⟨bits, rfl⟩ := copyMatch_storeOut copy
    obtain ⟨settled', size⟩ := settled.feed stored
    obtain ⟨settledEnd, size'⟩ := settled'.feed fed
    exact ⟨settledEnd, size'.trans size⟩

/-- The states of the main loop of `deserialise`. -/
inductive LzReader.Reached (reader : LzReader) (size : Nat) : Parser → Nat → Prop
  | start : Reached reader size (Parser.start size reader.nCells) BITS_FOR_N_CELLS
  | turn {parser next : Parser} {offs later : Nat} : Reached reader size parser offs →
      offs < reader.lzCntBits → reader.advanceLzDecoder (parser, offs) = some (next, later) →
      Reached reader size next later

/-- What the loop returns is reached. -/
theorem LzReader.Reached.loop {reader : LzReader} {size fuel offs : Nat} {parser : Parser}
    {final : Parser × Nat} (reached : reader.Reached size parser offs)
    (run : reader.lzLoop fuel (parser, offs) = some final) : reader.Reached size final.1 final.2 := by
  induction fuel generalizing parser offs with
  | zero => cases run
  | succ fuel ih =>
      rw [lzLoop] at run
      split_ifs at run with more
      · obtain ⟨⟨next, later⟩, turn, run⟩ := Option.bind_eq_some_iff.mp run
        exact ih (reached.turn more turn) run
      · obtain rfl := Option.some.inj run
        exact reached

/-- What `deserialise` has read is a state of its main loop. -/
theorem readLz_reached {tables : Tables} {lzBytes : List UInt8} {reader : LzReader} {parser : Parser}
    {offs : Nat} (read : readLz tables lzBytes = some (reader, parser, offs)) :
    reader.Reached (8 * (lzBytes.length * 2)) parser offs := by
  obtain ⟨_, _, run⟩ := Option.bind_eq_some_iff.mp read
  obtain ⟨⟨final, last⟩, loop, run⟩ := Option.bind_eq_some_iff.mp run
  obtain ⟨rfl, rfl, rfl⟩ := by simpa using run
  exact LzReader.Reached.start.loop loop

/-- In each state of the main loop the written bits belong to fields, and there are as many cells as at the
start. -/
theorem reached_settled {reader : LzReader} {size : Nat} {parser : Parser} {offs : Nat}
    (reached : reader.Reached size parser offs) :
    Settled parser ∧ parser.cellMetas.length = reader.nCells := by
  induction reached with
  | start => exact ⟨settled_start _ _, List.length_replicate⟩
  | turn _ _ run ih =>
      obtain ⟨settled, count⟩ := ih
      obtain ⟨settled', same⟩ := settled.turn run
      exact ⟨settled', same.trans count⟩

/-- A number that is read fits its width. -/
theorem getUint_lt {bits : List Bool} {offs width value : Nat} (run : getUint bits offs width = some value) :
    value < 2 ^ width := by
  rw [getUint] at run
  split_ifs at run with inside
  obtain rfl := Option.some.inj run
  refine (toNat_lt _).trans_le (Nat.pow_le_pow_right (by decide) ?_)
  rw [List.length_take]
  exact Nat.min_le_left _ _

/-- The number of cells that `deserialise` has read fits its field. -/
theorem readLz_cells {tables : Tables} {lzBytes : List UInt8} {reader : LzReader} {parser : Parser}
    {offs : Nat} (read : readLz tables lzBytes = some (reader, parser, offs)) :
    parser.myCells.length < 2 ^ BITS_FOR_N_CELLS := by
  obtain ⟨settled, count⟩ := reached_settled (readLz_reached read)
  obtain ⟨built, build, run⟩ := Option.bind_eq_some_iff.mp read
  obtain ⟨_, -, run⟩ := Option.bind_eq_some_iff.mp run
  obtain ⟨rfl, -⟩ := by simpa using run
  simp only [LzReader.build, Option.bind_eq_bind, Option.bind_eq_some_iff, Option.some.injEq] at build
  obtain ⟨_, -, _, -, _, -, _, -, _, -, _, -, _, -, _, -, nCells, cells, rfl⟩ := build
  rw [← settled.references.metas, count]
  exact getUint_lt cells

/-- In each state of the main loop, on any input, references are to written bits and each written bit has
one reference. It is so too when the next literal is stored and the start of a match is looked up. The states are
those of the variables: a store behind `out_bytes` leaves its bit like any other. -/
theorem reached_references {reader : LzReader} {size : Nat} {parser : Parser} {offs : Nat}
    (reached : reader.Reached size parser offs) : References parser ∧ ∀ literal middle,
      (parser.storeOut literal).advanceCellsRead reader.fieldDecoders = some middle →
        References middle := by
  obtain ⟨settled, -⟩ := reached_settled reached
  exact ⟨settled.references, fun literal middle stored => (settled.feed stored).1.references⟩

theorem reached_references_shared : ∃ lz reader parser,
    readLz sourceTables lz = some (reader, parser, reader.lzCntBits) ∧ parser.myCells.length = 3 ∧
      References parser := by
  obtain ⟨cells, flattened, runs⟩ := serialized_spec sharedRoot_bag.coherent sharedRoot_bag.valid
  have count := sharedRoot_count flattened
  obtain ⟨newCells, _, _, reader, parser, -, same, numbering, -, read, -⟩ := runs (by rw [count]; decide)
  exact ⟨_, reader, parser, read, numbering.length_eq.trans (same.length_eq.trans count),
    (reached_references (readLz_reached read)).1⟩

end CellBag.Serializator
