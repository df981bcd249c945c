import CellBag.Proof.FieldSizes
import CellBag.Model.Deserializer

/-!
The parser reads the cells out of a prefix of their bits, however the prefix arrived.
-/

namespace CellBag.Serializator
open BitString Huffman

/-- The field of cell `i` in a pass is before a rank. -/
def Done (n r pass i : Nat) : Prop := pass * n + i < r

instance (n r pass i : Nat) : Decidable (Done n r pass i) := by
  unfold Done
  infer_instance

/-- Before the field of a pass and a cell just the passes before are done with the cell. -/
theorem done_rank {n k pass i : Nat} (inside : i < n) : Done n (k * n + i) pass i ↔ pass < k := by
  rw [Done, Nat.add_lt_add_iff_right, Nat.mul_lt_mul_right (by omega)]

/-- A field more is done behind it. -/
theorem done_succ {n k pass i j : Nat} (insideI : i < n) (insideJ : j < n) :
    Done n (k * n + i + 1) pass j ↔ Done n (k * n + i) pass j ∨ pass = k ∧ j = i := by
  rw [Done, Done, Nat.lt_succ_iff_lt_or_eq]
  refine or_congr_right ⟨fun same => ?_, fun same => by rw [same.1, same.2]⟩
  have passes := congrArg (· / n) same
  have cells := congrArg (· % n) same
  simp only [rank_div insideI, rank_div insideJ, rank_mod insideI, rank_mod insideJ] at passes cells
  exact ⟨passes, cells⟩

/-- Behind the field of a pass and a cell that pass is done with the cell too. -/
theorem done_succ_rank {n k pass i : Nat} (inside : i < n) :
    Done n (k * n + i + 1) pass i ↔ pass ≤ k := by
  rw [done_succ inside inside, done_rank inside]
  omega

/-- The part of a cell that the fields before a rank tell. -/
def cellAt (n r i : Nat) (myCell : MyCell) : MyCell where
  cntRefs := if Done n r 0 i then myCell.cntRefs else 2 ^ 32 - 1
  refs := if Done n r 2 i then
      myCell.refs.take myCell.cntRefs ++ List.replicate (4 - myCell.cntRefs) 0
    else List.replicate 4 0
  refsAsCells := []
  isSpecial := if Done n r 0 i then myCell.isSpecial else false
  data := if Done n r 3 i then toBytes ((myCell.cntBits + 7) / 8) myCell.dataBits else []
  cntBits := if Done n r 1 i then myCell.cntBits else 2 ^ 32 - 1

/-- Taking off the distance to a place leads to the place. -/
theorem distance_back {n a place : Nat} (inside : place < n) (le : place ≤ a) :
    (a - (a - place) % n) % n = place := by
  have parts := Nat.div_add_mod (a - place) n
  have rounds : a - (a - place) % n = place + n * ((a - place) / n) := by omega
  rw [rounds, Nat.add_mul_mod_self_left, Nat.mod_eq_of_lt inside]

/-- The bits at an offset of a buffer whose stored part continues with a word. -/
theorem take_drop_of_next {buffer word rest : List Bool} {offs ptrLen : Nat}
    (next : (buffer.take ptrLen).drop offs = (word ++ rest).take (ptrLen - offs))
    (whole : offs + word.length ≤ ptrLen) : (buffer.drop offs).take word.length = word := by
  have same := congrArg (List.take word.length) next
  rwa [List.drop_take, List.take_take, List.take_take, min_eq_left (by omega), List.take_left] at same

/-- Behind a word that comes next stands what comes after the word. -/
theorem drop_of_next {buffer word rest : List Bool} {offs ptrLen : Nat}
    (next : (buffer.take ptrLen).drop offs = (word ++ rest).take (ptrLen - offs)) :
    (buffer.take ptrLen).drop (offs + word.length) = rest.take (ptrLen - (offs + word.length)) := by
  rw [← List.drop_drop, next, List.drop_take, List.drop_left, Nat.sub_sub]

/-- A stored ref whose bits are all there is read. -/
theorem getUint_ref (parser : Parser) {nCells i ref offs : Nat} {rest : List Bool}
    (few : nCells < 2 ^ 20) (positive : 0 < nCells)
    (stored : parser.writePtr ≤ (BitPtr.buffer parser.outBits).length)
    (whole : offs + lenInBits (nCells - 1) ≤ parser.writePtr)
    (next : ((BitPtr.buffer parser.outBits).take parser.writePtr).drop offs =
      (refBits nCells i ref ++ rest).take (parser.writePtr - offs)) :
    getUint (BitPtr.buffer parser.outBits) offs (lenInBits (nCells - 1)) =
      some ((nCells + i - ref) % nCells - 1) := by
  have size : (refBits nCells i ref).length = lenInBits (nCells - 1) := by simp [refBits]
  have read := take_drop_of_next next (by omega)
  have fits := @refStore_lt nCells i ref few positive
  rw [getUint, if_pos (by omega), ← size, read, refBits, toNat_ofNat_of_lt fits]

/-- The distance to a ref leads back to it. -/
theorem wrapSub_ref {nCells i ref : Nat} (few : nCells < 2 ^ 20) (inside : i < nCells)
    (insideRef : ref < nCells) (different : ref ≠ i) :
    wrapSub (nCells + i) ((nCells + i - ref) % nCells - 1 + 1) % nCells = ref := by
  have distance := distance_pos inside insideRef different
  have bound : (nCells + i - ref) % nCells < nCells := Nat.mod_lt _ (by omega)
  rw [wrapSub_eq (by omega) (by omega), Nat.sub_add_cancel distance]
  exact distance_back insideRef (by omega)

/-- The loop over the refs reads them if all of them are there. -/
theorem readRefs_eq (parser : Parser) {nCells i : Nat} {refs : List Nat} {after : List Bool}
    (few : nCells < 2 ^ 20) (inside : i < nCells) (good : ∀ ref ∈ refs, ref < nCells ∧ ref ≠ i)
    (stored : parser.writePtr ≤ (BitPtr.buffer parser.outBits).length) (offs : Nat)
    (next : ((BitPtr.buffer parser.outBits).take parser.writePtr).drop offs =
      (refs.flatMap (refBits nCells i) ++ after).take (parser.writePtr - offs)) :
    parser.readRefs nCells i (lenInBits (nCells - 1)) refs.length offs =
      some (if offs + (refs.flatMap (refBits nCells i)).length ≤ parser.writePtr ∨ refs = [] then
        some (refs, offs + (refs.flatMap (refBits nCells i)).length) else none) := by
  induction refs generalizing offs with
  | nil => simp [Parser.readRefs]
  | cons ref refs ih =>
      obtain ⟨insideRef, different⟩ := good ref (by simp)
      have size : (refBits nCells i ref).length = lenInBits (nCells - 1) := by simp [refBits]
      rw [List.length_cons, Parser.readRefs]
      rw [List.flatMap_cons, List.append_assoc] at next
      rw [List.flatMap_cons, List.length_append]
      by_cases short : offs + lenInBits (nCells - 1) > parser.writePtr
      · have missing : ¬ (offs + ((refBits nCells i ref).length +
            (refs.flatMap (refBits nCells i)).length) ≤ parser.writePtr ∨ ref :: refs = []) := by
          rintro (whole | impossible)
          · omega
          · cases impossible
        rw [if_pos short, if_neg missing]
      · have value := getUint_ref parser few (Nat.zero_lt_of_lt inside) stored (by omega) next
        have tail := ih (fun other member => good other (by simp [member]))
          (offs + lenInBits (nCells - 1)) (by rw [← size]; exact drop_of_next next)
        have back := wrapSub_ref few inside insideRef different
        rw [if_neg short, value]
        simp only [Option.bind_eq_bind, Option.bind_some, back, tail, size]
        by_cases whole : offs + lenInBits (nCells - 1) + (refs.flatMap (refBits nCells i)).length ≤
            parser.writePtr ∨ refs = []
        · have all : offs + (lenInBits (nCells - 1) + (refs.flatMap (refBits nCells i)).length) ≤
              parser.writePtr := by
            rcases whole with whole | rfl
            · omega
            · rw [List.flatMap_nil, List.length_nil]
              omega
          rw [if_pos whole, if_pos (.inl all), Nat.add_assoc]
        · have missing : ¬ (offs + (lenInBits (nCells - 1) +
              (refs.flatMap (refBits nCells i)).length) ≤ parser.writePtr ∨ ref :: refs = []) := by
            rintro (fits | impossible)
            · exact whole (.inl (by omega))
            · cases impossible
          rw [if_neg whole, if_neg missing]

/-- The decoders of the fields. -/
def fieldDecoders {tables : Tables} (coders : Coders tables) : FieldDecoders :=
  ⟨coders.d1, coders.dataSize⟩

/-- `deserialise` stores a chunk of bits and calls `advance_cells_read`. -/
def Parser.feed (decoders : FieldDecoders) (parser : Parser) (chunk : List Bool) : Option Parser :=
  (parser.storeOut chunk).advanceCellsRead decoders

section View
variable {tables : Tables} (coders : Coders tables) (myCells : List MyCell)

/-- The cells that the fields before a rank tell. -/
def cellsAt (r : Nat) : List MyCell :=
  myCells.mapIdx fun i myCell => cellAt myCells.length r i myCell

/-- The received part of a field. -/
def placeAt (w r : Nat) : FieldPlace :=
  if Layout.start (fields coders myCells) r < w ∧ 0 < (fieldOf coders myCells r).length then
    ⟨some (Layout.start (fields coders myCells) r),
      min (fieldOf coders myCells r).length (w - Layout.start (fields coders myCells) r)⟩
  else .unset

/-- The received parts of the fields of a cell. -/
def cellMetaAt (w i : Nat) : CellMeta where
  d1 := placeAt coders myCells w (0 * myCells.length + i)
  dataSize := placeAt coders myCells w (1 * myCells.length + i)
  refs := placeAt coders myCells w (2 * myCells.length + i)
  data := placeAt coders myCells w (3 * myCells.length + i)

/-- The received parts of all fields. -/
def cellMetasAt (w : Nat) : List CellMeta := (List.range myCells.length).map (cellMetaAt coders myCells w)

/-- The meta of the last field before a rank that has bits. -/
def lastAt : Nat → SerializeMetaData
  | 0 => ⟨none, .none⟩
  | r + 1 => if 0 < (fieldOf coders myCells r).length then rankMeta myCells.length r else lastAt r

/-- The meta of a rank, or that of the end. -/
def metaAt (n r : Nat) : SerializeMetaData := if r < 4 * n then rankMeta n r else ⟨none, .none⟩

/-- The parser that has read the fields before rank `r` and knows the places of the first `w` bits,
when `j` bits are stored. -/
def view (size r w j : Nat) : Parser where
  outBits := (BitPtr.start size).push ((streamBits coders myCells).take j)
  offs := Layout.start (fields coders myCells) r
  myCells := cellsAt myCells r
  cellMetas := cellMetasAt coders myCells w
  lastReadMeta := lastAt coders myCells r

/-- The bits up to `w` end within the field of rank `r`, or behind all fields. -/
structure At (r w : Nat) : Prop where
  le : r ≤ 4 * myCells.length
  start : Layout.start (fields coders myCells) r ≤ w
  next : r < 4 * myCells.length → w < Layout.start (fields coders myCells) (r + 1)

/-- The field of a rank has bits, or the rank is behind all fields. -/
def Normal (r : Nat) : Prop := r < 4 * myCells.length → 0 < (fieldOf coders myCells r).length

variable {coders myCells}

variable (coders) in
/-- A field of the layout ends where the next one starts. -/
theorem start_fields_succ {r : Nat} (inRange : r < 4 * myCells.length) :
    Layout.start (fields coders myCells) (r + 1) =
      Layout.start (fields coders myCells) r + (fieldOf coders myCells r).length :=
  Layout.start_succ (fields_at inRange)

variable (coders myCells) in
/-- All fields together are the stream. -/
theorem start_fields_all :
    Layout.start (fields coders myCells) (4 * myCells.length) = (streamBits coders myCells).length :=
  Layout.start_all (by simp)

/-- The field at which the parser stands has bits. -/
theorem At.normal {r w : Nat} (here : At coders myCells r w) : Normal coders myCells r := by
  intro inRange
  have := here.start
  have := here.next inRange
  have := start_fields_succ coders inRange
  omega

/-- The cell at an id, as far as it is known at a field. -/
theorem cellsAt_look {r i : Nat} {myCell : MyCell} (look : myCells[i]? = some myCell) :
    (cellsAt myCells r)[i]? = some (cellAt myCells.length r i myCell) := by
  simp [cellsAt, List.getElem?_mapIdx, look]

@[simp] theorem length_cellsAt (r : Nat) : (cellsAt myCells r).length = myCells.length := by
  simp [cellsAt]

variable (coders) in
/-- Which fields have bits. -/
theorem fieldOf_pos (valid : WritableCells myCells) {i k : Nat} {myCell : MyCell}
    (look : myCells[i]? = some myCell) :
    0 < (fieldOf coders myCells (k * myCells.length + i)).length ↔
      (passType k = .refs → 0 < myCell.cntRefs) ∧ (passType k = .data → 0 < myCell.cntBits) := by
  have member := List.mem_of_getElem? look
  rw [fieldOf_rank look]
  match k with
  | 0 =>
      have pos := coders.d1_usable.word_pos (valid.storable.d1_lt look).2
      simpa [passType, MyCell.fieldBits] using pos
  | 1 =>
      have small := (valid.cntBits myCell member).1
      have pos := coders.dataSize_usable.word_pos (s := myCell.cntBits) (by omega)
      simpa [passType, MyCell.fieldBits] using pos
  | 2 =>
      have room := (valid.cntRefs myCell member).2
      have wide := lenInBits_pos (myCells.length - 1)
      simp [passType, MyCell.fieldBits, refBits, List.length_flatMap]
      omega
  | k + 3 =>
      simp [passType, MyCell.fieldBits, valid.storable.length_dataBits look]

/-- Behind an empty field everything is as before it. -/
theorem skip_empty (valid : ValidCells myCells) {r : Nat} (inRange : r < 4 * myCells.length)
    (empty : (fieldOf coders myCells r).length = 0) :
    cellsAt myCells (r + 1) = cellsAt myCells r ∧
      lastAt coders myCells (r + 1) = lastAt coders myCells r ∧
      Layout.start (fields coders myCells) (r + 1) = Layout.start (fields coders myCells) r := by
  refine ⟨?_, by simp [lastAt, empty], by rw [start_fields_succ coders inRange, empty, Nat.add_zero]⟩
  obtain ⟨k, i, pass, inside, rfl⟩ := exists_rank inRange
  apply List.ext_getElem?
  intro j
  by_cases insideJ : j < myCells.length
  · have look := List.getElem?_eq_getElem insideJ
    rw [cellsAt_look look, cellsAt_look look, Option.some.injEq]
    by_cases same : j = i
    · subst same
      have missing := mt (fieldOf_pos coders valid.toWritableCells look).mpr (Nat.not_lt.mpr empty.le)
      interval_cases k <;> simp [passType] at missing <;>
        simp [cellAt, done_rank insideJ, done_succ_rank insideJ, missing, toBytes]
    · simp [cellAt, done_succ inside insideJ, same]
  · rw [List.getElem?_eq_none (by simpa using insideJ), List.getElem?_eq_none (by simpa using insideJ)]

variable (coders) in
/-- From each rank a rank with bits follows behind empty fields. -/
theorem exists_normal (valid : ValidCells myCells) {r : Nat} (le : r ≤ 4 * myCells.length) :
    ∃ q, r ≤ q ∧ q ≤ 4 * myCells.length ∧ Normal coders myCells q ∧
      cellsAt myCells q = cellsAt myCells r ∧ lastAt coders myCells q = lastAt coders myCells r ∧
      Layout.start (fields coders myCells) q = Layout.start (fields coders myCells) r := by
  induction room : 4 * myCells.length - r generalizing r with
  | zero => exact ⟨r, Nat.le_refl r, le, fun inRange => by omega, rfl, rfl, rfl⟩
  | succ room ih =>
      by_cases empty : (fieldOf coders myCells r).length = 0
      · obtain ⟨cells, last, start⟩ := skip_empty valid (by omega) empty
        obtain ⟨q, above, below, normal, cellsQ, lastQ, startQ⟩ := ih (r := r + 1) (by omega) (by omega)
        exact ⟨q, by omega, below, normal, cellsQ.trans cells, lastQ.trans last, startQ.trans start⟩
      · exact ⟨r, Nat.le_refl r, le, fun _ => by omega, rfl, rfl, rfl⟩

/-- `next_meta_dummy` goes to the next rank. -/
theorem nextMetaDummy_eq {n q : Nat} (inRange : q < 4 * n) :
    nextMetaDummy n (q % n) (passType (q / n)) = metaAt n (q + 1) := by
  obtain ⟨k, i, pass, inside, rfl⟩ := exists_rank inRange
  rw [rank_mod inside, rank_div inside, nextMetaDummy, metaAt]
  by_cases more : i + 1 < n
  · have far := rank_lt more pass
    rw [if_pos more, if_pos (by omega), Nat.add_assoc, rankMeta_rank more]
  · have wrap : k * n + i + 1 = (k + 1) * n + 0 := by
      rw [Nat.add_mul]
      omega
    rw [if_neg more, wrap]
    by_cases last : k = 3
    · rw [if_pos (by rw [last]; rfl), if_neg (by rw [last]; omega)]
    · have far := rank_lt (i := 0) (k := k + 1) (n := n) (by omega) (by omega)
      rw [if_pos far, rankMeta_rank (by omega)]
      interval_cases k <;> simp_all [passType, FieldType.next]

variable (coders) in
/-- The loop of `predict_next_meta` passes the empty fields. -/
theorem predictLoop_eq (valid : ValidCells myCells) {cells : List MyCell}
    (same : cells.length = myCells.length) {r : Nat} (le : r ≤ 4 * myCells.length)
    (normal : Normal coders myCells r) (fuel q : Nat) (before : q < r) (enough : r - q ≤ fuel)
    (known : ∀ (i : Nat) (myCell : MyCell), myCells[i]? = some myCell → ∃ cell : MyCell,
      cells[i]? = some cell ∧ (2 * myCells.length ≤ q + 1 → cell.cntRefs = myCell.cntRefs ∧ cell.cntBits = myCell.cntBits))
    (empty : ∀ p, q < p → p < r → (fieldOf coders myCells p).length = 0) :
    predictLoop cells fuel (q % myCells.length) (passType (q / myCells.length)) =
      some (metaAt myCells.length r) := by
  induction fuel generalizing q with
  | zero => omega
  | succ fuel ih =>
      rw [predictLoop, same, nextMetaDummy_eq (by omega)]
      by_cases last : q + 1 = 4 * myCells.length
      · have end_ : r = q + 1 := by omega
        rw [metaAt, if_neg (by omega), metaAt, if_neg (by omega)]
      · obtain ⟨k, i, pass, inside, rank⟩ := exists_rank (show q + 1 < 4 * myCells.length by omega)
        obtain ⟨myCell, look⟩ : ∃ myCell, myCells[i]? = some myCell :=
          ⟨_, List.getElem?_eq_getElem inside⟩
        obtain ⟨cell, lookCell, told⟩ := known i myCell look
        have bits := fieldOf_pos coders (k := k) valid.toWritableCells look
        rw [← rank] at bits
        have here : r = q + 1 ↔ 0 < (fieldOf coders myCells (q + 1)).length := by
          constructor
          · intro equal
            exact equal ▸ normal (by omega)
          · intro positive
            by_contra other
            have := empty (q + 1) (by omega) (by omega)
            omega
        have meta_ : metaAt myCells.length (q + 1) = ⟨some i, passType k⟩ := by
          rw [metaAt, if_pos (by omega), rank, rankMeta_rank inside]
        have late : ¬ 0 < (fieldOf coders myCells (q + 1)).length → 2 * myCells.length ≤ q + 1 := by
          intro missing
          have far : 2 ≤ k := by
            by_contra near
            rw [bits] at missing
            interval_cases k <;> simp [passType] at missing
          have := Nat.mul_le_mul_right myCells.length far
          omega
        have again : ¬ 0 < (fieldOf coders myCells (q + 1)).length →
            predictLoop cells fuel i (passType k) = some (metaAt myCells.length r) := by
          intro missing
          have next := ih (q + 1) (by omega) (by omega)
            (fun j other lookJ => by
              obtain ⟨cellJ, lookCellJ, toldJ⟩ := known j other lookJ
              exact ⟨cellJ, lookCellJ, fun _ => toldJ (late missing)⟩)
            (fun p above below => empty p (by omega) below)
          rwa [rank, rank_mod inside, rank_div inside] at next
        have stop : 0 < (fieldOf coders myCells (q + 1)).length →
            some ⟨some i, passType k⟩ = some (metaAt myCells.length r) := by
          intro positive
          rw [here.mpr positive, meta_]
        rw [meta_]
        have told : 2 ≤ k → cell.cntRefs = myCell.cntRefs ∧ cell.cntBits = myCell.cntBits := by
          intro far
          have := Nat.mul_le_mul_right myCells.length far
          exact told (by omega)
        -- in the last two passes the loop goes on past an empty field
        have turn {cnt : Nat} (full : 0 < (fieldOf coders myCells (q + 1)).length ↔ 0 < cnt) :
            (if 0 < cnt then some ⟨some i, passType k⟩ else predictLoop cells fuel i (passType k)) =
              some (metaAt myCells.length r) := by
          by_cases positive : 0 < cnt
          · rw [if_pos positive]
            exact stop (full.mpr positive)
          · rw [if_neg positive]
            exact again (mt full.mp positive)
        interval_cases k
        · exact stop (bits.mpr (by simp [passType]))
        · exact stop (bits.mpr (by simp [passType]))
        · simp only [passType, lookCell, Option.bind_eq_bind, Option.bind_some, told (by omega)]
          simp [passType] at bits
          exact turn bits
        · simp only [passType, lookCell, Option.bind_eq_bind, Option.bind_some, told (by omega)]
          simp [passType] at bits
          exact turn bits

variable (coders) in
/-- The last meta is that of the last field with bits before a rank. -/
theorem lastAt_cases (valid : ValidCells myCells) {r : Nat} (le : r ≤ 4 * myCells.length) :
    r = 0 ∨ ∃ q < r, lastAt coders myCells r = rankMeta myCells.length q ∧
      ∀ p, q < p → p < r → (fieldOf coders myCells p).length = 0 := by
  induction r with
  | zero => exact .inl rfl
  | succ r ih =>
      by_cases positive : 0 < (fieldOf coders myCells r).length
      · exact .inr ⟨r, Nat.lt_succ_self r, by simp [lastAt, positive], fun p above below => by omega⟩
      · rcases ih (by omega) with rfl | ⟨q, before, last, empty⟩
        · have inside := valid.nonempty
          have look := List.getElem?_eq_getElem inside
          have first := (fieldOf_pos coders (k := 0) valid.toWritableCells look).mpr (by simp [passType])
          rw [Nat.zero_mul] at first
          exact absurd first positive
        · refine .inr ⟨q, by omega, by simp [lastAt, positive, last], fun p above below => ?_⟩
          by_cases here : p = r
          · subst here
            omega
          · exact empty p above (by omega)

/-- `predict_next_meta` tells the next field with bits. -/
theorem predictNextMeta_eq (valid : ValidCells myCells) {r : Nat} (le : r ≤ 4 * myCells.length)
    (normal : Normal coders myCells r) :
    predictNextMeta (cellsAt myCells r) (lastAt coders myCells r) =
      some (metaAt myCells.length r) := by
  rcases lastAt_cases coders valid le with rfl | ⟨q, before, last, empty⟩
  · have inside := valid.nonempty
    rw [lastAt, metaAt, if_pos (by omega), predictNextMeta]
    simp [rankMeta, passType]
  · rw [last, predictNextMeta]
    simp only [rankMeta, length_cellsAt]
    refine predictLoop_eq coders valid (by simp) le normal _ q before (by omega) ?_ empty
    intro i myCell look
    refine ⟨_, cellsAt_look look, fun far => ?_⟩
    have inside := (List.getElem?_eq_some_iff.mp look).1
    have first : Done myCells.length r 0 i := by
      rw [Done]
      omega
    have second : Done myCells.length r 1 i := by
      rw [Done]
      omega
    simp [cellAt, first, second]

/-- Pushed bits are read back. -/
theorem take_buffer {size j : Nat} (le : j ≤ (streamBits coders myCells).length) :
    (BitPtr.buffer ((BitPtr.start size).push ((streamBits coders myCells).take j))).take j =
      (streamBits coders myCells).take j := by
  rw [BitPtr.buffer, BitPtr.push_bits, BitPtr.start_bits, List.nil_append,
    List.take_append_of_le_length (by simp [le]), List.take_take, min_self]

/-- The buffer holds the pushed bits. -/
theorem length_buffer {size j : Nat} (le : j ≤ (streamBits coders myCells).length) :
    j ≤ (BitPtr.buffer ((BitPtr.start size).push ((streamBits coders myCells).take j))).length := by
  simp [BitPtr.buffer, le]

theorem view_writePtr {size r w j : Nat} (le : j ≤ (streamBits coders myCells).length) :
    (view coders myCells size r w j).writePtr = j := by
  simp [view, Parser.writePtr, le]

/-- The stored bits from a field on. -/
theorem drop_buffer (size : Nat) {r j : Nat} (inRange : r < 4 * myCells.length)
    (le : j ≤ (streamBits coders myCells).length) :
    ∃ rest, ((BitPtr.buffer ((BitPtr.start size).push ((streamBits coders myCells).take j))).take j).drop
      (Layout.start (fields coders myCells) r) =
        (fieldOf coders myCells r ++ rest).take (j - Layout.start (fields coders myCells) r) := by
  refine ⟨((fields coders myCells).drop (r + 1)).flatten, ?_⟩
  rw [take_buffer le, List.drop_take, streamBits, Layout.drop_start_of_field (fields_at inRange)]

/-- Reading the field of a rank tells its part of its cell. -/
theorem cellsAt_set {k i : Nat} {myCell told : MyCell} (look : myCells[i]? = some myCell)
    (same : told = cellAt myCells.length (k * myCells.length + i + 1) i myCell) :
    (cellsAt myCells (k * myCells.length + i)).set i told =
      cellsAt myCells (k * myCells.length + i + 1) := by
  have inside := (List.getElem?_eq_some_iff.mp look).1
  apply List.ext_getElem?
  intro j
  rw [List.getElem?_set]
  by_cases here : i = j
  · subst here
    rw [if_pos rfl, if_pos (by simpa using inside), cellsAt_look look, same]
  · rw [if_neg here]
    by_cases insideJ : j < myCells.length
    · have lookJ := List.getElem?_eq_getElem insideJ
      rw [cellsAt_look lookJ, cellsAt_look lookJ]
      simp [cellAt, done_succ inside insideJ, Ne.symm here]
    · rw [List.getElem?_eq_none (by simpa using insideJ), List.getElem?_eq_none (by simpa using insideJ)]

/-- What the read of a field returns: all of it or nothing. -/
def readResult (coders : Coders tables) (myCells : List MyCell) (size r w j : Nat) : Option Parser :=
  if Layout.start (fields coders myCells) (r + 1) ≤ j then
    some { view coders myCells size r w j with
      offs := Layout.start (fields coders myCells) (r + 1)
      myCells := cellsAt myCells (r + 1) }
  else none

section Read
variable {size w j i : Nat} {myCell : MyCell}

/-- What `tryReadD1` answers on a start of the stream. -/
theorem tryReadD1_eq (valid : ValidCells myCells) (decoders : FieldDecoders)
    (d1 : decoders.d1Decoder = coders.d1) (look : myCells[i]? = some myCell)
    (le : j ≤ (streamBits coders myCells).length)
    (before : Layout.start (fields coders myCells) (0 * myCells.length + i) ≤ j) :
    (view coders myCells size (0 * myCells.length + i) w j).tryReadD1 decoders i =
      some (readResult coders myCells size (0 * myCells.length + i) w j) := by
  have inside := (List.getElem?_eq_some_iff.mp look).1
  have inRange := rank_lt inside (show 0 < 4 by omega)
  obtain ⟨split, small⟩ := valid.storable.d1_lt look
  obtain ⟨rest, next⟩ := drop_buffer size inRange le
  have next_ := start_fields_succ coders inRange
  rw [fieldOf_rank look] at next next_
  have read := coders.d1_usable.decodeSymbol_cutoff small before (length_buffer le) next
  rw [Parser.tryReadD1, view_writePtr le]
  simp only [view, cellsAt_look look, d1, Option.bind_eq_bind, Option.bind_some, read, readResult,
    next_, MyCell.fieldBits, passType]
  by_cases whole : Layout.start (fields coders myCells) (0 * myCells.length + i) +
      (coders.d1.word myCell.d1).length ≤ j
  · have few := (valid.cntRefs myCell (List.mem_of_getElem? look)).1
    have low : myCell.d1 % 8 = myCell.cntRefs := by
      rw [split]
      cases myCell.isSpecial <;> simp <;> omega
    have high : myCell.d1.testBit 3 = myCell.isSpecial := by
      rw [split]
      cases myCell.isSpecial <;> interval_cases myCell.cntRefs <;> rfl
    rw [if_pos whole, if_pos whole]
    simp only [Option.bind_some, low, high, check_of few, Option.some.injEq]
    rw [cellsAt_set look]
    simp only [cellAt, done_rank inside, done_succ_rank inside]
    simp
  · rw [if_neg whole, if_neg whole]
    rfl

/-- What `tryReadDataSize` answers on a start of the stream. -/
theorem tryReadDataSize_eq (valid : ValidCells myCells) (decoders : FieldDecoders)
    (dataSize : decoders.dataSizeDecoder = coders.dataSize) (look : myCells[i]? = some myCell)
    (le : j ≤ (streamBits coders myCells).length)
    (before : Layout.start (fields coders myCells) (1 * myCells.length + i) ≤ j) :
    (view coders myCells size (1 * myCells.length + i) w j).tryReadDataSize decoders i =
      some (readResult coders myCells size (1 * myCells.length + i) w j) := by
  have inside := (List.getElem?_eq_some_iff.mp look).1
  have inRange := rank_lt inside (show 1 < 4 by omega)
  have small := (valid.cntBits myCell (List.mem_of_getElem? look)).1
  obtain ⟨rest, next⟩ := drop_buffer size inRange le
  have next_ := start_fields_succ coders inRange
  rw [fieldOf_rank look] at next next_
  have read := coders.dataSize_usable.decodeSymbol_cutoff (s := myCell.cntBits) (by omega) before
    (length_buffer le) next
  rw [Parser.tryReadDataSize, view_writePtr le]
  simp only [view, cellsAt_look look, dataSize, Option.bind_eq_bind, Option.bind_some, read, readResult,
    next_, MyCell.fieldBits, passType]
  by_cases whole : Layout.start (fields coders myCells) (1 * myCells.length + i) +
      (coders.dataSize.word myCell.cntBits).length ≤ j
  · rw [if_pos whole, if_pos whole]
    simp only [Option.bind_some, Option.some.injEq]
    rw [cellsAt_set look]
    simp only [cellAt, done_rank inside, done_succ_rank inside]
    simp
  · rw [if_neg whole, if_neg whole]
    rfl

/-- What `tryReadRefs` answers on a start of the stream. -/
theorem tryReadRefs_eq (valid : ValidCells myCells) (look : myCells[i]? = some myCell)
    (le : j ≤ (streamBits coders myCells).length)
    (bits : 0 < (fieldOf coders myCells (2 * myCells.length + i)).length) :
    (view coders myCells size (2 * myCells.length + i) w j).tryReadRefs i =
      some (readResult coders myCells size (2 * myCells.length + i) w j) := by
  have inside := (List.getElem?_eq_some_iff.mp look).1
  have inRange := rank_lt inside (show 2 < 4 by omega)
  obtain ⟨few, room⟩ := valid.cntRefs myCell (List.mem_of_getElem? look)
  have positive := ((fieldOf_pos coders (k := 2) valid.toWritableCells look).mp bits).1 rfl
  obtain ⟨rest, next⟩ := drop_buffer size inRange le
  have next_ := start_fields_succ coders inRange
  rw [fieldOf_rank look] at next next_
  have count : (myCell.refs.take myCell.cntRefs).length = myCell.cntRefs := by
    rw [List.length_take]
    omega
  have some_ : myCell.refs.take myCell.cntRefs ≠ [] := by
    intro none
    simp [none] at count
    omega
  have read := readRefs_eq (view coders myCells size (2 * myCells.length + i) w j)
    valid.few inside (valid.refs i myCell look) (by rw [view_writePtr le]; exact length_buffer le)
    (Layout.start (fields coders myCells) (2 * myCells.length + i))
    (by rw [view_writePtr le]; exact next)
  have told : (cellAt myCells.length (2 * myCells.length + i) i myCell).cntRefs = myCell.cntRefs := by
    simp only [cellAt, done_rank inside]
    simp
  rw [view_writePtr le, count] at read
  have start : (view coders myCells size (2 * myCells.length + i) w j).offs =
    Layout.start (fields coders myCells) (2 * myCells.length + i) := rfl
  rw [Parser.tryReadRefs, start]
  have cells : (view coders myCells size (2 * myCells.length + i) w j).myCells =
    cellsAt myCells (2 * myCells.length + i) := rfl
  simp only [cells, cellsAt_look look, length_cellsAt, Option.bind_eq_bind, Option.bind_some, told,
    check_of positive, read, readResult, next_, MyCell.fieldBits, passType, some_, or_false]
  by_cases whole : Layout.start (fields coders myCells) (2 * myCells.length + i) +
      ((myCell.refs.take myCell.cntRefs).flatMap (refBits myCells.length i)).length ≤ j
  · rw [if_pos whole, if_pos whole]
    simp only [Option.bind_some, count, check_of few, Option.some.injEq]
    rw [cellsAt_set look]
    simp only [cellAt, done_rank inside, done_succ_rank inside]
    simp
  · rw [if_neg whole, if_neg whole]

/-- What `tryReadData` answers on a start of the stream. -/
theorem tryReadData_eq (valid : ValidCells myCells) (look : myCells[i]? = some myCell)
    (le : j ≤ (streamBits coders myCells).length)
    (bits : 0 < (fieldOf coders myCells (3 * myCells.length + i)).length) :
    (view coders myCells size (3 * myCells.length + i) w j).tryReadData i =
      some (readResult coders myCells size (3 * myCells.length + i) w j) := by
  have inside := (List.getElem?_eq_some_iff.mp look).1
  have inRange := rank_lt inside (show 3 < 4 by omega)
  have positive := ((fieldOf_pos coders (k := 3) valid.toWritableCells look).mp bits).2 rfl
  obtain ⟨rest, next⟩ := drop_buffer size inRange le
  have next_ := start_fields_succ coders inRange
  rw [fieldOf_rank look] at next next_
  have long := valid.storable.length_dataBits look
  have told : (cellAt myCells.length (3 * myCells.length + i) i myCell).cntBits = myCell.cntBits := by
    simp only [cellAt, done_rank inside]
    simp
  rw [Parser.tryReadData, view_writePtr le]
  simp only [view, cellsAt_look look, Option.bind_eq_bind, Option.bind_some, told, check_of positive,
    readResult, next_, MyCell.fieldBits, passType, long]
  by_cases whole : Layout.start (fields coders myCells) (3 * myCells.length + i) + myCell.cntBits ≤ j
  · have field : myCell.fieldBits coders myCells.length i (passType 3) = myCell.dataBits := rfl
    rw [field] at next
    have word := take_drop_of_next next (by rw [long]; exact whole)
    have read : (List.range myCell.cntBits).mapM (fun index =>
        getBit (BitPtr.buffer ((BitPtr.start size).push ((streamBits coders myCells).take j)))
          (Layout.start (fields coders myCells) (3 * myCells.length + i) + index)) =
        some myCell.dataBits := by
      rw [← long]
      apply OptionList.mapM_range_getElem?
      intro index inRange
      conv_rhs => rw [← word]
      rw [getBit_eq, List.getElem?_take_of_lt (by simpa using inRange), List.getElem?_drop]
    rw [if_neg (by omega), if_pos whole, read]
    simp only [Option.bind_some, Option.some.injEq]
    rw [cellsAt_set look]
    simp only [cellAt, done_rank inside, done_succ_rank inside]
    simp
  · rw [if_pos (by omega), if_neg whole]

end Read

/-- Each read returns all of its field or nothing. -/
theorem tryRead_eq (valid : ValidCells myCells) (size w : Nat) {r j : Nat} (inRange : r < 4 * myCells.length)
    (normal : Normal coders myCells r) (le : j ≤ (streamBits coders myCells).length)
    (before : Layout.start (fields coders myCells) r ≤ j) :
    (view coders myCells size r w j).tryRead (fieldDecoders coders) (r % myCells.length)
      (passType (r / myCells.length)) = some (readResult coders myCells size r w j) := by
  have bits := normal inRange
  obtain ⟨k, i, pass, inside, rfl⟩ := exists_rank inRange
  have look := List.getElem?_eq_getElem inside
  rw [rank_mod inside, rank_div inside]
  interval_cases k
  · exact tryReadD1_eq valid (fieldDecoders coders) rfl look le before
  · exact tryReadDataSize_eq valid (fieldDecoders coders) rfl look le before
  · exact tryReadRefs_eq valid look le bits
  · exact tryReadData_eq valid look le bits

/-- The fields before and behind a rank have the same received parts while the rank is received. -/
theorem placeAt_other {r q w w' : Nat} (different : q ≠ r)
    (inRangeQ : q < 4 * myCells.length) (here : Layout.start (fields coders myCells) r ≤ w)
    (up : w ≤ w') (le : w' ≤ Layout.start (fields coders myCells) (r + 1)) :
    placeAt coders myCells w' q = placeAt coders myCells w q := by
  have size := start_fields_succ coders inRangeQ
  rcases Nat.lt_or_gt_of_ne different with below | above
  · have ends := Layout.start_mono (fields coders myCells) (show q + 1 ≤ r by omega)
    by_cases bits : 0 < (fieldOf coders myCells q).length
    · have received : Layout.start (fields coders myCells) q < w ∧
          0 < (fieldOf coders myCells q).length := ⟨by omega, bits⟩
      have received' : Layout.start (fields coders myCells) q < w' ∧
          0 < (fieldOf coders myCells q).length := ⟨by omega, bits⟩
      rw [placeAt, placeAt, if_pos received, if_pos received', Nat.min_eq_left (by omega),
        Nat.min_eq_left (by omega)]
    · rw [placeAt, placeAt, if_neg (fun both => bits both.2), if_neg (fun both => bits both.2)]
  · have starts := Layout.start_mono (fields coders myCells) (show r + 1 ≤ q by omega)
    rw [placeAt, placeAt, if_neg (fun both => by omega), if_neg (fun both => by omega)]

/-- The field that is open has the bits since its start. -/
theorem placeAt_same {r w : Nat} (inRange : r < 4 * myCells.length)
    (more : Layout.start (fields coders myCells) r < w)
    (le : w ≤ Layout.start (fields coders myCells) (r + 1)) :
    placeAt coders myCells w r = ⟨some (Layout.start (fields coders myCells) r),
      w - Layout.start (fields coders myCells) r⟩ := by
  have size := start_fields_succ coders inRange
  have received : Layout.start (fields coders myCells) r < w ∧
      0 < (fieldOf coders myCells r).length := ⟨more, by omega⟩
  rw [placeAt, if_pos received, Nat.min_eq_right (by omega)]

variable (coders) in
/-- Storing the received part of the field of a rank. -/
theorem setPlace_eq (parser : Parser) {r w w' : Nat} (inRange : r < 4 * myCells.length)
    (metas : parser.cellMetas = cellMetasAt coders myCells w)
    (here : Layout.start (fields coders myCells) r ≤ w) (up : w ≤ w')
    (more : Layout.start (fields coders myCells) r < w')
    (le : w' ≤ Layout.start (fields coders myCells) (r + 1)) :
    parser.setPlace (r % myCells.length) (Layout.start (fields coders myCells) r)
      (w' - Layout.start (fields coders myCells) r) (passType (r / myCells.length)) =
        some { parser with cellMetas := cellMetasAt coders myCells w' } := by
  obtain ⟨k, i, pass, inside, rfl⟩ := exists_rank inRange
  have other : ∀ pass' < 4, ∀ j < myCells.length, ¬ (pass' = k ∧ j = i) →
      placeAt coders myCells w' (pass' * myCells.length + j) =
        placeAt coders myCells w (pass' * myCells.length + j) := by
    intro pass' small j insideJ apart
    refine placeAt_other (fun equal => apart ?_) (rank_lt insideJ small) here up le
    have passes := congrArg (· / myCells.length) equal
    have cells := congrArg (· % myCells.length) equal
    simp only [rank_div insideJ, rank_div inside, rank_mod insideJ, rank_mod inside] at passes cells
    exact ⟨passes, cells⟩
  have same := placeAt_same inRange more le
  have look : (cellMetasAt coders myCells w)[i]? = some (cellMetaAt coders myCells w i) := by
    simp [cellMetasAt, inside]
  have set : (cellMetaAt coders myCells w i).setPlace
      (placeAt coders myCells w' (k * myCells.length + i)) (passType k) =
        some (cellMetaAt coders myCells w' i) := by
    have at0 := other 0 (by omega) i inside
    have at1 := other 1 (by omega) i inside
    have at2 := other 2 (by omega) i inside
    have at3 := other 3 (by omega) i inside
    interval_cases k
    · simp only [CellMeta.setPlace, passType, cellMetaAt, at1 (by omega), at2 (by omega), at3 (by omega)]
    · simp only [CellMeta.setPlace, passType, cellMetaAt, at0 (by omega), at2 (by omega), at3 (by omega)]
    · simp only [CellMeta.setPlace, passType, cellMetaAt, at0 (by omega), at1 (by omega), at3 (by omega)]
    · simp only [CellMeta.setPlace, passType, cellMetaAt, at0 (by omega), at1 (by omega), at2 (by omega)]
  rw [Parser.setPlace, rank_mod inside, rank_div inside, metas, look, ← same]
  simp only [Option.bind_eq_bind, Option.bind_some, set, Option.some.injEq, Parser.mk.injEq, true_and,
    and_true]
  apply List.ext_getElem?
  intro j
  rw [List.getElem?_set]
  by_cases here : i = j
  · subst here
    rw [if_pos rfl, if_pos (by simpa [cellMetasAt] using inside)]
    simp [cellMetasAt, inside]
  · rw [if_neg here]
    by_cases insideJ : j < myCells.length
    · have at0 := other 0 (by omega) j insideJ fun both => here both.2.symm
      have at1 := other 1 (by omega) j insideJ fun both => here both.2.symm
      have at2 := other 2 (by omega) j insideJ fun both => here both.2.symm
      have at3 := other 3 (by omega) j insideJ fun both => here both.2.symm
      simp only [cellMetasAt, List.getElem?_map, List.getElem?_range insideJ, Option.map_some,
        cellMetaAt, at0, at1, at2, at3]
    · simp [cellMetasAt, insideJ]

/-- The parser stands at one field. -/
theorem At.unique {r q w : Nat} (first : At coders myCells r w) (second : At coders myCells q w) :
    r = q := by
  have apart : ∀ {a b : Nat}, At coders myCells a w → At coders myCells b w → ¬ a < b := by
    intro a b atA atB below
    have := atB.le
    have := atB.start
    have := atA.next (by omega)
    have := Layout.start_mono (fields coders myCells) (show a + 1 ≤ b by omega)
    omega
  have := apart first second
  have := apart second first
  omega

/-- Ranks with the same cells, last meta and start have the same view. -/
theorem view_skip {r q : Nat} (size w j : Nat) (cells : cellsAt myCells q = cellsAt myCells r)
    (last : lastAt coders myCells q = lastAt coders myCells r)
    (start : Layout.start (fields coders myCells) q = Layout.start (fields coders myCells) r) :
    view coders myCells size r w j = view coders myCells size q w j := by
  rw [view, view, cells, last, start]

/-- The loop reads the fields that are there. -/
theorem advanceLoop_eq (valid : ValidCells myCells) (size : Nat) {j : Nat}
    (le : j ≤ (streamBits coders myCells).length) (fuel r w : Nat) (here : At coders myCells r w)
    (up : w ≤ j) (enough : 4 * myCells.length - r < fuel) :
    ∃ q v, (view coders myCells size r w j).advanceLoop (fieldDecoders coders) fuel =
        some (view coders myCells size q v j) ∧
      At coders myCells q j ∧ Layout.start (fields coders myCells) q ≤ v ∧ v ≤ j := by
  induction fuel generalizing r w with
  | zero => omega
  | succ fuel ih =>
      have low := here.start
      have normal := here.normal
      have predict := predictNextMeta_eq valid here.le normal
      have cells : (view coders myCells size r w j).myCells = cellsAt myCells r := rfl
      have last : (view coders myCells size r w j).lastReadMeta = lastAt coders myCells r := rfl
      rw [Parser.advanceLoop, cells, last, predict]
      by_cases inRange : r < 4 * myCells.length
      · have read := tryRead_eq valid size w inRange normal le (by omega)
        simp only [metaAt, if_pos inRange, rankMeta, Option.bind_eq_bind, Option.bind_some, read,
          readResult]
        by_cases whole : Layout.start (fields coders myCells) (r + 1) ≤ j
        · have bits := normal inRange
          have next := start_fields_succ coders inRange
          obtain ⟨q, above, below, normalQ, cellsQ, lastQ, startQ⟩ :=
            exists_normal coders valid (show r + 1 ≤ 4 * myCells.length by omega)
          have place := setPlace_eq coders
            { view coders myCells size r w j with
              offs := Layout.start (fields coders myCells) (r + 1)
              myCells := cellsAt myCells (r + 1) }
            inRange rfl low (here.next inRange).le (by omega) (Nat.le_refl _)
          have hereQ : At coders myCells q (Layout.start (fields coders myCells) (r + 1)) := by
            refine ⟨below, startQ.le, fun inRangeQ => ?_⟩
            have := start_fields_succ coders inRangeQ
            have := normalQ inRangeQ
            omega
          obtain ⟨final, v, run, rest⟩ := ih q (Layout.start (fields coders myCells) (r + 1)) hereQ
            whole (by omega)
          refine ⟨final, v, ?_, rest⟩
          rw [← run, if_pos whole]
          change (Parser.setPlace _ (r % myCells.length) (Layout.start (fields coders myCells) r)
            (Layout.start (fields coders myCells) (r + 1) - Layout.start (fields coders myCells) r)
            (passType (r / myCells.length))).bind _ = _
          rw [place, Option.bind_some, ← view_skip size _ j cellsQ lastQ startQ]
          simp only [view, lastAt, if_pos bits, rankMeta]
        · rw [if_neg whole]
          exact ⟨r, w, rfl, ⟨here.le, by omega, fun _ => by omega⟩, low, up⟩
      · have all : r = 4 * myCells.length := by
          have := here.le
          omega
        have end_ := start_fields_all coders myCells
        rw [← all] at end_
        simp only [metaAt, if_neg inRange, Option.bind_eq_bind, Option.bind_some]
        exact ⟨r, w, rfl, ⟨here.le, by omega, fun more => absurd more inRange⟩, low, up⟩

/-- `advance_cells_read` reaches the view of the stored bits. -/
theorem advanceCellsRead_eq (valid : ValidCells myCells) {size r w j : Nat}
    (le : j ≤ (streamBits coders myCells).length) (here : At coders myCells r w) (up : w ≤ j) :
    ∃ q, At coders myCells q j ∧
      (view coders myCells size r w j).advanceCellsRead (fieldDecoders coders) =
        some (view coders myCells size q j j) := by
  obtain ⟨q, v, run, atQ, low, high⟩ := advanceLoop_eq valid size le
    (4 * myCells.length + 1) r w here up (by omega)
  have start := atQ.start
  refine ⟨q, atQ, ?_⟩
  have cells : (view coders myCells size r w j).myCells.length = myCells.length := by
    simp [view]
  rw [Parser.advanceCellsRead, cells, run]
  simp only [Option.bind_eq_bind, Option.bind_some, view_writePtr le]
  change (if Layout.start (fields coders myCells) q < j then _ else _) = _
  by_cases more : Layout.start (fields coders myCells) q < j
  · have inRange : q < 4 * myCells.length := by
      by_contra all
      have all : q = 4 * myCells.length := by
        have := atQ.le
        omega
      have end_ := start_fields_all coders myCells
      rw [← all] at end_
      omega
    have predict := predictNextMeta_eq valid atQ.le atQ.normal
    have place := setPlace_eq coders (view coders myCells size q v j) inRange rfl
      low high more (atQ.next inRange).le
    rw [if_pos more]
    change (predictNextMeta (cellsAt myCells q) (lastAt coders myCells q)).bind _ = _
    rw [predict]
    simp only [Option.bind_some, metaAt, if_pos inRange, rankMeta]
    exact place
  · have same : v = j := by omega
    rw [if_neg more, same]

/-- Nothing is known before the first bit. -/
theorem view_start (size : Nat) :
    view coders myCells size 0 0 0 = Parser.start size myCells.length := by
  have cells : cellsAt myCells 0 = List.replicate myCells.length MyCell.default := by
    apply List.ext_getElem (by simp)
    intro i _ _
    simp [cellsAt, cellAt, Done, MyCell.default]
  have metas : cellMetasAt coders myCells 0 = List.replicate myCells.length CellMeta.default := by
    apply List.ext_getElem (by simp [cellMetasAt])
    intro i _ _
    simp [cellMetasAt, cellMetaAt, placeAt, CellMeta.default]
  simp [view, Parser.start, cells, metas, lastAt]

variable (coders) in
/-- The parser starts at the first field. -/
theorem at_start (valid : ValidCells myCells) : At coders myCells 0 0 := by
  have inside := valid.nonempty
  have bits := (fieldOf_pos coders (k := 0) valid.toWritableCells (List.getElem?_eq_getElem inside)).mpr
    (by simp [passType])
  rw [Nat.zero_mul, Nat.zero_add] at bits
  refine ⟨by omega, Nat.le_refl _, fun inRange => ?_⟩
  have := start_fields_succ coders inRange
  omega

/-- Feeding a chunk of the stream moves the parser over it. -/
theorem feed_eq (valid : ValidCells myCells) (size : Nat) {r i : Nat} {chunk : List Bool}
    (here : At coders myCells r i) (le : i ≤ (streamBits coders myCells).length)
    (next : chunk <+: (streamBits coders myCells).drop i) :
    ∃ q, At coders myCells q (i + chunk.length) ∧
      (view coders myCells size r i i).feed (fieldDecoders coders) chunk =
        some (view coders myCells size q (i + chunk.length) (i + chunk.length)) := by
  have fits := next.length_le
  rw [List.length_drop] at fits
  have stored : (view coders myCells size r i i).storeOut chunk =
      view coders myCells size r i (i + chunk.length) := by
    simp only [Parser.storeOut, view, BitPtr.push_push, Parser.mk.injEq, and_true]
    rw [List.take_add, ← List.prefix_iff_eq_take.mp next]
  rw [Parser.feed, stored]
  exact advanceCellsRead_eq valid (by omega) here (by omega)

/-- Chunks lead to the view of their bits. -/
theorem foldlM_feed_eq (valid : ValidCells myCells) (size : Nat) (chunks : List (List Bool))
    (next : chunks.flatten <+: streamBits coders myCells) :
    ∃ q, At coders myCells q chunks.flatten.length ∧
      chunks.foldlM (Parser.feed (fieldDecoders coders)) (Parser.start size myCells.length) =
        some (view coders myCells size q chunks.flatten.length chunks.flatten.length) := by
  obtain ⟨final, run, q, here, rfl⟩ := OptionList.foldlM_invariant chunks
    (Parser.start size myCells.length) (Parser.feed (fieldDecoders coders))
    (fun done parser => ∃ q, At coders myCells q done.flatten.length ∧
      parser = view coders myCells size q done.flatten.length done.flatten.length)
    ⟨0, at_start coders valid, (view_start size).symm⟩
    (by
      rintro done chunk rest parser split ⟨q, here, rfl⟩
      rw [split, List.flatten_append, List.flatten_cons] at next
      have before := (List.prefix_append _ _).trans next
      have after : chunk <+: (streamBits coders myCells).drop done.flatten.length := by
        obtain ⟨tail, whole⟩ := next
        rw [← whole, List.append_assoc, List.drop_left, List.append_assoc]
        exact List.prefix_append _ _
      obtain ⟨q', here', step⟩ := feed_eq valid size here before.length_le after
      refine ⟨_, step, q', ?_⟩
      rw [List.flatten_append, List.flatten_cons, List.flatten_nil, List.append_nil,
        List.length_append]
      exact ⟨here', rfl⟩)
  exact ⟨q, here, run⟩

/-- A field that is done has all its bits. -/
theorem placeAt_cnt {q r w : Nat} (inRange : q < 4 * myCells.length) (below : q < r)
    (here : Layout.start (fields coders myCells) r ≤ w) :
    (placeAt coders myCells w q).cnt = (fieldOf coders myCells q).length := by
  have size := start_fields_succ coders inRange
  have ends := Layout.start_mono (fields coders myCells) (show q + 1 ≤ r by omega)
  rw [placeAt]
  split
  · rw [Nat.min_eq_left (by omega)]
  · rename_i missing
    simp only [FieldPlace.unset]
    by_contra positive
    exact missing ⟨by omega, by omega⟩

/-- `get_pos` finds a received bit by its offset within its cell. -/
theorem getPos_eq {i k t w : Nat} (inside : i < myCells.length) (pass : k < 4)
    (within : t < (fieldOf coders myCells (k * myCells.length + i)).length)
    (received : Layout.start (fields coders myCells) (k * myCells.length + i) + t < w) :
    (cellMetaAt coders myCells w i).getPos (bitsBefore coders myCells i k + t) =
      some (Layout.start (fields coders myCells) (k * myCells.length + i) + t) := by
  have place : ∃ cnt, t < cnt ∧ placeAt coders myCells w (k * myCells.length + i) =
      ⟨some (Layout.start (fields coders myCells) (k * myCells.length + i)), cnt⟩ := by
    refine ⟨_, ?_, if_pos ⟨by omega, by omega⟩⟩
    omega
  obtain ⟨cnt, inCnt, place⟩ := place
  have before : ∀ pass' < k, (placeAt coders myCells w (pass' * myCells.length + i)).cnt =
      (fieldOf coders myCells (pass' * myCells.length + i)).length := by
    intro pass' less
    have := Nat.mul_lt_mul_of_pos_right less (show 0 < myCells.length by omega)
    exact placeAt_cnt (rank_lt inside (by omega)) (show _ < k * myCells.length + i by omega) (by omega)
  have sum : bitsBefore coders myCells i 0 = 0 := rfl
  interval_cases k
  · rw [sum, Nat.zero_add, CellMeta.getPos]
    simp only [cellMetaAt, place, if_pos inCnt, Option.map_some]
  · have first := before 0 (by omega)
    rw [bitsBefore_succ, sum, CellMeta.getPos]
    simp only [cellMetaAt, place, first, Nat.zero_add]
    rw [if_neg (by omega), Nat.add_sub_cancel_left, if_pos inCnt, Option.map_some]
  · have first := before 0 (by omega)
    have second := before 1 (by omega)
    rw [bitsBefore_succ, bitsBefore_succ, sum, CellMeta.getPos]
    simp only [cellMetaAt, place, first, second, Nat.zero_add]
    rw [if_neg (by omega), Nat.add_assoc, Nat.add_sub_cancel_left, if_neg (by omega),
      Nat.add_sub_cancel_left, if_pos inCnt, Option.map_some]
  · have first := before 0 (by omega)
    have second := before 1 (by omega)
    have third := before 2 (by omega)
    rw [bitsBefore_succ, bitsBefore_succ, bitsBefore_succ, sum, CellMeta.getPos]
    simp only [cellMetaAt, place, first, second, third, Nat.zero_add]
    rw [if_neg (by omega), Nat.add_assoc, Nat.add_assoc, Nat.add_sub_cancel_left, if_neg (by omega),
      Nat.add_sub_cancel_left, if_neg (by omega), Nat.add_sub_cancel_left, check_of inCnt]
    rfl

variable (coders) in
/-- A received bit is found again by its meta and its offset within its cell. -/
theorem view_getPos (valid : WritableCells myCells) {s w : Nat} (before : s < w)
    (le : w ≤ (streamBits coders myCells).length) :
    ∃ cellId fieldType cellMeta offset, cellId < myCells.length ∧
      (streamMetas coders myCells)[s]? = some ⟨some cellId, fieldType⟩ ∧
      (buildOffsetsWithinCells (streamMetas coders myCells))[s]? = some offset ∧ offset ≤ 1369 ∧
      (cellMetasAt coders myCells w)[cellId]? = some cellMeta ∧ cellMeta.getPos offset = some s := by
  obtain ⟨r, field, look, low, high⟩ := Layout.locate
    (show s < (fields coders myCells).flatten.length by
      rw [← streamBits]
      omega)
  have inRange : r < 4 * myCells.length := by
    simpa using (List.getElem?_eq_some_iff.mp look).1
  rw [fields_at inRange, Option.some.injEq] at look
  obtain ⟨k, i, pass, inside, rfl⟩ := exists_rank inRange
  obtain ⟨t, rfl⟩ : ∃ t, s = Layout.start (fields coders myCells) (k * myCells.length + i) + t :=
    ⟨_, (Nat.add_sub_cancel' low).symm⟩
  have within : t < (fieldOf coders myCells (k * myCells.length + i)).length := by
    rw [look]
    omega
  have small := bitsBefore_le coders valid.storable inside (k := k + 1) (by omega)
  rw [bitsBefore_succ] at small
  refine ⟨i, passType k, _, _, inside, ?_, offsets_at valid.storable inside pass within, by omega, ?_,
    getPos_eq inside pass within before⟩
  · rw [streamMetas_at coders inRange within, rankMeta_rank inside]
  · simp [cellMetasAt, inside]

/-- The prediction behind a prefix is the meta of the next bit. -/
theorem view_predict (valid : ValidCells myCells) (size : Nat) {r w : Nat} (here : At coders myCells r w)
    (more : w < (streamBits coders myCells).length) :
    predictNextMeta (view coders myCells size r w w).myCells
        (view coders myCells size r w w).lastReadMeta = some (rankMeta myCells.length r) ∧
      (streamMetas coders myCells)[w]? = some (rankMeta myCells.length r) ∧
      r % myCells.length < myCells.length := by
  have inRange : r < 4 * myCells.length := by
    by_contra all
    have all : r = 4 * myCells.length := by
      have := here.le
      omega
    have end_ := start_fields_all coders myCells
    rw [← all] at end_
    have := here.start
    omega
  have predict := predictNextMeta_eq valid here.le here.normal
  rw [metaAt, if_pos inRange] at predict
  have size := start_fields_succ coders inRange
  have low := here.start
  have high := here.next inRange
  have look := streamMetas_at coders (t := w - Layout.start (fields coders myCells) r)
    inRange (by omega)
  rw [Nat.add_sub_cancel' low] at look
  exact ⟨predict, look, Nat.mod_lt _ valid.nonempty⟩

end View

/-- What the parser knows when it has received the first `i` bits: the place of each of them, and the
cell of the next one. -/
structure Follows (bits : List Bool) (metas : List SerializeMetaData) (i : Nat) (parser : Parser) :
    Prop where
  places : ∀ s < i, ∃ cellId fieldType cellMeta offset, metas[s]? = some ⟨some cellId, fieldType⟩ ∧
    (buildOffsetsWithinCells metas)[s]? = some offset ∧
    parser.cellMetas[cellId]? = some cellMeta ∧ cellMeta.getPos offset = some s
  next : i < bits.length → predictNextMeta parser.myCells parser.lastReadMeta = metas[i]?

/-- The view of the parser follows the stream and its metas. -/
theorem view_follows {tables : Tables} {coders : Coders tables} {myCells : List MyCell}
    (valid : ValidCells myCells) {size r w : Nat} (here : At coders myCells r w)
    (le : w ≤ (streamBits coders myCells).length) :
    Follows (streamBits coders myCells) (streamMetas coders myCells) w
      (view coders myCells size r w w) where
  places := by
    intro s before
    obtain ⟨cellId, fieldType, cellMeta, offset, _, meta_, offset_, _, place, found⟩ :=
      view_getPos coders valid.toWritableCells before le
    exact ⟨cellId, fieldType, cellMeta, offset, meta_, offset_, place, found⟩
  next := by
    intro more
    obtain ⟨predict, meta_, _⟩ := view_predict valid size here more
    rw [predict, meta_]

/-- Chunks of a prefix of the bits lead to the parser that one chunk with all of the prefix leads to,
and it follows the bits. -/
theorem feed_chunks {myCells : List MyCell} (valid : ValidCells myCells) (size : Nat) :
    ∃ output metas bits decoders, myCellsToBitStr sourceTables myCells = some (output, metas) ∧
      bytesStrToBitStr output true = some bits ∧ metas.length = bits.length ∧
      HuffmanEncoderDecoder.ofFreq sourceTables.d1Freq = some decoders.d1Decoder ∧
      HuffmanEncoderDecoder.ofFreq sourceTables.dataSizeFreq = some decoders.dataSizeDecoder ∧
      ∀ chunks : List (List Bool), chunks.flatten <+: bits → ∃ parser,
        chunks.foldlM (Parser.feed decoders) (Parser.start size myCells.length) = some parser ∧
        Parser.feed decoders (Parser.start size myCells.length) chunks.flatten = some parser ∧
        Follows bits metas chunks.flatten.length parser := by
  obtain ⟨coders⟩ := sourceTables_valid.coders
  refine ⟨_, _, _, fieldDecoders coders, myCellsToBitStr_eq coders valid.storable,
    bytesStrToBitStr_streamBits coders valid, length_streamMetas, coders.d1_built, coders.dataSize_built, ?_⟩
  intro chunks next
  obtain ⟨q, here, run⟩ := foldlM_feed_eq valid size chunks next
  obtain ⟨q', here', once⟩ := feed_eq valid size (at_start coders valid)
    (Nat.zero_le _) (show chunks.flatten <+: _ by simpa using next)
  rw [Nat.zero_add] at here' once
  rw [view_start] at once
  obtain rfl := here.unique here'
  exact ⟨_, run, once, view_follows valid here next.length_le⟩

/-- A cell with three data bits that refers to an empty special cell of two bits. -/
def pairCells : List MyCell :=
  [⟨0, [0, 0, 0, 0], [], true, [64], 2⟩, ⟨1, [0, 0, 0, 0], [], false, [160], 3⟩]

theorem pairCells_valid : ValidCells pairCells where
  nonempty := by decide
  few := by decide
  cntRefs := by decide
  cntBits := by decide
  refs := by
    intro i myCell look
    match i with
    | 0 =>
        obtain rfl := Option.some.inj look
        decide
    | 1 =>
        obtain rfl := Option.some.inj look
        decide
    | i + 2 => simp [pairCells] at look

theorem feed_chunks_pair : ∃ output metas bits decoders,
    myCellsToBitStr sourceTables pairCells = some (output, metas) ∧
      bytesStrToBitStr output true = some bits ∧ metas.length = bits.length ∧
      HuffmanEncoderDecoder.ofFreq sourceTables.d1Freq = some decoders.d1Decoder ∧
      HuffmanEncoderDecoder.ofFreq sourceTables.dataSizeFreq = some decoders.dataSizeDecoder ∧
      ∀ chunks : List (List Bool), chunks.flatten <+: bits → ∃ parser,
        chunks.foldlM (Parser.feed decoders) (Parser.start 64 pairCells.length) = some parser ∧
        Parser.feed decoders (Parser.start 64 pairCells.length) chunks.flatten = some parser ∧
        Follows bits metas chunks.flatten.length parser :=
  feed_chunks pairCells_valid 64

end CellBag.Serializator
