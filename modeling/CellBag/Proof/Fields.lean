import CellBag.Library.Layout
import CellBag.Library.OptionList
import CellBag.Proof.Coders
import CellBag.Proof.Utils
import CellBag.Model.Serializer

/-!
The bit string of the cells: four passes over the cells, each with a field for each cell.
-/

namespace CellBag.Serializator
open BitString Huffman

/-- The cells that `my_cells_to_bit_str` can write. -/
structure WritableCells (myCells : List MyCell) : Prop where
  nonempty : 0 < myCells.length
  cntRefs : ∀ myCell ∈ myCells, myCell.cntRefs ≤ 4 ∧ myCell.cntRefs ≤ myCell.refs.length
  cntBits : ∀ myCell ∈ myCells, myCell.cntBits ≤ 1023 ∧ myCell.cntBits ≤ 8 * myCell.data.length ∧
    (myCell.isSpecial = true → 2 ≤ myCell.cntBits)
  refs : ∀ (i : Nat) (myCell : MyCell), myCells[i]? = some myCell →
    ∀ ref ∈ myCell.refs.take myCell.cntRefs, ref < myCells.length ∧ ref ≠ i

/-- The cells that can be sent: the number of them fits into its field. -/
structure ValidCells (myCells : List MyCell) : Prop extends WritableCells myCells where
  few : myCells.length < 2 ^ BITS_FOR_N_CELLS

/-- The cells that `my_cells_to_bit_str` can store, whatever their types. -/
structure StorableCells (myCells : List MyCell) : Prop where
  nonempty : 0 < myCells.length
  cntRefs : ∀ myCell ∈ myCells, myCell.cntRefs ≤ 4 ∧ myCell.cntRefs ≤ myCell.refs.length
  cntBits : ∀ myCell ∈ myCells, myCell.cntBits ≤ 1023 ∧ myCell.cntBits ≤ 8 * myCell.data.length
  refs : ∀ (i : Nat) (myCell : MyCell), myCells[i]? = some myCell →
    ∀ ref ∈ myCell.refs.take myCell.cntRefs, ref < myCells.length ∧ ref ≠ i

/-- Writable cells can be stored. -/
theorem WritableCells.storable {myCells : List MyCell} (valid : WritableCells myCells) :
    StorableCells myCells where
  nonempty := valid.nonempty
  cntRefs := valid.cntRefs
  cntBits := fun myCell member =>
    let ⟨short, stored, _⟩ := valid.cntBits myCell member
    ⟨short, stored⟩
  refs := valid.refs

/-- The data bits of a cell. -/
def MyCell.dataBits (myCell : MyCell) : List Bool := (ofBytes myCell.data).take myCell.cntBits

/-- The bits that store a ref of cell `i`. -/
def refBits (nCells i ref : Nat) : List Bool :=
  ofNat (lenInBits (nCells - 1)) ((nCells + i - ref) % nCells - 1)

/-- A stored ref has at most as many bits as the greatest index. -/
theorem refStore_lt {n i ref : Nat} (few : n < 2 ^ 20) (positive : 0 < n) :
    (n + i - ref) % n - 1 < 2 ^ lenInBits (n - 1) := by
  have fits : n - 1 < 2 ^ lenInBits (n - 1) := lt_two_pow_lenInBits (by omega)
  have below := Nat.mod_lt (n + i - ref) positive
  omega

/-- The bits of a field of cell `i`. -/
def MyCell.fieldBits {tables : Tables} (coders : Coders tables) (nCells i : Nat) (myCell : MyCell) :
    FieldType → List Bool
  | .none => []
  | .d1 => coders.d1.word myCell.d1
  | .dataSize => coders.dataSize.word myCell.cntBits
  | .refs => (myCell.refs.take myCell.cntRefs).flatMap (refBits nCells i)
  | .data => myCell.dataBits

/-- The type of the fields of a pass. -/
def passType : Nat → FieldType
  | 0 => .d1
  | 1 => .dataSize
  | 2 => .refs
  | _ => .data

/-- The meta of the field of a rank: the rank counts the fields through the four passes. -/
def rankMeta (nCells r : Nat) : SerializeMetaData := ⟨some (r % nCells), passType (r / nCells)⟩

section Fields
variable {tables : Tables} (coders : Coders tables) (myCells : List MyCell)

/-- The bits of the field of a rank. -/
def fieldOf (r : Nat) : List Bool :=
  match myCells[r % myCells.length]? with
  | none => []
  | some myCell =>
      myCell.fieldBits coders myCells.length (r % myCells.length) (passType (r / myCells.length))

/-- The fields in the order of their ranks. -/
def fields : List (List Bool) := (List.range (4 * myCells.length)).map (fieldOf coders myCells)

/-- The metas of the fields. -/
def metaFields : List (List SerializeMetaData) :=
  (List.range (4 * myCells.length)).map fun r =>
    List.replicate (fieldOf coders myCells r).length (rankMeta myCells.length r)

/-- The bits that `my_cells_to_bit_str` stores before the end mark. -/
def streamBits : List Bool := (fields coders myCells).flatten

/-- The `meta` of those bits. -/
def streamMetas : List SerializeMetaData := (metaFields coders myCells).flatten

variable {coders myCells}

/-- There are four fields for each cell. -/
@[simp] theorem length_fields : (fields coders myCells).length = 4 * myCells.length := by
  simp [fields]

/-- The field with a rank. -/
theorem fields_at {r : Nat} (inRange : r < 4 * myCells.length) :
    (fields coders myCells)[r]? = some (fieldOf coders myCells r) := by
  simp [fields, inRange]

/-- The metas of the field with a rank. -/
theorem metaFields_at {r : Nat} (inRange : r < 4 * myCells.length) :
    (metaFields coders myCells)[r]? = some
      (List.replicate (fieldOf coders myCells r).length (rankMeta myCells.length r)) := by
  simp [metaFields, inRange]

/-- The metas of a field start where its bits do. -/
theorem start_metaFields (r : Nat) :
    Layout.start (metaFields coders myCells) r = Layout.start (fields coders myCells) r := by
  simp only [Layout.start, List.length_flatten, metaFields, fields, ← List.map_take, List.map_map]
  congr 1
  apply List.map_congr_left
  intro q _
  simp

/-- There is a meta for each bit. -/
theorem length_streamMetas : (streamMetas coders myCells).length = (streamBits coders myCells).length := by
  have all := @start_metaFields tables coders myCells (4 * myCells.length)
  rwa [Layout.start_all (by simp [metaFields]), Layout.start_all (by simp)] at all

/-- A rank is a pass and a cell. -/
theorem rank_div {k i n : Nat} (inside : i < n) : (k * n + i) / n = k := by
  rw [Nat.mul_comm, Nat.mul_add_div (by omega), Nat.div_eq_of_lt inside, Nat.add_zero]

/-- The cell of a rank. -/
theorem rank_mod {k i n : Nat} (inside : i < n) : (k * n + i) % n = i := by
  rw [Nat.mul_comm, Nat.mul_add_mod, Nat.mod_eq_of_lt inside]

/-- The ranks of four passes. -/
theorem rank_lt {k i n : Nat} (inside : i < n) (pass : k < 4) : k * n + i < 4 * n := by
  have := Nat.mul_le_mul_right n (show k + 1 ≤ 4 by omega)
  rw [Nat.add_mul, Nat.one_mul] at this
  omega

/-- The cell and the pass of a rank. -/
theorem exists_rank {r n : Nat} (inRange : r < 4 * n) : ∃ k i, k < 4 ∧ i < n ∧ r = k * n + i := by
  have positive : 0 < n := by omega
  refine ⟨r / n, r % n, (Nat.div_lt_iff_lt_mul positive).mpr (by omega), Nat.mod_lt _ positive, ?_⟩
  rw [Nat.mul_comm, Nat.div_add_mod]

/-- The field with a rank is that of the pass. -/
theorem fieldOf_rank {k i : Nat} {myCell : MyCell} (look : myCells[i]? = some myCell) :
    fieldOf coders myCells (k * myCells.length + i) =
      myCell.fieldBits coders myCells.length i (passType k) := by
  have inside := (List.getElem?_eq_some_iff.mp look).1
  rw [fieldOf, rank_mod inside, rank_div inside, look]

/-- The meta with a rank is that of the pass. -/
theorem rankMeta_rank {k i n : Nat} (inside : i < n) : rankMeta n (k * n + i) = ⟨some i, passType k⟩ := by
  rw [rankMeta, rank_mod inside, rank_div inside]

/-- The state of the writer before the field of a rank. -/
def written (coders : Coders tables) (myCells : List MyCell) (start : BitPtr) (r : Nat) : Writer :=
  ⟨start.push ((fields coders myCells).take r).flatten, ((metaFields coders myCells).take r).flatten⟩

/-- The next field goes behind those that are written. -/
theorem written_succ (start : BitPtr) {r : Nat} (inRange : r < 4 * myCells.length) :
    written coders myCells start (r + 1) =
      (written coders myCells start r).mark
        ((written coders myCells start r).ptr.push (fieldOf coders myCells r))
        (fieldOf coders myCells r).length (r % myCells.length) (passType (r / myCells.length)) := by
  rw [written, written, List.take_add_one, List.take_add_one, fields_at inRange,
    metaFields_at inRange]
  simp [Writer.mark, rankMeta]

variable (coders myCells) in
/-- A pass writes the fields of its ranks. -/
theorem foldlM_pass (start : BitPtr) {push : Writer → Nat → Option Writer} {k : Nat} (pass : k < 4)
    (each : ∀ i myCell, myCells[i]? = some myCell → ∀ writer : Writer, push writer i =
      some (writer.mark
        (writer.ptr.push (myCell.fieldBits coders myCells.length i (passType k)))
        (myCell.fieldBits coders myCells.length i (passType k)).length i (passType k))) :
    (List.range myCells.length).foldlM push (written coders myCells start (k * myCells.length)) =
      some (written coders myCells start ((k + 1) * myCells.length)) := by
  obtain ⟨final, run, rfl⟩ := OptionList.foldlM_invariant (List.range myCells.length)
    (written coders myCells start (k * myCells.length)) push
    (fun done writer => writer = written coders myCells start (k * myCells.length + done.length))
    rfl (by
      rintro done i rest writer split rfl
      have position := congrArg (fun items => items[done.length]?) split
      simp only [List.getElem?_append_right (Nat.le_refl _), Nat.sub_self,
        List.getElem?_cons_zero] at position
      obtain ⟨inside, same⟩ := List.getElem?_eq_some_iff.mp position
      rw [List.getElem_range] at same
      subst same
      rw [List.length_range] at inside
      refine ⟨_, each done.length myCells[done.length] (List.getElem?_eq_getElem inside) _, ?_⟩
      rw [List.length_append, List.length_singleton, ← Nat.add_assoc,
        written_succ start (rank_lt inside pass), rank_mod inside, rank_div inside,
        fieldOf_rank (List.getElem?_eq_getElem inside)])
  rw [run, List.length_range, Nat.add_mul, Nat.one_mul]

end Fields

section Writer
variable {tables : Tables} {coders : Coders tables} {myCells : List MyCell} {i : Nat} {myCell : MyCell}

/-- The first descriptor holds the count of the refs and the special bit. -/
theorem StorableCells.d1_lt (valid : StorableCells myCells) (look : myCells[i]? = some myCell) :
    myCell.d1 = myCell.cntRefs + 8 * myCell.isSpecial.toNat ∧ myCell.d1 < 13 := by
  have refs := (valid.cntRefs myCell (List.mem_of_getElem? look)).1
  have special : myCell.isSpecial.toNat ≤ 1 := Bool.toNat_le _
  have small : myCell.cntRefs + 8 * myCell.isSpecial.toNat < 2 ^ 8 := by omega
  rw [MyCell.d1, Nat.mod_eq_of_lt small]
  omega

/-- The used refs are the first ones. -/
theorem StorableCells.usedRefs (valid : StorableCells myCells) (look : myCells[i]? = some myCell) :
    myCell.usedRefs = some (myCell.refs.take myCell.cntRefs) := by
  rw [MyCell.usedRefs, if_pos (valid.cntRefs myCell (List.mem_of_getElem? look)).2]

/-- The data of a cell have its count of bits. -/
theorem StorableCells.length_dataBits (valid : StorableCells myCells) (look : myCells[i]? = some myCell) :
    myCell.dataBits.length = myCell.cntBits := by
  have fits := (valid.cntBits myCell (List.mem_of_getElem? look)).2
  rw [MyCell.dataBits, List.length_take, length_ofBytes]
  omega

/-- Two marks of one field are one. -/
theorem Writer.mark_mark (writer : Writer) (first second : BitPtr) (a b cellId : Nat)
    (fieldType : FieldType) :
    (writer.mark first a cellId fieldType).mark second b cellId fieldType =
      writer.mark second (a + b) cellId fieldType := by
  rw [Writer.mark, Writer.mark, Writer.mark, List.append_assoc, List.replicate_append_replicate]

/-- `push_d1` writes its field. -/
theorem pushD1_eq (valid : StorableCells myCells) (look : myCells[i]? = some myCell) (writer : Writer) :
    Writer.pushD1 coders.d1 myCells writer i = some (writer.mark
      (writer.ptr.push (myCell.fieldBits coders myCells.length i .d1))
      (myCell.fieldBits coders myCells.length i .d1).length i .d1) := by
  simp [Writer.pushD1, look, coders.d1_usable.encodeSymbol_eq (valid.d1_lt look).2, MyCell.fieldBits]

/-- `push_data_size` writes its field. -/
theorem pushDataSize_eq (valid : StorableCells myCells) (look : myCells[i]? = some myCell)
    (writer : Writer) :
    Writer.pushDataSize coders.dataSize myCells writer i = some (writer.mark
      (writer.ptr.push (myCell.fieldBits coders myCells.length i .dataSize))
      (myCell.fieldBits coders myCells.length i .dataSize).length i .dataSize) := by
  have small : myCell.cntBits < 1024 := by
    have := (valid.cntBits myCell (List.mem_of_getElem? look)).1
    omega
  simp [Writer.pushDataSize, look, coders.dataSize_usable.encodeSymbol_eq small, MyCell.fieldBits]

/-- The distance to a ref is neither zero nor the number of cells. -/
theorem distance_pos {n i ref : Nat} (insideI : i < n) (insideRef : ref < n) (different : ref ≠ i) :
    0 < (n + i - ref) % n := by
  rcases Nat.lt_or_ge ref i with below | above
  · rw [show n + i - ref = n + (i - ref) by omega, Nat.add_mod_left, Nat.mod_eq_of_lt (by omega)]
    omega
  · rw [Nat.mod_eq_of_lt (by omega)]
    omega

/-- `push_refs` writes its field. -/
theorem pushRefs_eq (valid : StorableCells myCells) (look : myCells[i]? = some myCell) (writer : Writer) :
    Writer.pushRefs myCells writer i = some (writer.mark
      (writer.ptr.push (myCell.fieldBits coders myCells.length i .refs))
      (myCell.fieldBits coders myCells.length i .refs).length i .refs) := by
  have inside := (List.getElem?_eq_some_iff.mp look).1
  have good := valid.refs i myCell look
  simp only [Writer.pushRefs, look, valid.usedRefs look, MyCell.fieldBits, Option.bind_eq_bind,
    Option.bind_some]
  generalize myCell.refs.take myCell.cntRefs = refs at good
  induction refs generalizing writer with
  | nil => simp [Writer.mark]
  | cons ref refs ih =>
      obtain ⟨insideRef, different⟩ := good ref (by simp)
      have distance := distance_pos inside insideRef different
      rw [List.foldlM_cons, check_of different, check_of distance]
      simp only [Option.bind_eq_bind, Option.bind_some]
      rw [ih _ fun other member => good other (by simp [member]), Writer.mark_mark,
        BitPtr.storeUint_eq_push]
      simp [Writer.mark, refBits]

/-- `push_data` writes its field. -/
theorem pushData_eq (valid : StorableCells myCells) (look : myCells[i]? = some myCell) (writer : Writer) :
    Writer.pushData myCells writer i = some (writer.mark
      (writer.ptr.push (myCell.fieldBits coders myCells.length i .data))
      (myCell.fieldBits coders myCells.length i .data).length i .data) := by
  have long := valid.length_dataBits look
  have read : (List.range myCell.cntBits).mapM (getBit (ofBytes myCell.data)) = some myCell.dataBits := by
    rw [← long]
    apply OptionList.mapM_range_getElem?
    intro index inRange
    rw [getBit_eq, MyCell.dataBits, List.getElem?_take_of_lt (by omega)]
  simp [Writer.pushData, look, read, MyCell.fieldBits, long]

/-- `my_cells_to_bit_str` stores the fields and an end mark. -/
theorem myCellsToBits_eq (coders : Coders tables) (valid : StorableCells myCells) :
    myCellsToBits tables myCells = some
      ⟨(BitPtr.start (8 * (50 + myCells.length + myCells.length * 4 * 3 + myCells.length * 256))).push
        (streamBits coders myCells ++ [true]), streamMetas coders myCells⟩ := by
  set start := BitPtr.start
    (8 * (50 + myCells.length + myCells.length * 4 * 3 + myCells.length * 256)) with startEq
  have first := foldlM_pass coders myCells start (show 0 < 4 by omega)
    (fun i myCell look writer => pushD1_eq valid look writer)
  have second := foldlM_pass coders myCells start (show 1 < 4 by omega)
    (fun i myCell look writer => pushDataSize_eq valid look writer)
  have third := foldlM_pass coders myCells start (show 2 < 4 by omega)
    (fun i myCell look writer => pushRefs_eq valid look writer)
  have fourth := foldlM_pass coders myCells start (show 3 < 4 by omega)
    (fun i myCell look writer => pushData_eq valid look writer)
  have empty : written coders myCells start (0 * myCells.length) = ⟨start, []⟩ := by
    simp [written]
  have whole : written coders myCells start ((3 + 1) * myCells.length) =
      ⟨start.push (streamBits coders myCells), streamMetas coders myCells⟩ := by
    rw [written, List.take_of_length_le (by simp), List.take_of_length_le (by simp [metaFields])]
    rfl
  rw [empty] at first
  rw [whole] at fourth
  simp only [myCellsToBits, coders.d1_built, coders.dataSize_built, Option.bind_eq_bind,
    Option.bind_some, ← startEq, first]
  rw [show (0 + 1) * myCells.length = 1 * myCells.length from rfl, second]
  simp only [Option.bind_some]
  rw [show (1 + 1) * myCells.length = 2 * myCells.length from rfl, third]
  simp only [Option.bind_some]
  rw [show (2 + 1) * myCells.length = 3 * myCells.length from rfl, fourth]
  simp [BitPtr.storeUint_eq_push, ofNat]

/-- `my_cells_to_bit_str` writes all fields, one behind the other, and their metas. -/
theorem myCellsToBitStr_eq (coders : Coders tables) (valid : StorableCells myCells) :
    myCellsToBitStr tables myCells =
      some (markedBytes (streamBits coders myCells), streamMetas coders myCells) := by
  simp [myCellsToBitStr, myCellsToBits_eq coders valid, storedBytes, markedBytes]

end Writer

section Offsets
variable {tables : Tables} {coders : Coders tables} {myCells : List MyCell}

/-- The offset of a bit counts the bits of its cell before it. -/
theorem offsetsLoop_at {seenBits : Nat → Nat} {metas : List SerializeMetaData} {s cellId : Nat}
    {m : SerializeMetaData} (look : metas[s]? = some m) (owner : m.cellId = some cellId) :
    (offsetsLoop seenBits metas)[s]? = some
      ((seenBits cellId + (metas.take s).countP fun other => other.cellId = some cellId) % 2 ^ 16) := by
  induction metas generalizing seenBits s with
  | nil => simp at look
  | cons first rest ih =>
      cases s with
      | zero =>
          obtain rfl : first = m := by simpa using look
          simp [offsetsLoop, owner]
      | succ s =>
          have later : rest[s]? = some m := look
          rw [offsetsLoop]
          cases here : first.cellId with
          | none => simp [ih later, here]
          | some other =>
              simp only [List.getElem?_cons_succ, ih later, List.take_succ_cons, List.countP_cons, here,
                Option.some.injEq, decide_eq_true_eq]
              by_cases same : other = cellId
              · rw [same, Function.update_self, if_pos rfl, Nat.add_assoc, Nat.add_comm 1]
              · rw [Function.update_of_ne (Ne.symm same), if_neg same, Nat.add_zero]

/-- The bits of a cell in the passes before `k`. -/
def bitsBefore (coders : Coders tables) (myCells : List MyCell) (i k : Nat) : Nat :=
  ((List.range k).map fun pass => (fieldOf coders myCells (pass * myCells.length + i)).length).sum

/-- A pass adds its field. -/
theorem bitsBefore_succ (i k : Nat) : bitsBefore coders myCells i (k + 1) =
    bitsBefore coders myCells i k + (fieldOf coders myCells (k * myCells.length + i)).length := by
  simp [bitsBefore, List.range_succ]

/-- The bits of a cell before a rank. -/
def owned (coders : Coders tables) (myCells : List MyCell) (i r : Nat) : Nat :=
  ((metaFields coders myCells).take r).flatten.countP fun m => m.cellId = some i

/-- A field belongs to its cell. -/
theorem owned_succ {i r : Nat} (inRange : r < 4 * myCells.length) :
    owned coders myCells i (r + 1) = owned coders myCells i r +
      if r % myCells.length = i then (fieldOf coders myCells r).length else 0 := by
  rw [owned, owned, List.take_add_one, metaFields_at inRange]
  simp [rankMeta, List.countP_replicate]

/-- Between two fields of a cell lie only fields of other cells. -/
theorem owned_skip {i k m : Nat} (inside : i < myCells.length)
    (few : m < myCells.length)
    (inRange : k * myCells.length + i + 1 + m ≤ 4 * myCells.length) :
    owned coders myCells i (k * myCells.length + i + 1 + m) =
      owned coders myCells i (k * myCells.length + i + 1) := by
  induction m with
  | zero => rfl
  | succ m ih =>
      have other : (k * myCells.length + i + 1 + m) % myCells.length ≠ i := by
        rw [Nat.add_assoc, Nat.add_assoc, Nat.mul_comm, Nat.mul_add_mod]
        rcases Nat.lt_or_ge (i + (1 + m)) myCells.length with low | high
        · rw [Nat.mod_eq_of_lt low]
          omega
        · rw [Nat.mod_eq_sub_mod high, Nat.mod_eq_of_lt (by omega)]
          omega
      rw [← Nat.add_assoc, owned_succ (by omega), if_neg other, Nat.add_zero]
      exact ih (by omega) (by omega)

/-- Before a field its cell owns the fields of the earlier passes. -/
theorem owned_rank {i k : Nat} (inside : i < myCells.length) (pass : k < 4) :
    owned coders myCells i (k * myCells.length + i) = bitsBefore coders myCells i k := by
  induction k with
  | zero =>
      have none : ∀ r ≤ i, owned coders myCells i r = 0 := by
        intro r
        induction r with
        | zero => simp [owned]
        | succ r ih =>
            intro below
            rw [owned_succ (by omega), ih (by omega), Nat.mod_eq_of_lt (by omega), if_neg (by omega)]
      simpa [bitsBefore] using none i (Nat.le_refl i)
  | succ k ih =>
      have far := rank_lt inside pass
      have split : (k + 1) * myCells.length + i =
          k * myCells.length + i + 1 + (myCells.length - 1) := by
        rw [Nat.add_mul]
        omega
      rw [split] at far ⊢
      rw [owned_skip inside (by omega) (by omega),
        owned_succ (rank_lt inside (by omega)), rank_mod inside, if_pos rfl, ih (by omega),
        bitsBefore_succ]

variable (coders) in
/-- Each bit of a field has the meta of the field. -/
theorem streamMetas_at {r t : Nat} (inRange : r < 4 * myCells.length)
    (inside : t < (fieldOf coders myCells r).length) :
    (streamMetas coders myCells)[Layout.start (fields coders myCells) r + t]? =
      some (rankMeta myCells.length r) := by
  rw [← start_metaFields, ← List.getElem?_drop, streamMetas,
    Layout.drop_start_of_field (metaFields_at inRange), List.getElem?_append_left (by simpa using inside)]
  simp [inside]

/-- All metas are of cells in the table. -/
theorem mem_streamMetas {m : SerializeMetaData} (member : m ∈ streamMetas coders myCells) :
    ∃ i < myCells.length, m.cellId = some i := by
  obtain ⟨metas, field, inside⟩ := List.mem_flatten.mp member
  obtain ⟨r, inRange, rfl⟩ := List.mem_map.mp field
  have inRange := List.mem_range.mp inRange
  rw [(List.mem_replicate.mp inside).2]
  exact ⟨r % myCells.length, Nat.mod_lt _ (by omega), rfl⟩

variable (coders) in
/-- The fields of a cell are short. -/
theorem fieldBits_length_le (valid : StorableCells myCells) {i : Nat} {myCell : MyCell}
    (look : myCells[i]? = some myCell) :
    (myCell.fieldBits coders myCells.length i .d1).length ≤ 45 ∧
      (myCell.fieldBits coders myCells.length i .dataSize).length ≤ 45 ∧
      (myCell.fieldBits coders myCells.length i .refs).length ≤ 256 ∧
      (myCell.fieldBits coders myCells.length i .data).length ≤ 1023 := by
  have member := List.mem_of_getElem? look
  obtain ⟨few, _⟩ := valid.cntRefs myCell member
  have small := (valid.cntBits myCell member).1
  refine ⟨coders.d1_usable.short _ (valid.d1_lt look).2, coders.dataSize_usable.short _ (by omega),
    ?_, ?_⟩
  · have short := lenInBits_le (myCells.length - 1)
    have count : (myCell.refs.take myCell.cntRefs).length ≤ 4 := by
      rw [List.length_take]
      omega
    have total : ((myCell.refs.take myCell.cntRefs).flatMap (refBits myCells.length i)).length =
        (myCell.refs.take myCell.cntRefs).length * lenInBits (myCells.length - 1) := by
      simp [refBits, List.length_flatMap]
    rw [MyCell.fieldBits, total]
    exact Nat.mul_le_mul count short
  · rw [MyCell.fieldBits, valid.length_dataBits look]
    exact small

variable (coders) in
/-- A cell has at most 1369 bits. -/
theorem bitsBefore_le (valid : StorableCells myCells) {i k : Nat} (inside : i < myCells.length)
    (passes : k ≤ 4) : bitsBefore coders myCells i k ≤ 1369 := by
  obtain ⟨myCell, look⟩ : ∃ myCell, myCells[i]? = some myCell := ⟨_, List.getElem?_eq_getElem inside⟩
  obtain ⟨first, second, third, fourth⟩ := fieldBits_length_le coders valid look
  have grows : Monotone (bitsBefore coders myCells i) := monotone_nat_of_le_succ fun k => by
    rw [bitsBefore_succ]
    omega
  apply (grows passes).trans
  simp only [bitsBefore_succ, fieldOf_rank look, passType]
  simp only [bitsBefore, List.range_zero, List.map_nil, List.sum_nil]
  omega

/-- The offset within its cell of a bit of a field. -/
theorem offsets_at (valid : StorableCells myCells) {i k t : Nat} (inside : i < myCells.length)
    (pass : k < 4) (within : t < (fieldOf coders myCells (k * myCells.length + i)).length) :
    (buildOffsetsWithinCells (streamMetas coders myCells))[
      Layout.start (fields coders myCells) (k * myCells.length + i) + t]? =
        some (bitsBefore coders myCells i k + t) := by
  have inRange := rank_lt inside pass
  have look := streamMetas_at coders inRange within
  have count : ((streamMetas coders myCells).take
      (Layout.start (fields coders myCells) (k * myCells.length + i) + t)).countP
      (fun other => other.cellId = some i) = bitsBefore coders myCells i k + t := by
    rw [← owned_rank inside pass, owned, List.take_add, ← start_metaFields, streamMetas,
      Layout.take_start, Layout.drop_start_of_field (metaFields_at inRange), List.countP_append,
      List.take_append_of_le_length (by simp; omega)]
    simp [rankMeta_rank inside, List.countP_replicate]
    omega
  have owner : (rankMeta myCells.length (k * myCells.length + i)).cellId = some i := by
    rw [rankMeta_rank inside]
  have small := bitsBefore_le coders valid inside (k := k + 1) (by omega)
  rw [bitsBefore_succ] at small
  rw [buildOffsetsWithinCells, offsetsLoop_at look owner, count, Nat.zero_add,
    Nat.mod_eq_of_lt (by omega)]

end Offsets

end CellBag.Serializator
