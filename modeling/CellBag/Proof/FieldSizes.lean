import CellBag.Proof.Fields

/-!
The sizes of `my_cells_to_bit_str` for any tables: the buffer holds the bits and the counters hold the
offsets.
-/

namespace CellBag.Serializator
open BitString Huffman

section Sizes
variable {tables : Tables} (coders : Coders tables) {myCells : List MyCell}

/-- The fields of a pass, each with a bounded number of bits. -/
theorem length_pass_le {k bound : Nat}
    (short : ∀ (i : Nat) (myCell : MyCell), myCells[i]? = some myCell →
      (myCell.fieldBits coders myCells.length i (passType k)).length ≤ bound) :
    ((List.range myCells.length).flatMap fun i =>
      fieldOf coders myCells (k * myCells.length + i)).length ≤ myCells.length * bound := by
  rw [List.length_flatMap]
  have most := List.sum_le_card_nsmul
    ((List.range myCells.length).map fun i =>
      (fieldOf coders myCells (k * myCells.length + i)).length) bound (by
      intro length member
      obtain ⟨i, inRange, rfl⟩ := List.mem_map.mp member
      have look := List.getElem?_eq_getElem (List.mem_range.mp inRange)
      rw [fieldOf_rank look]
      exact short i _ look)
  rwa [List.length_map, List.length_range, smul_eq_mul] at most

/-- The stream, pass by pass and cell by cell. -/
theorem streamBits_eq : streamBits coders myCells = (List.range 4).flatMap fun k =>
    (List.range myCells.length).flatMap fun i => fieldOf coders myCells (k * myCells.length + i) := by
  rw [streamBits, fields, ← List.flatMap_def, Layout.flatMap_range_mul]

/-- The data of each cell is part of the stream. -/
theorem cntBits_le_streamBits (valid : StorableCells myCells) {myCell : MyCell} (member : myCell ∈ myCells) :
    myCell.cntBits ≤ (streamBits coders myCells).length := by
  obtain ⟨i, look⟩ := List.getElem?_of_mem member
  have inside := (List.getElem?_eq_some_iff.mp look).1
  have field : fieldOf coders myCells (3 * myCells.length + i) ∈ fields coders myCells :=
    List.mem_of_getElem? (fields_at (by omega))
  have part := (List.sublist_flatten_of_mem field).length_le
  rw [fieldOf_rank look] at part
  exact (valid.length_dataBits look).symm.trans_le part

/-- The bits of all cells. -/
theorem length_streamBits_le (valid : StorableCells myCells) :
    (streamBits coders myCells).length ≤ myCells.length * 1369 := by
  have short {i : Nat} {myCell : MyCell} (look : myCells[i]? = some myCell) :=
    fieldBits_length_le coders valid look
  have first := length_pass_le coders (k := 0) fun i myCell look => (short look).1
  have second := length_pass_le coders (k := 1) fun i myCell look => (short look).2.1
  have third := length_pass_le coders (k := 2) fun i myCell look => (short look).2.2.1
  have fourth := length_pass_le coders (k := 3) fun i myCell look => (short look).2.2.2
  rw [streamBits_eq]
  simp only [List.range_succ, List.range_zero, List.nil_append, List.flatMap_append,
    List.flatMap_singleton, List.length_append]
  omega

/-- An `int` counts the bits of cells that can be sent. -/
theorem streamBits_lt (valid : ValidCells myCells) : (streamBits coders myCells).length < 2 ^ 31 := by
  have total := length_streamBits_le coders valid.storable
  have few : myCells.length < 2 ^ 20 := valid.few
  omega

/-- The marked bytes of the stream are read as the stream. -/
theorem bytesStrToBitStr_streamBits (valid : ValidCells myCells) :
    bytesStrToBitStr (markedBytes (streamBits coders myCells)) true = some (streamBits coders myCells) :=
  bytesStrToBitStr_markedBytes ((streamBits_lt coders valid).trans (by decide))

/-- The bits of a cell in all passes. -/
theorem countP_streamMetas {i : Nat} (inside : i < myCells.length) :
    (streamMetas coders myCells).countP (fun m => m.cellId = some i) =
      bitsBefore coders myCells i 4 := by
  have all : owned coders myCells i (4 * myCells.length) =
      (streamMetas coders myCells).countP fun m => m.cellId = some i := by
    rw [owned, List.take_of_length_le (by simp [metaFields]), streamMetas]
  have last := rank_lt inside (show 3 < 4 by omega)
  have rest : 4 * myCells.length = 3 * myCells.length + i + 1 + (myCells.length - 1 - i) := by omega
  rw [← all, rest, owned_skip inside (by omega) (by omega), owned_succ last, rank_mod inside,
    if_pos rfl, owned_rank inside (by omega)]
  exact (bitsBefore_succ i 3).symm

/-- Each bit with its meta: the bits of the fields of the four passes, labelled with their fields. -/
theorem zip_streamMetas :
    (streamBits coders myCells).zip (streamMetas coders myCells) =
      [FieldType.d1, .dataSize, .refs, .data].flatMap fun fieldType =>
        myCells.zipIdx.flatMap fun entry =>
          (entry.1.fieldBits coders myCells.length entry.2 fieldType).map fun bit =>
            (bit, ⟨some entry.2, fieldType⟩) := by
  have passes : [FieldType.d1, .dataSize, .refs, .data] = (List.range 4).map passType := rfl
  rw [streamBits, streamMetas, fields, metaFields, ← List.flatMap_def, ← List.flatMap_def,
    Layout.zip_labels, Layout.flatMap_range_mul, passes, List.flatMap_map]
  congr 1
  funext k
  apply Layout.flatMap_zipIdx
  intro i myCell look
  have inside := (List.getElem?_eq_some_iff.mp look).1
  rw [fieldOf_rank look, rankMeta_rank inside]

/-- No cell has as many bits as a `uint16_t` cannot count. -/
theorem countP_streamMetas_lt (valid : StorableCells myCells) {i : Nat} (inside : i < myCells.length) :
    (streamMetas coders myCells).countP (fun m => m.cellId = some i) < 2 ^ 16 := by
  have small := bitsBefore_le coders valid inside (Nat.le_refl 4)
  rw [countP_streamMetas coders inside]
  omega

/-- The offsets within the cells are not truncated. -/
theorem offsets_streamMetas (valid : StorableCells myCells) {k i : Nat} {m : SerializeMetaData}
    (look : (streamMetas coders myCells)[k]? = some m) (owner : m.cellId = some i) :
    (buildOffsetsWithinCells (streamMetas coders myCells))[k]? =
      some (((streamMetas coders myCells).take k).countP fun other => other.cellId = some i) := by
  obtain ⟨_, inside, same⟩ := mem_streamMetas (List.mem_of_getElem? look)
  obtain rfl := Option.some.inj (owner.symm.trans same)
  have fewer : ((streamMetas coders myCells).take k).countP (fun other => other.cellId = some i) ≤
      (streamMetas coders myCells).countP fun other => other.cellId = some i :=
    (List.take_sublist k _).countP_le
  have small := countP_streamMetas_lt coders valid inside
  rw [buildOffsetsWithinCells, offsetsLoop_at look owner, Nat.zero_add,
    Nat.mod_eq_of_lt (Nat.lt_of_le_of_lt fewer small)]

end Sizes

/-- The tables with any frequencies for `d1` and the data sizes. -/
def tablesOf (d1Freq dataSizeFreq : List Nat) : Tables := { sourceTables with d1Freq, dataSizeFreq }

/-- Coders are built from any two tables that are long enough and fit. -/
theorem exists_coders {d1Freq dataSizeFreq : List Nat} (d1Long : 13 ≤ d1Freq.length)
    (d1Fits : sumFreq d1Freq < 2 ^ 32) (dataSizeLong : 1024 ≤ dataSizeFreq.length)
    (dataSizeFits : sumFreq dataSizeFreq < 2 ^ 32) : Nonempty (Coders (tablesOf d1Freq dataSizeFreq)) := by
  obtain ⟨others⟩ := sourceTables_valid.coders
  obtain ⟨d1, d1Built, d1Usable⟩ := usable_of_sum (by omega) d1Long d1Fits
  obtain ⟨dataSize, dataSizeBuilt, dataSizeUsable⟩ := usable_of_sum (by omega) dataSizeLong dataSizeFits
  exact ⟨{ others with
    d1, dataSize
    d1_built := d1Built
    dataSize_built := dataSizeBuilt
    d1_usable := d1Usable
    dataSize_usable := dataSizeUsable }⟩

/-- The bits of the cells fit into their buffer and its offset, each stored ref and each offset within
a cell fits into its width, and the metas name the field of each bit. -/
theorem myCellsToBitStr_sizes (d1Freq dataSizeFreq : List Nat) (d1Long : 13 ≤ d1Freq.length)
    (d1Fits : sumFreq d1Freq < 2 ^ 32) (dataSizeLong : 1024 ≤ dataSizeFreq.length)
    (dataSizeFits : sumFreq dataSizeFreq < 2 ^ 32) (myCells : List MyCell)
    (valid : StorableCells myCells) (few : myCells.length < 2 ^ 20) :
    ∃ (coders : Coders (tablesOf d1Freq dataSizeFreq)) (writer : Writer) (output : List UInt8)
      (metas : List SerializeMetaData) (bits : List Bool),
      myCellsToBits (tablesOf d1Freq dataSizeFreq) myCells = some writer ∧
      writer.ptr.size =
        8 * (50 + myCells.length + myCells.length * 4 * 3 + myCells.length * 256) ∧
      writer.ptr.offs ≤ writer.ptr.size ∧ writer.ptr.offs < 2 ^ 31 ∧
      myCellsToBitStr (tablesOf d1Freq dataSizeFreq) myCells = some (output, metas) ∧
      bytesStrToBitStr output true = some bits ∧ writer.ptr.offs = bits.length + 1 ∧
      metas.length = bits.length ∧
      bits.zip metas = ([FieldType.d1, .dataSize, .refs, .data].flatMap fun fieldType =>
        myCells.zipIdx.flatMap fun entry =>
          (entry.1.fieldBits coders myCells.length entry.2 fieldType).map fun bit =>
            (bit, ⟨some entry.2, fieldType⟩)) ∧
      (∀ i < myCells.length, metas.countP (fun m => m.cellId = some i) < 2 ^ 16) ∧
      (∀ (k i : Nat) (m : SerializeMetaData), metas[k]? = some m → m.cellId = some i →
        (buildOffsetsWithinCells metas)[k]? =
          some ((metas.take k).countP fun other => other.cellId = some i)) ∧
      ∀ (i : Nat) (myCell : MyCell), myCells[i]? = some myCell →
        ∀ ref ∈ myCell.refs.take myCell.cntRefs,
          (myCells.length + i - ref) % myCells.length - 1 < 2 ^ lenInBits (myCells.length - 1) := by
  obtain ⟨coders⟩ := exists_coders d1Long d1Fits dataSizeLong dataSizeFits
  have short := length_streamBits_le coders valid
  refine ⟨coders, _, _, _, _, myCellsToBits_eq coders valid, rfl, ?_, ?_, myCellsToBitStr_eq coders valid,
    bytesStrToBitStr_markedBytes (by omega), ?_, length_streamMetas, zip_streamMetas coders,
    fun i inside => countP_streamMetas_lt coders valid inside,
    fun k i m look owner => offsets_streamMetas coders valid look owner,
    fun i myCell _ ref _ => refStore_lt few valid.nonempty⟩
  · simp only [BitPtr.push_offs, BitPtr.push_size, BitPtr.start_offs, BitPtr.start_size,
      List.length_append, List.length_singleton]
    omega
  · simp only [BitPtr.push_offs, BitPtr.start_offs, List.length_append, List.length_singleton]
    omega
  · simp only [BitPtr.push_offs, BitPtr.start_offs, List.length_append, List.length_singleton]
    omega

/-- A cell with a ref to an empty one. -/
def pairOfCells : List MyCell :=
  [⟨1, [1, 0, 0, 0], [], false, [128], 1⟩, ⟨0, [0, 0, 0, 0], [], false, [], 0⟩]

theorem pairOfCells_storable : StorableCells pairOfCells where
  nonempty := by decide
  cntRefs := by simp [pairOfCells]
  cntBits := by simp [pairOfCells]
  refs := by
    intro i myCell look
    match i with
    | 0 =>
        obtain rfl := Option.some.inj look
        simp [pairOfCells]
    | 1 =>
        obtain rfl := Option.some.inj look
        simp
    | i + 2 => simp [pairOfCells] at look

theorem myCellsToBitStr_sizes_pair : 13 ≤ d1Freq.length ∧ sumFreq d1Freq < 2 ^ 32 ∧
    1024 ≤ dataSizeFreq.length ∧ sumFreq dataSizeFreq < 2 ^ 32 ∧ StorableCells pairOfCells ∧
    pairOfCells.length < 2 ^ 20 ∧
    ∃ (coders : Coders (tablesOf d1Freq dataSizeFreq)) (writer : Writer) (output : List UInt8)
      (metas : List SerializeMetaData) (bits : List Bool),
      myCellsToBits (tablesOf d1Freq dataSizeFreq) pairOfCells = some writer ∧
      writer.ptr.size =
        8 * (50 + pairOfCells.length + pairOfCells.length * 4 * 3 + pairOfCells.length * 256) ∧
      writer.ptr.offs ≤ writer.ptr.size ∧ writer.ptr.offs < 2 ^ 31 ∧
      myCellsToBitStr (tablesOf d1Freq dataSizeFreq) pairOfCells = some (output, metas) ∧
      bytesStrToBitStr output true = some bits ∧ writer.ptr.offs = bits.length + 1 ∧
      metas.length = bits.length ∧
      bits.zip metas = ([FieldType.d1, .dataSize, .refs, .data].flatMap fun fieldType =>
        pairOfCells.zipIdx.flatMap fun entry =>
          (entry.1.fieldBits coders pairOfCells.length entry.2 fieldType).map fun bit =>
            (bit, ⟨some entry.2, fieldType⟩)) ∧
      (∀ i < pairOfCells.length, metas.countP (fun m => m.cellId = some i) < 2 ^ 16) ∧
      (∀ (k i : Nat) (m : SerializeMetaData), metas[k]? = some m → m.cellId = some i →
        (buildOffsetsWithinCells metas)[k]? =
          some ((metas.take k).countP fun other => other.cellId = some i)) ∧
      ∀ (i : Nat) (myCell : MyCell), pairOfCells[i]? = some myCell →
        ∀ ref ∈ myCell.refs.take myCell.cntRefs,
          (pairOfCells.length + i - ref) % pairOfCells.length - 1 <
            2 ^ lenInBits (pairOfCells.length - 1) := by
  have d1 := sourceTables_valid.d1
  have dataSize := sourceTables_valid.dataSize
  have d1Light : sumFreq d1Freq < 2 ^ 32 := d1.light.trans (by decide)
  have dataSizeLight : sumFreq dataSizeFreq < 2 ^ 32 := dataSize.light.trans (by decide)
  exact ⟨d1.long, d1Light, dataSize.long, dataSizeLight, pairOfCells_storable, by decide,
    myCellsToBitStr_sizes d1Freq dataSizeFreq d1.long d1Light dataSize.long dataSizeLight pairOfCells
      pairOfCells_storable (by decide)⟩

end CellBag.Serializator
