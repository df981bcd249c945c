import CellBag.Proof.BagRebuild
import CellBag.Proof.Overflow

/-!
The round trip of a bag of cells through `serialize` and `deserialise`.
-/

namespace CellBag.Serializator
open BitString Huffman

section Told
variable {cells : List Cell} {myCells : List MyCell}

/-- The told cells behind the last field number the same cells. -/
theorem Numbering.told (numbering : Numbering cells myCells) (valid : ValidCells myCells) :
    Numbering cells (cellsAt myCells (4 * myCells.length)) := by
  have same := cellsAt_same valid
  apply OptionList.forall₂_of_getElem? (same.length_eq.trans numbering.length_eq)
  intro i told cell inTold inCells
  obtain ⟨myCell, look, fields⟩ := OptionList.forall₂_getElem? same inTold
  obtain ⟨_, inCells', holds, ids, used, related⟩ := OptionList.forall₂_getElem? numbering look
  obtain rfl := Option.some.inj (inCells.symm.trans inCells')
  have inside := (List.getElem?_eq_some_iff.mp look).1
  have done (pass : Nat) (small : pass < 4) : Done myCells.length (4 * myCells.length) pass i := by
    have rounds := Nat.mul_le_mul_right myCells.length (show pass ≤ 3 by omega)
    rw [Done]
    omega
  have entry := cellsAt_look (r := 4 * myCells.length) look
  obtain rfl := Option.some.inj (inTold.symm.trans entry)
  have size := fields.dataBits
  rw [MyCell.dataBits, MyCell.dataBits, holds.data] at size
  have room := (valid.cntRefs _ (List.mem_of_getElem? look)).2
  refine ⟨⟨fields.cntRefs.trans holds.cntRefs, fields.isSpecial.trans holds.isSpecial,
    fields.cntBits.trans holds.cntBits, ?_, size⟩, ids, ?_, related⟩
  · simp [cellAt, done]
  · have long : (cellAt myCells.length (4 * myCells.length) i myCell).cntRefs ≤
        (cellAt myCells.length (4 * myCells.length) i myCell).refs.length := by
      simp only [cellAt, done, Nat.reduceLT, if_true, List.length_append, List.length_take]
      omega
    rw [MyCell.usedRefs, if_pos long, fields.refs, ← used, MyCell.usedRefs, if_pos room]

end Told

/-- The runs of `serialize`: the bits that it hands over, the stores of `run_lz`, and its output if they all stay
inside `output_bytes`. -/
structure Serialized (root : Cell) (bits : List Bool) (ptr : BitPtr) : Prop where
  handed : ∃ metas, serializeBits sourceTables root = some (bits, metas) ∧
    runLzBits sourceTables bits metas = some ptr
  size : ptr.size = 8 * ((bits.length / 8 + 1) * 4 / 3)
  written : serialize sourceTables root = if ptr.inside = true then some (storedBytes ptr) else none

/-- `deserialise` reads numbered cells of the bag from the stored bytes, and all bits into `out_bytes` if they fit. -/
theorem serialized_spec {root : Cell} (coherent : root.Coherent)
    (valid : ∀ cell, root.Reaches cell → cell.Valid) : ∃ cells, Flattened root cells ∧
      (cells.length < 2 ^ BITS_FOR_N_CELLS → ∃ newCells bits ptr reader parser,
        Serialized root bits ptr ∧ newCells.Perm cells ∧ Numbering newCells parser.myCells ∧
        bits.length ≤ cells.length * 1147 ∧
        readLz sourceTables (storedBytes ptr) = some (reader, parser, reader.lzCntBits) ∧
        (parser.outBits.inside = true ↔ bits.length ≤ 16 * (storedBytes ptr).length)) := by
  obtain ⟨coders⟩ := sourceTables_valid.coders
  obtain ⟨cells, newCells, myCells, flattened, same, numbering, handed⟩ :=
    serializeBits_spec coders coherent valid
  refine ⟨cells, flattened, fun few => ?_⟩
  obtain ⟨sent, run⟩ := handed few
  have count : myCells.length = cells.length := numbering.length_eq.trans same.length_eq
  obtain ⟨ptr, stored, size, -, bytes, -⟩ := runLzBits_inside coders sent.toWritableCells
  obtain ⟨reader, parser, read, -, told, -, room⟩ :=
    readLz_room sent (greedyTokens_parses (streamBits coders myCells))
  rw [← bytes] at read room
  refine ⟨newCells, _, ptr, reader, parser, ⟨⟨_, run, stored⟩, size, ?_⟩, same,
    told ▸ numbering.told sent, count ▸ length_streamBits_sent_le coders sent, read, room⟩
  rw [serialize_eq run, runLz, stored, Option.bind_eq_bind, Option.bind_some, lzOutput_eq]

section Bag
variable {library : CellLibrary} {original : LevelZero} {root : Cell} {cells newCells : List Cell}

/-- What `deserialise` makes of the read cells of a bag. -/
theorem Bag.deserialise_iff {reader : LzReader} {parser : Parser} {lz : List UInt8} {offs : Nat}
    (bag : Bag original root) (rebuilds : Rebuilds library original root)
    (flattened : Flattened root cells) (same : newCells.Perm cells)
    (numbering : Numbering newCells parser.myCells)
    (read : readLz sourceTables lz = some (reader, parser, offs)) :
    deserialise library sourceTables lz = some root.toVm ↔
      parser.outBits.inside = true ∧ DepthsFit root cells.length := by
  have rebuilt := bag.rebuilt_iff rebuilds numbering (same.nodup_iff.mpr flattened.cells_nodup)
    fun cell => same.mem_iff.trans (flattened.mem_iff cell)
  rw [numbering.length_eq, same.length_eq] at rebuilt
  rw [deserialise, read, Option.bind_eq_bind, Option.bind_some, ← rebuilt]
  dsimp only
  rw [check]
  split_ifs with inside
  · rw [inside]
    exact (and_iff_right rfl).symm
  · simp [inside]

end Bag

/-- `serialize` has an output exactly if its stores stay inside `output_bytes`, and `deserialise` rebuilds the root
from that exactly if the bits fit into `out_bytes` and there is no Merkle cell or the number of cells has two
bytes. -/
theorem deserialise_serialize_iff {library : CellLibrary} {original : LevelZero} {root : Cell}
    (bag : Bag original root) (rebuilds : Rebuilds library original root) :
    ∃ cells, Flattened root cells ∧ (cells.length < 2 ^ BITS_FOR_N_CELLS → ∃ bits ptr,
      Serialized root bits ptr ∧ ∀ lz, serialize sourceTables root = some lz →
        (deserialise library sourceTables lz = some root.toVm ↔
          bits.length ≤ 16 * lz.length ∧ DepthsFit root cells.length)) := by
  obtain ⟨cells, flattened, runs⟩ := serialized_spec bag.coherent bag.valid
  refine ⟨cells, flattened, fun few => ?_⟩
  obtain ⟨newCells, bits, ptr, reader, parser, serialized, same, numbering, -, read, room⟩ := runs few
  refine ⟨bits, ptr, serialized, fun lz written => ?_⟩
  rw [serialized.written] at written
  split_ifs at written
  obtain rfl := Option.some.inj written
  rw [bag.deserialise_iff rebuilds flattened same numbering read, room]

/-- The plain library rebuilds all cells. -/
theorem plainLibrary_rebuilds (root : Cell) : Rebuilds plainLibrary zeroLevel root where
  hash _ _ := rfl
  depth _ _ := rfl
  builds cell _ := by
    rw [Cell.toVm_eq]
    rfl
  stored _ _ _ _ built := (Option.some.inj built).symm

/-- A bag of one ordinary cell has no Merkle cell. -/
theorem leaf_plain {bits : List Bool} {cell : Cell} (reaches : (Cell.leaf bits).Reaches cell) :
    cell.isMerkle = false := by
  rw [Cell.leaf_reaches reaches]
  rfl

/-- One ordinary cell is a bag. -/
theorem leaf_bag {bits : List Bool} (short : bits.length ≤ 1023) : Bag zeroLevel (Cell.leaf bits) where
  coherent := Cell.leaf_coherent bits
  valid := Cell.leaf_valid short
  merkle := by
    intro cell reaches merkle
    rw [leaf_plain reaches] at merkle
    cases merkle

/-- Without a Merkle cell no depth is stored. -/
theorem leaf_fits (bits : List Bool) (nCells : Nat) : DepthsFit (Cell.leaf bits) nCells := by
  rintro ⟨cell, reaches, merkle⟩
  rw [leaf_plain reaches] at merkle
  cases merkle

/-- The leaf of bytes is a bag. -/
theorem bytesLeaf_bag : Bag zeroLevel bytesLeaf := leaf_bag (by decide)

/-- Its output is read back. -/
theorem deserialise_serialize_iff_bytes : ∃ lz, serialize sourceTables bytesLeaf = some lz ∧
    deserialise plainLibrary sourceTables lz = some bytesLeaf.toVm := by
  obtain ⟨bits, metas, lz, handed, written, room⟩ := bytesLeaf_written
  obtain ⟨cells, flattened, runs⟩ := deserialise_serialize_iff bytesLeaf_bag (plainLibrary_rebuilds bytesLeaf)
  obtain rfl := flattened.eq_single fun cell => Cell.leaf_reaches
  obtain ⟨_, ptr, ⟨⟨_, handed', -⟩, -, -⟩, returned⟩ := runs (by decide)
  obtain ⟨rfl, -⟩ := Prod.mk.inj (Option.some.inj (handed.symm.trans handed'))
  exact ⟨lz, written, (returned lz written).mpr ⟨room, leaf_fits _ _⟩⟩

/-- `deserialise` asks for no order of the cells and for no parse of the bits: whatever order `apply_order` is
given, and however `run_lz` cuts the bits into literals and matches, it rebuilds the root exactly if the output fits
into `output_bytes` and the bits into `out_bytes`, and there is no Merkle cell or the number of cells has two
bytes. -/
theorem deserialise_any_parse_iff {library : CellLibrary} {original : LevelZero} {root : Cell}
    (bag : Bag original root) (rebuilds : Rebuilds library original root) :
    ∃ cells myCells, Flattened root cells ∧ convertToMyCells root = some myCells ∧
      (cells.length < 2 ^ BITS_FOR_N_CELLS → ∀ order, order.Perm (List.range cells.length) →
        ∃ newMyCells output metas bits context, applyOrder myCells order = some newMyCells ∧
          myCellsToBitStr sourceTables newMyCells = some (output, metas) ∧
          bytesStrToBitStr output true = some bits ∧
          LzContext.build sourceTables bits metas = some context ∧
          ∀ tokens, Parses bits 0 tokens → ∃ ptr, context.runTokens tokens = some ptr ∧
            ((lzOutput ptr).bind (deserialise library sourceTables) = some root.toVm ↔
              ptr.inside = true ∧ bits.length ≤ 16 * (storedBytes ptr).length ∧
                DepthsFit root cells.length)) := by
  obtain ⟨coders⟩ := sourceTables_valid.coders
  obtain ⟨cells, myCells, converted, flattened, -, -, count, reorders⟩ :=
    reordered_spec bag.coherent bag.valid
  refine ⟨cells, myCells, flattened, converted, fun few order perm => ?_⟩
  obtain ⟨newCells, newMyCells, applied, same, numbering, writable⟩ := reorders order perm
  have sent : ValidCells newMyCells :=
    ⟨writable, (numbering.length_eq.trans same.length_eq).symm ▸ few⟩
  refine ⟨newMyCells, _, _, _, lzContext coders newMyCells, applied,
    myCellsToBitStr_eq coders writable.storable, bytesStrToBitStr_streamBits coders sent, build_eq writable,
    fun tokens parses => ⟨_, runTokens_eq writable parses, ?_⟩⟩
  obtain ⟨reader, parser, read, -, told, -, room⟩ := readLz_room sent parses
  rw [lzOutput_eq, storedBytes_eq]
  split_ifs with inside
  · rw [Option.bind_some, bag.deserialise_iff rebuilds flattened same (told ▸ numbering.told sent) read, room,
      inside]
    exact (and_iff_right rfl).symm
  · simp [inside]

/-- The shared bag is one. -/
theorem sharedRoot_bag : Bag zeroLevel sharedRoot where
  coherent := sharedRoot_coherent
  valid _ reaches := sharedRoot_valid reaches
  merkle := by
    intro cell reaches merkle
    rw [sharedRoot_plain reaches] at merkle
    cases merkle

/-- Its three cells are flattened once each, although there are four refs. -/
theorem sharedRoot_count {cells : List Cell} (flattened : Flattened sharedRoot cells) : cells.length = 3 := by
  obtain ⟨others, myCells, converted, other, numbering⟩ :=
    convertToMyCells_spec sharedRoot_bag.coherent sharedRoot_bag.valid
  have count : (convertToMyCells sharedRoot).map List.length = some 3 := by decide +kernel
  rw [converted, Option.map_some, Option.some.injEq] at count
  rw [(flattened.perm other).length_eq, ← numbering.length_eq, count]

/-- It stores no depth. -/
theorem sharedRoot_fits (nCells : Nat) : DepthsFit sharedRoot nCells := by
  rintro ⟨cell, reaches, merkle⟩
  rw [sharedRoot_plain reaches] at merkle
  cases merkle

/-- In the order `[2, 0, 1]` the root comes second. -/
theorem sharedRoot_reordered : ((convertToMyCells sharedRoot).bind fun myCells =>
    applyOrder myCells [2, 0, 1]).map (List.map MyCell.cntBits) = some [4, 88, 3] := by decide +kernel

/-- The shared bag comes back in another order than that of `initial_cell_order`, written as one literal. -/
theorem deserialise_any_parse_iff_shared :
    ∃ myCells newMyCells output metas bits context ptr lz, convertToMyCells sharedRoot = some myCells ∧
      applyOrder myCells [2, 0, 1] = some newMyCells ∧
      myCellsToBitStr sourceTables newMyCells = some (output, metas) ∧
      bytesStrToBitStr output true = some bits ∧
      LzContext.build sourceTables bits metas = some context ∧ context.runTokens [] = some ptr ∧
      lzOutput ptr = some lz ∧ deserialise plainLibrary sourceTables lz = some sharedRoot.toVm := by
  obtain ⟨coders⟩ := sourceTables_valid.coders
  have sizes := sharedRoot_reordered
  obtain ⟨_, _, converted, listed, -, -, -, reorders⟩ :=
    reordered_spec sharedRoot_bag.coherent sharedRoot_bag.valid
  obtain ⟨cells, myCells, flattened, converted', runs⟩ :=
    deserialise_any_parse_iff sharedRoot_bag (plainLibrary_rebuilds sharedRoot)
  obtain rfl := Option.some.inj (converted.symm.trans converted')
  obtain ⟨newCells, newMyCells, applied, -, numbering, writable⟩ :=
    reorders [2, 0, 1] (by rw [sharedRoot_count listed]; decide)
  obtain ⟨newMyCells, output, metas, bits, context, applied', stored, loaded, built, parsed⟩ :=
    runs (by rw [sharedRoot_count flattened]; decide) [2, 0, 1] (by rw [sharedRoot_count flattened]; decide)
  obtain rfl := Option.some.inj (applied.symm.trans applied')
  rw [converted, Option.bind_some, applied, Option.map_some, Option.some.injEq] at sizes
  have sent : ValidCells newMyCells := by
    refine ⟨writable, ?_⟩
    rw [← List.length_map MyCell.cntBits, sizes]
    decide
  obtain ⟨rfl, rfl⟩ := Prod.mk.inj
    (Option.some.inj (stored.symm.trans (myCellsToBitStr_eq coders writable.storable)))
  obtain rfl := Option.some.inj (loaded.symm.trans (bytesStrToBitStr_streamBits coders sent))
  obtain rfl := Option.some.inj (built.symm.trans (build_eq writable))
  obtain ⟨ptr, ran, returned⟩ := parsed [] (Nat.zero_le _)
  have long : 88 ≤ (streamBits coders newMyCells).length := by
    obtain ⟨myCell, member, size⟩ := List.mem_map.mp (show 88 ∈ newMyCells.map MyCell.cntBits by simp [sizes])
    exact size ▸ cntBits_le_streamBits coders writable.storable member
  obtain ⟨ptr', ran', -, -, bytes, inside⟩ :=
    @runTokens_inside _ coders _ writable [] (Nat.zero_le _)
  obtain rfl := Option.some.inj (ran.symm.trans ran')
  have fits := inside.mpr ((parseCost_nil_iff coders newMyCells).mpr (.inr long))
  have room : (streamBits coders newMyCells).length ≤ 16 * (storedBytes ptr).length := by
    have count : (streamBits coders newMyCells).length + 21 ≤
        8 * (markedBytes ((lzContext coders newMyCells).payload [])).length + 0 := le_length_lz (Nat.zero_le _)
    rw [bytes]
    omega
  have output := returned.mpr ⟨fits, room, sharedRoot_fits _⟩
  rw [lzOutput_eq, if_pos fits] at output
  exact ⟨_, newMyCells, _, _, _, _, ptr, _, converted, applied, stored, loaded, built, ran,
    (lzOutput_eq ptr).trans (if_pos fits), output⟩

end CellBag.Serializator
