import CellBag.Proof.Rebuild

/-!
Merkle cells: the dropped hashes and depths come back in their old form exactly in bags with a
two-byte number of cells.
-/

namespace CellBag.Serializator
open BitString

/-- The hash and the depth of a cell at level zero; a depth has 16 bits. -/
structure LevelZero where
  hash : Cell → List UInt8
  depth : Cell → Nat
  length_hash : ∀ cell, (hash cell).length = 256 / 8
  depth_lt : ∀ cell, depth cell < 2 ^ 16

/-- The bits of a Merkle cell: its type, the hashes, and the depths at some width. -/
def merkleBits (typeByte : Nat) (hashes : List (List UInt8)) (depths : List Nat) (width : Nat) :
    List Bool :=
  ofNat 8 typeByte ++ (hashes.flatMap ofBytes ++ depths.flatMap (ofNat width))

theorem length_merkleBits {hashes : List (List UInt8)} (whole : ∀ hash ∈ hashes, hash.length = 256 / 8)
    (typeByte : Nat) (depths : List Nat) (width : Nat) :
    (merkleBits typeByte hashes depths width).length =
      8 + (256 * hashes.length + width * depths.length) := by
  have hashBits : (hashes.flatMap ofBytes).length = 256 * hashes.length := by
    clear depths width
    induction hashes with
    | nil => rfl
    | cons hash hashes ih =>
        rw [List.flatMap_cons, List.length_append, length_ofBytes, whole hash (by simp),
          ih fun other member => whole other (by simp [member]), List.length_cons]
        omega
  simp [merkleBits, hashBits, List.length_flatMap, Nat.mul_comm]

/-- What a valid Merkle cell of the library is: one ref and type 3, or two refs and type 4, with the
hashes and depths of its refs. -/
structure MerkleCell (original : LevelZero) (cell : Cell) : Prop where
  shape : cell.typeByte = 3 ∧ cell.refs.length = 1 ∨ cell.typeByte = 4 ∧ cell.refs.length = 2
  bits : cell.bits = merkleBits cell.typeByte (cell.refs.map original.hash)
    (cell.refs.map original.depth) 16

/-- The stores of the hashes and depths append their bits. -/
theorem restoreMerkle_eq (library : CellLibrary) (nCells : Nat) {refs : List VmCell}
    (few : refs.length ≤ 2) {typeByte : Nat} (small : typeByte < 2 ^ 8) :
    let bits := merkleBits typeByte (refs.map library.getHash) (refs.map library.getDepth)
      (lenInBytes nCells * 8)
    restoreMerkle library nCells refs [UInt8.ofNat typeByte] 8 =
      some (toBytes (1 + 256 / 8 * 2 + 8 * lenInBytes nCells) bits, bits.length) ∧
      bits.length ≤ 8 * (1 + 256 / 8 * 2 + 8 * lenInBytes nCells) := by
  intro bits
  have length : bits.length ≤ 8 * (1 + 256 / 8 * 2 + 8 * lenInBytes nCells) := by
    rw [length_merkleBits (by simp [library.length_getHash])]
    simp only [List.length_map]
    have depths := Nat.mul_le_mul_left (lenInBytes nCells * 8) few
    omega
  have storeBytes (bytes : List UInt8) (ptr : BitPtr) :
      bytes.foldl (fun ptr byte => ptr.storeUint byte.toNat 8) ptr = ptr.push (ofBytes bytes) := by
    induction bytes generalizing ptr with
    | nil => simp
    | cons byte bytes ih =>
        rw [List.foldl_cons, ih, BitPtr.storeUint_eq_push, BitPtr.push_push, ofBytes_cons]
  have storeHashes (cells : List VmCell) (ptr : BitPtr) :
      cells.foldl (fun ptr ref => ptr.push (ofBytes (library.getHash ref))) ptr =
        ptr.push ((cells.map library.getHash).flatMap ofBytes) := by
    induction cells generalizing ptr with
    | nil => simp
    | cons ref cells ih =>
        rw [List.foldl_cons, ih, BitPtr.push_push, List.map_cons, List.flatMap_cons]
  have storeDepths (cells : List VmCell) (width : Nat) (ptr : BitPtr) :
      cells.foldl (fun ptr ref => ptr.storeUint (library.getDepth ref) width) ptr =
        ptr.push ((cells.map library.getDepth).flatMap (ofNat width)) := by
    induction cells generalizing ptr with
    | nil => simp
    | cons ref cells ih =>
        rw [List.foldl_cons, ih, BitPtr.storeUint_eq_push, BitPtr.push_push, List.map_cons,
          List.flatMap_cons]
  have type : ofBytes [UInt8.ofNat typeByte] = ofNat 8 typeByte := by
    rw [ofBytes_cons, ofBytes_nil, List.append_nil, UInt8.toNat_ofNat', Nat.mod_eq_of_lt small]
  refine ⟨?_, length⟩
  rw [restoreMerkle, check_of few, check_of (by simp), check_of rfl]
  simp only [Option.bind_eq_bind, Option.bind_some, storeBytes, storeHashes, storeDepths, type,
    BitPtr.push_push, List.append_assoc]
  have inside := (BitPtr.start_push_inside _ _).mpr length
  simp only [bits, merkleBits] at inside ⊢
  rw [check_of inside]
  simp

/-- A Merkle cell is handed to `store_bits` with the depths at the width of the number of cells. -/
theorem Holds.storedBits_merkle {myCell : MyCell} {cell : Cell} (holds : Holds myCell cell)
    (valid : cell.Valid) (merkle : cell.isMerkle = true) (library : CellLibrary) (nCells : Nat)
    {refs : List VmCell} (few : refs.length ≤ 2) :
    let bits := merkleBits cell.typeByte (refs.map library.getHash) (refs.map library.getDepth)
      (lenInBytes nCells * 8)
    ∃ data, storedBits library nCells myCell refs = some (data, bits.length) ∧
      bits.length ≤ 8 * data.length ∧ (ofBytes data).take bits.length = bits := by
  intro bits
  obtain ⟨cellType, typed, -, merkleType⟩ := valid.specialType
  have special : cell.isSpecial = true := by
    rw [Cell.isMerkle, Bool.and_eq_true] at merkle
    exact merkle.1
  have payload : cell.payload = ofNat 2 (cell.typeByte - 1) := by rw [Cell.payload, if_pos merkle]
  have two : myCell.cntBits = 2 := by rw [holds.cntBits, payload, length_ofNat]
  have small : cell.typeByte < 2 ^ 8 := by
    have last := (valid.typeByte special).2.2
    omega
  have restored := holds.restoreType valid special
  rw [two, payload, List.drop_eq_nil_of_le (by simp), List.append_nil] at restored
  have byte : toBytes ((2 + 6 + 7) / 8) (ofNat 8 cell.typeByte) = [UInt8.ofNat cell.typeByte] := by
    have whole : (ofNat 8 cell.typeByte).take 8 = ofNat 8 cell.typeByte :=
      List.take_of_length_le (by simp)
    simp [toBytes, whole, toByte, toNat_ofNat_of_lt small]
  rw [byte] at restored
  obtain ⟨stored, length⟩ := restoreMerkle_eq library nCells few small
  refine ⟨toBytes (1 + 256 / 8 * 2 + 8 * lenInBytes nCells) bits, ?_, by rwa [length_toBytes], ?_⟩
  · rw [storedBits, holds.getType valid, typed, holds.isSpecial, special, restored]
    simp only [if_true, Option.bind_eq_bind, Option.bind_some]
    rw [if_pos (merkleType.mpr merkle)]
    exact stored
  · rw [ofBytes_toBytes_of_le length, List.take_left]

theorem lenInBytes_eq_two {nCells : Nat} :
    lenInBytes nCells = 2 ↔ 256 ≤ nCells ∧ nCells < 65536 := by
  by_cases fits : nCells < 2 ^ 64
  · have short := lenInBits_le_iff fits (k := 8) (by decide)
    have long := lenInBits_le_iff fits (k := 16) (by decide)
    rw [lenInBytes]
    omega
  · have large : 64 ≤ nCells.log2 := by
      rw [Nat.le_log2 (by omega)]
      omega
    rw [lenInBytes, lenInBits, countLeadingZeroes64, if_neg (by omega)]
    omega

/-- In a bag with valid Merkle cells, flattened and reordered, the data of a Merkle cell with rebuilt
refs is its original data exactly when the bag has from 256 to 65535 cells. -/
theorem storedBits_merkle_iff (library : CellLibrary) (original : LevelZero) (root : Cell)
    (coherent : root.Coherent) (valid : ∀ cell, root.Reaches cell → cell.Valid)
    (merkle : ∀ cell, root.Reaches cell → cell.isMerkle = true → MerkleCell original cell) :
    ∃ cells myCells, convertToMyCells root = some myCells ∧ Flattened root cells ∧
      Numbering cells myCells ∧ ∀ order, order.Perm (List.range myCells.length) →
        ∃ newCells newMyCells, applyOrder myCells order = some newMyCells ∧
          newCells.Perm cells ∧ Numbering newCells newMyCells ∧
          ∀ (id : Nat) (myCell : MyCell) (cell : Cell), newMyCells[id]? = some myCell →
            newCells[id]? = some cell → cell.isMerkle = true → ∀ refs : List VmCell,
            List.Forall₂ (fun built ref => library.getHash built = original.hash ref ∧
              library.getDepth built = original.depth ref) refs cell.refs →
            ∃ data cntBits, storedBits library newMyCells.length myCell refs = some (data, cntBits) ∧
              cntBits ≤ 8 * data.length ∧
              (cntBits = cell.bits.length ∧ (ofBytes data).take cntBits = cell.bits ↔
                256 ≤ cells.length ∧ cells.length < 65536) := by
  obtain ⟨cells, myCells, converted, flattened, numbering⟩ := convertToMyCells_spec coherent valid
  refine ⟨cells, myCells, converted, flattened, numbering, fun order perm => ?_⟩
  obtain ⟨newCells, newMyCells, applied, reordered, newNumbering⟩ := applyOrder_spec numbering perm
  rw [numbering.length_eq] at perm
  have sameCells : newCells.Perm cells := reordered_perm perm reordered
  refine ⟨newCells, newMyCells, applied, sameCells, newNumbering, ?_⟩
  intro id myCell cell entry inCells isMerkle refs rebuilt
  have reaches : root.Reaches cell :=
    (flattened.mem_iff cell).mp (sameCells.mem_iff.mp (List.mem_of_getElem? inCells))
  obtain ⟨_, inCells', numbered⟩ := OptionList.forall₂_getElem? newNumbering entry
  obtain rfl := Option.some.inj (inCells.symm.trans inCells')
  obtain ⟨shape, bits⟩ := merkle cell reaches isMerkle
  have hashes : refs.map library.getHash = cell.refs.map original.hash := by
    rw [← List.forall₂_eq_eq_eq, List.forall₂_map_left_iff, List.forall₂_map_right_iff]
    exact rebuilt.imp fun _ _ same => same.1
  have depths : refs.map library.getDepth = cell.refs.map original.depth := by
    rw [← List.forall₂_eq_eq_eq, List.forall₂_map_left_iff, List.forall₂_map_right_iff]
    exact rebuilt.imp fun _ _ same => same.2
  have count := rebuilt.length_eq
  have whole : ∀ hash ∈ cell.refs.map original.hash, hash.length = 256 / 8 := by
    simp [original.length_hash]
  obtain ⟨data, stored, long, taken⟩ := numbered.holds.storedBits_merkle (valid cell reaches) isMerkle
    library newMyCells.length (show refs.length ≤ 2 by omega)
  rw [hashes, depths] at stored long taken
  refine ⟨data, _, stored, long, ?_⟩
  rw [taken, newNumbering.length_eq, sameCells.length_eq, ← lenInBytes_eq_two]
  constructor
  · rintro ⟨length, -⟩
    rw [bits, length_merkleBits whole, length_merkleBits whole] at length
    simp only [List.length_map] at length
    rcases shape with ⟨-, one⟩ | ⟨-, two⟩
    · rw [one] at length
      omega
    · rw [two] at length
      omega
  · intro two
    rw [two, ← bits]
    exact ⟨rfl, rfl⟩

/-- Zero hashes and depths, as the plain library has them. -/
def zeroLevel : LevelZero where
  hash _ := List.replicate 32 0
  depth _ := 0
  length_hash _ := by simp
  depth_lt _ := by decide

/-- A Merkle proof of one ordinary cell. -/
def proofRoot : Cell :=
  .mk 2 true (merkleBits 3 [List.replicate 32 0] [0] 16) [sharedLeaf]

theorem proofRoot_merkle : MerkleCell zeroLevel proofRoot :=
  ⟨.inl ⟨by decide +kernel, rfl⟩, by decide +kernel⟩

/-- In a bag of two cells the proof's 16-bit depth comes back with 8 bits. -/
theorem storedBits_merkle_ne :
    proofRoot.isMerkle = true ∧ MerkleCell zeroLevel proofRoot ∧
      plainLibrary.getHash sharedLeaf.toVm = zeroLevel.hash sharedLeaf ∧
      plainLibrary.getDepth sharedLeaf.toVm = zeroLevel.depth sharedLeaf ∧
      ((convertToMyCells proofRoot).bind fun myCells => (myCells[0]?).bind fun myCell =>
        (storedBits plainLibrary myCells.length myCell [sharedLeaf.toVm]).map Prod.snd) = some 272 ∧
      proofRoot.bits.length = 280 :=
  ⟨by decide +kernel, proofRoot_merkle, rfl, rfl, by decide +kernel, by decide +kernel⟩

/-- A Merkle proof of one cell has no other cells. -/
theorem proofRoot_reaches {cell : Cell} (reaches : proofRoot.Reaches cell) :
    cell = proofRoot ∨ cell = sharedLeaf := by
  rcases Cell.reaches_iff.mp reaches with same | ⟨ref, member, reaches⟩
  · exact .inl same
  · simp only [proofRoot, Cell.refs, List.mem_singleton] at member
    exact .inr (sharedLeaf_reaches (member ▸ reaches))

/-- The two cells have different addresses. -/
theorem proofRoot_coherent : proofRoot.Coherent := by
  intro first second reachesFirst reachesSecond same
  rcases proofRoot_reaches reachesFirst with rfl | rfl <;>
    rcases proofRoot_reaches reachesSecond with rfl | rfl <;>
    first | rfl | exact absurd same (by decide)

/-- Both cells are valid, and the Merkle cell among them is the proof. -/
theorem proofRoot_valid {cell : Cell} (reaches : proofRoot.Reaches cell) :
    cell.Valid ∧ (cell.isMerkle = true → MerkleCell zeroLevel cell) := by
  rcases proofRoot_reaches reaches with rfl | rfl
  · exact ⟨⟨by decide +kernel, by decide +kernel, by decide +kernel⟩, fun _ => proofRoot_merkle⟩
  · exact ⟨⟨by decide +kernel, by decide +kernel, by decide +kernel⟩,
      fun merkle => absurd merkle (by decide)⟩

/-- A chain of empty cells, each with a ref to the next one. -/
def chainCell : Nat → Cell
  | 0 => .mk 0 false [] []
  | k + 1 => .mk (k + 1) false [] [chainCell k]

/-- A Merkle proof of a chain of 255 cells. -/
def longProof : Cell :=
  .mk 255 true (merkleBits 3 [List.replicate 32 0] [0] 16) [chainCell 254]

/-- The cells of a chain have their places in it as addresses. -/
theorem chainCell_addr (k : Nat) : (chainCell k).addr = k := by
  cases k <;> rfl

/-- The cells of a chain are the chains that it ends with. -/
theorem chainCell_reaches_iff {k : Nat} {cell : Cell} :
    (chainCell k).Reaches cell ↔ ∃ j ≤ k, cell = chainCell j := by
  induction k with
  | zero =>
      rw [Cell.reaches_iff]
      simp [chainCell, Cell.refs]
  | succ k ih =>
      have refs : (chainCell (k + 1)).refs = [chainCell k] := rfl
      rw [Cell.reaches_iff, refs]
      simp only [List.mem_singleton, exists_eq_left, ih]
      constructor
      · rintro (same | ⟨j, below, same⟩)
        · exact ⟨k + 1, le_rfl, same⟩
        · exact ⟨j, Nat.le_succ_of_le below, same⟩
      · rintro ⟨j, below, rfl⟩
        rcases Nat.le_succ_iff.mp below with inside | rfl
        · exact .inr ⟨j, inside, rfl⟩
        · exact .inl rfl

/-- The cells of the proof of a chain. -/
theorem longProof_reaches_iff {cell : Cell} :
    longProof.Reaches cell ↔ cell = longProof ∨ ∃ j ≤ 254, cell = chainCell j := by
  have refs : longProof.refs = [chainCell 254] := rfl
  rw [Cell.reaches_iff, refs]
  simp only [List.mem_singleton, exists_eq_left, chainCell_reaches_iff]

/-- The proof of a chain has 256 cells. -/
theorem longProof_flattened : Flattened longProof (longProof :: (List.range 255).map chainCell) where
  head := rfl
  nodup := by
    rw [List.map_cons, List.map_map, show Cell.addr ∘ chainCell = id from funext chainCell_addr, List.map_id,
      show longProof.addr = 255 from rfl]
    exact List.nodup_cons.mpr ⟨by simp, List.nodup_range⟩
  mem_iff cell := by
    rw [List.mem_cons, List.mem_map, longProof_reaches_iff]
    refine or_congr_right (exists_congr fun j => ?_)
    rw [List.mem_range, eq_comm, Nat.lt_succ_iff]

/-- The proof of a chain has one cell for each address. -/
theorem longProof_coherent : longProof.Coherent := by
  intro first second reachesFirst reachesSecond same
  have top : longProof.addr = 255 := rfl
  rcases longProof_reaches_iff.mp reachesFirst with rfl | ⟨j, below, rfl⟩ <;>
    rcases longProof_reaches_iff.mp reachesSecond with rfl | ⟨k, belowK, rfl⟩
  · rfl
  · rw [top, chainCell_addr] at same
    omega
  · rw [top, chainCell_addr] at same
    omega
  · rw [chainCell_addr, chainCell_addr] at same
    rw [same]

/-- A cell of a chain is an ordinary cell without bits. -/
theorem chainCell_valid (k : Nat) : (chainCell k).Valid ∧ (chainCell k).isMerkle = false := by
  cases k with
  | zero => exact ⟨⟨by decide, by decide, by decide⟩, rfl⟩
  | succ k =>
      exact ⟨⟨by simp [chainCell, Cell.refs], by simp [chainCell, Cell.bits],
        by simp [chainCell, Cell.isSpecial]⟩, by simp [chainCell, Cell.isMerkle, Cell.isSpecial]⟩

/-- The cells of the proof of a chain are valid, and the Merkle cell among them is the proof. -/
theorem longProof_valid {cell : Cell} (reaches : longProof.Reaches cell) :
    cell.Valid ∧ (cell.isMerkle = true → MerkleCell zeroLevel cell) := by
  rcases longProof_reaches_iff.mp reaches with rfl | ⟨j, -, rfl⟩
  · exact ⟨⟨by decide +kernel, by decide +kernel, by decide +kernel⟩,
      fun _ => ⟨.inl ⟨by decide +kernel, rfl⟩, by decide +kernel⟩⟩
  · obtain ⟨valid, ordinary⟩ := chainCell_valid j
    refine ⟨valid, fun merkle => ?_⟩
    rw [ordinary] at merkle
    cases merkle

/-- The root stands in every reordered table. -/
theorem Numbering.find_root {root : Cell} {cells newCells : List Cell} {newMyCells : List MyCell}
    (flattened : Flattened root cells) (same : newCells.Perm cells)
    (numbering : Numbering newCells newMyCells) :
    ∃ (id : Nat) (myCell : MyCell), newMyCells[id]? = some myCell ∧ newCells[id]? = some root := by
  obtain ⟨id, entry⟩ := List.getElem?_of_mem
    (same.mem_iff.mpr ((flattened.mem_iff root).mpr root.reaches_refl))
  obtain ⟨myCell, inNew, -⟩ := OptionList.forall₂_getElem? numbering.flip entry
  exact ⟨id, myCell, inNew, entry⟩

/-- In a bag of 2 cells the data of a proof does not come back, in one of 256 cells it does. -/
theorem storedBits_merkle_iff_proof :
    (∃ newMyCells myCell data cntBits,
      (convertToMyCells proofRoot).bind (applyOrder · [1, 0]) = some newMyCells ∧
      myCell ∈ newMyCells ∧
      storedBits plainLibrary 2 myCell [sharedLeaf.toVm] = some (data, cntBits) ∧
      ¬ (cntBits = proofRoot.bits.length ∧ (ofBytes data).take cntBits = proofRoot.bits)) ∧
    ∃ newMyCells myCell data cntBits,
      (convertToMyCells longProof).bind (applyOrder · (List.range 256).reverse) = some newMyCells ∧
      myCell ∈ newMyCells ∧
      storedBits plainLibrary 256 myCell [(chainCell 254).toVm] = some (data, cntBits) ∧
      cntBits = longProof.bits.length ∧ (ofBytes data).take cntBits = longProof.bits := by
  constructor
  · obtain ⟨cells, myCells, converted, flattened, numbering, orders⟩ :=
      storedBits_merkle_iff plainLibrary zeroLevel proofRoot proofRoot_coherent
        (fun _ reaches => (proofRoot_valid reaches).1) fun _ reaches => (proofRoot_valid reaches).2
    have two : myCells.length = 2 := by
      have count : (convertToMyCells proofRoot).map List.length = some 2 := by decide +kernel
      rwa [converted, Option.map_some, Option.some.injEq] at count
    obtain ⟨newCells, newMyCells, applied, same, newNumbering, restored⟩ :=
      orders [1, 0] (by rw [two]; decide)
    obtain ⟨id, myCell, inNew, entry⟩ := Numbering.find_root flattened same newNumbering
    obtain ⟨data, cntBits, stored, -, exact_⟩ := restored id myCell proofRoot inNew entry
      (by decide +kernel) [sharedLeaf.toVm] (.cons ⟨rfl, rfl⟩ .nil)
    rw [newNumbering.length_eq, same.length_eq, ← numbering.length_eq, two] at stored
    rw [← numbering.length_eq, two] at exact_
    exact ⟨newMyCells, myCell, data, cntBits, by rw [converted]; exact applied, List.mem_of_getElem? inNew,
      stored, fun whole => absurd (exact_.mp whole).1 (by decide)⟩
  · obtain ⟨cells, myCells, converted, flattened, numbering, orders⟩ :=
      storedBits_merkle_iff plainLibrary zeroLevel longProof longProof_coherent
        (fun _ reaches => (longProof_valid reaches).1) fun _ reaches => (longProof_valid reaches).2
    have many : myCells.length = 256 := by
      rw [numbering.length_eq, (flattened.perm longProof_flattened).length_eq, List.length_cons,
        List.length_map, List.length_range]
    obtain ⟨newCells, newMyCells, applied, same, newNumbering, restored⟩ :=
      orders (List.range 256).reverse (by rw [many]; exact List.reverse_perm _)
    obtain ⟨id, myCell, inNew, entry⟩ := Numbering.find_root flattened same newNumbering
    obtain ⟨data, cntBits, stored, -, exact_⟩ := restored id myCell longProof inNew entry
      (by decide +kernel) [(chainCell 254).toVm] (.cons ⟨rfl, rfl⟩ .nil)
    rw [newNumbering.length_eq, same.length_eq, ← numbering.length_eq, many] at stored
    rw [← numbering.length_eq, many] at exact_
    have ordered : (convertToMyCells longProof).bind (applyOrder · (List.range 256).reverse) =
        some newMyCells := by rw [converted, Option.bind_some, applied]
    have whole := exact_.mpr (by decide)
    exact ⟨newMyCells, myCell, data, cntBits, ordered, List.mem_of_getElem? inNew, stored, whole⟩

end CellBag.Serializator
