import CellBag.Proof.RoundTrip

/-!
`serialize` writes the same for two bags exactly if they differ in the addresses of their cells only.
-/

namespace CellBag.Serializator
open BitString Huffman

mutual

/-- The bag with its cells at other addresses. -/
def Cell.moved (place : Nat → Nat) : Cell → Cell
  | .mk addr isSpecial bits refs => .mk (place addr) isSpecial bits (movedRefs place refs)

/-- The refs of a moved cell. -/
def movedRefs (place : Nat → Nat) : List Cell → List Cell
  | [] => []
  | ref :: refs => ref.moved place :: movedRefs place refs

end

/-- All refs are moved. -/
theorem movedRefs_eq (place : Nat → Nat) (refs : List Cell) :
    movedRefs place refs = refs.map (Cell.moved place) := by
  induction refs with
  | nil => rfl
  | cons ref refs ih => rw [movedRefs, ih, List.map_cons]

section Moved
variable {place : Nat → Nat} {addrs : Set Nat}

/-- A moved cell stands at its place. -/
@[simp] theorem Cell.moved_addr (cell : Cell) : (cell.moved place).addr = place cell.addr := by
  cases cell
  rfl

/-- A move keeps the kind of a cell. -/
@[simp] theorem Cell.moved_isSpecial (cell : Cell) : (cell.moved place).isSpecial = cell.isSpecial := by
  cases cell
  rfl

/-- A move keeps the bits of a cell. -/
@[simp] theorem Cell.moved_bits (cell : Cell) : (cell.moved place).bits = cell.bits := by
  cases cell
  rfl

/-- A move goes through the refs of a cell. -/
@[simp] theorem Cell.moved_refs (cell : Cell) :
    (cell.moved place).refs = cell.refs.map (Cell.moved place) := by
  cases cell
  exact movedRefs_eq place _

/-- A move keeps the special type of a cell. -/
@[simp] theorem Cell.moved_specialType (cell : Cell) :
    (cell.moved place).specialType = cell.specialType := by
  simp [Cell.specialType]

/-- Two cells that agree but for their addresses are moved ones of each other. -/
theorem Cell.moved_eq {cell other : Cell} (addr : place cell.addr = other.addr)
    (isSpecial : cell.isSpecial = other.isSpecial) (bits : cell.bits = other.bits)
    (refs : cell.refs.map (Cell.moved place) = other.refs) : cell.moved place = other := by
  cases cell
  cases other
  rw [Cell.moved, movedRefs_eq]
  exact congr (congr (congr (congrArg Cell.mk addr) isSpecial) bits) refs

/-- The entry of a cell at another address. -/
def MyCell.moved (place : Nat → Nat) (myCell : MyCell) : MyCell :=
  { myCell with refsAsCells := myCell.refsAsCells.map (Cell.moved place) }

/-- A move keeps the numbers of the refs. -/
@[simp] theorem MyCell.moved_usedRefs (myCell : MyCell) :
    (myCell.moved place).usedRefs = myCell.usedRefs := rfl

/-- A move keeps the count of the refs. -/
@[simp] theorem MyCell.moved_cntRefs (myCell : MyCell) :
    (myCell.moved place).cntRefs = myCell.cntRefs := rfl

/-- The entry of a moved cell is the moved entry of the cell. -/
theorem MyCell.ofCell_moved (cell : Cell) :
    MyCell.ofCell (cell.moved place) = (MyCell.ofCell cell).map (MyCell.moved place) := by
  simp only [MyCell.ofCell, Cell.moved_specialType, Cell.moved_bits, Cell.moved_refs, List.length_map,
    Option.bind_eq_bind, Option.map_bind, Function.comp_def, Option.map_some]
  rfl

/-- An entry holds the refs of its cell. -/
theorem MyCell.ofCell_refsAsCells {cell : Cell} {myCell : MyCell}
    (built : MyCell.ofCell cell = some myCell) : myCell.refsAsCells = cell.refs := by
  obtain ⟨_, -, built⟩ := Option.bind_eq_some_iff.mp built
  obtain ⟨_, -, built⟩ := Option.bind_eq_some_iff.mp built
  obtain ⟨_, -, built⟩ := Option.bind_eq_some_iff.mp built
  exact (Option.some.inj built) ▸ rfl

/-- The state of the conversion of a moved bag. -/
def Conversion.moved (place : Nat → Nat) (state : Conversion) : Conversion :=
  ⟨state.myCells.map (MyCell.moved place), state.pos.map (Prod.map place id)⟩

/-- All addresses that a state of the conversion knows. -/
structure Conversion.Within (addrs : Set Nat) (state : Conversion) : Prop where
  pos : ∀ entry ∈ state.pos, entry.1 ∈ addrs
  refs : ∀ myCell ∈ state.myCells, ∀ ref ∈ myCell.refsAsCells, ref.addr ∈ addrs

/-- Different addresses go to different places, so they find the same entries. -/
theorem lookup_moved (apart : Set.InjOn place addrs) {pos : List (Nat × Nat)}
    (within : ∀ entry ∈ pos, entry.1 ∈ addrs) {addr : Nat} (inside : addr ∈ addrs) :
    (pos.map (Prod.map place id)).lookup (place addr) = pos.lookup addr := by
  induction pos with
  | nil => rfl
  | cons entry pos ih =>
      have rest := ih fun later member => within later (by simp [member])
      have same : place addr = place entry.1 ↔ addr = entry.1 :=
        apart.eq_iff inside (within entry (by simp))
      rw [List.map_cons, List.lookup_cons, List.lookup_cons, rest]
      by_cases here : addr = entry.1
      · simp [here]
      · rw [beq_false_of_ne here]
        have there : (place addr == (Prod.map place id entry).1) = false :=
          beq_false_of_ne fun equal => here (same.mp equal)
        rw [there]

/-- The calls of `dfs` for the refs of a moved cell, if those for each ref go as before. -/
theorem convertRefs_moved {refs : List Cell} {state : Conversion} (within : state.Within addrs)
    (calls : ∀ ref ∈ refs, ∀ state : Conversion, state.Within addrs →
      convertDfs (ref.moved place) (state.moved place) =
        (convertDfs ref state).map (Conversion.moved place) ∧
      ∀ next, convertDfs ref state = some next → next.Within addrs) :
    convertRefs (refs.map (Cell.moved place)) (state.moved place) =
      (convertRefs refs state).map (Conversion.moved place) ∧
    ∀ next, convertRefs refs state = some next → next.Within addrs := by
  induction refs generalizing state with
  | nil =>
      refine ⟨rfl, fun next run => ?_⟩
      rw [convertRefs] at run
      exact Option.some.inj run ▸ within
  | cons ref refs ih =>
      obtain ⟨same, kept⟩ := calls ref (by simp) state within
      rw [List.map_cons, convertRefs, convertRefs, same]
      cases ran : convertDfs ref state with
      | none => exact ⟨rfl, fun next run => by cases run⟩
      | some middle =>
          simpa using ih (kept middle ran) fun other member => calls other (by simp [member])

/-- `dfs` goes through a moved bag as through the bag. -/
theorem convertDfs_moved (apart : Set.InjOn place addrs) (cell : Cell)
    (inside : ∀ other, cell.Reaches other → other.addr ∈ addrs) (state : Conversion)
    (within : state.Within addrs) :
    convertDfs (cell.moved place) (state.moved place) =
      (convertDfs cell state).map (Conversion.moved place) ∧
    ∀ next, convertDfs cell state = some next → next.Within addrs := by
  induction cell using Cell.refsInduction generalizing state with
  | step cell ih =>
      have look := lookup_moved apart within.pos (inside cell cell.reaches_refl)
      rw [convertDfs_eq, convertDfs_eq, Cell.moved_addr, Conversion.moved, look, MyCell.ofCell_moved,
        Cell.moved_refs]
      by_cases seen : (state.pos.lookup cell.addr).isSome
      · rw [if_pos seen, if_pos seen]
        exact ⟨rfl, fun next run => Option.some.inj run ▸ within⟩
      · rw [if_neg seen, if_neg seen]
        cases built : MyCell.ofCell cell with
        | none => exact ⟨rfl, fun next run => by cases run⟩
        | some myCell =>
            have grown : (Conversion.mk (state.myCells ++ [myCell])
                ((cell.addr, state.myCells.length) :: state.pos)).Within addrs := by
              refine ⟨List.forall_mem_cons.mpr ⟨inside cell cell.reaches_refl, within.pos⟩, ?_⟩
              intro other member ref inRefs
              rcases List.mem_append.mp member with member | last
              · exact within.refs other member ref inRefs
              · rw [List.mem_singleton.mp last, MyCell.ofCell_refsAsCells built] at inRefs
                exact inside ref (cell.reaches_refl.ref inRefs)
            obtain ⟨same, kept⟩ := convertRefs_moved grown fun ref member =>
              ih ref member fun other reaches => inside other (.of_ref member reaches)
            simp only [Conversion.moved, List.map_append, List.map_cons, List.map_nil, Prod.map_apply,
              id] at same
            by_cases few : myCell.cntRefs ≤ 4
            · simpa [check, few] using ⟨same, kept⟩
            · simp [check, few]

/-- The table of a moved bag is the table of the bag. -/
theorem convertToMyCells_moved (root : Cell) (apart : Set.InjOn place addrs)
    (inside : ∀ cell, root.Reaches cell → cell.addr ∈ addrs) :
    convertToMyCells (root.moved place) =
      (convertToMyCells root).map (List.map (MyCell.moved place)) := by
  obtain ⟨same, kept⟩ := convertDfs_moved apart root inside ⟨[], []⟩ ⟨by simp, by simp⟩
  rw [convertToMyCells, convertToMyCells]
  rw [show (Conversion.mk [] []).moved place = ⟨[], []⟩ from rfl] at same
  rw [same]
  cases ran : convertDfs root ⟨[], []⟩ with
  | none => rfl
  | some state =>
      have within := kept state ran
      refine OptionList.mapM_map_eq fun myCell member => ?_
      have looks : (myCell.refsAsCells.map (Cell.moved place)).mapM
          (fun ref => (state.pos.map (Prod.map place id)).lookup ref.addr) =
            (myCell.refsAsCells.mapM fun ref => state.pos.lookup ref.addr).map (List.map id) := by
        refine OptionList.mapM_map_eq fun ref inRefs => ?_
        rw [Cell.moved_addr, lookup_moved apart within.pos (within.refs myCell member ref inRefs),
          Option.map_id, id_eq]
      rw [List.map_id_fun, Option.map_id, id_eq] at looks
      rw [numberRefs, numberRefs, MyCell.moved, Conversion.moved, looks]
      cases myCell.refsAsCells.mapM fun ref => state.pos.lookup ref.addr <;> rfl

/-- The lists of referring entries do not depend on the addresses. -/
theorem whoRefersTo_moved (myCells : List MyCell) :
    whoRefersTo (myCells.map (MyCell.moved place)) = whoRefersTo myCells := by
  rw [whoRefersTo, whoRefersTo, List.zipIdx_map, List.length_map, List.foldlM_map]
  rfl

/-- `initial_cell_order` does not depend on the addresses. -/
theorem initialCellOrder_moved (myCells : List MyCell) :
    initialCellOrder (myCells.map (MyCell.moved place)) = initialCellOrder myCells := by
  rw [initialCellOrder, initialCellOrder, whoRefersTo_moved, List.length_map, List.map_map]
  rfl

/-- A store into a mapped list is the mapped store. -/
theorem setAt_map {α β : Type} (f : α → β) (items : List α) (index : Nat) (item : α) :
    setAt (items.map f) index (f item) = (setAt items index item).map (List.map f) := by
  rw [setAt, setAt, List.length_map]
  split_ifs
  · rw [Option.map_some, List.map_set]
  · rfl

/-- `apply_order` goes through a moved table as through the table. -/
theorem applyOrder_moved (myCells : List MyCell) (order : List Nat) :
    applyOrder (myCells.map (MyCell.moved place)) order =
      (applyOrder myCells order).map (List.map (MyCell.moved place)) := by
  simp only [applyOrder, List.length_map, Option.bind_eq_bind, Option.map_bind, Function.comp_def]
  refine congrArg _ (funext fun _ => congrArg _ (funext fun pos => ?_))
  have renumbered : (myCells.map (MyCell.moved place)).mapM (fun myCell : MyCell =>
      myCell.usedRefs.bind fun refs => (refs.mapM fun ref => pos[ref]?).bind fun refs =>
        some { myCell with refs := refs ++ myCell.refs.drop refs.length }) =
      (myCells.mapM fun myCell : MyCell => myCell.usedRefs.bind fun refs =>
        (refs.mapM fun ref => pos[ref]?).bind fun refs =>
          some { myCell with refs := refs ++ myCell.refs.drop refs.length }).map
        (List.map (MyCell.moved place)) := by
    refine OptionList.mapM_map_eq fun myCell _ => ?_
    simp only [MyCell.moved_usedRefs, Option.map_bind, Function.comp_def, Option.map_some]
    rfl
  rw [renumbered, Option.bind_map]
  refine congrArg _ (funext fun entries => ?_)
  simp only [Function.comp_apply]
  rw [List.zip_map_left]
  have placed : ((entries.zip pos).map (Prod.map (MyCell.moved place) id)).foldlM
      (fun new entry => setAt new entry.2 (some entry.1))
      ((List.replicate myCells.length none).map (Option.map (MyCell.moved place))) =
      ((entries.zip pos).foldlM (fun new entry => setAt new entry.2 (some entry.1))
        (List.replicate myCells.length none)).map (List.map (Option.map (MyCell.moved place))) :=
    OptionList.foldlM_map_eq
      (fun entry _ new => setAt_map (Option.map (MyCell.moved place)) new entry.2 (some entry.1)) _
  rw [List.map_replicate, Option.map_none] at placed
  rw [placed, Option.bind_map]
  refine congrArg _ (funext fun new => ?_)
  exact OptionList.mapM_map_eq fun entry _ => rfl

end Moved

section Writer
variable {place : Nat → Nat}

/-- The bits of a table do not depend on the addresses. -/
theorem myCellsToBitStr_moved (tables : Tables) (myCells : List MyCell) :
    myCellsToBitStr tables (myCells.map (MyCell.moved place)) = myCellsToBitStr tables myCells := by
  have pushD1 (encoder : HuffmanEncoderDecoder) : Writer.pushD1 encoder (myCells.map (MyCell.moved place)) =
      Writer.pushD1 encoder myCells := by
    funext writer i
    rw [Writer.pushD1, Writer.pushD1, List.getElem?_map]
    cases myCells[i]? <;> rfl
  have pushDataSize (encoder : HuffmanEncoderDecoder) :
      Writer.pushDataSize encoder (myCells.map (MyCell.moved place)) =
        Writer.pushDataSize encoder myCells := by
    funext writer i
    rw [Writer.pushDataSize, Writer.pushDataSize, List.getElem?_map]
    cases myCells[i]? <;> rfl
  have pushRefs : Writer.pushRefs (myCells.map (MyCell.moved place)) = Writer.pushRefs myCells := by
    funext writer i
    rw [Writer.pushRefs, Writer.pushRefs, List.getElem?_map, List.length_map]
    cases myCells[i]? <;> rfl
  have pushData : Writer.pushData (myCells.map (MyCell.moved place)) = Writer.pushData myCells := by
    funext writer i
    rw [Writer.pushData, Writer.pushData, List.getElem?_map]
    cases myCells[i]? <;> rfl
  rw [myCellsToBitStr, myCellsToBitStr, myCellsToBits, myCellsToBits, List.length_map]
  simp only [pushD1, pushDataSize, pushRefs, pushData]

/-- The bits and their metas do not depend on the addresses, nor does the success. -/
theorem serializeBits_moved (tables : Tables) (root : Cell) {addrs : Set Nat}
    (apart : Set.InjOn place addrs) (inside : ∀ cell, root.Reaches cell → cell.addr ∈ addrs) :
    serializeBits tables (root.moved place) = serializeBits tables root := by
  simp only [serializeBits, convertToMyCells_moved root apart inside, Option.bind_eq_bind,
    Option.bind_map, Function.comp_def, initialCellOrder_moved, applyOrder_moved,
    myCellsToBitStr_moved]

end Writer

/-- The hash and the depth of a cell do not depend on the addresses. -/
def LevelZero.AddressFree (original : LevelZero) : Prop :=
  ∀ place cell, original.hash (Cell.moved place cell) = original.hash cell ∧
    original.depth (Cell.moved place cell) = original.depth cell

section SameTable
variable {original : LevelZero} {cell other : Cell} {myCell : MyCell}

/-- The bits of a cell are those that its entry holds, or they follow from the refs. -/
theorem Holds.bits_eq (holds : Holds myCell cell) (valid : cell.Valid) (holdsOther : Holds myCell other)
    (validOther : other.Valid)
    (merkle : cell.isMerkle = true → MerkleCell original cell)
    (merkleOther : other.isMerkle = true → MerkleCell original other)
    (hashes : cell.refs.map original.hash = other.refs.map original.hash)
    (depths : cell.refs.map original.depth = other.refs.map original.depth) : cell.bits = other.bits := by
  have special : cell.isSpecial = other.isSpecial := holds.isSpecial.symm.trans holdsOther.isSpecial
  have payload : cell.payload = other.payload := holds.data.symm.trans holdsOther.data
  cases isSpecial : cell.isSpecial with
  | false =>
      rw [isSpecial] at special
      simpa [Cell.payload, Cell.isMerkle, Cell.squeezed, isSpecial, ← special] using payload
  | true =>
      rw [isSpecial] at special
      obtain ⟨byte, rest, data, value, -⟩ := holds.firstBits valid isSpecial
      obtain ⟨byte', rest', data', value', -⟩ := holdsOther.firstBits validOther special.symm
      obtain ⟨rfl, -⟩ := List.cons.inj (data.symm.trans data')
      have typeByte : cell.typeByte = other.typeByte := value.symm.trans value'
      have sameKind : cell.isMerkle = other.isMerkle := by
        rw [Cell.isMerkle, Cell.isMerkle, isSpecial, ← special, typeByte]
      cases kind : cell.isMerkle with
      | false =>
          have long := (valid.typeByte isSpecial).1
          have longOther := (validOther.typeByte special.symm).1
          have first : cell.bits.take 8 = other.bits.take 8 := by
            have whole := ofNat_toNat (cell.bits.take 8)
            have wholeOther := ofNat_toNat (other.bits.take 8)
            rw [List.length_take, Nat.min_eq_left long] at whole
            rw [List.length_take, Nat.min_eq_left longOther] at wholeOther
            rw [← whole, ← wholeOther]
            exact congrArg (ofNat 8) typeByte
          rw [Cell.payload, Cell.payload, ← sameKind, kind, Cell.squeezed, Cell.squeezed, isSpecial,
            ← special, typeByte] at payload
          rw [← List.take_append_drop 8 cell.bits, ← List.take_append_drop 8 other.bits, first]
          exact congrArg _ (List.append_cancel_left payload)
      | true =>
          rw [(merkle kind).bits, (merkleOther (sameKind ▸ kind)).bits, typeByte, hashes, depths]

/-- Two bags in one table differ in their addresses only. -/
theorem Numbering.moved_eq (free : original.AddressFree) {place : Nat → Nat} {cells others : List Cell}
    {myCells : List MyCell} (numbering : Numbering cells myCells) (numberingOther : Numbering others myCells)
    (valid : ∀ cell ∈ cells, cell.Valid) (validOther : ∀ cell ∈ others, cell.Valid)
    (merkle : ∀ cell ∈ cells, cell.isMerkle = true → MerkleCell original cell)
    (merkleOther : ∀ cell ∈ others, cell.isMerkle = true → MerkleCell original cell)
    (places : ∀ (i : Nat) (cell other : Cell), cells[i]? = some cell → others[i]? = some other →
      place cell.addr = other.addr) {i : Nat} {cell other : Cell} (entry : cells[i]? = some cell)
    (entryOther : others[i]? = some other) : cell.moved place = other := by
  induction cell using Cell.refsInduction generalizing i other with
  | step cell ih =>
      have inside : i < myCells.length := by
        rw [numbering.length_eq]
        exact (List.getElem?_eq_some_iff.mp entry).1
      obtain ⟨myCell, _, look, found, holds, -, related⟩ := numbering.entry inside
      obtain rfl := Option.some.inj (entry.symm.trans found)
      obtain ⟨_, _, look', found', holdsOther, -, relatedOther⟩ := numberingOther.entry inside
      obtain rfl := Option.some.inj (entryOther.symm.trans found')
      obtain rfl := Option.some.inj (look.symm.trans look')
      have refs : cell.refs.map (Cell.moved place) = other.refs := by
        apply List.ext_getElem?
        intro k
        rw [List.getElem?_map]
        cases inRefs : cell.refs[k]? with
        | none =>
            have outside := List.getElem?_eq_none_iff.mp inRefs
            rw [← related.length_eq, relatedOther.length_eq] at outside
            rw [List.getElem?_eq_none outside]
            rfl
        | some ref =>
            obtain ⟨id, inNext, refEntry⟩ := OptionList.forall₂_getElem? related.flip inRefs
            obtain ⟨refOther, inOther, refEntryOther⟩ :=
              OptionList.forall₂_getElem? relatedOther inNext
            rw [inOther, Option.map_some,
              ih ref (List.mem_of_getElem? inRefs) refEntry refEntryOther]
      have hashes : cell.refs.map original.hash = other.refs.map original.hash := by
        rw [← refs, List.map_map]
        exact List.map_congr_left fun ref _ => (free place ref).1.symm
      have depths : cell.refs.map original.depth = other.refs.map original.depth := by
        rw [← refs, List.map_map]
        exact List.map_congr_left fun ref _ => (free place ref).2.symm
      have member := List.mem_of_getElem? entry
      have memberOther := List.mem_of_getElem? entryOther
      exact Cell.moved_eq (places i cell other entry entryOther)
        (holds.isSpecial.symm.trans holdsOther.isSpecial)
        (holds.bits_eq (valid cell member) holdsOther (validOther other memberOther) (merkle cell member)
          (merkleOther other memberOther) hashes depths) refs

end SameTable

/-- The addresses of a bag. -/
def Cell.addrs (root : Cell) : Set Nat := {addr | ∃ cell, root.Reaches cell ∧ cell.addr = addr}

/-- The address of the cell with the same number. -/
def placeOf (cells others : List Cell) (addr : Nat) : Nat :=
  (others.map Cell.addr).getD ((cells.map Cell.addr).idxOf addr) 0

section Place
variable {cells others : List Cell}

/-- The cell with a number goes to the address of the other cell with it. -/
theorem placeOf_eq (nodup : (cells.map Cell.addr).Nodup) {i : Nat} {cell other : Cell}
    (entry : cells[i]? = some cell) (entryOther : others[i]? = some other) :
    placeOf cells others cell.addr = other.addr := by
  have found : (cells.map Cell.addr)[i]? = some cell.addr := by
    rw [List.getElem?_map, entry, Option.map_some]
  have index : (cells.map Cell.addr).idxOf cell.addr = i := by
    obtain ⟨inside, same⟩ := List.getElem?_eq_some_iff.mp found
    rw [← same]
    exact nodup.idxOf_getElem i inside
  rw [placeOf, index, List.getD_eq_getElem?_getD, List.getElem?_map, entryOther]
  rfl

/-- No two cells go to one address. -/
theorem placeOf_injOn (nodup : (cells.map Cell.addr).Nodup) (nodupOther : (others.map Cell.addr).Nodup)
    (sameLength : cells.length = others.length) :
    Set.InjOn (placeOf cells others) {addr | addr ∈ cells.map Cell.addr} := by
  rintro a memberA b memberB same
  obtain ⟨i, entryA⟩ := List.getElem?_of_mem memberA
  obtain ⟨j, entryB⟩ := List.getElem?_of_mem memberB
  rw [List.getElem?_map, Option.map_eq_some_iff] at entryA entryB
  obtain ⟨cellA, entryA, rfl⟩ := entryA
  obtain ⟨cellB, entryB, rfl⟩ := entryB
  have insideA : i < others.length := sameLength ▸ (List.getElem?_eq_some_iff.mp entryA).1
  have insideB : j < others.length := sameLength ▸ (List.getElem?_eq_some_iff.mp entryB).1
  rw [placeOf_eq nodup entryA (List.getElem?_eq_getElem insideA),
    placeOf_eq nodup entryB (List.getElem?_eq_getElem insideB)] at same
  have index : i = j := (List.getElem?_inj (by simpa using insideA) nodupOther).mp (by
    simp [insideA, insideB, same])
  subst index
  rw [entryA, Option.some.injEq] at entryB
  rw [entryB]

end Place

/-- The table that `deserialise` reads from what `serialize` has written numbers the cells of the bag. -/
theorem Bag.sent {original : LevelZero} {root : Cell} (bag : Bag original root) {cells : List Cell}
    (flattened : Flattened root cells) (few : cells.length < 2 ^ BITS_FOR_N_CELLS) {lz : List UInt8}
    (written : serialize sourceTables root = some lz) :
    ∃ reader parser newCells, readLz sourceTables lz = some (reader, parser, reader.lzCntBits) ∧
      newCells.Perm cells ∧ Numbering newCells parser.myCells := by
  obtain ⟨listed, flattened', runs⟩ := serialized_spec bag.coherent bag.valid
  have same := flattened'.perm flattened
  obtain ⟨newCells, _, ptr, reader, parser, serialized, perm, numbering, -, read, -⟩ :=
    runs (same.length_eq ▸ few)
  rw [serialized.written] at written
  split_ifs at written
  obtain rfl := Option.some.inj written
  exact ⟨reader, parser, newCells, read, perm.trans same, numbering⟩

/-- Where `serialize` has an output for a bag, it has the same for another one exactly if that is the bag at
different addresses. -/
theorem serialize_eq_iff {original : LevelZero} (free : original.AddressFree) {root other : Cell}
    (bag : Bag original root) (bagOther : Bag original other) {cells others : List Cell}
    (flattened : Flattened root cells) (flattenedOther : Flattened other others)
    (few : cells.length < 2 ^ BITS_FOR_N_CELLS) (fewOther : others.length < 2 ^ BITS_FOR_N_CELLS)
    {lz : List UInt8} (written : serialize sourceTables root = some lz) :
    serialize sourceTables other = some lz ↔ ∃ place, Set.InjOn place root.addrs ∧ root.moved place = other := by
  constructor
  · intro writtenOther
    obtain ⟨reader, parser, newCells, read, perm, numbering⟩ := bag.sent flattened few written
    obtain ⟨_, _, newOthers, readOther, permOther, numberingOther⟩ :=
      bagOther.sent flattenedOther fewOther writtenOther
    obtain ⟨rfl, rfl, -⟩ := by simpa using read.symm.trans readOther
    have mem_iff (cell : Cell) : cell ∈ newCells ↔ root.Reaches cell :=
      perm.mem_iff.trans (flattened.mem_iff cell)
    have mem_iff_other (cell : Cell) : cell ∈ newOthers ↔ other.Reaches cell :=
      permOther.mem_iff.trans (flattenedOther.mem_iff cell)
    have nodup : (newCells.map Cell.addr).Nodup := (perm.map _).nodup_iff.mpr flattened.nodup
    have nodupOther : (newOthers.map Cell.addr).Nodup :=
      (permOther.map _).nodup_iff.mpr flattenedOther.nodup
    -- both roots are the last cell of the top sort
    obtain ⟨r, entry⟩ := List.getElem?_of_mem ((mem_iff root).mpr root.reaches_refl)
    obtain ⟨r', entryOther⟩ := List.getElem?_of_mem ((mem_iff_other other).mpr other.reaches_refl)
    obtain ⟨order, -, permOrder, topological⟩ := topSort_spec numbering
    have last := numbering.root_last (List.Nodup.of_map _ nodup) mem_iff permOrder topological entry
    rw [numberingOther.root_last (List.Nodup.of_map _ nodupOther) mem_iff_other permOrder topological
      entryOther, Option.some.injEq] at last
    subst last
    refine ⟨placeOf newCells newOthers, ?_, ?_⟩
    · refine (placeOf_injOn nodup nodupOther
        (numbering.length_eq.symm.trans numberingOther.length_eq)).mono ?_
      rintro _ ⟨cell, reaches, rfl⟩
      exact List.mem_map_of_mem ((mem_iff cell).mpr reaches)
    · exact numbering.moved_eq free numberingOther
        (fun cell member => bag.valid cell ((mem_iff cell).mp member))
        (fun cell member => bagOther.valid cell ((mem_iff_other cell).mp member))
        (fun cell member => bag.merkle cell ((mem_iff cell).mp member))
        (fun cell member => bagOther.merkle cell ((mem_iff_other cell).mp member))
        (fun i cell other entry entryOther => placeOf_eq nodup entry entryOther) entry entryOther
  · rintro ⟨place, apart, rfl⟩
    rw [serialize] at written
    rw [serialize, serializeBits_moved _ root apart fun cell reaches => ⟨cell, reaches, rfl⟩, written]

/-- All cells of a moved bag are moved cells of the bag. -/
theorem Cell.reaches_moved {place : Nat → Nat} {root cell : Cell} (reaches : (root.moved place).Reaches cell) :
    ∃ origin, root.Reaches origin ∧ origin.moved place = cell := by
  induction reaches with
  | refl => exact ⟨root, root.reaches_refl, rfl⟩
  | tail _ member ih =>
      obtain ⟨origin, reaches, rfl⟩ := ih
      rw [Cell.moved_refs] at member
      obtain ⟨ref, inRefs, rfl⟩ := List.mem_map.mp member
      exact ⟨ref, reaches.ref inRefs, rfl⟩

/-- A moved leaf has no other cells. -/
theorem movedLeaf_reaches {place : Nat → Nat} {cell : Cell} (reaches : (bytesLeaf.moved place).Reaches cell) :
    cell = bytesLeaf.moved place := by
  obtain ⟨origin, reachesOrigin, rfl⟩ := Cell.reaches_moved reaches
  rw [Cell.leaf_reaches reachesOrigin, bytesLeaf]

/-- A moved leaf is a bag. -/
theorem movedLeaf_bag (place : Nat → Nat) : Bag zeroLevel (bytesLeaf.moved place) where
  coherent := by
    intro first second reachesFirst reachesSecond _
    rw [movedLeaf_reaches reachesFirst, movedLeaf_reaches reachesSecond]
  valid := by
    intro cell reaches
    rw [movedLeaf_reaches reaches]
    exact ⟨Nat.zero_le _, by rw [Cell.moved_bits]; decide, fun special => by cases special⟩
  merkle := by
    intro cell reaches merkle
    rw [movedLeaf_reaches reaches] at merkle
    cases merkle

/-- A leaf has the output of the leaf at another address, and not that of a leaf with other bits. -/
theorem serialize_eq_iff_bytes : ∃ lz, serialize sourceTables bytesLeaf = some lz ∧
    serialize sourceTables (bytesLeaf.moved (· + 5)) = some lz ∧
    serialize sourceTables (Cell.leaf [true]) ≠ some lz := by
  have free : zeroLevel.AddressFree := fun _ _ => ⟨rfl, rfl⟩
  have moved := movedLeaf_bag (· + 5)
  have other : Bag zeroLevel (Cell.leaf [true]) := leaf_bag (by decide)
  obtain ⟨_, _, lz, -, written, -⟩ := bytesLeaf_written
  obtain ⟨cells, _, -, flattened, -⟩ := convertToMyCells_spec bytesLeaf_bag.coherent bytesLeaf_bag.valid
  obtain ⟨movedCells, _, -, flattenedMoved, -⟩ := convertToMyCells_spec moved.coherent moved.valid
  obtain ⟨others, _, -, flattenedOther, -⟩ := convertToMyCells_spec other.coherent other.valid
  obtain rfl := flattened.eq_single fun cell => Cell.leaf_reaches
  obtain rfl := flattenedMoved.eq_single fun cell => movedLeaf_reaches
  obtain rfl := flattenedOther.eq_single fun cell => Cell.leaf_reaches
  refine ⟨lz, written, ?_, fun writtenOther => ?_⟩
  · exact (serialize_eq_iff free bytesLeaf_bag moved flattened flattenedMoved (by decide) (by decide)
      written).mpr ⟨_, fun _ _ _ _ same => Nat.add_right_cancel same, rfl⟩
  · obtain ⟨place, -, same⟩ := (serialize_eq_iff free bytesLeaf_bag other flattened flattenedOther (by decide)
      (by decide) written).mp writtenOther
    have sameBits := congrArg (fun cell => cell.bits.length) same
    rw [Cell.moved_bits] at sameBits
    exact absurd sameBits (by decide)

end CellBag.Serializator
