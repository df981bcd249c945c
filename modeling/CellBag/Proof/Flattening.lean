import CellBag.Library.OptionList
import CellBag.Proof.CellData

/-!
Flattening a bag of cells: the list holds each cell once, and its numbers follow the refs.
-/

namespace CellBag.Serializator

namespace Cell

/-- A cell of the bag below a root. -/
def Reaches (root cell : Cell) : Prop :=
  Relation.ReflTransGen (fun cell ref => ref ∈ cell.refs) root cell

/-- A pointer identifies a cell of the bag. -/
def Coherent (root : Cell) : Prop :=
  ∀ first second, root.Reaches first → root.Reaches second → first.addr = second.addr →
    first = second

theorem sizeOf_ref_lt {cell ref : Cell} (member : ref ∈ cell.refs) : sizeOf ref < sizeOf cell := by
  cases cell with
  | mk addr isSpecial bits refs =>
      have below := List.sizeOf_lt_of_mem (show ref ∈ refs from member)
      simp only [Cell.mk.sizeOf_spec]
      omega

/-- What holds of a cell when it holds of its refs holds of all cells. -/
theorem refsInduction {motive : Cell → Prop}
    (step : ∀ cell : Cell, (∀ ref ∈ cell.refs, motive ref) → motive cell) (cell : Cell) :
    motive cell := by
  induction size : sizeOf cell using Nat.strongRecOn generalizing cell with
  | ind _ ih =>
      exact step cell fun ref member => ih _ (size ▸ sizeOf_ref_lt member) ref rfl

theorem reaches_refl (cell : Cell) : cell.Reaches cell := Relation.ReflTransGen.refl

/-- What a reference reaches is reached. -/
theorem Reaches.of_ref {cell ref below : Cell} (member : ref ∈ cell.refs) (rest : ref.Reaches below) :
    cell.Reaches below := Relation.ReflTransGen.head member rest

/-- A reference of a reached cell is reached. -/
theorem Reaches.ref {root cell ref : Cell} (reaches : root.Reaches cell) (member : ref ∈ cell.refs) :
    root.Reaches ref := Relation.ReflTransGen.tail reaches member

/-- A cell reaches itself and what its references reach. -/
theorem reaches_iff {root cell : Cell} :
    root.Reaches cell ↔ cell = root ∨ ∃ ref ∈ root.refs, ref.Reaches cell := by
  apply Relation.ReflTransGen.cases_head_iff.trans
  rw [eq_comm]
  rfl

end Cell

/-- The visited cells of a conversion: `pos` numbers them by their pointers. -/
structure Converted (cells : List Cell) (state : Conversion) : Prop where
  myCells : List.Forall₂ (fun myCell cell => MyCell.ofCell cell = some myCell) state.myCells cells
  nodup : (cells.map Cell.addr).Nodup
  pos : ∀ addr index, state.pos.lookup addr = some index ↔ (cells.map Cell.addr)[index]? = some addr

namespace Converted

variable {cells : List Cell} {state : Conversion}

/-- The visited addresses are those of the listed cells. -/
theorem visited_iff (converted : Converted cells state) (addr : Nat) :
    (state.pos.lookup addr).isSome ↔ addr ∈ cells.map Cell.addr := by
  rw [Option.isSome_iff_exists, List.mem_iff_getElem?]
  exact exists_congr fun index => converted.pos addr index

/-- A new cell gets the next number. -/
theorem visit (converted : Converted cells state) {cell : Cell} {myCell : MyCell}
    (built : MyCell.ofCell cell = some myCell) (fresh : cell.addr ∉ cells.map Cell.addr) :
    Converted (cells ++ [cell])
      ⟨state.myCells ++ [myCell], (cell.addr, state.myCells.length) :: state.pos⟩ where
  myCells := List.rel_append converted.myCells (.cons built .nil)
  nodup := by
    rw [List.map_append, List.map_singleton, List.nodup_append]
    refine ⟨converted.nodup, by simp, ?_⟩
    rintro addr member _ last rfl
    exact fresh (List.mem_singleton.mp last ▸ member)
  pos addr index := by
    have length := converted.myCells.length_eq
    have old := converted.pos addr index
    rw [List.map_append, List.map_singleton, List.lookup_cons, length]
    by_cases same : addr = cell.addr
    · subst same
      have absent : (cells.map Cell.addr)[index]? ≠ some cell.addr :=
        fun found => fresh (List.mem_iff_getElem?.mpr ⟨index, found⟩)
      rw [beq_self_eq_true, Option.some.injEq]
      constructor
      · intro equal
        subst equal
        rw [List.getElem?_append_right (by simp)]
        simp
      · intro found
        rcases Nat.lt_or_ge index (cells.map Cell.addr).length with inside | outside
        · rw [List.getElem?_append_left inside] at found
          exact absurd found absent
        · rw [List.getElem?_append_right outside, List.getElem?_singleton] at found
          simp only [List.length_map] at found outside
          split_ifs at found
          omega
    · rw [beq_false_of_ne same, old]
      rcases Nat.lt_or_ge index (cells.map Cell.addr).length with inside | outside
      · rw [List.getElem?_append_left inside]
      · rw [List.getElem?_append_right outside, List.getElem?_eq_none outside,
          List.getElem?_singleton]
        split_ifs <;> simp [Ne.symm same]

end Converted

/-- One call of the search, unfolded. -/
theorem convertDfs_eq (cell : Cell) (state : Conversion) :
    convertDfs cell state =
      (if (state.pos.lookup cell.addr).isSome then some state
      else do
        let myCell ← MyCell.ofCell cell
        check (myCell.cntRefs ≤ 4)
        convertRefs cell.refs
          ⟨state.myCells ++ [myCell], (cell.addr, state.myCells.length) :: state.pos⟩) := by
  cases cell
  rw [convertDfs]
  rfl

/-- What a call of `dfs` adds for a cell: cells below it, whose refs are visited when it returns. -/
structure Visit (cell : Cell) (cells new : List Cell) : Prop where
  visited : cell.addr ∈ (cells ++ new).map Cell.addr
  first : cell.addr ∉ cells.map Cell.addr → new.head? = some cell
  below : ∀ other ∈ new, cell.Reaches other
  closed : ∀ other ∈ new, ∀ ref ∈ other.refs, ref.addr ∈ (cells ++ new).map Cell.addr

/-- The calls for the references, given the specification of each. -/
theorem convertRefs_spec {refs : List Cell} {cells : List Cell} {state : Conversion}
    (converted : Converted cells state)
    (visit : ∀ ref ∈ refs, ∀ cells state, Converted cells state →
      ∃ new state', convertDfs ref state = some state' ∧ Converted (cells ++ new) state' ∧
        Visit ref cells new) :
    ∃ new state', convertRefs refs state = some state' ∧ Converted (cells ++ new) state' ∧
      (∀ ref ∈ refs, ref.addr ∈ (cells ++ new).map Cell.addr) ∧
      (∀ other ∈ new, ∃ ref ∈ refs, ref.Reaches other) ∧
      ∀ other ∈ new, ∀ ref ∈ other.refs, ref.addr ∈ (cells ++ new).map Cell.addr := by
  induction refs generalizing cells state with
  | nil => exact ⟨[], state, by rw [convertRefs], by simpa using converted, by simp, by simp, by simp⟩
  | cons ref refs ih =>
      obtain ⟨early, middle, ranEarly, convertedEarly, first⟩ := visit ref (by simp) cells state converted
      obtain ⟨late, final, ranLate, convertedLate, visited, below, closed⟩ :=
        ih convertedEarly fun other member => visit other (by simp [member])
      rw [List.append_assoc] at convertedLate visited closed
      have grow : ∀ addr ∈ (cells ++ early).map Cell.addr,
          addr ∈ (cells ++ (early ++ late)).map Cell.addr := by
        intro addr member
        rw [← List.append_assoc, List.map_append]
        exact List.mem_append_left _ member
      refine ⟨early ++ late, final, ?_, convertedLate, ?_, ?_, ?_⟩
      · rw [convertRefs, ranEarly]
        exact ranLate
      · intro other member
        rcases List.mem_cons.mp member with rfl | member
        · exact grow _ first.visited
        · exact visited other member
      · intro other member
        rcases List.mem_append.mp member with member | member
        · exact ⟨ref, by simp, first.below other member⟩
        · obtain ⟨later, inRefs, reaches⟩ := below other member
          exact ⟨later, by simp [inRefs], reaches⟩
      · intro other member child inRefs
        rcases List.mem_append.mp member with member | member
        · exact grow _ (first.closed other member child inRefs)
        · exact closed other member child inRefs

/-- A call of `dfs` passes its checks on valid cells. -/
theorem convertDfs_spec (cell : Cell) (valid : ∀ other, cell.Reaches other → other.Valid)
    (cells : List Cell) (state : Conversion) (converted : Converted cells state) :
    ∃ new state', convertDfs cell state = some state' ∧ Converted (cells ++ new) state' ∧
      Visit cell cells new := by
  induction cell using Cell.refsInduction generalizing cells state with
  | step cell ih =>
      rw [convertDfs_eq]
      by_cases seen : (state.pos.lookup cell.addr).isSome
      · have visited := (converted.visited_iff cell.addr).mp seen
        refine ⟨[], state, by rw [if_pos seen], by simpa using converted, ?_, ?_, by simp, by simp⟩
        · simpa using visited
        · exact fun fresh => absurd visited fresh
      · have fresh : cell.addr ∉ cells.map Cell.addr :=
          fun member => seen ((converted.visited_iff cell.addr).mpr member)
        obtain ⟨myCell, built, holds, -, -⟩ := MyCell.ofCell_holds (valid cell cell.reaches_refl)
        have few : myCell.cntRefs ≤ 4 := holds.cntRefs ▸ (valid cell cell.reaches_refl).refs
        obtain ⟨new, final, ran, done, visited, below, closed⟩ :=
          convertRefs_spec (converted.visit built fresh) fun ref member =>
            ih ref member fun other reaches => valid other (.of_ref member reaches)
        rw [List.append_assoc, List.singleton_append] at done visited closed
        refine ⟨cell :: new, final, ?_, done, by simp, fun _ => rfl, ?_, ?_⟩
        · rw [if_neg seen, built]
          simp only [Option.bind_eq_bind, Option.bind_some, check_of few, ran]
        · intro other member
          rcases List.mem_cons.mp member with rfl | member
          · exact other.reaches_refl
          · obtain ⟨ref, inRefs, reaches⟩ := below other member
            exact .of_ref inRefs reaches
        · intro other member ref inRefs
          rcases List.mem_cons.mp member with rfl | member
          · exact visited ref inRefs
          · exact closed other member ref inRefs

/-- The entries of a list of cells, each once: the cells below the root, the root first. -/
structure Flattened (root : Cell) (cells : List Cell) : Prop where
  head : cells.head? = some root
  nodup : (cells.map Cell.addr).Nodup
  mem_iff : ∀ cell, cell ∈ cells ↔ root.Reaches cell

/-- An entry of a list of cells in which the refs are the numbers of the cell's refs. -/
structure Numbered (cells : List Cell) (myCell : MyCell) (cell : Cell) : Prop where
  holds : Holds myCell cell
  refs : ∃ ids, myCell.usedRefs = some ids ∧
    List.Forall₂ (fun id ref => cells[id]? = some ref) ids cell.refs

/-- A list of `MyCell`s for a list of cells. -/
def Numbering (cells : List Cell) (myCells : List MyCell) : Prop :=
  List.Forall₂ (Numbered cells) myCells cells

/-- Replaced refs are the used ones. -/
theorem usedRefs_replace {myCell : MyCell} {ids : List Nat} (count : myCell.cntRefs = ids.length) :
    ({ myCell with refs := ids ++ myCell.refs.drop ids.length } : MyCell).usedRefs = some ids := by
  rw [MyCell.usedRefs, count, if_pos (by simp)]
  simp

/-- References do not matter to what the entry holds of its cell. -/
theorem Holds.of_refs {myCell : MyCell} {cell : Cell} (holds : Holds myCell cell) (refs : List Nat) :
    Holds { myCell with refs } cell := ⟨holds.cntRefs, holds.isSpecial, holds.cntBits, holds.bytes,
      holds.data⟩

/-- `convert_to_my_cells` lists every cell of the bag once. -/
theorem convertToMyCells_spec {root : Cell} (coherent : root.Coherent)
    (valid : ∀ cell, root.Reaches cell → cell.Valid) :
    ∃ cells myCells, convertToMyCells root = some myCells ∧ Flattened root cells ∧
      Numbering cells myCells := by
  have initial : Converted [] ⟨[], []⟩ := ⟨.nil, List.nodup_nil, by simp⟩
  obtain ⟨cells, state, ran, converted, visit⟩ := convertDfs_spec root valid [] _ initial
  obtain ⟨visited, first, below, closed⟩ := visit
  rw [List.nil_append] at converted visited closed
  have found {cell : Cell} (reaches : root.Reaches cell)
      (member : cell.addr ∈ cells.map Cell.addr) : cell ∈ cells := by
    obtain ⟨other, inCells, same⟩ := List.mem_map.mp member
    rwa [coherent other cell (below other inCells) reaches same] at inCells
  have mem_iff (cell : Cell) : cell ∈ cells ↔ root.Reaches cell := by
    refine ⟨below cell, fun reaches => ?_⟩
    induction reaches with
    | refl => exact found root.reaches_refl visited
    | tail above edge ih => exact found (Cell.Reaches.ref above edge) (closed _ ih _ edge)
  obtain ⟨myCells, numbered, numbering⟩ := OptionList.mapM_forall₂ (f := numberRefs state.pos)
    (Q := Numbered cells) converted.myCells fun myCell cell member built => by
      obtain ⟨same, rebuilt, holds, -, refsAsCells⟩ := MyCell.ofCell_holds (valid cell (below cell member))
      obtain rfl := Option.some.inj (built.symm.trans rebuilt)
      obtain ⟨ids, looked, related⟩ := OptionList.mapM_exists cell.refs
        (f := fun ref => state.pos.lookup ref.addr) (R := fun id ref => cells[id]? = some ref)
        fun ref inRefs => by
          obtain ⟨id, entry⟩ := List.mem_iff_getElem?.mp (closed cell member ref inRefs)
          refine ⟨id, (converted.pos ref.addr id).mpr entry, ?_⟩
          rw [List.getElem?_map, Option.map_eq_some_iff] at entry
          obtain ⟨other, entry, same⟩ := entry
          rw [entry, coherent other ref (below other (List.mem_of_getElem? entry))
            ((below cell member).ref inRefs) same]
      refine ⟨_, by rw [numberRefs, refsAsCells, looked]; rfl, holds.of_refs _, ids, ?_, related⟩
      exact usedRefs_replace (holds.cntRefs.trans related.length_eq.symm)
  refine ⟨cells, myCells, ?_, ⟨?_, converted.nodup, mem_iff⟩, numbering⟩
  · simp [convertToMyCells, ran, numbered]
  · exact first (by simp)

/-- Stores at different places of a vector keep each other's entries. -/
theorem foldlM_setAt {α : Type} (entries : List (Nat × α)) (items : List α)
    (nodup : (entries.map Prod.fst).Nodup) (inRange : ∀ entry ∈ entries, entry.1 < items.length) :
    ∃ final, entries.foldlM (fun items entry => setAt items entry.1 entry.2) items = some final ∧
      final.length = items.length ∧ (∀ entry ∈ entries, final[entry.1]? = some entry.2) ∧
      ∀ index ∉ entries.map Prod.fst, final[index]? = items[index]? := by
  induction entries generalizing items with
  | nil => exact ⟨items, rfl, rfl, by simp, by simp⟩
  | cons entry entries ih =>
      rw [List.map_cons, List.nodup_cons] at nodup
      obtain ⟨final, ran, length, stored, kept⟩ := ih (items.set entry.1 entry.2) nodup.2
        fun other member => by simpa using inRange other (by simp [member])
      have inside := inRange entry (by simp)
      refine ⟨final, ?_, by simpa using length, ?_, ?_⟩
      · rw [List.foldlM_cons, setAt, if_pos inside]
        exact ran
      · intro other member
        rcases List.mem_cons.mp member with rfl | member
        · rw [kept _ nodup.1, List.getElem?_set_self inside]
        · exact stored other member
      · intro index absent
        rw [List.map_cons, List.mem_cons, not_or] at absent
        rw [kept index absent.2, List.getElem?_set_ne (Ne.symm absent.1)]

/-- `pos` is the inverse of the order. -/
theorem orderPositions {order : List Nat} {nCells : Nat} (perm : order.Perm (List.range nCells)) :
    ∃ pos, order.zipIdx.foldlM (fun pos entry => setAt pos entry.1 entry.2)
        (List.replicate nCells 0) = some pos ∧ pos.length = nCells ∧
      ∀ index id : Nat, pos[id]? = some index ↔ order[index]? = some id := by
  have keys : order.zipIdx.map Prod.fst = order := List.zipIdx_map_fst 0 order
  have nodup : order.Nodup := perm.nodup_iff.mpr List.nodup_range
  have small : ∀ id ∈ order, id < nCells := fun id member => List.mem_range.mp (perm.mem_iff.mp member)
  obtain ⟨pos, ran, length, stored, -⟩ := foldlM_setAt order.zipIdx (List.replicate nCells 0)
    (by rwa [keys]) fun entry member => by
      rw [List.length_replicate]
      exact small _ (keys ▸ List.mem_map_of_mem (f := Prod.fst) member)
  rw [List.length_replicate] at length
  have inverse {index id : Nat} (entry : order[index]? = some id) : pos[id]? = some index :=
    stored (id, index) (List.mk_mem_zipIdx_iff_getElem?.mpr entry)
  refine ⟨pos, ran, length, fun index id => ⟨fun entry => ?_, inverse⟩⟩
  have inside : id < nCells := length ▸ (List.getElem?_eq_some_iff.mp entry).1
  obtain ⟨other, found⟩ := List.mem_iff_getElem?.mp (perm.mem_iff.mpr (List.mem_range.mpr inside))
  obtain rfl : other = index := Option.some.inj ((inverse found).symm.trans entry)
  exact found

/-- The entry of a cell at its new place: each ref is the place of its old number. -/
def relabel (order : List Nat) (myCell : MyCell) : MyCell :=
  { myCell with
    refs := (myCell.refs.take myCell.cntRefs).map (fun ref => order.idxOf ref) ++
      myCell.refs.drop myCell.cntRefs }

/-- The used references are relabelled one by one. -/
theorem relabel_usedRefs {order ids : List Nat} {myCell : MyCell} (used : myCell.usedRefs = some ids) :
    (relabel order myCell).usedRefs = some (ids.map fun ref => order.idxOf ref) := by
  rw [MyCell.usedRefs] at used
  split_ifs at used with room
  obtain rfl := Option.some.inj used
  have count : myCell.cntRefs = ((myCell.refs.take myCell.cntRefs).map
      fun ref => order.idxOf ref).length := by
    rw [List.length_map, List.length_take, Nat.min_eq_left room]
  have replaced := usedRefs_replace count
  rwa [← count] at replaced

/-- The place of a cell in an order. -/
theorem idxOf_eq_iff {order : List Nat} {nCells index id : Nat}
    (perm : order.Perm (List.range nCells)) (inside : id < nCells) :
    order.idxOf id = index ↔ order[index]? = some id := by
  have member : id ∈ order := perm.mem_iff.mpr (List.mem_range.mpr inside)
  have here : order[order.idxOf id]? = some id := by
    rw [List.getElem?_eq_getElem (List.idxOf_lt_length_of_mem member), List.getElem_idxOf]
  constructor
  · intro same
    exact same ▸ here
  · intro entry
    have nodup : order.Nodup := perm.nodup_iff.mpr List.nodup_range
    exact (List.getElem?_inj (List.idxOf_lt_length_of_mem member) nodup).mp (here.trans entry.symm)

/-- The refs of a cell renumbered through the places of an order. -/
theorem renumber_eq {order pos ids : List Nat} {myCell : MyCell}
    (used : myCell.usedRefs = some ids) (place : ∀ id ∈ ids, pos[id]? = some (order.idxOf id)) :
    (do
      let refs ← myCell.usedRefs
      let refs ← refs.mapM fun ref => pos[ref]?
      some { myCell with refs := refs ++ myCell.refs.drop refs.length } : Option MyCell) =
      some (relabel order myCell) := by
  have looked := OptionList.mapM_eq_map place
  rw [MyCell.usedRefs] at used ⊢
  split_ifs at used ⊢ with room
  obtain rfl := Option.some.inj used
  simp only [Option.bind_eq_bind, Option.bind_some, looked, relabel, List.length_map,
    List.length_take, Nat.min_eq_left room]

/-- No two numbers have the same place. -/
theorem places_nodup {order pos : List Nat}
    (inverse : ∀ index id : Nat, pos[id]? = some index ↔ order[index]? = some id) : pos.Nodup := by
  rw [List.nodup_iff_getElem?_ne_getElem?]
  intro first second before inside same
  obtain ⟨index, entry⟩ : ∃ index, pos[second]? = some index := ⟨_, List.getElem?_eq_getElem inside⟩
  have earlier := (inverse index first).mp (same.trans entry)
  rw [(inverse index second).mp entry, Option.some.injEq] at earlier
  omega

/-- `apply_order` moves each cell to its place in the order. -/
theorem applyOrder_relabels {myCells : List MyCell} {order : List Nat}
    (perm : order.Perm (List.range myCells.length))
    (used : ∀ myCell ∈ myCells, ∃ ids, myCell.usedRefs = some ids ∧ ∀ id ∈ ids, id < myCells.length) :
    ∃ newMyCells, applyOrder myCells order = some newMyCells ∧
      List.Forall₂ (fun newMyCell id => myCells[id]?.map (relabel order) = some newMyCell)
        newMyCells order := by
  have orderLength : order.length = myCells.length := by simpa using perm.length_eq
  obtain ⟨pos, ranPos, posLength, inverse⟩ := orderPositions perm
  have place {id : Nat} (inside : id < myCells.length) : pos[id]? = some (order.idxOf id) :=
    (inverse _ id).mpr ((idxOf_eq_iff perm inside).mp rfl)
  -- the refs are renumbered
  have renumbered : ∀ myCell ∈ myCells, (do
      let refs ← myCell.usedRefs
      let refs ← refs.mapM fun ref => pos[ref]?
      some { myCell with refs := refs ++ myCell.refs.drop refs.length } : Option MyCell) =
      some (relabel order myCell) := by
    intro myCell member
    obtain ⟨ids, found, inside⟩ := used myCell member
    exact renumber_eq found fun id inIds => place (inside id inIds)
  have updated := OptionList.mapM_eq_map renumbered
  -- the cells move to their places
  have keys : (((myCells.map (relabel order)).zip pos).map fun entry => (entry.2, some entry.1)).map
      Prod.fst = pos := by
    rw [List.map_map]
    exact List.map_snd_zip (by simp [posLength])
  have places : pos.Nodup := places_nodup inverse
  obtain ⟨final, ranFinal, finalLength, stored, -⟩ := foldlM_setAt
    (((myCells.map (relabel order)).zip pos).map fun entry => (entry.2, some entry.1))
    (List.replicate myCells.length none) (by rwa [keys]) fun entry member => by
      have inPos : entry.1 ∈ pos := keys ▸ List.mem_map_of_mem member
      obtain ⟨id, found⟩ := List.getElem?_of_mem inPos
      have inside := (List.getElem?_eq_some_iff.mp ((inverse entry.1 id).mp found)).1
      rw [List.length_replicate]
      omega
  rw [List.length_replicate] at finalLength
  have filled : List.Forall₂ (fun slot id => myCells[id]?.map (relabel order) = slot ∧ slot ≠ none)
      final order := by
    apply OptionList.forall₂_of_getElem? (finalLength.trans orderLength.symm)
    intro index slot id inFinal inOrder
    have inside : id < myCells.length := List.mem_range.mp (perm.subset (List.mem_of_getElem? inOrder))
    have entry : ((myCells.map (relabel order)).zip pos)[id]? = some
        (relabel order (myCells.get ⟨id, inside⟩), index) := by
      rw [List.getElem?_zip_eq_some]
      exact ⟨by simp [inside], (inverse index id).mpr inOrder⟩
    have found := stored _ (List.mem_map_of_mem (List.mem_of_getElem? entry))
    rw [inFinal, Option.some.injEq] at found
    simp [found, inside]
  obtain ⟨newMyCells, collected, related⟩ := OptionList.mapM_forall₂ (f := id)
    (Q := fun newMyCell id => myCells[id]?.map (relabel order) = some newMyCell) filled
    fun slot id _ ⟨same, nonempty⟩ => by
      obtain ⟨newMyCell, found⟩ := Option.ne_none_iff_exists'.mp nonempty
      exact ⟨newMyCell, found, same.trans found⟩
  refine ⟨newMyCells, ?_, related⟩
  rw [List.foldlM_map] at ranFinal
  simp only [Option.bind_eq_bind] at updated ranFinal
  simp only [applyOrder, check_of orderLength, ranPos, updated, Option.bind_eq_bind,
    Option.bind_some, ranFinal, collected]

/-- `apply_order` numbers the cells by their places in the order. -/
theorem applyOrder_spec {cells : List Cell} {myCells : List MyCell}
    (numbering : Numbering cells myCells) {order : List Nat}
    (perm : order.Perm (List.range myCells.length)) :
    ∃ newCells newMyCells, applyOrder myCells order = some newMyCells ∧
      List.Forall₂ (fun cell id => cells[id]? = some cell) newCells order ∧
      Numbering newCells newMyCells := by
  have sameLength := numbering.length_eq
  have inOrder {id : Nat} (member : id ∈ order) : id < cells.length :=
    sameLength ▸ List.mem_range.mp (perm.mem_iff.mp member)
  obtain ⟨newMyCells, applied, moved⟩ := applyOrder_relabels perm fun myCell member => by
    obtain ⟨index, look⟩ := List.getElem?_of_mem member
    obtain ⟨cell, _, numbered⟩ := OptionList.forall₂_getElem? numbering look
    obtain ⟨ids, found, related⟩ := numbered.refs
    refine ⟨ids, found, fun id inIds => ?_⟩
    obtain ⟨slot, place⟩ := List.getElem?_of_mem inIds
    obtain ⟨ref, _, entry⟩ := OptionList.forall₂_getElem? related place
    exact sameLength ▸ (List.getElem?_eq_some_iff.mp entry).1
  -- the cells in their new order
  obtain ⟨newCells, -, reordered⟩ := OptionList.mapM_exists order (f := (cells[·]?))
    (R := fun cell id => cells[id]? = some cell) fun id member =>
      ⟨cells.get ⟨id, inOrder member⟩, by simp [inOrder member], by simp [inOrder member]⟩
  have renumber {id : Nat} {ref : Cell} (entry : cells[id]? = some ref) :
      newCells[order.idxOf id]? = some ref := by
    have inside := (List.getElem?_eq_some_iff.mp entry).1
    have found := (idxOf_eq_iff perm (sameLength ▸ inside)).mp rfl
    obtain ⟨cell, newEntry, same⟩ := OptionList.forall₂_getElem? reordered.flip found
    rw [newEntry, ← same, entry]
  refine ⟨newCells, newMyCells, applied, reordered, ?_⟩
  apply OptionList.forall₂_of_getElem? (moved.length_eq.trans reordered.length_eq.symm)
  intro index newMyCell cell inNew inCells
  obtain ⟨id, found, entry⟩ := OptionList.forall₂_getElem? moved inNew
  obtain ⟨cell', look, same⟩ := OptionList.forall₂_getElem? reordered.flip found
  obtain rfl := Option.some.inj (inCells.symm.trans look)
  obtain ⟨myCell, old, rfl⟩ := Option.map_eq_some_iff.mp entry
  obtain ⟨other, look', holds, ids, used, related⟩ := OptionList.forall₂_getElem? numbering old
  obtain rfl := Option.some.inj (same.symm.trans look')
  refine ⟨holds.of_refs _, _, relabel_usedRefs used, ?_⟩
  rw [List.forall₂_map_left_iff]
  exact related.imp fun _ _ => renumber

/-- A new order lists the same cells. -/
theorem reordered_perm {cells newCells : List Cell} {order : List Nat}
    (perm : order.Perm (List.range cells.length))
    (reordered : List.Forall₂ (fun cell id => cells[id]? = some cell) newCells order) :
    newCells.Perm cells := by
  have looked : newCells.map some = order.map fun id => cells[id]? := by
    have equal := reordered.imp fun cell id entry => entry.symm
    rw [← List.forall₂_eq_eq_eq, List.forall₂_map_left_iff, List.forall₂_map_right_iff]
    exact equal
  have all : (List.range cells.length).map (fun id => cells[id]?) = cells.map some := by
    apply List.ext_getElem (by simp)
    intro index _ _
    simp
  have perms := perm.map fun id => cells[id]?
  rw [← looked, all] at perms
  exact (List.map_perm_map_iff (Option.some_injective _)).mp perms

end CellBag.Serializator
