import CellBag.Library.OrderedSet
import CellBag.Proof.FieldSizes
import CellBag.Proof.Flattening

/-!
The order of `initial_cell_order` lists each cell once, and the cells of a bag can be written.
-/

namespace CellBag.Serializator
open BitString Huffman

/-- The first cell is one of the cells. -/
theorem firstCell_mem {cmp : Nat → Nat → Bool} {cells : List Nat} {i : Nat}
    (first : firstCell cmp cells = some i) : i ∈ cells := by
  induction cells generalizing i with
  | nil => cases first
  | cons j rest ih =>
      rw [firstCell] at first
      cases tail : firstCell cmp rest with
      | none =>
          rw [tail, Option.some.injEq] at first
          exact first ▸ List.mem_cons_self
      | some k =>
          simp only [tail] at first
          split_ifs at first with less
          · rw [Option.some.injEq] at first
            exact List.mem_cons_of_mem _ (first ▸ ih tail)
          · rw [Option.some.injEq] at first
            exact first ▸ List.mem_cons_self

/-- Only an empty list has no first cell. -/
theorem firstCell_eq_none {cmp : Nat → Nat → Bool} {cells : List Nat}
    (empty : firstCell cmp cells = none) : cells = [] := by
  cases cells with
  | nil => rfl
  | cons j rest =>
      rw [firstCell] at empty
      cases tail : firstCell cmp rest with
      | none =>
          rw [tail] at empty
          cases empty
      | some k =>
          simp only [tail] at empty
          split_ifs at empty

/-- No cell stands before the first one. -/
theorem firstCell_least {cmp : Nat → Nat → Bool} (total : OrderedSet.Total cmp) {cells : List Nat}
    {i : Nat} (first : firstCell cmp cells = some i) : ∀ j ∈ cells, cmp j i = false := by
  induction cells generalizing i with
  | nil => cases first
  | cons j rest ih =>
      rw [firstCell] at first
      intro k member
      cases tail : firstCell cmp rest with
      | none =>
          rw [tail, Option.some.injEq] at first
          rw [firstCell_eq_none tail, List.mem_singleton] at member
          rw [member, first, total.irrefl]
      | some least =>
          simp only [tail] at first
          split_ifs at first with less
          · rw [Option.some.injEq] at first
            subst first
            rcases List.mem_cons.mp member with rfl | member
            · exact total.asymm less
            · exact ih tail k member
          · rw [Option.some.injEq] at first
            subst first
            rcases List.mem_cons.mp member with rfl | member
            · exact total.irrefl k
            · by_contra before
              rw [Bool.not_eq_false] at before
              have later := ih tail k member
              by_cases same : k = least
              · exact less (same ▸ before)
              · rcases total.total k least same with earlier | after
                · rw [later] at earlier
                  cases earlier
                · exact less (total.trans _ _ _ after before)

/-- The order and the set hold all cells, and an ordered cell has no ref left. -/
structure Ordered (nCells : Nat) (state : Ordering) : Prop where
  degrees : state.outDegree.length = nCells
  perm : (state.order ++ state.cells).Perm (List.range nCells)
  placed : ∀ i ∈ state.order, state.outDegree[i]? = some 0

section Order
variable {nCells : Nat} {state next : Ordering}

/-- Only a cell of the set still has refs to release. -/
theorem Ordered.release {referrer : Nat} (ordered : Ordered nCells state)
    (released : releaseCell state referrer = some next) : Ordered nCells next := by
  obtain ⟨degree, look, rest⟩ := Option.bind_eq_some_iff.mp released
  obtain ⟨_, positive, built⟩ := Option.bind_eq_some_iff.mp rest
  rw [check_eq_some] at positive
  obtain rfl := Option.some.inj built
  have unplaced : referrer ∉ state.order := by
    intro member
    rw [ordered.placed referrer member, Option.some.injEq] at look
    omega
  have inside : referrer < nCells := ordered.degrees ▸ (List.getElem?_eq_some_iff.mp look).1
  have waiting : referrer ∈ state.cells :=
    (List.mem_append.mp (ordered.perm.mem_iff.mpr (List.mem_range.mpr inside))).resolve_left unplaced
  constructor
  · rw [List.length_set, ordered.degrees]
  · exact ((List.perm_cons_erase waiting).symm.append_left _).trans ordered.perm
  · intro i member
    have different : referrer ≠ i := fun same => unplaced (same ▸ member)
    rw [List.getElem?_set_ne different, ordered.placed i member]

/-- The releases of all referring cells keep the state ordered. -/
theorem Ordered.releaseAll (referrers : List Nat) (ordered : Ordered nCells state)
    (released : referrers.foldlM releaseCell state = some next) : Ordered nCells next := by
  induction referrers generalizing state with
  | nil => exact Option.some.inj released ▸ ordered
  | cons referrer rest ih =>
      rw [List.foldlM_cons] at released
      obtain ⟨middle, first, later⟩ := Option.bind_eq_some_iff.mp released
      exact ih (ordered.release first) later

/-- A cell without open refs is placed. -/
theorem Ordered.place {i : Nat} (ordered : Ordered nCells state) (waiting : i ∈ state.cells)
    (free : state.outDegree[i]? = some 0) :
    Ordered nCells { state with cells := state.cells.erase i, order := state.order ++ [i] } := by
  constructor
  · exact ordered.degrees
  · have moved := List.perm_cons_erase waiting
    rw [List.append_assoc, List.singleton_append]
    exact (moved.symm.append_left _).trans ordered.perm
  · intro j member
    rcases List.mem_append.mp member with placed | last
    · exact ordered.placed j placed
    · rw [List.mem_singleton.mp last, free]

/-- Each turn moves one cell from the set to the order. -/
theorem orderLoop_perm {whoRefers : List (List Nat)} {order : List Nat} (fuel : Nat)
    (ordered : Ordered nCells state) (run : orderLoop whoRefers fuel state = some order) :
    order.Perm (List.range nCells) := by
  induction fuel generalizing state with
  | zero => cases run
  | succ fuel ih =>
      rw [orderLoop] at run
      cases first : firstCell (orderCmp state.outDegree whoRefers) state.cells with
      | none =>
          rw [first, Option.some.injEq] at run
          have perm := ordered.perm
          rw [firstCell_eq_none first, List.append_nil, run] at perm
          exact perm
      | some i =>
          simp only [first] at run
          obtain ⟨degree, look, run⟩ := Option.bind_eq_some_iff.mp run
          obtain ⟨_, zero, run⟩ := Option.bind_eq_some_iff.mp run
          obtain ⟨referrers, _, run⟩ := Option.bind_eq_some_iff.mp run
          obtain ⟨released, releases, run⟩ := Option.bind_eq_some_iff.mp run
          rw [check_eq_some] at zero
          exact ih ((ordered.place (firstCell_mem first) (zero ▸ look)).releaseAll referrers releases) run

end Order

/-- `initial_cell_order` lists each cell once. -/
theorem initialCellOrder_perm {myCells : List MyCell} {order : List Nat}
    (run : initialCellOrder myCells = some order) : order.Perm (List.range myCells.length) := by
  obtain ⟨whoRefers, _, run⟩ := Option.bind_eq_some_iff.mp run
  exact orderLoop_perm _ ⟨by simp, by simp, fun i member => absurd member List.not_mem_nil⟩ run

/-- The payload of a cell has at most its 1023 bits, that of a special cell at least two. -/
theorem Cell.length_payload {cell : Cell} (valid : cell.Valid) :
    cell.payload.length ≤ 1023 ∧ (cell.isSpecial = true → 2 ≤ cell.payload.length) := by
  have bits := valid.bits
  rw [Cell.payload]
  split_ifs with merkle
  · simp
  · rw [Cell.squeezed]
    split_ifs with special
    · have room := (valid.typeByte special).1
      rw [List.length_append, length_ofNat, List.length_drop]
      omega
    · exact ⟨bits, fun impossible => absurd impossible special⟩

/-- The cells of a bag can be written. -/
theorem Numbering.writable {cells : List Cell} {myCells : List MyCell}
    (numbering : Numbering cells myCells) (nonempty : cells ≠ [])
    (valid : ∀ cell ∈ cells, cell.Valid) : WritableCells myCells := by
  have entry : ∀ myCell ∈ myCells, ∃ cell ∈ cells, Numbered cells myCell cell := by
    intro myCell member
    obtain ⟨i, look⟩ := List.getElem?_of_mem member
    obtain ⟨cell, found, numbered⟩ := OptionList.forall₂_getElem? numbering look
    exact ⟨cell, List.mem_of_getElem? found, numbered⟩
  have sameLength : myCells.length = cells.length := numbering.length_eq
  constructor
  · rw [sameLength]
    exact List.length_pos_iff.mpr nonempty
  · intro myCell member
    obtain ⟨cell, inCells, numbered⟩ := entry myCell member
    obtain ⟨ids, used, _⟩ := numbered.refs
    have room : myCell.cntRefs ≤ myCell.refs.length := by
      by_contra outside
      rw [MyCell.usedRefs, if_neg outside] at used
      cases used
    exact ⟨numbered.holds.cntRefs ▸ (valid cell inCells).refs, room⟩
  · intro myCell member
    obtain ⟨cell, inCells, numbered⟩ := entry myCell member
    obtain ⟨short, long⟩ := Cell.length_payload (valid cell inCells)
    have holds := numbered.holds
    have bytes := holds.bytes
    refine ⟨holds.cntBits ▸ short, by omega, fun special => ?_⟩
    rw [holds.cntBits]
    exact long (holds.isSpecial ▸ special)
  · intro i myCell look ref member
    obtain ⟨cell, found, numbered⟩ := OptionList.forall₂_getElem? numbering look
    obtain ⟨ids, used, related⟩ := numbered.refs
    have room := used
    rw [MyCell.usedRefs] at used
    split_ifs at used
    obtain rfl := Option.some.inj used
    obtain ⟨k, at_⟩ := List.getElem?_of_mem member
    obtain ⟨child, inRefs, place⟩ := OptionList.forall₂_getElem? related at_
    refine ⟨sameLength ▸ (List.getElem?_eq_some_iff.mp place).1, ?_⟩
    intro equal
    subst equal
    rw [found, Option.some.injEq] at place
    have smaller := Cell.sizeOf_ref_lt (List.mem_of_getElem? inRefs)
    rw [place] at smaller
    exact Nat.lt_irrefl _ smaller

/-- A cell without refs. -/
def Cell.leaf (bits : List Bool) : Cell := .mk 0 false bits []

/-- A leaf has no other cells. -/
theorem Cell.leaf_reaches {bits : List Bool} {cell : Cell} (reaches : (Cell.leaf bits).Reaches cell) :
    cell = Cell.leaf bits := by
  rcases Cell.reaches_iff.mp reaches with same | ⟨ref, member, _⟩
  · exact same
  · cases member

/-- A leaf is coherent. -/
theorem Cell.leaf_coherent (bits : List Bool) : (Cell.leaf bits).Coherent := by
  intro first second reachesFirst reachesSecond _
  rw [Cell.leaf_reaches reachesFirst, Cell.leaf_reaches reachesSecond]

/-- A leaf is valid if its bits fit into a cell. -/
theorem Cell.leaf_valid {bits : List Bool} (short : bits.length ≤ 1023) :
    ∀ cell, (Cell.leaf bits).Reaches cell → cell.Valid := by
  intro cell reaches
  rw [Cell.leaf_reaches reaches]
  exact ⟨Nat.zero_le _, short, fun special => by cases special⟩

/-- The order of a single cell without refs. -/
theorem initialCellOrder_single {myCell : MyCell} (count : myCell.cntRefs = 0) :
    initialCellOrder [myCell] = some [0] := by
  simp [initialCellOrder, whoRefersTo, MyCell.usedRefs, count, orderLoop, firstCell, check]

/-- A root without other cells is flattened to itself. -/
theorem Flattened.eq_single {root : Cell} {cells : List Cell} (flattened : Flattened root cells)
    (alone : ∀ cell, root.Reaches cell → cell = root) : cells = [root] := by
  obtain ⟨rest, rfl⟩ := List.head?_eq_some_iff.mp flattened.head
  have nodup := flattened.nodup
  cases rest with
  | nil => rfl
  | cons cell rest =>
      rw [alone cell ((flattened.mem_iff cell).mp (by simp))] at nodup
      simp at nodup

/-- The bits of a bag of one cell. -/
theorem serializeBits_leaf {tables : Tables} (coders : Coders tables) {bits : List Bool}
    (short : bits.length ≤ 1023) : ∃ myCell, WritableCells [myCell] ∧
      streamBits coders [myCell] = coders.d1.word 0 ++ (coders.dataSize.word bits.length ++ bits) ∧
      serializeBits tables (Cell.leaf bits) =
        some (streamBits coders [myCell], streamMetas coders [myCell]) := by
  obtain ⟨cells, listed, converted, flattened, numbering⟩ :=
    convertToMyCells_spec (Cell.leaf_coherent bits) (Cell.leaf_valid short)
  obtain rfl := flattened.eq_single fun cell => Cell.leaf_reaches
  obtain ⟨myCell, rfl, numbered⟩ := OptionList.forall₂_single numbering
  obtain ⟨newCells, newMyCells, applied, reordered, newNumbering⟩ :=
    applyOrder_spec numbering (List.Perm.refl [0])
  obtain ⟨newCell, rfl, place⟩ := OptionList.forall₂_single reordered
  rw [List.getElem?_cons_zero, Option.some.injEq] at place
  subst place
  have writable := newNumbering.writable (List.cons_ne_nil _ _)
    fun cell member => Cell.leaf_valid short cell (List.mem_singleton.mp member ▸ Cell.reaches_refl _)
  obtain ⟨newMyCell, rfl, newNumbered⟩ := OptionList.forall₂_single newNumbering
  have holds := newNumbered.holds
  have refs : newMyCell.cntRefs = 0 := holds.cntRefs
  have special : newMyCell.isSpecial = false := holds.isSpecial
  have size : newMyCell.cntBits = bits.length := holds.cntBits
  have data : newMyCell.dataBits = bits := holds.data
  have d1 : newMyCell.d1 = 0 := by simp [MyCell.d1, refs, special]
  have stream : streamBits coders [newMyCell] =
      coders.d1.word 0 ++ (coders.dataSize.word bits.length ++ bits) := by
    simp [streamBits, fields, List.range_succ, fieldOf, passType, MyCell.fieldBits, d1, size, refs, data]
  have total := length_streamBits_le coders writable.storable
  rw [List.length_singleton] at total
  refine ⟨newMyCell, writable, stream, ?_⟩
  simp only [serializeBits, converted, initialCellOrder_single numbered.holds.cntRefs, applied,
    myCellsToBitStr_eq coders writable.storable, Option.bind_eq_bind, Option.bind_some]
  rw [bytesStrToBitStr_markedBytes (by omega), Option.bind_some]

end CellBag.Serializator
