import CellBag.Library.TopologicalOrder
import CellBag.Proof.Flattening

/-!
Rebuilding a bag of cells from its list: every cell is built once, after its refs.
-/

namespace CellBag.Serializator
open BitString

mutual

/-- A cell without its pointers: the same flag and bits, and the same refs in the same order. -/
def Cell.toVm : Cell → VmCell
  | .mk _ isSpecial bits refs => .mk isSpecial bits (refsToVm refs)

def refsToVm : List Cell → List VmCell
  | [] => []
  | ref :: refs => ref.toVm :: refsToVm refs

end

/-- The references are converted one by one. -/
theorem refsToVm_eq (refs : List Cell) : refsToVm refs = refs.map Cell.toVm := by
  induction refs with
  | nil => rfl
  | cons ref refs ih => rw [refsToVm, ih, List.map_cons]

/-- A cell is converted with its references. -/
theorem Cell.toVm_eq (cell : Cell) :
    cell.toVm = .mk cell.isSpecial cell.bits (cell.refs.map Cell.toVm) := by
  cases cell
  rw [Cell.toVm, refsToVm_eq]
  rfl

/-- The numbers of the refs of an entry. -/
def nextOf (myCells : List MyCell) (v : Nat) : List Nat :=
  ((myCells[v]?).bind MyCell.usedRefs).getD []

/-- The size of a numbered cell; refs have a smaller one. -/
noncomputable def rank (cells : List Cell) (v : Nat) : Nat := (cells[v]?).elim 0 sizeOf

section TopSort

variable {cells : List Cell} {myCells : List MyCell} (numbering : Numbering cells myCells)
include numbering

/-- The entry with a number in range. -/
theorem Numbering.entry {v : Nat} (inRange : v < myCells.length) :
    ∃ myCell cell, myCells[v]? = some myCell ∧ cells[v]? = some cell ∧ Holds myCell cell ∧
      myCell.usedRefs = some (nextOf myCells v) ∧
      List.Forall₂ (fun id ref => cells[id]? = some ref) (nextOf myCells v) cell.refs := by
  have entry : myCells[v]? = some myCells[v] := List.getElem?_eq_getElem inRange
  obtain ⟨cell, inCells, holds, ids, used, related⟩ := OptionList.forall₂_getElem? numbering entry
  have next : nextOf myCells v = ids := by simp [nextOf, entry, used]
  rw [← next] at used related
  exact ⟨_, cell, entry, inCells, holds, used, related⟩

/-- References are in the table and have a smaller rank. -/
theorem Numbering.next_lt {v w : Nat} (inRange : v < myCells.length) (member : w ∈ nextOf myCells v) :
    w < myCells.length ∧ rank cells w < rank cells v := by
  obtain ⟨_, cell, -, inCells, -, -, related⟩ := numbering.entry inRange
  obtain ⟨index, entry⟩ := List.getElem?_of_mem member
  obtain ⟨ref, inRefs, refEntry⟩ := OptionList.forall₂_getElem? related entry
  rw [rank, rank, refEntry, inCells]
  refine ⟨?_, Cell.sizeOf_ref_lt (List.mem_of_getElem? inRefs)⟩
  rw [numbering.length_eq]
  exact (List.getElem?_eq_some_iff.mp refEntry).1

/-- The vertices marked in `was`. -/
def Marked (was : List Bool) (v : Nat) : Prop := was[v]? = some true

omit numbering in
/-- A mark more. -/
theorem marked_set {was : List Bool} {v : Nat} (inRange : v < was.length) :
    Marked (was.set v true) = fun u => u = v ∨ Marked was u := by
  funext u
  rw [Marked, Marked, eq_iff_iff]
  by_cases same : u = v
  · simp [same, inRange]
  · rw [List.getElem?_set_ne (Ne.symm same)]
    simp [same]

omit numbering in
/-- A mark leaves one vertex less to mark. -/
theorem count_false_set {was : List Bool} {v : Nat} (fresh : was[v]? = some false) :
    (was.set v true).count false + 1 = was.count false := by
  obtain ⟨inside, isFalse⟩ := List.getElem?_eq_some_iff.mp fresh
  have positive : 0 < was.count false := List.count_pos_iff.mpr (List.mem_of_getElem? fresh)
  rw [List.count_set inside, isFalse]
  simp
  omega

/-- A call of `dfs` finishes its vertex and keeps the open ones. Each nested call has one vertex less
to mark, so the fuel lasts. -/
theorem topDfs_spec {fuel v : Nat} {was : List Bool} {order opened : List Nat}
    (sized : was.length = myCells.length)
    (search : Search (nextOf myCells) (Marked was) order opened)
    (inRange : v < myCells.length) (fresh : was[v]? = some false)
    (above : ∀ u ∈ opened, rank cells v < rank cells u)
    (enough : was.count false < fuel) :
    ∃ was' order', topDfs myCells fuel v (was, order) = some (was', order') ∧
      was'.length = myCells.length ∧ Search (nextOf myCells) (Marked was') order' opened ∧
      order <+: order' ∧ v ∈ order' ∧ was'.count false ≤ was.count false := by
  induction fuel generalizing v was order opened with
  | zero => omega
  | succ fuel ih =>
      obtain ⟨myCell, _, entry, -, -, used, -⟩ := numbering.entry inRange
      have unmarked : ¬ Marked was v := by simp [Marked, fresh]
      have entered := search.enter unmarked
      rw [← marked_set (sized ▸ inRange)] at entered
      have fewer := count_false_set fresh
      -- the refs are finished one after another
      obtain ⟨⟨was', order'⟩, ran, sized', search', grown, finished, count⟩ :=
        OptionList.foldlM_invariant (nextOf myCells v) (was.set v true, order)
          (fun state next => do
            let seen ← state.1[next]?
            if seen then some state else topDfs myCells fuel next state)
          (fun done state => state.1.length = myCells.length ∧
            Search (nextOf myCells) (Marked state.1) state.2 (v :: opened) ∧ order <+: state.2 ∧
            (∀ w ∈ done, w ∈ state.2) ∧ state.1.count false ≤ (was.set v true).count false)
          ⟨by simpa using sized, entered, List.prefix_refl _, by simp, Nat.le_refl _⟩ (by
            intro done w rest ⟨was', order'⟩ split ⟨sized', search', grown, finished, count⟩
            have member : w ∈ nextOf myCells v := by simp [split]
            obtain ⟨inside, lower⟩ := numbering.next_lt inRange member
            have aboveW : ∀ u ∈ v :: opened, rank cells w < rank cells u := by
              intro u inOpened
              rcases List.mem_cons.mp inOpened with rfl | inOpened
              · exact lower
              · exact lower.trans (above u inOpened)
            obtain ⟨seen, look⟩ : ∃ seen, was'[w]? = some seen :=
              ⟨_, List.getElem?_eq_getElem (sized' ▸ inside)⟩
            cases seen with
            | true =>
                refine ⟨(was', order'), by simp [look], sized', search', grown, ?_, count⟩
                intro u inDone
                rcases List.mem_append.mp inDone with inDone | last
                · exact finished u inDone
                · rw [List.mem_singleton.mp last]
                  exact search'.finished (rank cells) aboveW look
            | false =>
                obtain ⟨was'', order'', ran, sized'', search'', longer, reached, smaller⟩ :=
                  ih sized' search' inside look aboveW
                    (show was'.count false < fuel by simp only at count; omega)
                refine ⟨(was'', order''), by simp [look, ran], sized'', search'',
                  grown.trans longer, ?_, smaller.trans count⟩
                intro u inDone
                rcases List.mem_append.mp inDone with inDone | last
                · exact longer.subset (finished u inDone)
                · rw [List.mem_singleton.mp last]
                  exact reached)
      have once : v ∉ opened := fun member => Nat.lt_irrefl _ (above v member)
      refine ⟨was', order' ++ [v], ?_, sized', search'.leave once finished,
        grown.trans (List.prefix_append _ _), by simp, ?_⟩
      · simp only [topDfs, check_of inRange, fresh, entry, used, Option.bind_eq_bind,
          Option.bind_some] at ran ⊢
        rw [check_of trivial]
        simp only [Option.bind_some, ran]
      · simp only at count
        omega

/-- The top sort lists every number once, after the numbers of its refs. -/
theorem topSort_spec :
    ∃ order, topSort myCells = some order ∧ order.Perm (List.range myCells.length) ∧
      TopologicalOrder (nextOf myCells) order := by
  obtain ⟨⟨was, order⟩, ran, sized, search, all⟩ :=
    OptionList.foldlM_invariant (List.range myCells.length) (List.replicate myCells.length false, [])
      (fun state v => do
        let seen ← state.1[v]?
        if seen then some state else topDfs myCells (myCells.length + 1) v state)
      (fun done state => state.1.length = myCells.length ∧
        Search (nextOf myCells) (Marked state.1) state.2 [] ∧ ∀ v ∈ done, v ∈ state.2)
      ⟨by simp, by
        have none_ : Marked (List.replicate myCells.length false) = fun _ => False := by
          funext v
          simp [Marked, List.getElem?_replicate]
        rw [none_]
        exact Search.start, by simp⟩ (by
        intro done v rest ⟨was, order⟩ split ⟨sized, search, all⟩
        have inside : v < myCells.length := List.mem_range.mp (by rw [split]; simp)
        obtain ⟨seen, look⟩ : ∃ seen, was[v]? = some seen :=
          ⟨_, List.getElem?_eq_getElem (sized ▸ inside)⟩
        cases seen with
        | true =>
            refine ⟨(was, order), by simp [look], sized, search, ?_⟩
            intro u inDone
            rcases List.mem_append.mp inDone with inDone | last
            · exact all u inDone
            · rw [List.mem_singleton.mp last]
              exact search.finished id (by simp) look
        | false =>
            have enough : was.count false < myCells.length + 1 :=
              Nat.lt_succ_of_le (List.count_le_length.trans_eq sized)
            obtain ⟨was', order', ran, sized', search', longer, reached, -⟩ :=
              topDfs_spec numbering sized search inside look (by simp) enough
            refine ⟨(was', order'), by simp [look, ran], sized', search', ?_⟩
            intro u inDone
            rcases List.mem_append.mp inDone with inDone | last
            · exact longer.subset (all u inDone)
            · rw [List.mem_singleton.mp last]
              exact reached)
  have inRange : ∀ v ∈ order, v < myCells.length := fun v member => by
    have marked := (search.visited_iff v).mpr (.inl member)
    rw [Marked] at marked
    exact sized ▸ (List.getElem?_eq_some_iff.mp marked).1
  have perm : order.Perm (List.range myCells.length) := by
    rw [List.perm_ext_iff_of_nodup search.topological.nodup List.nodup_range]
    exact fun v => ⟨fun member => List.mem_range.mpr (inRange v member), all v⟩
  refine ⟨order, ?_, perm, search.topological⟩
  have length : order.length = myCells.length := by simpa using perm.length_eq
  simp only [topSort, Option.bind_eq_bind] at ran ⊢
  rw [ran]
  simp [check_of length]

/-- The loop over the order builds every cell, if each cell is handed to `store_bits` as it was and
the library builds it. -/
theorem buildCells_spec {library : CellLibrary} {order : List Nat}
    (topological : TopologicalOrder (nextOf myCells) order)
    (inRange : ∀ v ∈ order, v < myCells.length)
    (restores : ∀ myCell, ∀ cell ∈ cells, Holds myCell cell → ∃ data,
      storedBits library myCells.length myCell (cell.refs.map Cell.toVm) =
        some (data, cell.bits.length) ∧
      cell.bits.length ≤ 8 * data.length ∧ (ofBytes data).take cell.bits.length = cell.bits)
    (builds : ∀ cell ∈ cells, library.finalizeNovm cell.isSpecial cell.bits (cell.refs.map Cell.toVm) =
      some cell.toVm) :
    ∃ built, order.foldlM (buildCell library myCells) (List.replicate myCells.length none) =
      some built ∧
      ∀ v ∈ order, ∀ cell, cells[v]? = some cell → built[v]? = some (some cell.toVm) := by
  suffices run : ∃ built,
      order.foldlM (buildCell library myCells) (List.replicate myCells.length none) = some built ∧
      built.length = myCells.length ∧
      ∀ v ∈ order, ∀ cell, cells[v]? = some cell → built[v]? = some (some cell.toVm) by
    obtain ⟨built, ran, -, all⟩ := run
    exact ⟨built, ran, all⟩
  induction topological with
  | nil => exact ⟨_, rfl, by simp, by simp⟩
  | @snoc order v earlier fresh known ih =>
      obtain ⟨built, ran, sized, all⟩ := ih fun u member => inRange u (by simp [member])
      have inside : v < myCells.length := inRange v (by simp)
      obtain ⟨myCell, cell, entry, inCells, holds, used, related⟩ := numbering.entry inside
      have member := List.mem_of_getElem? inCells
      obtain ⟨data, stored, long, bits⟩ := restores myCell cell member holds
      -- the refs are built
      have refs : (nextOf myCells v).mapM (fun refId => (built[refId]?).join) =
          some (cell.refs.map Cell.toVm) := by
        obtain ⟨results, ranRefs, equal⟩ := OptionList.mapM_forall₂
          (f := fun refId => (built[refId]?).join) (Q := fun result ref => result = Cell.toVm ref)
          (P := fun id ref => id ∈ nextOf myCells v ∧ cells[id]? = some ref)
          ((List.forall₂_and_left _ _).mpr ⟨fun _ => id, related⟩)
          fun id ref _ ⟨inNext, refEntry⟩ =>
            ⟨ref.toVm, by rw [all id (known id inNext) ref refEntry]; rfl, rfl⟩
        have same : results = cell.refs.map Cell.toVm := by
          rw [← List.forall₂_eq_eq_eq]
          exact List.forall₂_map_right_iff.mpr equal
        rw [ranRefs, same]
      have turn : buildCell library myCells built v = some (built.set v (some cell.toVm)) := by
        simp only [buildCell, entry, used, refs, stored, check_of long, bits, holds.isSpecial,
          builds cell member, Option.bind_eq_bind, Option.bind_some]
        rw [check_of (by rw [Cell.toVm_eq]; rfl), check_of (by rw [Cell.toVm_eq]; rfl)]
        simp [setAt, sized, inside]
      refine ⟨built.set v (some cell.toVm), by simp [ran, turn], by simpa using sized, ?_⟩
      intro u inOrder other otherEntry
      by_cases same : u = v
      · subst same
        rw [List.getElem?_set_self (sized ▸ inside), ← Option.some.inj (inCells.symm.trans otherEntry)]
      · rw [List.getElem?_set_ne (Ne.symm same)]
        refine all u ?_ other otherEntry
        simpa [same] using inOrder

/-- A path of refs is a path of numbers. -/
theorem Numbering.reaches {root cell : Cell} (reaches : root.Reaches cell) {r : Nat}
    (rootEntry : cells[r]? = some root) :
    ∃ v, cells[v]? = some cell ∧
      Relation.ReflTransGen (fun v w => w ∈ nextOf myCells v) r v := by
  induction reaches with
  | refl => exact ⟨r, rootEntry, .refl⟩
  | tail _ member ih =>
      obtain ⟨v, entry, path⟩ := ih
      have inside : v < myCells.length := by
        rw [numbering.length_eq]
        exact (List.getElem?_eq_some_iff.mp entry).1
      obtain ⟨_, cell, -, inCells, -, -, related⟩ := numbering.entry inside
      obtain rfl := Option.some.inj (entry.symm.trans inCells)
      obtain ⟨index, inRefs⟩ := List.getElem?_of_mem member
      obtain ⟨id, inNext, refEntry⟩ := OptionList.forall₂_getElem? related.flip inRefs
      exact ⟨id, refEntry, path.tail (List.mem_of_getElem? inNext)⟩

end TopSort

/-- A list of the cells below a root is rebuilt to the root: the root comes last in every topological
order, since it reaches all cells. -/
theorem myCellsToVmRoot_spec {library : CellLibrary} {root : Cell} {cells : List Cell}
    {myCells : List MyCell} (numbering : Numbering cells myCells) (nodup : cells.Nodup)
    (mem_iff : ∀ cell, cell ∈ cells ↔ root.Reaches cell)
    (restores : ∀ myCell, ∀ cell ∈ cells, Holds myCell cell → ∃ data,
      storedBits library myCells.length myCell (cell.refs.map Cell.toVm) =
        some (data, cell.bits.length) ∧
      cell.bits.length ≤ 8 * data.length ∧ (ofBytes data).take cell.bits.length = cell.bits)
    (builds : ∀ cell ∈ cells, library.finalizeNovm cell.isSpecial cell.bits (cell.refs.map Cell.toVm) =
      some cell.toVm) :
    ∃ order, topSort myCells = some order ∧ order.Perm (List.range myCells.length) ∧
      TopologicalOrder (nextOf myCells) order ∧ myCellsToVmRoot library myCells = some root.toVm := by
  obtain ⟨order, sorted, perm, topological⟩ := topSort_spec numbering
  have inRange : ∀ v ∈ order, v < myCells.length := fun v member =>
    List.mem_range.mp (perm.mem_iff.mp member)
  obtain ⟨built, ran, all⟩ := buildCells_spec numbering topological inRange restores builds
  obtain ⟨r, rootEntry⟩ := List.getElem?_of_mem ((mem_iff root).mpr root.reaches_refl)
  have rootInside : r < myCells.length := by
    rw [numbering.length_eq]
    exact (List.getElem?_eq_some_iff.mp rootEntry).1
  have rootInOrder : r ∈ order := perm.mem_iff.mpr (List.mem_range.mpr rootInside)
  have last : order.getLast? = some r := by
    refine topological.getLast?_root rootInOrder fun v member => ?_
    obtain ⟨_, cell, -, inCells, -, -, -⟩ := numbering.entry (inRange v member)
    obtain ⟨w, entry, path⟩ :=
      numbering.reaches ((mem_iff cell).mp (List.mem_of_getElem? inCells)) rootEntry
    have inside := (List.getElem?_eq_some_iff.mp inCells).1
    rwa [← (List.getElem?_inj inside nodup).mp (inCells.trans entry.symm)] at path
  refine ⟨order, sorted, perm, topological, ?_⟩
  simp only [myCellsToVmRoot, sorted, ran, last, all r rootInOrder root rootEntry, Option.bind_eq_bind,
    Option.bind_some]
  rfl

/-- No cell is listed twice. -/
theorem Flattened.cells_nodup {root : Cell} {cells : List Cell} (flattened : Flattened root cells) :
    cells.Nodup := .of_map _ flattened.nodup

/-- All lists of the cells of a bag are the same up to their order. -/
theorem Flattened.perm {root : Cell} {cells others : List Cell} (flattened : Flattened root cells)
    (other : Flattened root others) : cells.Perm others :=
  (List.perm_ext_iff_of_nodup flattened.cells_nodup other.cells_nodup).mpr fun cell =>
    (flattened.mem_iff cell).trans (other.mem_iff cell).symm

/-- Flattening a bag without Merkle cells, giving its cells any order, and rebuilding it returns the
root. The rebuilding builds every cell once, after its refs. -/
theorem myCellsToVmRoot_applyOrder (library : CellLibrary) (root : Cell) (coherent : root.Coherent)
    (plain : ∀ cell, root.Reaches cell → cell.Valid ∧ cell.isMerkle = false)
    (builds : ∀ cell, root.Reaches cell →
      library.finalizeNovm cell.isSpecial cell.bits (cell.refs.map Cell.toVm) = some cell.toVm) :
    ∃ cells myCells, convertToMyCells root = some myCells ∧ Flattened root cells ∧
      Numbering cells myCells ∧ ∀ order, order.Perm (List.range myCells.length) →
        ∃ newCells newMyCells buildOrder, applyOrder myCells order = some newMyCells ∧
          List.Forall₂ (fun cell id => cells[id]? = some cell) newCells order ∧
          Numbering newCells newMyCells ∧ topSort newMyCells = some buildOrder ∧
          buildOrder.Perm (List.range cells.length) ∧
          TopologicalOrder (nextOf newMyCells) buildOrder ∧
          myCellsToVmRoot library newMyCells = some root.toVm := by
  obtain ⟨cells, myCells, converted, flattened, numbering⟩ :=
    convertToMyCells_spec coherent fun cell reaches => (plain cell reaches).1
  refine ⟨cells, myCells, converted, flattened, numbering, fun order perm => ?_⟩
  obtain ⟨newCells, newMyCells, applied, reordered, newNumbering⟩ := applyOrder_spec numbering perm
  rw [numbering.length_eq] at perm
  have sameCells : newCells.Perm cells := reordered_perm perm reordered
  have mem_iff (cell : Cell) : cell ∈ newCells ↔ root.Reaches cell :=
    sameCells.mem_iff.trans (flattened.mem_iff cell)
  obtain ⟨buildOrder, sorted, built, topological, rebuilt⟩ := myCellsToVmRoot_spec newNumbering
    (sameCells.nodup_iff.mpr flattened.cells_nodup) mem_iff
    (fun myCell cell member holds => by
      obtain ⟨valid, noMerkle⟩ := plain cell ((mem_iff cell).mp member)
      exact holds.storedBits_plain valid noMerkle library _ _)
    fun cell member => builds cell ((mem_iff cell).mp member)
  rw [newNumbering.length_eq, sameCells.length_eq] at built
  exact ⟨newCells, newMyCells, buildOrder, applied, reordered, newNumbering, sorted, built, topological,
    rebuilt⟩

/-- A library that builds whatever is stored. -/
def plainLibrary : CellLibrary where
  getHash _ := List.replicate 32 0
  getDepth _ := 0
  finalizeNovm isSpecial bits refs := some (.mk isSpecial bits refs)
  length_getHash _ := by simp

def sharedLeaf : Cell := .mk 1 false [true, false, true] []

def sharedLibrary : Cell := .mk 2 true (ofNat 8 2 ++ [true, true]) [sharedLeaf]

/-- A root with two refs to one ordinary cell and a ref to a library cell. -/
def sharedRoot : Cell := .mk 3 false (List.replicate 88 true) [sharedLeaf, sharedLibrary, sharedLeaf]

/-- A leaf reaches itself only. -/
theorem sharedLeaf_reaches {cell : Cell} (reaches : sharedLeaf.Reaches cell) : cell = sharedLeaf := by
  rcases Cell.reaches_iff.mp reaches with same | ⟨ref, member, _⟩
  · exact same
  · simp [sharedLeaf, Cell.refs] at member

/-- The cells below the root. -/
theorem sharedRoot_reaches {cell : Cell} (reaches : sharedRoot.Reaches cell) :
    cell = sharedRoot ∨ cell = sharedLeaf ∨ cell = sharedLibrary := by
  rcases Cell.reaches_iff.mp reaches with same | ⟨ref, member, reaches⟩
  · exact .inl same
  · simp only [sharedRoot, Cell.refs, List.mem_cons, List.not_mem_nil, or_false] at member
    rcases member with rfl | rfl | rfl
    · exact .inr (.inl (sharedLeaf_reaches reaches))
    · rcases Cell.reaches_iff.mp reaches with same | ⟨ref, member, reaches⟩
      · exact .inr (.inr same)
      · simp only [sharedLibrary, Cell.refs, List.mem_singleton] at member
        exact .inr (.inl (sharedLeaf_reaches (member ▸ reaches)))
    · exact .inr (.inl (sharedLeaf_reaches reaches))

/-- Its cells have different addresses. -/
theorem sharedRoot_coherent : sharedRoot.Coherent := by
  intro first second reachesFirst reachesSecond same
  rcases sharedRoot_reaches reachesFirst with rfl | rfl | rfl <;>
    rcases sharedRoot_reaches reachesSecond with rfl | rfl | rfl <;>
    first | rfl | exact absurd same (by decide)

/-- Its cells are valid. -/
theorem sharedRoot_valid {cell : Cell} (reaches : sharedRoot.Reaches cell) : cell.Valid := by
  rcases sharedRoot_reaches reaches with rfl | rfl | rfl <;>
    exact ⟨by decide, by decide, by decide⟩

/-- It has no Merkle cell. -/
theorem sharedRoot_plain {cell : Cell} (reaches : sharedRoot.Reaches cell) : cell.isMerkle = false := by
  rcases sharedRoot_reaches reaches with rfl | rfl | rfl <;> decide

theorem myCellsToVmRoot_applyOrder_shared :
    ∃ myCells newMyCells, convertToMyCells sharedRoot = some myCells ∧
      applyOrder myCells [2, 0, 1] = some newMyCells ∧
      myCellsToVmRoot plainLibrary newMyCells = some sharedRoot.toVm := by
  obtain ⟨cells, myCells, converted, -, -, orders⟩ :=
    myCellsToVmRoot_applyOrder plainLibrary sharedRoot sharedRoot_coherent
      (fun _ reaches => ⟨sharedRoot_valid reaches, sharedRoot_plain reaches⟩)
      (by
        intro cell reaches
        rw [Cell.toVm_eq]
        rfl)
  have three : myCells.length = 3 := by
    have count : (convertToMyCells sharedRoot).map List.length = some 3 := by decide +kernel
    rwa [converted, Option.map_some, Option.some.injEq] at count
  obtain ⟨_, newMyCells, _, applied, -, -, -, -, -, rebuilt⟩ := orders [2, 0, 1] (by rw [three]; decide)
  exact ⟨myCells, newMyCells, converted, applied, rebuilt⟩

end CellBag.Serializator
