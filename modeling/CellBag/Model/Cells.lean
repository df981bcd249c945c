import CellBag.Model.Utils

/-!
The cells of `serializator.hpp`: flattening a bag of cells, ordering it, and rebuilding it.
-/

namespace CellBag.Serializator
open BitString

/-- `vm::CellTraits::SpecialType`. -/
inductive CellType
  | ordinary
  | prunnedBranch
  | library
  | merkleProof
  | merkleUpdate
deriving DecidableEq, Repr

/-- The cast of a number to the enumeration. -/
def CellType.ofNat? : Nat → Option CellType
  | 0 => some .ordinary
  | 1 => some .prunnedBranch
  | 2 => some .library
  | 3 => some .merkleProof
  | 4 => some .merkleUpdate
  | _ => none

/-- A loaded cell of the input bag. Its pointer `addr` identifies it; a shared cell occurs more than
once with the same pointer. -/
inductive Cell
  | mk (addr : Nat) (isSpecial : Bool) (bits : List Bool) (refs : List Cell)

namespace Cell

def addr : Cell → Nat | mk addr _ _ _ => addr
def isSpecial : Cell → Bool | mk _ isSpecial _ _ => isSpecial
def bits : Cell → List Bool | mk _ _ bits _ => bits
def refs : Cell → List Cell | mk _ _ _ refs => refs

/-- `special_type()`: the first byte of a special cell. -/
def specialType (cell : Cell) : Option CellType :=
  if cell.isSpecial then CellType.ofNat? (toNat (cell.bits.take 8)) else some .ordinary

end Cell

/-- A cell that `vm::CellBuilder` finalized. -/
inductive VmCell
  | mk (isSpecial : Bool) (bits : List Bool) (refs : List VmCell)

namespace VmCell

def isSpecial : VmCell → Bool | mk isSpecial _ _ => isSpecial
def bits : VmCell → List Bool | mk _ bits _ => bits
def refs : VmCell → List VmCell | mk _ _ refs => refs

end VmCell

/-- The calls of the cell library: `get_hash(0)` of 32 bytes, `get_depth(0)`, and
`finalize_novm_nothrow` of a builder with stored refs and bits. -/
structure CellLibrary where
  getHash : VmCell → List UInt8
  getDepth : VmCell → Nat
  finalizeNovm : Bool → List Bool → List VmCell → Option VmCell
  length_getHash : ∀ cell, (getHash cell).length = 256 / 8

structure MyCell where
  cntRefs : Nat
  refs : List Nat
  refsAsCells : List Cell
  isSpecial : Bool
  data : List UInt8
  cntBits : Nat

namespace MyCell

/-- `MyCell()`. -/
def default : MyCell where
  cntRefs := 2 ^ 32 - 1
  refs := List.replicate 4 0
  refsAsCells := []
  isSpecial := false
  data := []
  cntBits := 2 ^ 32 - 1

/-- `get_type`. -/
def getType (myCell : MyCell) : Option CellType :=
  if myCell.isSpecial then do
    let byte ← myCell.data[0]?
    let type ← CellType.ofNat? (byte.toNat / 2 ^ 6 + 1)
    check (type ≠ .ordinary)
    some type
  else some .ordinary

/-- `d1`. -/
def d1 (myCell : MyCell) : Nat := (myCell.cntRefs + 8 * myCell.isSpecial.toNat) % 2 ^ 8

/-- The used part of the array `refs` of four. -/
def usedRefs (myCell : MyCell) : Option (List Nat) :=
  if myCell.cntRefs ≤ myCell.refs.length then some (myCell.refs.take myCell.cntRefs) else none

/-- `while (bits_left > 0)`: `slice` holds the bits left. The first byte of a special cell is stored
in two bits. -/
def fetchLoop (isSpecial : Bool) : Nat → List Bool → Nat → BitPtr → Option (Nat × BitPtr)
  | 0, _, _, _ => none
  | fuel + 1, slice, cntBits, dataBitBuf =>
      if slice.length > 0 then
        let curBits := min slice.length 8
        let byte := toNat (slice.take curBits)
        if isSpecial ∧ dataBitBuf.offs = 0 then do
          check (curBits ≥ 8)
          check (byte ≠ 0)
          check (byte - 1 < 4)
          fetchLoop isSpecial fuel (slice.drop curBits) (cntBits - 6)
            (dataBitBuf.storeUint (byte - 1) 2)
        else
          fetchLoop isSpecial fuel (slice.drop curBits) cntBits (dataBitBuf.storeUint byte curBits)
      else some (cntBits, dataBitBuf)

/-- `MyCell(cell)`. -/
def ofCell (cell : Cell) : Option MyCell := do
  let cellType ← cell.specialType
  let isSpecial := decide (cellType ≠ .ordinary)
  let size := cell.bits.length
  let (cntBits, dataBitBuf) ←
    fetchLoop isSpecial (size + 1) cell.bits size (BitPtr.start (8 * ((size + 7) / 8)))
  let data := toBytes ((cntBits + 7) / 8) dataBitBuf.bits
  let cntRefs := cell.refs.length
  check (cntRefs ≤ 4)
  let merkle := cellType = .merkleUpdate ∨ cellType = .merkleProof
  some {
    cntRefs
    refs := List.replicate 4 0
    refsAsCells := cell.refs
    isSpecial
    data := if merkle then data.take 1 ++ List.replicate (1 - data.length) 0 else data
    cntBits := if merkle then 2 else cntBits }

end MyCell

/-- The variables of `convert_to_my_cells` that its `dfs` captures. -/
structure Conversion where
  myCells : List MyCell
  pos : List (Nat × Nat)

mutual

/-- The `dfs` of `convert_to_my_cells`. -/
def convertDfs : Cell → Conversion → Option Conversion
  | .mk addr isSpecial bits refs, state =>
      if (state.pos.lookup addr).isSome then some state
      else do
        let myCell ← MyCell.ofCell (.mk addr isSpecial bits refs)
        check (myCell.cntRefs ≤ 4)
        convertRefs refs ⟨state.myCells ++ [myCell], (addr, state.myCells.length) :: state.pos⟩

/-- The calls of `dfs` for the refs of a cell. -/
def convertRefs : List Cell → Conversion → Option Conversion
  | [], state => some state
  | ref :: refs, state => do
      let state ← convertDfs ref state
      convertRefs refs state

end

/-- The loop that fills `refs` from `refs_as_cells`. -/
def numberRefs (pos : List (Nat × Nat)) (cell : MyCell) : Option MyCell := do
  let refs ← cell.refsAsCells.mapM fun ref => pos.lookup ref.addr
  some { cell with refs := refs ++ cell.refs.drop refs.length }

/-- `convert_to_my_cells`. -/
def convertToMyCells (root : Cell) : Option (List MyCell) := do
  let state ← convertDfs root ⟨[], []⟩
  state.myCells.mapM (numberRefs state.pos)

/-- A store into a vector. -/
def setAt {α : Type} (items : List α) (index : Nat) (item : α) : Option (List α) :=
  if index < items.length then some (items.set index item) else none

/-- `apply_order`. A slot that stays null is dereferenced later. -/
def applyOrder (myCells : List MyCell) (order : List Nat) : Option (List MyCell) := do
  let nCells := myCells.length
  check (order.length = nCells)
  let pos ← order.zipIdx.foldlM (fun pos entry => setAt pos entry.1 entry.2)
    (List.replicate nCells 0)
  let myCells ← myCells.mapM fun myCell => do
    let refs ← myCell.usedRefs
    let refs ← refs.mapM fun ref => pos[ref]?
    some { myCell with refs := refs ++ myCell.refs.drop refs.length }
  let newMyCells ← (myCells.zip pos).foldlM (fun new entry => setAt new entry.2 (some entry.1))
    (List.replicate nCells none)
  newMyCells.mapM id

/-- The variables of the loop of `initial_cell_order`. The set `cells` is kept as a list. -/
structure Ordering where
  outDegree : List Nat
  cells : List Nat
  order : List Nat

/-- The comparator of the set `cells`. -/
def orderCmp (outDegree : List Nat) (whoRefers : List (List Nat)) (i j : Nat) : Bool :=
  if outDegree.getD i 0 ≠ outDegree.getD j 0 then outDegree.getD i 0 < outDegree.getD j 0
  else if (whoRefers.getD i []).length ≠ (whoRefers.getD j []).length then
    (whoRefers.getD i []).length > (whoRefers.getD j []).length
  else i < j

/-- `*cells.begin()`: the least element. -/
def firstCell (cmp : Nat → Nat → Bool) : List Nat → Option Nat
  | [] => none
  | i :: rest =>
      match firstCell cmp rest with
      | none => some i
      | some j => if cmp j i then some j else some i

/-- One turn of the loop over `who_refers[i]`; erasing and inserting keeps the element. -/
def releaseCell (state : Ordering) (from_ : Nat) : Option Ordering := do
  let degree ← state.outDegree[from_]?
  check (degree > 0)
  some { state with
    outDegree := state.outDegree.set from_ (degree - 1)
    cells := from_ :: state.cells.erase from_ }

/-- `while (!cells.empty())`. -/
def orderLoop (whoRefers : List (List Nat)) : Nat → Ordering → Option (List Nat)
  | 0, _ => none
  | fuel + 1, state =>
      match firstCell (orderCmp state.outDegree whoRefers) state.cells with
      | none => some state.order
      | some i => do
          let degree ← state.outDegree[i]?
          check (degree = 0)
          let referrers ← whoRefers[i]?
          let state ← referrers.foldlM releaseCell
            { state with cells := state.cells.erase i, order := state.order ++ [i] }
          orderLoop whoRefers fuel state

/-- The loop that fills `who_refers`. -/
def whoRefersTo (myCells : List MyCell) : Option (List (List Nat)) :=
  myCells.zipIdx.foldlM (fun whoRefers entry => do
      let refs ← entry.1.usedRefs
      refs.foldlM (fun whoRefers ref => do
          let referrers ← whoRefers[ref]?
          setAt whoRefers ref (referrers ++ [entry.2])) whoRefers)
    (List.replicate myCells.length [])

/-- `initial_cell_order`. -/
def initialCellOrder (myCells : List MyCell) : Option (List Nat) := do
  let whoRefers ← whoRefersTo myCells
  orderLoop whoRefers (myCells.length + 1)
    ⟨myCells.map fun myCell => myCell.cntRefs % 2 ^ 8, List.range myCells.length, []⟩

/-- The `dfs` of `my_cells_to_vm_root`: the state is `was` and `order`. -/
def topDfs (myCells : List MyCell) :
    Nat → Nat → List Bool × List Nat → Option (List Bool × List Nat)
  | 0, _, _ => none
  | fuel + 1, v, (was, order) => do
      check (v < myCells.length)
      let seen ← was[v]?
      check (seen = false)
      let myCell ← myCells[v]?
      let refs ← myCell.usedRefs
      let (was, order) ← refs.foldlM (fun state next => do
          let seen ← state.1[next]?
          if seen then some state else topDfs myCells fuel next state)
        (was.set v true, order)
      some (was, order ++ [v])

/-- The top sort of `my_cells_to_vm_root`; a chain of calls never repeats a cell. -/
def topSort (myCells : List MyCell) : Option (List Nat) := do
  let nCells := myCells.length
  let (_, order) ← (List.range nCells).foldlM (fun state v => do
      let seen ← state.1[v]?
      if seen then some state else topDfs myCells (nCells + 1) v state)
    (List.replicate nCells false, [])
  check (order.length = nCells)
  some order

/-- The data of a special cell with its type byte restored. -/
def restoreType (myCell : MyCell) : Option (List UInt8 × Nat) := do
  let byte ← myCell.data[0]?
  let cellTypeInt := byte.toNat / 2 ^ 6 + 1
  let cntBits := (myCell.cntBits + 6) % 2 ^ 32
  let newDataPtr := (BitPtr.start (8 * ((cntBits + 7) / 8))).storeUint cellTypeInt 8
  let newDataPtr ←
    pushBitRange (ofBytes myCell.data) newDataPtr 2 ((cntBits + 2 ^ 32 - 8) % 2 ^ 32)
  check newDataPtr.inside
  check (newDataPtr.offs = cntBits)
  some (toBytes ((cntBits + 7) / 8) newDataPtr.bits, newDataPtr.offs)

/-- The data of a Merkle cell with the hashes and then the depths of its refs. -/
def restoreMerkle (library : CellLibrary) (nCells : Nat) (refs : List VmCell) (data : List UInt8)
    (cntBits : Nat) : Option (List UInt8 × Nat) := do
  check (refs.length ≤ 2)
  check (data.length = 1)
  check (cntBits = 8)
  let bytesForIndexMax := lenInBytes nCells
  let size := 1 + 256 / 8 * 2 + 8 * bytesForIndexMax
  let dataPtr := (BitPtr.start (8 * size)).push (ofBytes data)
  let dataPtr := refs.foldl (fun dataPtr ref => (library.getHash ref).foldl
    (fun dataPtr byte => dataPtr.storeUint byte.toNat 8) dataPtr) dataPtr
  let dataPtr := refs.foldl
    (fun dataPtr ref => dataPtr.storeUint (library.getDepth ref) (bytesForIndexMax * 8)) dataPtr
  check dataPtr.inside
  some (toBytes size dataPtr.bits, dataPtr.offs)

/-- The `data` and `cnt_bits` that `my_cells_to_vm_root` hands to `store_bits`. -/
def storedBits (library : CellLibrary) (nCells : Nat) (myCell : MyCell) (refs : List VmCell) :
    Option (List UInt8 × Nat) := do
  let cellType ← myCell.getType
  let (data, cntBits) ←
    if myCell.isSpecial then restoreType myCell else some (myCell.data, myCell.cntBits)
  if cellType = .merkleUpdate ∨ cellType = .merkleProof then
    restoreMerkle library nCells refs data cntBits
  else some (data, cntBits)

/-- One turn of the loop that builds the cells. A null entry of `cells` is not `ready`. -/
def buildCell (library : CellLibrary) (myCells : List MyCell) (cells : List (Option VmCell))
    (i : Nat) : Option (List (Option VmCell)) := do
  let myCell ← myCells[i]?
  let refIds ← myCell.usedRefs
  let refs ← refIds.mapM fun refId => (cells[refId]?).join
  let (data, cntBits) ← storedBits library myCells.length myCell refs
  check (cntBits ≤ 8 * data.length)
  let cell ← library.finalizeNovm myCell.isSpecial ((ofBytes data).take cntBits) refs
  check (cell.isSpecial = myCell.isSpecial)
  check (cell.bits.length = cntBits)
  setAt cells i (some cell)

/-- `my_cells_to_vm_root`. -/
def myCellsToVmRoot (library : CellLibrary) (myCells : List MyCell) : Option VmCell := do
  let order ← topSort myCells
  let cells ← order.foldlM (buildCell library myCells) (List.replicate myCells.length none)
  let back ← order.getLast?
  (cells[back]?).join

end CellBag.Serializator
