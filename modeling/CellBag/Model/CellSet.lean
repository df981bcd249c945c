import CellBag.Library.OrderedSet
import CellBag.Model.Cells

/-!
`initial_cell_order` with the searches of its `std::set`, whose comparator reads the degrees that the
loop changes.
-/

namespace CellBag.Serializator

/-- One turn of the loop over `who_refers[i]`: the element leaves the set while its degree changes. -/
def releaseInSet (whoRefers : List (List Nat)) (state : Ordering) (from_ : Nat) : Option Ordering := do
  let cells := OrderedSet.erase (orderCmp state.outDegree whoRefers) from_ state.cells
  let degree ← state.outDegree[from_]?
  check (degree > 0)
  let outDegree := state.outDegree.set from_ (degree - 1)
  some { state with
    outDegree
    cells := OrderedSet.insert (orderCmp outDegree whoRefers) from_ cells }

/-- `while (!cells.empty())` on the set in its order. -/
def orderSetLoop (whoRefers : List (List Nat)) : Nat → Ordering → Option (List Nat)
  | 0, _ => none
  | fuel + 1, state =>
      match state.cells with
      | [] => some state.order
      | i :: cells => do
          let degree ← state.outDegree[i]?
          check (degree = 0)
          let referrers ← whoRefers[i]?
          let state ← referrers.foldlM (releaseInSet whoRefers)
            { state with cells, order := state.order ++ [i] }
          orderSetLoop whoRefers fuel state

/-- `initial_cell_order` on the set in its order. -/
def initialCellOrderInSet (myCells : List MyCell) : Option (List Nat) := do
  let whoRefers ← whoRefersTo myCells
  let outDegree := myCells.map fun myCell => myCell.cntRefs % 2 ^ 8
  let cells := (List.range myCells.length).foldl
    (fun cells i => OrderedSet.insert (orderCmp outDegree whoRefers) i cells) []
  orderSetLoop whoRefers (myCells.length + 1) ⟨outDegree, cells, []⟩

end CellBag.Serializator
