import CellBag.Library.OrderedSet
import CellBag.Model.Utils

/-!
The helpers of `utils_local.hpp`. Loop counters and sizes are natural numbers, but for the length that
`cnt_occurrences` stores in 32 bits and the counter of `pack_expanded_bits_to_bytes`.
-/

namespace CellBag

/-- The variables of the loop of `cnt_occurrences`. -/
structure ZState where
  z : List Nat
  l : Nat
  r : Nat
  cnt : Nat
deriving DecidableEq

/-- `if (i < r) z[i] = min(r - i, z[i - l])`. -/
def startMatch (state : ZState) (i : Nat) : Option Nat :=
  if i < state.r then state.z[i - state.l]?.map fun copied => min (state.r - i) copied
  else state.z[i]?

/-- `while (i + z[i] < n && s[z[i]] == s[i + z[i]])`; a turn lengthens `z[i]`. -/
def extendMatch (s : List UInt8) (n i : Nat) : Nat → Nat → Option Nat
  | 0, _ => none
  | fuel + 1, len =>
      if i + len < n then do
        let first ← s[len]?
        let second ← s[i + len]?
        if first = second then extendMatch s n i fuel (len + 1) else some len
      else some len

/-- One turn of `for (unsigned i = 1; i < n; i++)`. -/
def zTurn (sample s : List UInt8) (n : Nat) (state : ZState) (i : Nat) : Option ZState := do
  let len ← startMatch state i
  let len ← extendMatch s n i (n + 1) len
  let (l, r) := if i + len > state.r then (i, i + len) else (state.l, state.r)
  let cnt := if i ≥ sample.length ∧ len ≥ sample.length then state.cnt + 1 else state.cnt
  some ⟨state.z.set i len, l, r, cnt⟩

/-- The first turns of the loop. -/
def zLoop (sample s : List UInt8) (n turns : Nat) : Option ZState :=
  (List.range' 1 turns).foldlM (zTurn sample s n) ⟨List.replicate n 0, 0, 0, 0⟩

/-- `cnt_occurrences(sample, text)`. -/
def cntOccurrences (sample text : List UInt8) : Option Nat := do
  let s := sample ++ text
  let n := s.length % 2 ^ 32
  let state ← zLoop sample s n (n - 1)
  some state.cnt

/-- `out[i / 8] ^= 1u << (7 - i % 8)`. -/
def flipBit (out : List UInt8) (i : Nat) : Option (List UInt8) := do
  let byte ← out[i / 8]?
  some (out.set (i / 8) (byte ^^^ (1 <<< UInt8.ofNat (7 - i % 8))))

/-- The loop of `pack_expanded_bits_to_bytes` from index `i` on. -/
def packLoop : List UInt8 → Nat → List UInt8 → Option (List UInt8)
  | [], _, out => some out
  | bit :: data, i, out => do
      check (0 ≤ bit ∧ bit ≤ 1)
      let out ← (if bit ≠ 0 then flipBit out i else some out)
      packLoop data (i + 1) out

/-- `pack_expanded_bits_to_bytes`. -/
def packExpandedBitsToBytes (data : List UInt8) : Option (List UInt8) := do
  let n := data.length
  -- no `unsigned` counter reaches a size of `2 ^ 32`
  check (n < 2 ^ 32)
  let out ← packLoop data 0 (List.replicate (n / 8 + 1) 0)
  flipBit out n

/-- `was[cur] = 1`. -/
def markWindow (was : List Bool) (cur : Nat) : Option (List Bool) := do
  check (cur < was.length)
  some (was.set cur true)

/-- The turn of the outer loop of `get_min_bit_str_not_in` up to its search; `1u << len` needs a length
below 32. -/
def coverWindows (bits : List UInt8) (len : Nat) (was : List Bool) : Option (List Bool) := do
  check (len < 32)
  check (2 ^ len ≤ was.length)
  let was := List.replicate (2 ^ len) false ++ was.drop (2 ^ len)
  let coverMask := 2 ^ len - 1
  let cur := (bits.take len).foldl (fun cur bit => (cur * 2 + bit.toNat) % 2 ^ 32) 0
  let was ← markWindow was cur
  let (_, was) ← (bits.drop len).foldlM (fun (state : Nat × List Bool) bit => do
      let cur := (state.1 * 2 + bit.toNat) % 2 ^ 32 &&& coverMask
      let was ← markWindow state.2 cur
      some (cur, was)) (cur, was)
  some was

/-- `for (uint8_t len = 1; len <= bits.size(); ++len)`. -/
def minBitStrLoop (bits : List UInt8) : Nat → Nat → List Bool → Option Nat
  | 0, _, _ => none
  | fuel + 1, len, was =>
      if len ≤ bits.length then do
        let was ← coverWindows bits len was
        match (List.range (2 ^ len)).find? fun mask => was[mask]? = some false with
        | some mask => some (2 ^ len ^^^ mask)
        | none => minBitStrLoop bits fuel ((len + 1) % 2 ^ 8) was
      else none

/-- `get_min_bit_str_not_in`. -/
def getMinBitStrNotIn (bits : List UInt8) : Option Nat := do
  check (bits ≠ [])
  minBitStrLoop bits 256 1 (List.replicate (bits.length * 2) false)

/-- `DSU`: an entry of `par` is a parent, or the negated size of a component at its representative. -/
structure DSU where
  par : List Int
deriving DecidableEq

namespace DSU

/-- `DSU(n)`. -/
def new (n : Nat) : DSU := ⟨List.replicate n (-1)⟩

/-- The recursion of `get_comp`: the entries of the path are set on the way back. -/
def getCompFrom : Nat → List Int → Nat → Option (Nat × List Int)
  | 0, _, _ => none
  | fuel + 1, par, x => do
      let entry ← par[x]?
      if entry < 0 then some (x, par)
      else do
        let (comp, par) ← getCompFrom fuel par entry.toNat
        some (comp, par.set x comp)

/-- `get_comp`; a path does not repeat an element. -/
def getComp (dsu : DSU) (x : Nat) : Option (Nat × DSU) := do
  let (comp, par) ← getCompFrom dsu.par.length dsu.par x
  some (comp, ⟨par⟩)

/-- `unite`. -/
def unite (dsu : DSU) (x y : Nat) : Option (Bool × DSU) := do
  let (x, dsu) ← dsu.getComp x
  let (y, dsu) ← dsu.getComp y
  if x = y then some (false, dsu)
  else do
    let parX ← dsu.par[x]?
    let parY ← dsu.par[y]?
    let (x, y) := if -parX < -parY then (y, x) else (x, y)
    some (true, ⟨(dsu.par.set x (parX + parY)).set y x⟩)

/-- `comps.insert(get_comp(i))`. -/
def insertComp (state : List Nat × DSU) (i : Nat) : Option (List Nat × DSU) := do
  let (comp, dsu) ← state.2.getComp i
  some (OrderedSet.insert (fun a b => a < b) comp state.1, dsu)

/-- The set `comps` of `comp_sizes` and `cnt_comps`. -/
def comps (dsu : DSU) : Option (List Nat × DSU) :=
  (List.range dsu.par.length).foldlM insertComp ([], dsu)

/-- `comp_sizes`. -/
def compSizes (dsu : DSU) : Option (List Nat × DSU) := do
  let (comps, dsu) ← dsu.comps
  let sizes ← comps.mapM fun c => do
    let entry ← dsu.par[c]?
    some (-entry % 2 ^ 32).toNat
  some (sizes, dsu)

/-- `cnt_comps`. -/
def cntComps (dsu : DSU) : Option (Nat × DSU) := do
  let (comps, dsu) ← dsu.comps
  some (comps.length, dsu)

end DSU

end CellBag
