import CellBag.Model.Utils

/-!
The arithmetic encoder and decoder of `rANS.hpp`.
-/

namespace CellBag.RANS

def totalFreq : Nat := 2 ^ 12

def boundX : Nat := 2 ^ (64 - 16)

/-- One turn of the loop that hands out the missing frequency. -/
def addOnes : List Nat → Nat → List Nat × Nat
  | [], total => ([], total)
  | f :: freq, total =>
      if total < totalFreq then
        let (freq, total) := addOnes freq (total + 1)
        ((f + 1) :: freq, total)
      else
        let (freq, total) := addOnes freq total
        (f :: freq, total)

/-- `while (total_freq_new < TOTAL_FREQ)`; on no frequencies it does not end. -/
def fillUp : Nat → List Nat → Nat → Option (List Nat)
  | 0, _, _ => none
  | fuel + 1, freq, total =>
      if total < totalFreq then
        let (freq, total) := addOnes freq total
        fillUp fuel freq total
      else some freq

/-- `normalize_freq`. -/
def normalizeFreq (freq : List Nat) : Option (List Nat) := do
  let freq := freq.map fun f => if f = 0 then 1 else f
  let totalFreqInitial := freq.sum % 2 ^ 32
  check (freq = [] ∨ totalFreqInitial ≠ 0)
  let freq := freq.map fun f => f * totalFreq % 2 ^ 64 / totalFreqInitial % 2 ^ 32
  let totalFreqNew := freq.sum % 2 ^ 32
  check (totalFreqNew ≤ totalFreq)
  fillUp (totalFreq + 1) freq totalFreqNew

/-- `get_cum_freq` after its first entries: `start` is the sum so far. -/
def getCumFreq (freq : List Nat) (start : Nat) : List Nat :=
  match freq with
  | [] => [start]
  | f :: rest => start :: getCumFreq rest ((start + f) % 2 ^ 32)

/-- The encoder with the members it inherits from `Arith`. -/
structure ArithEncoder where
  freq : List Nat
  cumFreq : List Nat
  seqLen : Nat
  symbolsAdded : Nat
  x : Nat
deriving DecidableEq

namespace ArithEncoder

/-- A fresh encoder. -/
def ofFreq (freq : List Nat) (seqLen : Nat) : Option ArithEncoder := do
  let freq ← normalizeFreq freq
  some ⟨freq, getCumFreq freq 0, seqLen, 0, 1⟩

/-- `shift_x` stores the low byte of `x` and drops it. -/
def shiftX (x : Nat) (ptr : BitPtr) : Nat × BitPtr := (x / 2 ^ 8, ptr.storeUint (x % 2 ^ 8) 8)

/-- `while (x >= BOUND_X) shift_x(ptr)`; a 64-bit `x` has eight bytes to shift. -/
def shiftWhile : Nat → Nat → BitPtr → Option (Nat × BitPtr)
  | 0, _, _ => none
  | fuel + 1, x, ptr =>
      if boundX ≤ x then
        let (x, ptr) := shiftX x ptr
        shiftWhile fuel x ptr
      else some (x, ptr)

/-- The loop over the final bytes. -/
def shiftTimes : Nat → Nat → BitPtr → Nat × BitPtr
  | 0, x, ptr => (x, ptr)
  | count + 1, x, ptr =>
      let (x, ptr) := shiftX x ptr
      shiftTimes count x ptr

/-- `encode_symbol`; a zero frequency would divide by zero. -/
def encodeSymbol (encoder : ArithEncoder) (ptr : BitPtr) (s : Nat) :
    Option (ArithEncoder × BitPtr) := do
  check (s < encoder.freq.length)
  check (encoder.symbolsAdded < encoder.seqLen)
  check (encoder.x ≥ 1)
  let f ← encoder.freq[s]?
  let c ← encoder.cumFreq[s]?
  check (f ≠ 0)
  let x := ((encoder.x - 1) / f * totalFreq + c + (encoder.x - 1) % f + 1) % 2 ^ 64
  let symbolsAdded := encoder.symbolsAdded + 1
  let (x, ptr) ← shiftWhile 8 x ptr
  let (x, ptr) := if symbolsAdded = encoder.seqLen then shiftTimes 8 x ptr else (x, ptr)
  some ({ encoder with symbolsAdded, x }, ptr)

/-- All calls of `encode_symbol` for a sequence, with one pointer. -/
def encodeSymbols (encoder : ArithEncoder) (ptr : BitPtr) (symbols : List Nat) :
    Option (ArithEncoder × BitPtr) :=
  symbols.foldlM (fun state s => state.1.encodeSymbol state.2 s) (encoder, ptr)

end ArithEncoder

/-- A fresh encoder for `seqLen` symbols that has been given the symbols so far. -/
def encodePart (freq : List Nat) (seqLen size : Nat) (symbols : List Nat) :
    Option (ArithEncoder × BitPtr) := do
  let encoder ← ArithEncoder.ofFreq freq seqLen
  encoder.encodeSymbols (BitPtr.start size) symbols

/-- The bits that a fresh encoder writes for a whole sequence. -/
def encode (freq : List Nat) (size : Nat) (symbols : List Nat) : Option (List Bool) :=
  (encodePart freq symbols.length size symbols).map fun state => state.2.bits

/-- The decoder with the members of `Arith` that it reads. -/
structure ArithDecoder where
  freq : List Nat
  cumFreq : List Nat
  x : Nat
deriving DecidableEq

namespace ArithDecoder

/-- `while (L + 1 != R)`: the last index in `[l, r)` whose cumulative frequency is at most `y`. -/
def searchLoop (cumFreq : List Nat) (y : Nat) : Nat → Nat → Nat → Option Nat
  | 0, _, _ => none
  | fuel + 1, l, r =>
      if l + 1 ≠ r then do
        let m := (l + r) / 2
        let c ← cumFreq[m]?
        if c ≤ y then searchLoop cumFreq y fuel m r else searchLoop cumFreq y fuel l m
      else some l

/-- The binary search of `decode_symbol`; every turn shortens the interval. -/
def search (decoder : ArithDecoder) (y : Nat) : Option Nat :=
  searchLoop decoder.cumFreq y (decoder.freq.length + 1) 0 decoder.freq.length

/-- `decode_symbol`, which leaves its pointer alone; the remainder is by the cumulative frequency. -/
def decodeSymbol (decoder : ArithDecoder) : Option ArithDecoder := do
  check (decoder.x ≥ 1)
  let y := (decoder.x - 1) % totalFreq
  let s ← decoder.search y
  let c ← decoder.cumFreq[s]?
  check (c ≤ y)
  let f ← decoder.freq[s]?
  check (c ≠ 0)
  some { decoder with x := ((decoder.x - 1) / totalFreq * f + (decoder.x - 1) % c) % 2 ^ 64 }

end ArithDecoder

end CellBag.RANS
