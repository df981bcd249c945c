import CellBag.Model.Utils

/-!
The table packer of `encode_array.cpp` and its reader in `utils.h`.
-/

namespace CellBag.EncodeArray
open BitString

/-- The library calls of the packer; a `none` is an error that `move_as_ok` does not survive. -/
structure PackLibrary where
  lz4Compress : List UInt8 → List UInt8
  lz4Decompress : List UInt8 → Nat → Option (List UInt8)
  base64Encode : List UInt8 → String
  base64Decode : String → Option (List UInt8)

/-- `max_bits`. -/
def maxBits (numbers : List Nat) : Nat :=
  numbers.foldl (fun widest num => max widest (lenInBits num)) 0

/-- The stores of `encode` into its buffer. -/
def packBits (numbers : List Nat) : Option BitPtr := do
  let width := maxBits numbers
  check (width ≤ 32)
  let ptr := BitPtr.start (8 * (4 + (width * numbers.length + 7) / 8 + 10))
  let ptr := ptr.storeUint numbers.length (4 * 8)
  let ptr := ptr.storeUint width 5
  some (numbers.foldl (fun ptr num => ptr.storeUint num width) ptr)

/-- `buff` after `buff.resize((bit_ptr.offs + 7) / 8)`. -/
def pack (numbers : List Nat) : Option (List UInt8) := do
  let ptr ← packBits numbers
  some (toBytes ((ptr.offs + 7) / 8) ptr.bits)

/-- `encode`. -/
def encode (library : PackLibrary) (numbers : List Nat) : Option String := do
  let buff ← pack numbers
  some (library.base64Encode (library.lz4Compress buff))

/-- The loop of `decode_vector`. -/
def readNumbers (bits : List Bool) (width : Nat) : Nat → Nat → Option (List Nat)
  | 0, _ => some []
  | count + 1, offs => do
      let num ← getUint bits offs width
      let numbers ← readNumbers bits width count (offs + width)
      some (num :: numbers)

/-- `decode_vector`. -/
def decodeVector (library : PackLibrary) (base64 : String) : Option (List Nat) := do
  let data ← library.base64Decode base64
  let bytes ← library.lz4Decompress data (2 * 2 ^ 20)
  let bits := ofBytes bytes
  let n ← getUint bits 0 (4 * 8)
  let width ← getUint bits (4 * 8) 5
  readNumbers bits width n (4 * 8 + 5)

end CellBag.EncodeArray
