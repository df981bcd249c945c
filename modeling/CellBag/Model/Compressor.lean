import CellBag.Model.Deserializer

/-!
The compressor of `serializator.hpp` and the program of `main.cpp`. Strings are byte strings.
-/

namespace CellBag.Serializator
open Huffman

/-- The calls of the library on texts and on serialized bags: `td::base64_decode`, `td::base64_encode`,
`vm::std_boc_deserialize` and `vm::std_boc_serialize` with its mode. -/
structure BagLibrary extends CellLibrary where
  base64Decode : List UInt8 → Option (List UInt8)
  base64Encode : List UInt8 → List UInt8
  stdBocDeserialize : List UInt8 → Option Cell
  stdBocSerialize : VmCell → Nat → Option (List UInt8)

section Compressor
variable (library : BagLibrary) (tables : Tables)

/-- `compress`; the flags cut it off before `encode_8`. -/
def compress (base64Data : List UInt8) (returnBeforeHuffman returnAfterSerialize : Bool) :
    Option (List UInt8) := do
  check (base64Data ≠ [])
  let data ← library.base64Decode base64Data
  let root ← library.stdBocDeserialize data
  let s ← serialize tables root
  if returnAfterSerialize then some s
  else if returnBeforeHuffman then some s
  else do
    let s ← encode8 s
    some (library.base64Encode s)

/-- `decompress`. -/
def decompress (base64Data : List UInt8) : Option (List UInt8) := do
  check (base64Data ≠ [])
  let data ← library.base64Decode base64Data
  let (s, _) ← decode8 data
  let root ← deserialise library.toCellLibrary tables s
  let serialisedProperly ← library.stdBocSerialize root 31
  some (library.base64Encode serialisedProperly)

/-- `prepare` clears the frequencies of the match lengths that do not occur. -/
def prepare : Tables :=
  { tables with
    matchLenFreq := (List.range MIN_MATCH_LEN).foldl (fun freq i => freq.set i 0) tables.matchLenFreq }

/-- What `main` prints: the three sizes and `initial == final`. -/
structure Report where
  initial : Nat
  compressed : Nat
  decompressed : Nat
  same : Bool
deriving DecidableEq, Repr

/-- `main` up to its first `return`; both modes run both directions. -/
def main (mode : String) (base64Data : List UInt8) : Option Report := do
  let tables := prepare tables
  check (mode = "compress" ∨ mode = "decompress")
  check (base64Data ≠ [])
  let compressed ← compress library tables base64Data false false
  let decompressed ← decompress library tables compressed
  some ⟨base64Data.length, compressed.length, decompressed.length, base64Data == decompressed⟩

end Compressor

end CellBag.Serializator
