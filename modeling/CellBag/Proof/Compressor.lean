import CellBag.Library.Base64
import CellBag.Model.Compressor
import CellBag.Proof.ByteStream
import CellBag.Proof.RoundTrip

/-!
The whole program: the text of a bag comes back exactly if the depths of its Merkle cells fit.
-/

namespace CellBag.Serializator
open BitString Huffman

/-- `td::base64_decode` inverts `td::base64_encode`, and only no bytes have an empty text. -/
structure BagLibrary.Base64 (library : BagLibrary) : Prop where
  decode_encode : ∀ bytes, library.base64Decode (library.base64Encode bytes) = some bytes
  nonempty : ∀ bytes, library.base64Encode bytes = [] → bytes = []

/-- The text that the library writes for a root in mode 31, and reads the root from. -/
structure BagLibrary.Writes (library : BagLibrary) (root : Cell) (text : List UInt8) : Prop where
  nonempty : text ≠ []
  data : ∃ data, library.base64Encode data = text ∧ library.stdBocDeserialize data = some root ∧
    ∀ vmCell, library.stdBocSerialize vmCell 31 = some data ↔ vmCell = root.toVm

/-- The cleared frequencies of the source are zero before. -/
theorem prepare_sourceTables : prepare sourceTables = sourceTables := by
  have same : (List.range MIN_MATCH_LEN).foldl (fun freq i => freq.set i 0) matchLenFreq =
      matchLenFreq := by decide +kernel
  exact congrArg (fun freq => { sourceTables with matchLenFreq := freq }) same

section Text
variable {library : BagLibrary} {tables : Tables} {root : Cell} {text lz bytes : List UInt8}

/-- `compress` gives the text of the bytes of `encode_8`, or what `serialize` has written. -/
theorem compress_eq (base64 : library.Base64) (writes : library.Writes root text)
    (written : serialize tables root = some lz) (encoded : encode8 lz = some bytes)
    (returnBeforeHuffman returnAfterSerialize : Bool) :
    compress library tables text returnBeforeHuffman returnAfterSerialize =
      some (if returnBeforeHuffman || returnAfterSerialize then lz else library.base64Encode bytes) := by
  obtain ⟨data, rfl, loaded, -⟩ := writes.data
  simp only [compress, check_of writes.nonempty, base64.decode_encode, loaded, written, encoded,
    Option.bind_eq_bind, Option.bind_some]
  cases returnBeforeHuffman <;> cases returnAfterSerialize <;> rfl

/-- `decompress` returns the text exactly if `deserialise` rebuilds the root. -/
theorem decompress_eq_iff (base64 : library.Base64) (writes : library.Writes root text)
    (decoded : ∃ last, decode8 bytes = some (lz, last)) :
    decompress library tables (library.base64Encode bytes) = some text ↔
      deserialise library.toCellLibrary tables lz = some root.toVm := by
  obtain ⟨data, rfl, -, stored⟩ := writes.data
  obtain ⟨last, decoded⟩ := decoded
  have nonempty : library.base64Encode bytes ≠ [] := by
    intro empty
    obtain rfl := base64.nonempty bytes empty
    obtain ⟨payload, marked⟩ := decode8_marked decoded
    have size := length_markedBytes payload
    rw [← marked, List.length_nil] at size
    omega
  have injective {first second : List UInt8}
      (same : library.base64Encode first = library.base64Encode second) : first = second := by
    have decodes := congrArg library.base64Decode same
    rwa [base64.decode_encode, base64.decode_encode, Option.some.injEq] at decodes
  rw [decompress, check_of nonempty, Option.bind_eq_bind, Option.bind_some, base64.decode_encode,
    Option.bind_eq_bind, Option.bind_some, decoded, Option.bind_eq_bind, Option.bind_some]
  simp only [Option.bind_eq_bind]
  constructor
  · intro run
    obtain ⟨vmCell, rebuilt, run⟩ := Option.bind_eq_some_iff.mp run
    obtain ⟨again, serialised, run⟩ := Option.bind_eq_some_iff.mp run
    obtain rfl := injective (Option.some.inj run)
    rw [rebuilt, (stored vmCell).mp serialised]
  · intro rebuilt
    rw [rebuilt, Option.bind_some, (stored root.toVm).mpr rfl, Option.bind_some]

/-- `main` reports that the text is the same exactly if `decompress` returns it. -/
theorem main_eq_iff {compressed : List UInt8} (writes : library.Writes root text) {mode : String}
    (known : mode = "compress" ∨ mode = "decompress")
    (packed : compress library (prepare tables) text false false = some compressed) :
    main library tables mode text = some ⟨text.length, compressed.length, text.length, true⟩ ↔
      decompress library (prepare tables) compressed = some text := by
  simp only [main, check_of known, check_of writes.nonempty, packed, Option.bind_eq_bind,
    Option.bind_some]
  constructor
  · intro run
    obtain ⟨other, unpacked, run⟩ := Option.bind_eq_some_iff.mp run
    have same := (Report.mk.injEq .. ▸ Option.some.inj run).2.2.2
    rw [unpacked, eq_of_beq same]
  · intro unpacked
    rw [unpacked, Option.bind_some, beq_self_eq_true]

end Text

/-- The output of `serialize` is short enough for the offsets of `encode_8`. -/
theorem Serialized.length_lt {root : Cell} {bits : List Bool} {ptr : BitPtr} (serialized : Serialized root bits ptr)
    (inside : ptr.inside = true) {nCells : Nat} (few : nCells < 2 ^ BITS_FOR_N_CELLS)
    (short : bits.length ≤ nCells * 1147) : wordsLength (storedBytes ptr) + 8 < 2 ^ 31 := by
  have cells : nCells < 2 ^ 20 := few
  have words := wordsLength_le (storedBytes ptr)
  have room := serialized.size
  have bytes : (storedBytes ptr).length = (ptr.offs + 7) / 8 := length_toBytes _ _
  have stored : ptr.offs ≤ ptr.size := (BitPtr.inside_iff ptr).mp inside
  omega

/-- Where `serialize` has an output, `compress` has one, and `main` finds that the text comes back exactly if the
bits fit into `out_bytes` and there is no Merkle cell or the number of cells has two bytes. -/
theorem main_same_iff {library : BagLibrary} {original : LevelZero} {root : Cell} {text : List UInt8}
    (base64 : library.Base64) (writes : library.Writes root text) (bag : Bag original root)
    (rebuilds : Rebuilds library.toCellLibrary original root) :
    ∃ cells, Flattened root cells ∧ (cells.length < 2 ^ BITS_FOR_N_CELLS → ∃ bits ptr,
      Serialized root bits ptr ∧ ∀ lz, serialize sourceTables root = some lz → ∃ compressed,
        (∀ returnBeforeHuffman returnAfterSerialize,
          compress library sourceTables text returnBeforeHuffman returnAfterSerialize =
            some (if returnBeforeHuffman || returnAfterSerialize then lz else compressed)) ∧
        (decompress library sourceTables compressed = some text ↔
          bits.length ≤ 16 * lz.length ∧ DepthsFit root cells.length) ∧
        (∀ mode, mode = "compress" ∨ mode = "decompress" →
          (main library sourceTables mode text =
            some ⟨text.length, compressed.length, text.length, true⟩ ↔
              bits.length ≤ 16 * lz.length ∧ DepthsFit root cells.length)) ∧
        (encode8Bits lz).map BitPtr.inside = some true) := by
  obtain ⟨cells, flattened, runs⟩ := serialized_spec bag.coherent bag.valid
  refine ⟨cells, flattened, fun few => ?_⟩
  obtain ⟨newCells, bits, ptr, reader, parser, serialized, same, numbering, short, read, room⟩ := runs few
  refine ⟨bits, ptr, serialized, fun lz written => ?_⟩
  have output := serialized.written
  rw [written] at output
  split_ifs at output with inside
  obtain rfl := Option.some.inj output
  have rebuilt := bag.deserialise_iff rebuilds flattened same numbering read
  rw [room] at rebuilt
  obtain ⟨coder, built, codec, lengths⟩ := byteCoder_spec
  have nonempty : storedBytes ptr ≠ [] := by
    intro empty
    rw [empty] at read
    simp [readLz, LzReader.build] at read
  have small := serialized.length_lt inside few short
  have encoded := encode8_eq built codec lengths (storedBytes ptr)
  rw [if_pos ⟨nonempty, small⟩] at encoded
  have packed := compress_eq base64 writes written encoded
  have decoded := decode8_words built codec ((length_byteWords lengths _).symm ▸ small)
  have returned := (decompress_eq_iff base64 writes ⟨_, decoded⟩).trans rebuilt
  obtain ⟨stored, ran, held, -⟩ := encode8Bits_inside built codec lengths nonempty
  refine ⟨_, packed, returned, fun mode known => ?_, by rw [ran, Option.map_some, held]⟩
  have plain := packed false false
  rw [Bool.or_self, if_neg Bool.false_ne_true] at plain
  rw [← prepare_sourceTables] at plain returned
  exact (main_eq_iff writes known plain).trans returned

/-- The serialized bag: a header, an index of one offset, the cell, and a checksum. -/
def leafData : List UInt8 := [0xb5, 0xee, 0x9c, 0x72, 0xe1, 0x01, 0x01, 0x01, 0x00, 0x0e, 0x00, 0x1c,
  0x00, 0x18, 0xfd, 0x8e, 0x1d, 0x5d, 0xd9, 0x25, 0x89, 0x08, 0x2d, 0x85, 0x2a, 0x71, 0xd0, 0x9d, 0x95, 0xde]

/-- A library that knows one bag. -/
def leafLibrary : BagLibrary where
  toCellLibrary := plainLibrary
  base64Decode := Base64.decode
  base64Encode := Base64.encode
  stdBocDeserialize data := if data = leafData then some bytesLeaf else none
  stdBocSerialize
    | .mk false bits [], 31 => if bits = bytesLeaf.bits then some leafData else none
    | _, _ => none

theorem leafLibrary_writes : leafLibrary.Writes bytesLeaf (Base64.encode leafData) where
  nonempty empty := absurd (Base64.encode_eq_nil empty) (List.cons_ne_nil _ _)
  data := by
    have loaded : leafLibrary.stdBocDeserialize leafData = some bytesLeaf := by simp [leafLibrary]
    refine ⟨leafData, rfl, loaded, fun vmCell => ?_⟩
    have vm : bytesLeaf.toVm = .mk false bytesLeaf.bits [] := Cell.toVm_eq _
    rw [vm]
    rcases vmCell with ⟨isSpecial, bits, refs⟩
    cases isSpecial <;> cases refs <;> simp [leafLibrary]

theorem main_same_iff_leaf : ∃ compressed,
    compress leafLibrary sourceTables (Base64.encode leafData) false false = some compressed ∧
    decompress leafLibrary sourceTables compressed = some (Base64.encode leafData) ∧
    main leafLibrary sourceTables "compress" (Base64.encode leafData) =
      some ⟨40, compressed.length, 40, true⟩ := by
  obtain ⟨bits, metas, lz, handed, written, room⟩ := bytesLeaf_written
  obtain ⟨cells, flattened, runs⟩ := main_same_iff
    ⟨Base64.decode_encode, fun _ => Base64.encode_eq_nil⟩ leafLibrary_writes bytesLeaf_bag
    (plainLibrary_rebuilds bytesLeaf)
  obtain rfl := flattened.eq_single fun cell => Cell.leaf_reaches
  obtain ⟨_, ptr, ⟨⟨_, handed', -⟩, -, -⟩, returns⟩ := runs (by decide)
  obtain ⟨rfl, -⟩ := Prod.mk.inj (Option.some.inj (handed.symm.trans handed'))
  obtain ⟨compressed, packed, returned, same, -⟩ := returns lz written
  have fit : bits.length ≤ 16 * lz.length ∧ DepthsFit bytesLeaf 1 := ⟨room, leaf_fits _ _⟩
  exact ⟨compressed, packed false false, returned.mpr fit, (same "compress" (.inl rfl)).mpr fit⟩

end CellBag.Serializator
