import CellBag.Library.CodeTree
import CellBag.Model.Tables
import CellBag.Model.Utils

/-!
The Huffman coder of `huffman.hpp`.
-/

namespace CellBag.Huffman
open BitString

/-- A `Node` that is still in the set: its tree and the fields that order it. A `symbol` other
than `-1u` marks a leaf of the tree. -/
structure Node where
  tree : CodeTree Nat
  freq : Nat
  minSymbol : Nat
  minDepth : Nat

/-- `Node(symbol, freq)`. -/
def Node.ofSymbol (symbol freq : Nat) : Node := ⟨.leaf symbol, freq, symbol, 0⟩

/-- `Node(left, right)`; the `unsigned` sum may wrap and `min_symbol` starts at `-1u`. -/
def Node.ofPair (left right : Node) : Node where
  tree := .fork left.tree right.tree
  freq := (left.freq + right.freq) % 2 ^ 32
  minSymbol := min (min (2 ^ 32 - 1) left.minSymbol) right.minSymbol
  minDepth := min left.minDepth right.minDepth + 1

/-- The comparator of the set, for two different nodes. -/
def cmp (a b : Node) : Bool :=
  if a.freq ≠ b.freq then a.freq < b.freq
  else if a.minDepth ≠ b.minDepth then a.minDepth < b.minDepth
  else a.minSymbol < b.minSymbol

/-- `nodes.insert(node)` on the ordered set. The search for a node's place meets each equivalent
node, where `CHECK(a->min_symbol != b->min_symbol)` fails. -/
def insertNode (node : Node) : List Node → Option (List Node)
  | [] => some [node]
  | other :: rest =>
      if cmp node other then some (node :: other :: rest)
      else if cmp other node then (insertNode node rest).map (other :: ·)
      else none

/-- Each turn of `while (nodes.size() > 1)` replaces the two least nodes by their parent. -/
def mergeNodes : Nat → List Node → Option Node
  | _, [] => none
  | _, [root] => some root
  | 0, _ :: _ :: _ => none
  | fuel + 1, a :: b :: rest => do
      let nodes ← insertNode (Node.ofPair a b) rest
      mergeNodes fuel nodes

/-- The `dfs` that fills `codes` with the `uint64_t` code and its `uint8_t` length. -/
def dfs : CodeTree Nat → Nat → Nat → List (Nat × Nat) → Option (List (Nat × Nat))
  | .leaf symbol, code, codeLength, codes => do
      check (codeLength ≤ 64)
      check (symbol < codes.length)
      some (codes.set symbol (code, codeLength))
  | .fork left right, code, codeLength, codes => do
      let codes ← dfs left (code * 2 % 2 ^ 64) ((codeLength + 1) % 2 ^ 8) codes
      dfs right ((code * 2 + 1) % 2 ^ 64) ((codeLength + 1) % 2 ^ 8) codes

structure HuffmanEncoderDecoder where
  codes : List (Nat × Nat)
  root : CodeTree Nat

namespace HuffmanEncoderDecoder

/-- The leaves enter the set in the order of their symbols; a zero frequency counts as one. -/
def leafNodes (freq : List Nat) : Option (List Node) :=
  freq.zipIdx.foldlM (fun nodes entry => insertNode (Node.ofSymbol entry.2 (max 1 entry.1)) nodes) []

/-- The constructor; `verbose` output is left out. -/
def ofFreq (freq : List Nat) : Option HuffmanEncoderDecoder := do
  let nodes ← leafNodes freq
  check (nodes ≠ [])
  let root ← mergeNodes nodes.length nodes
  let codes ← dfs root.tree 0 0 (List.replicate freq.length (0, 0))
  some ⟨codes, root.tree⟩

/-- `encode_symbol` returns the number of bits it stored. -/
def encodeSymbol (coder : HuffmanEncoderDecoder) (ptr : BitPtr) (s : Nat) :
    Option (Nat × BitPtr) := do
  let code ← coder.codes[s]?
  check (code.2 > 0)
  some (code.2, ptr.storeUint code.1 code.2)

/-- The loop of `decode_symbol`. No offset, an `int`, reaches the default `ptr_len = -1u`, so
the default is no cutoff at all. The answer `none` is the returned `-1u`. -/
def decodeLoop (bits : List Bool) (initialOffs : Nat) (ptrLen : Option Nat) :
    CodeTree Nat → Nat → Option (Option Nat × Nat)
  | .leaf symbol, offs => do
      check (∀ cutoff ∈ ptrLen, offs ≤ cutoff)
      some (some symbol, offs)
  | .fork left right, offs =>
      if ∃ cutoff ∈ ptrLen, cutoff ≤ offs then do
        check (ptrLen = some offs)
        some (none, initialOffs)
      else do
        match ← getBit bits offs with
        | true => decodeLoop bits initialOffs ptrLen right (offs + 1)
        | false => decodeLoop bits initialOffs ptrLen left (offs + 1)

/-- `decode_symbol` returns the symbol and the new offset. -/
def decodeSymbol (coder : HuffmanEncoderDecoder) (bits : List Bool) (offs : Nat)
    (ptrLen : Option Nat) : Option (Option Nat × Nat) :=
  decodeLoop bits offs ptrLen coder.root offs

end HuffmanEncoderDecoder

/-- The counting loops in front of the constructor: `++freq[byte]` of `build_huffman.cpp`, and `++cnt_d1[d1]`
and its like of `analyse.cpp`. -/
def countSymbols (kinds : Nat) (symbols : List Nat) : Option (List Nat) :=
  symbols.foldlM (fun freq s => do
    let count ← freq[s]?
    some (freq.set s ((count + 1) % 2 ^ 32))) (List.replicate kinds 0)

/-- The stores of `encode_8` into its buffer of `data.size() * 2` bytes. -/
def encode8Bits (data : List UInt8) : Option BitPtr := do
  let encoder ← HuffmanEncoderDecoder.ofFreq bytesFreq
  let bits ← data.foldlM (fun bits byte => (encoder.encodeSymbol bits byte.toNat).map Prod.snd)
    (BitPtr.start (8 * (data.length * 2)))
  some (bits.storeUint 1 1)

/-- `encode_8`. -/
def encode8 (data : List UInt8) : Option (List UInt8) := do
  let bits ← encode8Bits data
  -- `bits.offs + 7` is an `int`
  check (bits.offs + 7 < 2 ^ 31)
  let newSize := (bits.offs + 7) / 8
  check (data.length * 2 ≥ newSize)
  some (toBytes newSize bits.bits)

/-- The loop of `decode_8`; each turn reads at least one bit. -/
def decode8Loop (decoder : HuffmanEncoderDecoder) (bits : List Bool) (cntBits : Nat) :
    Nat → Nat → Option (List UInt8 × Nat)
  | 0, _ => none
  | fuel + 1, offs =>
      if offs < cntBits then do
        let (symbol, offs) ← decoder.decodeSymbol bits offs none
        let symbol ← symbol
        let (result, offs) ← decode8Loop decoder bits cntBits fuel offs
        some (UInt8.ofNat symbol :: result, offs)
      else some ([], offs)

/-- The bits that a reading `td::BitPtr` reaches with its `int` offset: a string ends with a zero byte. -/
def readable (data : List UInt8) : List Bool := (ofBytes (data ++ [0])).take (2 ^ 31)

/-- `decode_8`, together with the offset at which it stops. -/
def decode8 (data : List UInt8) : Option (List UInt8 × Nat) := do
  let decoder ← HuffmanEncoderDecoder.ofFreq bytesFreq
  let back ← data.getLast?
  check (back ≠ 0)
  let cntBits := match (List.range 8).find? fun tail => back.toNat.testBit tail with
    | some tail => wrapSub (data.length * 8) (tail + 1)
    | none => data.length * 8 % 2 ^ 32
  decode8Loop decoder (readable data) cntBits (cntBits + 1) 0

end CellBag.Huffman
