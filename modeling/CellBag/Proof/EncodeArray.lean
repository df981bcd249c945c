import CellBag.Model.EncodeArray
import CellBag.Proof.Utils

/-!
Reading a packed table: exact for numbers of up to 31 bits, and only zeros beyond.
-/

namespace CellBag.EncodeArray
open BitString

/-- The width bounds the numbers. -/
theorem maxBits_le_iff (numbers : List Nat) (bound : Nat) :
    maxBits numbers ≤ bound ↔ ∀ num ∈ numbers, lenInBits num ≤ bound := by
  have run : ∀ widest, numbers.foldl (fun widest num => max widest (lenInBits num)) widest ≤ bound ↔
      widest ≤ bound ∧ ∀ num ∈ numbers, lenInBits num ≤ bound := by
    induction numbers with
    | nil => simp
    | cons num numbers ih =>
        intro widest
        rw [List.foldl_cons, ih]
        simp [and_assoc]
  rw [maxBits, run]
  simp

/-- The bits that `encode` stores. -/
def packedBits (numbers : List Nat) : List Bool :=
  ofNat 32 numbers.length ++ (ofNat 5 (maxBits numbers) ++
    numbers.flatMap (ofNat (maxBits numbers)))

/-- The head of 37 bits and the numbers. -/
theorem length_packedBits (numbers : List Nat) :
    (packedBits numbers).length = 37 + maxBits numbers * numbers.length := by
  simp [packedBits, List.length_flatMap, Nat.mul_comm]
  omega

/-- Words have at most 32 bits. -/
theorem maxBits_le_32 {numbers : List Nat} (words : ∀ num ∈ numbers, num < 2 ^ 32) :
    maxBits numbers ≤ 32 := by
  rw [maxBits_le_iff]
  intro num member
  have below := words num member
  exact (lenInBits_le_iff (by omega) (by decide)).mpr below

/-- The bits that `pack` writes fit in its buffer. -/
theorem packBits_eq {numbers : List Nat} (words : ∀ num ∈ numbers, num < 2 ^ 32) :
    packBits numbers = some ((BitPtr.start
      (8 * (4 + (maxBits numbers * numbers.length + 7) / 8 + 10))).push (packedBits numbers)) := by
  have run (width : Nat) (ptr : BitPtr) :
      numbers.foldl (fun ptr num => ptr.storeUint num width) ptr =
        ptr.push (numbers.flatMap (ofNat width)) := by
    clear words
    induction numbers generalizing ptr with
    | nil => simp
    | cons num numbers ih =>
        rw [List.foldl_cons, ih, BitPtr.storeUint_eq_push, BitPtr.push_push, List.flatMap_cons]
  rw [packBits, check_of (maxBits_le_32 words)]
  simp only [Option.bind_eq_bind, Option.bind_some, run]
  simp only [BitPtr.storeUint_eq_push, BitPtr.push_push, packedBits, List.append_assoc]

/-- `pack` returns the bytes of the packed bits. -/
theorem pack_eq {numbers : List Nat} (words : ∀ num ∈ numbers, num < 2 ^ 32) :
    pack numbers = some (toBytes ((37 + maxBits numbers * numbers.length + 7) / 8)
      (packedBits numbers)) := by
  rw [pack, packBits_eq words]
  simp [length_packedBits]

/-- The reader finds each number at its width. -/
theorem readNumbers_eq (width : Nat) (numbers : List Nat) (before after : List Bool) :
    readNumbers (before ++ (numbers.flatMap (ofNat width) ++ after)) width numbers.length
      before.length = some (numbers.map (· % 2 ^ width)) := by
  induction numbers generalizing before with
  | nil => rfl
  | cons num numbers ih =>
      have rest := ih (before ++ ofNat width num)
      rw [List.length_append, length_ofNat, List.append_assoc] at rest
      have first := getUint_append before (ofNat width num) (numbers.flatMap (ofNat width) ++ after)
      rw [length_ofNat, toNat_ofNat] at first
      rw [List.flatMap_cons, List.append_assoc, List.length_cons, readNumbers]
      simp [first, rest]

/-- Zero-width reads return zeros. -/
theorem readNumbers_zero (bits : List Bool) (count offs : Nat) (inside : offs ≤ bits.length) :
    readNumbers bits 0 count offs = some (List.replicate count 0) := by
  induction count with
  | zero => rfl
  | succ count ih => simp [readNumbers, getUint, inside, ih, List.replicate_succ]

/-- What the reader makes of the packed bytes: the width comes back modulo 32. -/
theorem readPacked_eq (numbers : List Nat) (after : List Bool) (count : numbers.length < 2 ^ 32) :
    let bits := packedBits numbers ++ after
    getUint bits 0 32 = some numbers.length ∧
      getUint bits 32 5 = some (maxBits numbers % 2 ^ 5) := by
  have first := getUint_append [] (ofNat 32 numbers.length)
    (ofNat 5 (maxBits numbers) ++ numbers.flatMap (ofNat (maxBits numbers)) ++ after)
  have second := getUint_append (ofNat 32 numbers.length) (ofNat 5 (maxBits numbers))
    (numbers.flatMap (ofNat (maxBits numbers)) ++ after)
  simp only [length_ofNat, toNat_ofNat, List.nil_append, List.length_nil, List.append_assoc] at first second
  rw [Nat.mod_eq_of_lt count] at first
  simp only [packedBits, List.append_assoc]
  exact ⟨first, second⟩

/-- Packing and unpacking a table gives it back exactly when no number needs 32 bits. -/
theorem decodeVector_encode_iff (library : PackLibrary) (numbers : List Nat)
    (words : ∀ num ∈ numbers, num < 2 ^ 32)
    (small : (32 + 5 + maxBits numbers * numbers.length + 7) / 8 ≤ 2 ^ 21)
    (lz4Inverse : ∀ buff, pack numbers = some buff → buff.length ≤ 2 ^ 21 →
      library.lz4Decompress (library.lz4Compress buff) (2 * 2 ^ 20) = some buff)
    (base64Inverse : ∀ buff, pack numbers = some buff → buff.length ≤ 2 ^ 21 →
      library.base64Decode (library.base64Encode (library.lz4Compress buff)) =
        some (library.lz4Compress buff)) :
    (encode library numbers).bind (decodeVector library) = some numbers ↔
      ∀ num ∈ numbers, num < 2 ^ 31 := by
  let buff := toBytes ((37 + maxBits numbers * numbers.length + 7) / 8) (packedBits numbers)
  have packed : pack numbers = some buff := pack_eq words
  have length : buff.length ≤ 2 ^ 21 := by simpa [buff] using small
  have stored := length_packedBits numbers
  have count : numbers.length < 2 ^ 32 := by
    by_cases empty : numbers = []
    · simp [empty]
    · obtain ⟨num, member⟩ := List.exists_mem_of_ne_nil _ empty
      have positive := lenInBits_pos num
      have wide := (maxBits_le_iff numbers _).mp (Nat.le_refl _) num member
      have product := Nat.mul_le_mul_right numbers.length (positive.trans_le wide)
      omega
  obtain ⟨after, unpacked⟩ : ∃ after, ofBytes buff = packedBits numbers ++ after :=
    ⟨_, ofBytes_toBytes_of_le (by omega)⟩
  obtain ⟨readCount, readWidth⟩ := readPacked_eq numbers after count
  have run : (encode library numbers).bind (decodeVector library) =
      readNumbers (packedBits numbers ++ after) (maxBits numbers % 2 ^ 5) numbers.length 37 := by
    simp only [encode, packed, decodeVector, Option.bind_eq_bind, Option.bind_some,
      base64Inverse buff packed length, lz4Inverse buff packed length, unpacked, readCount, readWidth]
  rw [run]
  constructor
  · intro same
    by_contra large
    have wide : maxBits numbers = 32 := by
      apply Nat.le_antisymm (maxBits_le_32 words)
      by_contra narrow
      refine large fun num member => ?_
      have below := words num member
      have short := (maxBits_le_iff numbers 31).mp (by omega) num member
      exact (lenInBits_le_iff (by omega) (by decide)).mp short
    rw [wide, show 32 % 2 ^ 5 = 0 from rfl,
      readNumbers_zero _ _ _ (by rw [List.length_append]; omega), Option.some.injEq] at same
    refine large fun num member => ?_
    rw [← same] at member
    rw [List.eq_of_mem_replicate member]
    decide
  · intro narrow
    have width : maxBits numbers ≤ 31 := by
      rw [maxBits_le_iff]
      intro num member
      have below := narrow num member
      exact (lenInBits_le_iff (by omega) (by decide)).mpr below
    have read := readNumbers_eq (maxBits numbers) numbers
      (ofNat 32 numbers.length ++ ofNat 5 (maxBits numbers)) after
    rw [Nat.mod_eq_of_lt (by omega : maxBits numbers < 2 ^ 5)]
    simp only [List.length_append, length_ofNat, List.append_assoc] at read
    simp only [packedBits, List.append_assoc]
    rw [read]
    have exact : numbers.map (· % 2 ^ maxBits numbers) = numbers := by
      refine (List.map_congr_left fun num member => ?_).trans (List.map_id _)
      have below := words num member
      have fits := (lenInBits_le_iff (by omega) (lenInBits_pos num)).mp (Nat.le_refl (lenInBits num))
      have wide := (maxBits_le_iff numbers _).mp (Nat.le_refl _) num member
      exact Nat.mod_eq_of_lt (fits.trans_le (Nat.pow_le_pow_right (by decide) wide))
    rw [exact]

/-- The base64 alphabet. -/
def base64Alphabet : List Char :=
  "ABCDEFGHIJKLMNOPQRSTUVWXYZabcdefghijklmnopqrstuvwxyz0123456789+/".toList

/-- Sextets of a bit string; the last one is padded with zeros. -/
def sextets : Nat → List Bool → List Nat
  | 0, _ => []
  | count + 1, bits =>
      toNat (bits.take 6 ++ List.replicate (6 - bits.length) false) :: sextets count (bits.drop 6)

/-- Base64 with padding, and the block that LZ4 makes of fewer than 13 bytes: one run of literals
behind a token that holds their number. -/
def shortLibrary : PackLibrary where
  lz4Compress bytes := UInt8.ofNat (16 * bytes.length) :: bytes
  lz4Decompress block size := match block with
    | token :: bytes =>
        if token.toNat = 16 * bytes.length ∧ bytes.length ≤ size then some bytes else none
    | [] => none
  base64Encode bytes :=
    let digits := (sextets ((8 * bytes.length + 5) / 6) (ofBytes bytes)).map
      fun digit => base64Alphabet.getD digit '='
    String.ofList (digits ++ List.replicate ((3 - bytes.length % 3) % 3) '=')
  base64Decode text := do
    let digits ← (text.toList.filter (· ≠ '=')).mapM fun digit => base64Alphabet.idxOf? digit
    some (toBytes (digits.length * 6 / 8) (digits.flatMap (ofNat 6)))

/-- The library gives back the packed form of `2 ^ 31`, but the reader makes zero of it. -/
theorem decodeVector_encode_ne :
    (∃ buff, pack [2 ^ 31] = some buff ∧ buff.length ≤ 2 ^ 21 ∧
      shortLibrary.base64Decode (shortLibrary.base64Encode (shortLibrary.lz4Compress buff)) =
        some (shortLibrary.lz4Compress buff) ∧
      shortLibrary.lz4Decompress (shortLibrary.lz4Compress buff) (2 * 2 ^ 20) = some buff) ∧
    (encode shortLibrary [2 ^ 31]).bind (decodeVector shortLibrary) = some [0] ∧
    (encode shortLibrary [2 ^ 31]).bind (decodeVector shortLibrary) ≠ some [2 ^ 31] := by
  refine ⟨⟨_, rfl, ?_, ?_, ?_⟩, ?_, ?_⟩ <;> decide +kernel

theorem decodeVector_encode_iff_small :
    (encode shortLibrary [5, 0, 9]).bind (decodeVector shortLibrary) = some [5, 0, 9] ↔
      ∀ num ∈ [5, 0, 9], num < 2 ^ 31 :=
  decodeVector_encode_iff shortLibrary [5, 0, 9] (by decide) (by decide)
    (by rintro buff packed -; obtain rfl := Option.some.inj packed; decide +kernel)
    (by rintro buff packed -; obtain rfl := Option.some.inj packed; decide +kernel)

end CellBag.EncodeArray
