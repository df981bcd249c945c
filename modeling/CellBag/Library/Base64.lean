import Mathlib.Tactic

/-!
The base64 text of a byte string, padded to groups of four characters.
-/

namespace CellBag.Base64

/-- The character of a digit below 64. -/
def encodeDigit (digit : Nat) : UInt8 :=
  if digit < 26 then UInt8.ofNat (65 + digit)
  else if digit < 52 then UInt8.ofNat (71 + digit)
  else if digit < 62 then UInt8.ofNat (digit - 4)
  else if digit = 62 then 43
  else 47

/-- The digit of a character; the padding and other characters have none. -/
def decodeDigit (character : UInt8) : Option Nat :=
  let code := character.toNat
  if 65 ≤ code ∧ code < 91 then some (code - 65)
  else if 97 ≤ code ∧ code < 123 then some (code - 71)
  else if 48 ≤ code ∧ code < 58 then some (code + 4)
  else if code = 43 then some 62
  else if code = 47 then some 63
  else none

/-- The character that fills the last group. -/
def pad : UInt8 := 61

/-- A digit is read back from its character. -/
theorem decodeDigit_encodeDigit {digit : Nat} (small : digit < 64) :
    decodeDigit (encodeDigit digit) = some digit := by
  revert digit
  decide

/-- No digit has the character of the padding. -/
theorem encodeDigit_ne_pad {digit : Nat} (small : digit < 64) : encodeDigit digit ≠ pad := by
  revert digit
  decide

/-- Three bytes give four digits. -/
def encode : List UInt8 → List UInt8
  | [] => []
  | [a] => [encodeDigit (a.toNat / 4), encodeDigit (a.toNat % 4 * 16), pad, pad]
  | [a, b] => [encodeDigit (a.toNat / 4), encodeDigit (a.toNat % 4 * 16 + b.toNat / 16),
      encodeDigit (b.toNat % 16 * 4), pad]
  | a :: b :: c :: rest =>
      encodeDigit (a.toNat / 4) :: encodeDigit (a.toNat % 4 * 16 + b.toNat / 16) ::
        encodeDigit (b.toNat % 16 * 4 + c.toNat / 64) :: encodeDigit (c.toNat % 64) :: encode rest

/-- Four characters give three bytes, fewer where the last group is filled up. -/
def decode : List UInt8 → Option (List UInt8)
  | [] => some []
  | w :: x :: y :: z :: rest => do
      let p ← decodeDigit w
      let q ← decodeDigit x
      let a := UInt8.ofNat (p * 4 + q / 16)
      if y = pad ∧ z = pad ∧ rest = [] then some [a]
      else do
        let r ← decodeDigit y
        let b := UInt8.ofNat (q % 16 * 16 + r / 4)
        if z = pad ∧ rest = [] then some [a, b]
        else do
          let s ← decodeDigit z
          let more ← decode rest
          some (a :: b :: UInt8.ofNat (r % 4 * 64 + s) :: more)
  | _ => none

/-- A byte is that of its number. -/
theorem ofNat_of_toNat (byte : UInt8) {value : Nat} (same : value = byte.toNat) :
    UInt8.ofNat value = byte := by
  rw [same, UInt8.ofNat_toNat]

/-- The bytes are read back. -/
theorem decode_encode (bytes : List UInt8) : decode (encode bytes) = some bytes := by
  induction bytes using encode.induct with
  | case1 => rfl
  | case2 a =>
      have byteA := a.toNat_lt
      simp only [encode, decode, decodeDigit_encodeDigit (show a.toNat / 4 < 64 by omega),
        decodeDigit_encodeDigit (show a.toNat % 4 * 16 < 64 by omega), Option.bind_eq_bind,
        Option.bind_some, and_self, if_true]
      rw [ofNat_of_toNat a (by omega)]
  | case3 a b =>
      have byteA := a.toNat_lt
      have byteB := b.toNat_lt
      simp only [encode, decode, decodeDigit_encodeDigit (show a.toNat / 4 < 64 by omega),
        decodeDigit_encodeDigit (show a.toNat % 4 * 16 + b.toNat / 16 < 64 by omega),
        decodeDigit_encodeDigit (show b.toNat % 16 * 4 < 64 by omega),
        encodeDigit_ne_pad (show b.toNat % 16 * 4 < 64 by omega), Option.bind_eq_bind,
        Option.bind_some, false_and, if_false, and_self, if_true]
      rw [ofNat_of_toNat a (by omega), ofNat_of_toNat b (by omega)]
  | case4 a b c rest ih =>
      have byteA := a.toNat_lt
      have byteB := b.toNat_lt
      have byteC := c.toNat_lt
      simp only [encode, decode, decodeDigit_encodeDigit (show a.toNat / 4 < 64 by omega),
        decodeDigit_encodeDigit (show a.toNat % 4 * 16 + b.toNat / 16 < 64 by omega),
        decodeDigit_encodeDigit (show b.toNat % 16 * 4 + c.toNat / 64 < 64 by omega),
        decodeDigit_encodeDigit (show c.toNat % 64 < 64 by omega),
        encodeDigit_ne_pad (show b.toNat % 16 * 4 + c.toNat / 64 < 64 by omega),
        encodeDigit_ne_pad (show c.toNat % 64 < 64 by omega), ih, Option.bind_eq_bind,
        Option.bind_some, false_and, if_false]
      rw [ofNat_of_toNat a (by omega), ofNat_of_toNat b (by omega),
        ofNat_of_toNat c (by omega)]

/-- Only no bytes have an empty text. -/
theorem encode_eq_nil {bytes : List UInt8} (empty : encode bytes = []) : bytes = [] := by
  have decoded := decode_encode bytes
  rw [empty, decode, Option.some.injEq] at decoded
  exact decoded.symm

end CellBag.Base64
