import Mathlib.Tactic

/-!
Bit strings, most significant bit first, and their packing into bytes.
-/

namespace CellBag.BitString

/-- The low bits of a number, most significant first. -/
def ofNat : Nat → Nat → List Bool
  | 0, _ => []
  | width + 1, value => value.testBit width :: ofNat width value

/-- The number that the bits spell, most significant first. -/
def toNat (bits : List Bool) : Nat :=
  bits.foldl (fun value bit => 2 * value + bit.toNat) 0

/-- A word has its width. -/
@[simp] theorem length_ofNat (width value : Nat) : (ofNat width value).length = width := by
  induction width with
  | zero => rfl
  | succ width ih => simp [ofNat, ih]

/-- A chunk inside the bits has its length. -/
theorem length_chunk {bits : List Bool} {start count : Nat} (inside : count ≤ bits.length - start) :
    ((bits.drop start).take count).length = count := by
  rw [List.length_take, List.length_drop]
  exact Nat.min_eq_left inside

@[simp] theorem toNat_nil : toNat [] = 0 := rfl

/-- The fold shifts its start value past the remaining bits. -/
theorem foldl_start (bits : List Bool) (start : Nat) :
    bits.foldl (fun value bit => 2 * value + bit.toNat) start =
      start * 2 ^ bits.length + toNat bits := by
  induction bits generalizing start with
  | nil => simp
  | cons bit bits ih =>
      have whole : toNat (bit :: bits) = bit.toNat * 2 ^ bits.length + toNat bits := by
        rw [toNat, List.foldl_cons, ih]
        simp
      rw [List.foldl_cons, ih, whole, List.length_cons, pow_succ]
      ring

theorem toNat_cons (bit : Bool) (bits : List Bool) :
    toNat (bit :: bits) = bit.toNat * 2 ^ bits.length + toNat bits := by
  rw [toNat, List.foldl_cons, foldl_start]
  simp

/-- The number of two words, one behind the other. -/
theorem toNat_append (first second : List Bool) :
    toNat (first ++ second) = toNat first * 2 ^ second.length + toNat second := by
  rw [toNat, List.foldl_append, foldl_start]
  rfl

/-- A word is below the power of its length. -/
theorem toNat_lt (bits : List Bool) : toNat bits < 2 ^ bits.length := by
  induction bits with
  | nil => simp
  | cons bit bits ih =>
      rw [toNat_cons, List.length_cons, pow_succ]
      cases bit <;> simp <;> omega

/-- Storing and loading a number keeps its low bits. -/
theorem toNat_ofNat (width value : Nat) : toNat (ofNat width value) = value % 2 ^ width := by
  induction width with
  | zero => simp [ofNat, Nat.mod_one]
  | succ width ih =>
      rw [ofNat, toNat_cons, length_ofNat, ih, Nat.toNat_testBit, Nat.mod_pow_succ]
      ring

/-- A number that fits its width is read back. -/
theorem toNat_ofNat_of_lt {width value : Nat} (fits : value < 2 ^ width) :
    toNat (ofNat width value) = value := by
  rw [toNat_ofNat, Nat.mod_eq_of_lt fits]

/-- Bit strings of one length are equal when they spell the same number. -/
theorem toNat_injective {first second : List Bool} (sameLength : first.length = second.length)
    (sameValue : toNat first = toNat second) : first = second := by
  induction first generalizing second with
  | nil => exact (List.length_eq_zero_iff.mp sameLength.symm).symm
  | cons bit bits ih =>
      cases second with
      | nil => simp at sameLength
      | cons other others =>
          have lengths : bits.length = others.length := by simpa using sameLength
          have below := toNat_lt bits
          have otherBelow := toNat_lt others
          rw [toNat_cons, toNat_cons, lengths] at sameValue
          rw [lengths] at below
          have sameBit : bit = other := by
            cases bit <;> cases other <;> simp at sameValue ⊢ <;> omega
          subst other
          rw [ih lengths (by omega)]

/-- Loading and storing a number keeps its bits. -/
theorem ofNat_toNat (bits : List Bool) : ofNat bits.length (toNat bits) = bits := by
  apply toNat_injective (length_ofNat _ _)
  exact toNat_ofNat_of_lt (toNat_lt bits)

/-- A wide number is its high part followed by its low part. -/
theorem ofNat_add (high low value : Nat) :
    ofNat (high + low) value = ofNat high (value / 2 ^ low) ++ ofNat low value := by
  apply toNat_injective (by simp)
  rw [toNat_append, toNat_ofNat, toNat_ofNat, toNat_ofNat, length_ofNat, pow_add,
    Nat.mul_comm (2 ^ high), Nat.mod_mul]
  ring

/-- The bits of a byte string, byte after byte. -/
def ofBytes (bytes : List UInt8) : List Bool := bytes.flatMap fun byte => ofNat 8 byte.toNat

@[simp] theorem ofBytes_nil : ofBytes [] = [] := rfl

@[simp] theorem ofBytes_cons (byte : UInt8) (bytes : List UInt8) :
    ofBytes (byte :: bytes) = ofNat 8 byte.toNat ++ ofBytes bytes := rfl

theorem ofBytes_append (first second : List UInt8) :
    ofBytes (first ++ second) = ofBytes first ++ ofBytes second := List.flatMap_append

/-- Each byte has eight bits. -/
@[simp] theorem length_ofBytes (bytes : List UInt8) : (ofBytes bytes).length = 8 * bytes.length := by
  induction bytes with
  | nil => rfl
  | cons byte bytes ih => simp [ih]; omega

/-- The bits of a word are those of its number, the highest one first. -/
theorem getElem?_ofNat {width index : Nat} (inRange : index < width) (value : Nat) :
    (ofNat width value)[index]? = some (value.testBit (width - 1 - index)) := by
  induction width generalizing index with
  | zero => omega
  | succ width ih =>
      cases index with
      | zero => simp [ofNat]
      | succ index =>
          rw [ofNat, List.getElem?_cons_succ, ih (by omega)]
          congr 2
          omega

/-- Bit `i` of a byte string is bit `7 - i % 8` of byte `i / 8`. -/
theorem getElem?_ofBytes (bytes : List UInt8) (index : Nat) :
    (ofBytes bytes)[index]? =
      bytes[index / 8]?.map fun byte => byte.toNat.testBit (7 - index % 8) := by
  induction bytes generalizing index with
  | nil => simp
  | cons byte bytes ih =>
      rw [ofBytes_cons]
      by_cases first : index < 8
      · rw [List.getElem?_append_left (by simpa using first), getElem?_ofNat first,
          Nat.div_eq_of_lt first, Nat.mod_eq_of_lt first]
        rfl
      · have quotient : index / 8 = (index - 8) / 8 + 1 := by omega
        have remainder : index % 8 = (index - 8) % 8 := by omega
        rw [List.getElem?_append_right (by simp; omega), length_ofNat, ih, quotient, remainder,
          List.getElem?_cons_succ]

/-- The byte that eight bits spell; missing bits are zero. -/
def toByte (bits : List Bool) : UInt8 :=
  UInt8.ofNat (toNat (bits ++ List.replicate (8 - bits.length) false))

/-- The first bytes of a zeroed buffer that starts with the bits. -/
def toBytes : Nat → List Bool → List UInt8
  | 0, _ => []
  | count + 1, bits => toByte (bits.take 8) :: toBytes count (bits.drop 8)

@[simp] theorem length_toBytes (count : Nat) (bits : List Bool) :
    (toBytes count bits).length = count := by
  induction count generalizing bits with
  | zero => rfl
  | succ count ih => simp [toBytes, ih]

/-- A byte holds up to eight bits with zeros behind them. -/
theorem ofNat_toByte (bits : List Bool) (short : bits.length ≤ 8) :
    ofNat 8 (toByte bits).toNat = bits ++ List.replicate (8 - bits.length) false := by
  have length : (bits ++ List.replicate (8 - bits.length) false).length = 8 := by simp; omega
  have below := toNat_lt (bits ++ List.replicate (8 - bits.length) false)
  rw [length] at below
  apply toNat_injective (by rw [length_ofNat, length])
  rw [toByte, UInt8.toNat_ofNat', Nat.mod_eq_of_lt below, toNat_ofNat_of_lt below]

/-- The packed bytes hold the bits and then zeros. -/
theorem ofBytes_toBytes (count : Nat) (bits : List Bool) :
    ofBytes (toBytes count bits) =
      bits.take (8 * count) ++ List.replicate (8 * count - bits.length) false := by
  induction count generalizing bits with
  | zero => simp [toBytes]
  | succ count ih =>
      rw [toBytes, ofBytes_cons, ofNat_toByte _ (by simp), ih]
      by_cases full : 8 ≤ bits.length
      · have split : bits.take (8 * (count + 1)) =
            bits.take 8 ++ (bits.drop 8).take (8 * count) := by
          rw [← List.take_add, Nat.mul_succ, Nat.add_comm]
        simp only [List.length_take, List.length_drop, Nat.min_eq_left full, Nat.sub_self,
          List.replicate_zero, List.append_nil, split, List.append_assoc]
        congr 3
        omega
      · have shorter : bits.length < 8 := Nat.lt_of_not_le full
        have whole : bits.take (8 * (count + 1)) = bits := List.take_of_length_le (by omega)
        rw [List.drop_eq_nil_of_le (by omega), List.take_of_length_le (by omega : bits.length ≤ 8),
          whole, List.take_nil, List.nil_append, List.append_assoc, List.replicate_append_replicate]
        congr 2
        simp only [List.length_nil]
        omega

/-- Bytes hold bits that fit with zeros behind them. -/
theorem ofBytes_toBytes_of_le {count : Nat} {bits : List Bool} (fits : bits.length ≤ 8 * count) :
    ofBytes (toBytes count bits) = bits ++ List.replicate (8 * count - bits.length) false := by
  rw [ofBytes_toBytes, List.take_of_length_le fits]

/-- A byte string is determined by its bits. -/
theorem toBytes_ofBytes (bytes : List UInt8) : toBytes bytes.length (ofBytes bytes) = bytes := by
  induction bytes with
  | nil => rfl
  | cons byte bytes ih =>
      have first : (ofBytes (byte :: bytes)).take 8 = ofNat 8 byte.toNat := by
        rw [ofBytes_cons, List.take_left' (length_ofNat _ _)]
      have rest : (ofBytes (byte :: bytes)).drop 8 = ofBytes bytes := by
        rw [ofBytes_cons, List.drop_left' (length_ofNat _ _)]
      have same : toByte (ofNat 8 byte.toNat) = byte := by
        simp [toByte, toNat_ofNat_of_lt byte.toNat_lt]
      rw [List.length_cons, toBytes, first, rest, ih, same]

/-- The part of a text at an index. -/
def window {α : Type} (t : List α) (len j : Nat) : List α := (t.drop j).take len

section Window
variable {α : Type} {t w : List α} {len j : Nat}

/-- A window inside the text has its length. -/
theorem length_window (inside : j + len ≤ t.length) : (window t len j).length = len := by
  rw [window, List.length_take, List.length_drop]
  omega

/-- The first window is the start of the text. -/
theorem window_zero (t : List α) (len : Nat) : window t len 0 = t.take len := rfl

/-- The next window drops a letter and takes one. -/
theorem window_succ {c : α} (next : t[j + len]? = some c) :
    ∃ first, window t (len + 1) j = first :: window t len (j + 1) ∧
      window t (len + 1) j = window t len j ++ [c] := by
  have inside := (List.getElem?_eq_some_iff.mp next).1
  have within : j < t.length := by omega
  refine ⟨t[j], ?_, ?_⟩
  · rw [window, List.drop_eq_getElem_cons within, List.take_succ_cons]
    rfl
  · rw [window, List.take_add_one, List.getElem?_drop, next]
    rfl

/-- A word occurs in a text exactly if a window shows it. -/
theorem infix_iff_window (short : w.length ≤ t.length) :
    w <:+: t ↔ ∃ j, j + w.length ≤ t.length ∧ window t w.length j = w := by
  constructor
  · rintro ⟨before, after, rfl⟩
    refine ⟨before.length, by simp, ?_⟩
    rw [window, List.append_assoc, List.drop_left, List.take_left]
  · rintro ⟨j, -, same⟩
    rw [← same]
    exact (List.take_prefix _ _).isInfix.trans (List.drop_suffix _ _).isInfix

/-- A text that has all bit strings of a length is long. -/
theorem two_pow_le_of_all_infix {bits : List Bool} (short : len ≤ bits.length)
    (all : ∀ value < 2 ^ len, ofNat len value <:+: bits) : 2 ^ len + len ≤ bits.length + 1 := by
  have covered : List.range (2 ^ len) ⊆
      (List.range (bits.length - len + 1)).map fun j => toNat (window bits len j) := by
    intro value member
    have small := List.mem_range.mp member
    have occurs := all value small
    rw [infix_iff_window (by simpa using short)] at occurs
    obtain ⟨j, inside, same⟩ := occurs
    rw [length_ofNat] at inside same
    refine List.mem_map.mpr ⟨j, List.mem_range.mpr (by omega), ?_⟩
    rw [same, toNat_ofNat_of_lt small]
  have counted := (List.nodup_range.subperm covered).length_le
  simp only [List.length_range, List.length_map] at counted
  omega

end Window

end CellBag.BitString
