import Mathlib.Data.Nat.Digits.Lemmas
import Mathlib.Data.BitVec

/-!
# Numbers and bytes as text

Classes of characters, hexadecimal digits and decimal numbers, in ASCII.
-/

namespace ServalMesh.Lib

open List

/-- The bytes of some characters. -/
def ascii (text : List Char) : List (BitVec 8) := text.map fun c => BitVec.ofNat 8 c.toNat

section Characters

def isDigit (c : BitVec 8) : Bool := 0x30#8 ≤ c ∧ c ≤ 0x39#8

def isUpper (c : BitVec 8) : Bool := 0x41#8 ≤ c ∧ c ≤ 0x5a#8

def isLower (c : BitVec 8) : Bool := 0x61#8 ≤ c ∧ c ≤ 0x7a#8

def isAlpha (c : BitVec 8) : Bool := isUpper c || isLower c

def isAlnum (c : BitVec 8) : Bool := isAlpha c || isDigit c

def isSpace (c : BitVec 8) : Bool := c = 0x20#8 ∨ (0x09#8 ≤ c ∧ c ≤ 0x0d#8)

def toLower (c : BitVec 8) : BitVec 8 := if isUpper c then c + 0x20#8 else c

end Characters

section Hex

/-- The value of a hexadecimal digit. -/
def hexvalue (c : BitVec 8) : Option ℕ :=
  if isDigit c then some (c.toNat - 0x30)
  else if 0x41#8 ≤ c ∧ c ≤ 0x46#8 then some (c.toNat - 0x41 + 10)
  else if 0x61#8 ≤ c ∧ c ≤ 0x66#8 then some (c.toNat - 0x61 + 10)
  else none

def hexdigitUpper (d : ℕ) : BitVec 8 :=
  if d < 10 then BitVec.ofNat 8 (0x30 + d) else BitVec.ofNat 8 (0x37 + d)

theorem hexvalue_hexdigitUpper : ∀ d < 16, hexvalue (hexdigitUpper d) = some d := by decide

/-- Two digits for each byte. -/
def tohex : List (BitVec 8) → List (BitVec 8)
  | [] => []
  | b :: rest => hexdigitUpper (b.toNat / 16) :: hexdigitUpper (b.toNat % 16) :: tohex rest

theorem length_tohex (bytes : List (BitVec 8)) : (tohex bytes).length = 2 * bytes.length := by
  induction bytes with
  | nil => rfl
  | cons b rest ih =>
    rw [tohex, length_cons, length_cons, length_cons, ih]
    omega

variable {bytes : List (BitVec 8)} {c : BitVec 8}

theorem mem_tohex (h : c ∈ tohex bytes) : ∃ d < 16, c = hexdigitUpper d := by
  induction bytes with
  | nil => exact absurd h (by simp [tohex])
  | cons b rest ih =>
    have hb := b.isLt
    rw [tohex, mem_cons, mem_cons] at h
    rcases h with rfl | rfl | h
    · exact ⟨_, by omega, rfl⟩
    · exact ⟨_, by omega, rfl⟩
    · exact ih h

theorem isAlnum_hexdigitUpper : ∀ d < 16, isAlnum (hexdigitUpper d) = true := by decide

theorem isLower_hexdigitUpper : ∀ d < 16, isLower (hexdigitUpper d) = false := by decide

theorem isAlnum_of_mem_tohex (h : c ∈ tohex bytes) : isAlnum c = true := by
  obtain ⟨d, hd, rfl⟩ := mem_tohex h
  exact isAlnum_hexdigitUpper d hd

theorem isLower_of_mem_tohex (h : c ∈ tohex bytes) : isLower c = false := by
  obtain ⟨d, hd, rfl⟩ := mem_tohex h
  exact isLower_hexdigitUpper d hd

end Hex

section Decimal

/-- The value of a decimal digit. -/
def digitValue (c : BitVec 8) : Option ℕ := if isDigit c then some (c.toNat - 0x30) else none

def digitChar (d : ℕ) : BitVec 8 := BitVec.ofNat 8 (0x30 + d)

theorem digitValue_digitChar : ∀ d < 10, digitValue (digitChar d) = some d := by decide

theorem isDigit_digitChar : ∀ d < 10, isDigit (digitChar d) = true := by decide

/-- The digits of a number, the first one being the most significant. -/
def decimalDigits (n : ℕ) : List ℕ := if n = 0 then [0] else (Nat.digits 10 n).reverse

/-- A number in decimal. -/
def decimal (n : ℕ) : List (BitVec 8) := (decimalDigits n).map digitChar

/-- The value of a number from its digits. -/
def ofDecimal (digits : List ℕ) : ℕ := digits.foldl (fun value d => value * 10 + d) 0

theorem foldl_decimal (digits : List ℕ) :
    digits.reverse.foldl (fun value d => value * 10 + d) 0 = Nat.ofDigits 10 digits := by
  induction digits with
  | nil => rfl
  | cons d rest ih =>
    rw [reverse_cons, foldl_append, ih, foldl_cons, foldl_nil,
      Nat.ofDigits_cons]
    omega

theorem ofDecimal_decimalDigits (n : ℕ) : ofDecimal (decimalDigits n) = n := by
  rw [decimalDigits]
  split
  case isTrue h => rw [h]; rfl
  case isFalse h => rw [ofDecimal, foldl_decimal, Nat.ofDigits_digits]

theorem decimalDigits_ne_nil (n : ℕ) : decimalDigits n ≠ [] := by
  rw [decimalDigits]
  split
  case isTrue => simp
  case isFalse h => simpa using Nat.digits_ne_nil_iff_ne_zero.mpr h

theorem lt_of_mem_decimalDigits {n d : ℕ} (h : d ∈ decimalDigits n) : d < 10 := by
  rw [decimalDigits] at h
  split at h
  case isTrue =>
    obtain rfl : d = 0 := by simpa using h
    omega
  case isFalse => exact Nat.digits_lt_base (by omega) (mem_reverse.mp h)

theorem isDigit_of_mem_decimal {n : ℕ} {c : BitVec 8} (h : c ∈ decimal n) : isDigit c = true := by
  rw [decimal, mem_map] at h
  obtain ⟨d, hd, rfl⟩ := h
  exact isDigit_digitChar d (lt_of_mem_decimalDigits hd)

theorem le_foldl_decimal (digits : List ℕ) (value : ℕ) :
    value ≤ digits.foldl (fun value d => value * 10 + d) value := by
  induction digits generalizing value with
  | nil => exact le_rfl
  | cons d rest ih =>
    have := ih (value * 10 + d)
    rw [foldl_cons]
    omega

theorem filterMap_digitValue {digits : List ℕ} (h : ∀ d ∈ digits, d < 10) :
    (digits.map digitChar).filterMap digitValue = digits := by
  induction digits with
  | nil => rfl
  | cons d rest ih =>
    rw [map_cons, filterMap_cons, digitValue_digitChar d (h d mem_cons_self),
      ih (forall_mem_cons.mp h).2]

theorem decimal_ne_nil (n : ℕ) : decimal n ≠ [] := by
  rw [decimal]
  simpa using decimalDigits_ne_nil n

end Decimal

end ServalMesh.Lib
