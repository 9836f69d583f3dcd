import ServalMesh.Lib.Ascii
import ServalMesh.Overlay.Subscribers

/-!
# Fields of manifests as text

A field is printed in hexadecimal or decimal, and each parser has its own idea of what it
accepts. In a longer text it ends at the first character that does not belong to it.
-/

namespace ServalMesh.Rhizome

open Lib Overlay List

/-- An identifier of a fixed size. -/
structure Binary (n : ℕ) where
  bytes : List Byte
  size : bytes.length = n
deriving DecidableEq

abbrev RhizomeBid := Binary 32

abbrev RhizomeFilehash := Binary 64

abbrev RhizomeBk := Binary 32

/-- A string: it has no NUL. -/
structure CString where
  bytes : List Byte
  noNul : 0#8 ∉ bytes
deriving DecidableEq

section Hex

/-- Reads at most so many bytes, and returns what comes after them. -/
def strnFromhex : ℕ → List Byte → List Byte × List Byte
  | n + 1, high :: low :: rest =>
    match hexvalue high, hexvalue low with
    | some h, some l =>
      let (bytes, after) := strnFromhex n rest
      (BitVec.ofNat 8 (16 * h + l) :: bytes, after)
    | _, _ => ([], high :: low :: rest)
  | _, text => ([], text)

/-- `fromhex` for an identifier, with what comes after it. -/
def strnToBinary (n : ℕ) (text : List Byte) : Option (Binary n × List Byte) :=
  let (bytes, after) := strnFromhex n text
  if h : bytes.length = n then some (⟨bytes, h⟩, after) else none

def fromhexstr (n : ℕ) (text : List Byte) : Option (Binary n) :=
  match strnToBinary n text with
  | some (id, []) => some id
  | _ => none

def sidBroadcast : Binary 32 := ⟨List.replicate 32 0xff#8, length_replicate ..⟩

def broadcastText : List Byte := ascii ['b', 'r', 'o', 'a', 'd', 'c', 'a', 's', 't']

def strToSid (text : List Byte) : Option (Binary 32) :=
  if broadcastText.isPrefixOf text then
    if text = broadcastText then some sidBroadcast else none
  else fromhexstr 32 text

end Hex

section Decimal

/-- The loop of `strn_to_uint64` for base 10: `value`, `newvalue` and `s` when it ends. -/
def uint64Loop (value newvalue : BitVec 64) : List Byte → BitVec 64 × BitVec 64 × List Byte
  | [] => (value, newvalue, [])
  | c :: rest =>
    match digitValue c with
    | none => (value, newvalue, c :: rest)
    | some d =>
      let newvalue := value * 10 + BitVec.ofNat 64 d
      if newvalue < value then (value, newvalue, c :: rest) else uint64Loop newvalue newvalue rest

/-- `str_to_uint64` with what comes after the number. -/
def strToUint64 (text : List Byte) : Option (BitVec 64) × List Byte :=
  let (value, newvalue, after) := uint64Loop 0 0 text
  (if after.length = text.length ∨ value ≠ newvalue then none else some value, after)

/-- `str_to_uint64` of a whole string. -/
def strToUint64All (text : List Byte) : Option (BitVec 64) :=
  match strToUint64 text with
  | (value, []) => value
  | _ => none

/-- `strtoll` for base 10, of a whole string that does not start with a space. -/
def strtoll (text : List Byte) : Option ℤ :=
  let negative := text.head? = some 0x2d#8
  let digits := if negative ∨ text.head? = some 0x2b#8 then text.tail else text
  if digits = [] ∨ ¬ digits.all isDigit then none
  else
    let magnitude : ℤ := ofDecimal (digits.filterMap digitValue)
    some (if negative then -magnitude else magnitude)

def strToInt64 (text : List Byte) : Option (BitVec 64) :=
  if text.head?.any isSpace then none
  else
    match strtoll text with
    | none => none
    | some value =>
      if -2 ^ 63 ≤ value ∧ value < 2 ^ 63 then some (BitVec.ofInt 64 value) else none

/-- `%PRIu64`. -/
def printUint64 (value : BitVec 64) : List Byte := decimal value.toNat

end Decimal

section RoundTrip

theorem strnFromhex_tohex (bytes rest : List Byte) :
    strnFromhex bytes.length (tohex bytes ++ rest) = (bytes, rest) := by
  induction bytes with
  | nil => simp [strnFromhex, tohex]
  | cons b tail ih =>
    rw [tohex, length_cons, cons_append, cons_append, strnFromhex,
      hexvalue_hexdigitUpper _ (by omega), hexvalue_hexdigitUpper _ (by omega)]
    dsimp only
    rw [ih, Nat.div_add_mod, BitVec.ofNat_toNat, BitVec.setWidth_eq]

theorem fromhexstr_tohex {n : ℕ} (id : Binary n) : fromhexstr n (tohex id.bytes) = some id := by
  obtain ⟨bytes, rfl⟩ := id
  have h := strnFromhex_tohex bytes []
  rw [append_nil] at h
  simp [fromhexstr, strnToBinary, h]

theorem strToSid_tohex (id : Binary 32) : strToSid (tohex id.bytes) = some id := by
  have hnot : ¬broadcastText.isPrefixOf (tohex id.bytes) = true := by
    intro h
    obtain ⟨rest, hrest⟩ := isPrefixOf_iff_prefix.mp h
    have hmem : 0x62#8 ∈ tohex id.bytes := by
      rw [← hrest]
      exact mem_append_left _ mem_cons_self
    exact absurd (isLower_of_mem_tohex hmem) (by decide)
  rw [strToSid, if_neg hnot, fromhexstr_tohex]

theorem uint64Loop_digits {digits : List ℕ} (hdigits : ∀ d ∈ digits, d < 10) (value : ℕ)
    (hlt : digits.foldl (fun value d => value * 10 + d) value < 2 ^ 64) :
    uint64Loop (BitVec.ofNat 64 value) (BitVec.ofNat 64 value) (digits.map digitChar) =
      (BitVec.ofNat 64 (digits.foldl (fun value d => value * 10 + d) value),
        BitVec.ofNat 64 (digits.foldl (fun value d => value * 10 + d) value), []) := by
  induction digits generalizing value with
  | nil => rfl
  | cons d rest ih =>
    have hd := hdigits d mem_cons_self
    have hle := le_foldl_decimal rest (value * 10 + d)
    rw [foldl_cons] at hlt ⊢
    have hnew : BitVec.ofNat 64 value * 10 + BitVec.ofNat 64 d =
        BitVec.ofNat 64 (value * 10 + d) := by
      rw [BitVec.ofNat_add, BitVec.ofNat_mul]
      rfl
    rw [map_cons, uint64Loop, digitValue_digitChar d hd]
    dsimp only
    rw [hnew, if_neg, ih (forall_mem_cons.mp hdigits).2 _ hlt]
    rw [BitVec.lt_def, BitVec.toNat_ofNat, BitVec.toNat_ofNat, Nat.mod_eq_of_lt (by omega),
      Nat.mod_eq_of_lt (by omega)]
    omega

theorem strToUint64All_print (value : BitVec 64) :
    strToUint64All (printUint64 value) = some value := by
  have hvalue := ofDecimal_decimalDigits value.toNat
  rw [ofDecimal] at hvalue
  have hdigits := uint64Loop_digits (fun d => lt_of_mem_decimalDigits) 0
    (by rw [hvalue]; exact value.isLt)
  rw [hvalue, BitVec.ofNat_toNat, BitVec.setWidth_eq] at hdigits
  have hloop : uint64Loop 0 0 (printUint64 value) = (value, value, []) := hdigits
  have hlen := length_pos_of_ne_nil (decimal_ne_nil value.toNat)
  have hread : strToUint64 (printUint64 value) = (some value, []) := by
    rw [strToUint64, hloop]
    dsimp only
    rw [if_neg]
    rintro (habs | habs)
    · exact absurd habs.symm hlen.ne'
    · exact habs rfl
  rw [strToUint64All, hread]

theorem not_isSpace_of_isDigit {c : Byte} (h : isDigit c = true) : isSpace c = false := by
  simp only [isDigit, isSpace, decide_eq_true_eq, decide_eq_false_iff_not] at h ⊢
  bv_omega

/-- A date is read back unless it is negative. -/
theorem strToInt64_print (value : BitVec 64) :
    strToInt64 (printUint64 value) = if 0 ≤ value.toInt then some value else none := by
  obtain ⟨c, rest, hprint⟩ := exists_cons_of_ne_nil (decimal_ne_nil value.toNat)
  have hdigits : ∀ d ∈ c :: rest, isDigit d = true :=
    fun d hd => isDigit_of_mem_decimal (hprint ▸ hd)
  have hc := hdigits c mem_cons_self
  have hvalue : ofDecimal ((c :: rest).filterMap digitValue) = value.toNat := by
    rw [← hprint, decimal, filterMap_digitValue (fun d => lt_of_mem_decimalDigits),
      ofDecimal_decimalDigits]
  have hsign : ∀ d, isDigit d = false → c ≠ d := by
    rintro _ hd rfl
    cases hc.symm.trans hd
  have hstrtoll : strtoll (c :: rest) = some (value.toNat : ℤ) := by
    have hminus := hsign 0x2d#8 (by decide)
    have hplus := hsign 0x2b#8 (by decide)
    simp only [strtoll, head?_cons, Option.some.injEq, hminus, hplus, or_self, if_false]
    rw [if_neg (by simpa using hdigits), hvalue]
  rw [printUint64, hprint, strToInt64, if_neg (by simp [not_isSpace_of_isDigit hc]), hstrtoll]
  dsimp only
  by_cases hneg : 2 * value.toNat < 2 ^ 64
  · rw [if_pos (by omega), if_pos (by rw [BitVec.toInt_eq_toNat_cond, if_pos hneg]; omega),
      BitVec.ofInt_natCast, BitVec.ofNat_toNat, BitVec.setWidth_eq]
  · rw [if_neg (by omega), if_neg (by rw [BitVec.toInt_eq_toNat_cond, if_neg hneg]; omega)]

end RoundTrip

section Delimited

variable {c : Byte} (text rest : List Byte)

/-- What comes after the digits does not change the bytes. -/
theorem strnFromhex_append (n : ℕ) (hc : hexvalue c = none) :
    strnFromhex n (text ++ c :: rest) =
      ((strnFromhex n text).1, (strnFromhex n text).2 ++ c :: rest) := by
  induction n generalizing text with
  | zero => simp [strnFromhex]
  | succ n ih =>
    match text with
    | [] =>
      cases rest with
      | nil => simp [strnFromhex]
      | cons d rest => simp [strnFromhex, hc]
    | [high] =>
      rw [singleton_append, strnFromhex, hc]
      cases hexvalue high <;> simp [strnFromhex]
    | high :: low :: text =>
      rw [cons_append, cons_append, strnFromhex, strnFromhex]
      cases hexvalue high with
      | none => rfl
      | some h =>
        cases hexvalue low with
        | none => rfl
        | some l => rw [ih]

theorem strnToBinary_append (n : ℕ) (hc : hexvalue c = none) :
    strnToBinary n (text ++ c :: rest) =
      (strnToBinary n text).map fun id => (id.1, id.2 ++ c :: rest) := by
  rw [strnToBinary, strnToBinary, strnFromhex_append text rest n hc]
  dsimp only
  split <;> simp

theorem uint64Loop_append (hc : digitValue c = none) (value newvalue : BitVec 64) :
    uint64Loop value newvalue (text ++ c :: rest) =
      ((uint64Loop value newvalue text).1, (uint64Loop value newvalue text).2.1,
        (uint64Loop value newvalue text).2.2 ++ c :: rest) := by
  induction text generalizing value newvalue with
  | nil => simp [uint64Loop, hc]
  | cons first text ih =>
    rw [cons_append, uint64Loop, uint64Loop]
    cases digitValue first with
    | none => rfl
    | some d =>
      dsimp only
      split
      · rfl
      · exact ih _ _

/-- What comes after a number does not change it. -/
theorem strToUint64_append (hc : digitValue c = none) : strToUint64 (text ++ c :: rest) =
    ((strToUint64 text).1, (strToUint64 text).2 ++ c :: rest) := by
  rw [strToUint64, strToUint64, uint64Loop_append text rest hc]
  simp

end Delimited

end ServalMesh.Rhizome
