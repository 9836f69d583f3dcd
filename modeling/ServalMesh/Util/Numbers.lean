import Mathlib.Data.List.TakeWhile
import ServalMesh.Lib.Ascii

/-!
# Unsigned numbers in text

A number is taken for too large when a digit makes it smaller, which a number that wraps need not
become.
-/

namespace ServalMesh.Util

open Lib List

abbrev Text := List (BitVec 8)

/-- A base that the assertions let through. -/
structure Base where
  value : ℕ
  positive : 0 < value
  hex : value ≤ 16

/-- The characters that are looked at, those before the NUL if there is no length. -/
def scanned (strlen : ℕ) (str : Text) : Text :=
  if strlen = 0 then str.takeWhile (· ≠ 0) else str.take strlen

variable (w : ℕ) (base : Base)

section Parsing

/-- The loop, with `value`, `newvalue` and `s` when it ends. -/
def uintLoop (value newvalue : BitVec w) : Text → BitVec w × BitVec w × Text
  | [] => (value, newvalue, [])
  | c :: rest =>
    match (hexvalue c).filter (· < base.value) with
    | none => (value, newvalue, c :: rest)
    | some digit =>
      let newvalue := value * BitVec.ofNat w base.value + BitVec.ofNat w digit
      if newvalue < value then (value, newvalue, c :: rest) else uintLoop newvalue newvalue rest

/-- `strn_to_uint32` and `strn_to_uint64`, with what is left after the digits. -/
def strnToUint (strlen : ℕ) (afterp : Bool) (str : Text) : Option (BitVec w) × Text :=
  let (value, newvalue, s) := uintLoop w base 0 0 (scanned strlen str)
  (if s.length = (scanned strlen str).length ∨ value ≠ newvalue ∨ afterp = false ∧ s ≠ [] then none
    else some value, s)

abbrev strnToUint32 := strnToUint 32

abbrev strnToUint64 := strnToUint 64

def scaleFactors : List (BitVec 8 × ℕ) :=
  [(0x47#8, 1024 * 1024 * 1024), (0x67#8, 1000 * 1000 * 1000), (0x4d#8, 1024 * 1024),
    (0x6d#8, 1000 * 1000), (0x4b#8, 1024), (0x6b#8, 1000)]

/-- `scale_factor` with a pointer for what comes after it. -/
def scaleFactor : Text → ℕ × Text
  | [] => (1, [])
  | c :: rest =>
    match scaleFactors.find? (·.1 = c) with
    | some scale => (scale.2, rest)
    | none => (1, c :: rest)

/-- `str_to_uint32_scaled` and `str_to_uint64_scaled`. -/
def strToUintScaled (afterp : Bool) (str : Text) : Option (BitVec w) × Text :=
  match strnToUint w base 0 true str with
  | (none, s) => (none, s)
  | (some value, s) =>
    (if afterp = false ∧ (scaleFactor s).2 ≠ [] then none
      else some (value * BitVec.ofNat w (scaleFactor s).1), (scaleFactor s).2)

/-- `uint32_scaled_to_str` and `uint64_scaled_to_str`, `none` if the text does not fit. -/
def uintScaledToStr (len : ℕ) (value : BitVec w) : Option Text :=
  let str := match scaleFactors.find? (value.toNat % ·.2 = 0) with
    | some scale => decimal (value.toNat / scale.2) ++ [scale.1]
    | none => decimal value.toNat
  if str.length < len then some str else none

end Parsing

section Meaning

/-- The digits that a text starts with, and what follows them. -/
def leading : Text → List ℕ × Text
  | [] => ([], [])
  | c :: rest =>
    match (hexvalue c).filter (· < base.value) with
    | none => ([], c :: rest)
    | some digit => (digit :: (leading rest).1, (leading rest).2)

def numberFrom (value : ℕ) (digits : List ℕ) : ℕ :=
  digits.foldl (fun value digit => value * base.value + digit) value

/-- Some digit makes the number smaller where it wraps. -/
def falls (value : ℕ) : List ℕ → Bool
  | [] => false
  | digit :: rest => (value * base.value + digit) % 2 ^ w < value % 2 ^ w ||
    falls (value * base.value + digit) rest

/-- The number is the result if it has digits and fits, and nothing else is left or may be. -/
def Exact (digits : List ℕ) (number : ℕ) (afterp : Bool) (after : Text)
    (result : Option (BitVec w) × Text) : Prop :=
  (result.1 = if digits ≠ [] ∧ number < 2 ^ w ∧ (afterp = true ∨ after = []) then
      some (BitVec.ofNat w number) else none) ∧
    (result.1.isSome → result.2 = after)

/-- The number may wrap, but must not fall. -/
def Returns (digits : List ℕ) (number : ℕ) (afterp : Bool) (after : Text)
    (result : Option (BitVec w) × Text) : Prop :=
  (result.1 = if digits = [] ∨ falls w base 0 digits = true ∨ afterp = false ∧ after ≠ [] then none
      else some (BitVec.ofNat w number)) ∧
    (digits ≠ [] → falls w base 0 digits = false → result.2 = after)

variable {w base} {digits : List ℕ} {value number len : ℕ} {text after str : Text}
  {result : Option (BitVec w) × Text} {afterp : Bool} {v : BitVec w}

@[simp]
theorem numberFrom_cons (value digit : ℕ) (digits : List ℕ) :
    numberFrom base value (digit :: digits) =
    numberFrom base (value * base.value + digit) digits := rfl

theorem le_numberFrom (value : ℕ) (digits : List ℕ) : value ≤ numberFrom base value digits := by
  induction digits generalizing value with
  | nil => exact le_rfl
  | cons digit rest ih =>
    have := Nat.le_mul_of_pos_right value base.positive
    rw [numberFrom_cons]
    exact le_trans (by omega) (ih _)

theorem falls_of_fits (h : numberFrom base value digits < 2 ^ w) :
    falls w base value digits = false := by
  induction digits generalizing value with
  | nil => rfl
  | cons digit rest ih =>
    have hlt := (le_numberFrom (value * base.value + digit) rest).trans_lt h
    have := Nat.le_mul_of_pos_right value base.positive
    rw [falls, ih h, Nat.mod_eq_of_lt hlt, Nat.mod_eq_of_lt (by omega)]
    simpa using by omega

theorem length_leading (text : Text) :
    (leading base text).1.length + (leading base text).2.length = text.length := by
  induction text with
  | nil => rfl
  | cons c rest ih =>
    rw [leading]
    split
    · exact Nat.zero_add _
    · simp only [length_cons]
      omega

theorem uintLoop_spec (value : ℕ) (text : Text) :
    let loop := uintLoop w base (BitVec.ofNat w value) (BitVec.ofNat w value) text
    let number := BitVec.ofNat w (numberFrom base value (leading base text).1)
    if falls w base value (leading base text).1 then loop.1 ≠ loop.2.1
      else loop = (number, number, (leading base text).2) := by
  induction text generalizing value with
  | nil => simp [leading, falls, uintLoop, numberFrom]
  | cons c rest ih =>
    rw [leading, uintLoop]
    cases (hexvalue c).filter (· < base.value) with
    | none => simp [falls, numberFrom]
    | some digit =>
      have hnew : BitVec.ofNat w value * BitVec.ofNat w base.value + BitVec.ofNat w digit =
          BitVec.ofNat w (value * base.value + digit) := by
        rw [BitVec.ofNat_add, BitVec.ofNat_mul]
      dsimp only
      rw [hnew, falls]
      by_cases hfall : BitVec.ofNat w (value * base.value + digit) < BitVec.ofNat w value
      · have hne : BitVec.ofNat w value ≠ BitVec.ofNat w (value * base.value + digit) := fun heq =>
          BitVec.lt_irrefl _ (heq ▸ hfall)
        rw [if_pos hfall]
        rw [BitVec.lt_def, BitVec.toNat_ofNat, BitVec.toNat_ofNat] at hfall
        simp [hfall, hne]
      · rw [if_neg hfall]
        rw [BitVec.lt_def, BitVec.toNat_ofNat, BitVec.toNat_ofNat] at hfall
        simpa [hfall] using ih (value * base.value + digit)

theorem strnToUint_returns (strlen : ℕ) (afterp : Bool) (str : Text) :
    let parts := leading base (scanned strlen str)
    Returns w base parts.1 (numberFrom base 0 parts.1) afterp parts.2
      (strnToUint w base strlen afterp str) := by
  intro parts
  have hlength := @length_leading base (scanned strlen str)
  have hloop := @uintLoop_spec w base 0 (scanned strlen str)
  have hnil := length_eq_zero_iff (l := parts.1)
  rw [Returns, strnToUint]
  cases hfall : falls w base 0 parts.1 with
  | true => simp_all [parts]
  | false =>
    have hs : parts.2.length = (scanned strlen str).length ↔ parts.1 = [] := by
      grind
    simp_all [parts]

theorem scaleFactor_pos (text : Text) : 0 < (scaleFactor text).1 := by
  have hpos : ∀ scale ∈ scaleFactors, 0 < scale.2 := by decide
  cases text with
  | nil => exact Nat.one_pos
  | cons c rest =>
    rw [scaleFactor]
    split
    case h_1 scale hfind => exact hpos scale (mem_of_find?_eq_some hfind)
    case h_2 => exact Nat.one_pos

theorem strToUintScaled_returns (afterp : Bool) (str : Text) :
    let parts := leading base (scanned 0 str)
    let scale := scaleFactor parts.2
    Returns w base parts.1 (numberFrom base 0 parts.1 * scale.1) afterp scale.2
      (strToUintScaled w base afterp str) := by
  intro parts scale
  have hread := @strnToUint_returns w base 0 true str
  rw [strToUintScaled]
  generalize strnToUint w base 0 true str = read at hread ⊢
  rcases read with ⟨_ | value, s⟩
  · grind [Returns]
  · grind [Returns, BitVec.ofNat_mul]

theorem Returns.exact_iff (h : Returns w base digits number afterp after result)
    (hle : numberFrom base 0 digits ≤ number) (hnil : digits = [] → number = 0) :
    Exact w digits number afterp after result ↔
      number < 2 ^ w ∨ falls w base 0 digits = true ∨ afterp = false ∧ after ≠ [] := by
  have hfits : number < 2 ^ w → falls w base 0 digits = false := fun h =>
    falls_of_fits (hle.trans_lt h)
  have hpos := Nat.two_pow_pos w
  grind [Returns, Exact]

/-- The base of the texts that are written. -/
def ten : Base := ⟨10, by decide, by decide⟩

theorem leading_decimal (n : ℕ) (htext : leading ten text = ([], text)) :
    leading ten (decimal n ++ text) = (decimalDigits n, text) := by
  have hdigits : ∀ d < 10, (hexvalue (digitChar d)).filter (· < ten.value) = some d := by decide
  have hlt : ∀ d ∈ decimalDigits n, d < 10 := fun d => lt_of_mem_decimalDigits
  rw [decimal]
  generalize decimalDigits n = digits at hlt
  induction digits with
  | nil => exact htext
  | cons d rest ih =>
    rw [map_cons, cons_append, leading, hdigits d (hlt d mem_cons_self),
      ih (forall_mem_cons.mp hlt).2]

theorem uintScaledToStr_spec (h : uintScaledToStr w len v = some str) :
    ∃ n factor text, str = decimal n ++ text ∧ (∀ c ∈ text, c ≠ 0) ∧
      leading ten text = ([], text) ∧ scaleFactor text = (factor, []) ∧ n * factor = v.toNat := by
  have hscales : ∀ scale ∈ scaleFactors, scale.1 ≠ 0 ∧
      leading ten [scale.1] = ([], [scale.1]) ∧ scaleFactor [scale.1] = (scale.2, []) := by decide
  rw [uintScaledToStr] at h
  obtain rfl := Option.some.inj (Option.ite_none_right_eq_some.mp h).2
  split
  case h_1 scale hfind =>
    obtain ⟨hzero, hdigits, hscale⟩ := hscales scale (mem_of_find?_eq_some hfind)
    have hmod : v.toNat % scale.2 = 0 := by simpa using find?_some hfind
    exact ⟨_, _, _, rfl, by simpa using hzero, hdigits, hscale,
      Nat.div_mul_cancel (Nat.dvd_of_mod_eq_zero hmod)⟩
  case h_2 => exact ⟨_, 1, [], (append_nil _).symm, nofun, rfl, rfl, mul_one _⟩

theorem strToUintScaled_toStr (h : uintScaledToStr w len v = some str) :
    strToUintScaled w ten false str = (some v, []) := by
  obtain ⟨n, factor, text, rfl, htext, hdigits, hscale, hvalue⟩ := uintScaledToStr_spec h
  have hscanned : scanned 0 (decimal n ++ text) = decimal n ++ text := by
    rw [scanned, if_pos rfl, takeWhile_eq_self_iff]
    intro c hc
    rcases mem_append.mp hc with hc | hc
    · have := isDigit_of_mem_decimal hc
      grind [isDigit]
    · simpa using htext c hc
  have hread := @strToUintScaled_returns w ten false (decimal n ++ text)
  have hnumber : numberFrom ten 0 (decimalDigits n) = n := ofDecimal_decimalDigits n
  simp only [hscanned, leading_decimal n hdigits, hscale, hnumber, hvalue] at hread
  have hfalls : falls w ten 0 (decimalDigits n) = false := by
    refine falls_of_fits (hnumber.trans_lt (lt_of_le_of_lt ?_ v.isLt))
    exact hvalue ▸ Nat.le_mul_of_pos_right n (by have := scaleFactor_pos text; rwa [hscale] at this)
  refine Prod.ext (hread.1.trans ?_) (hread.2 (decimalDigits_ne_nil n) hfalls)
  simp [decimalDigits_ne_nil, hfalls]

variable (w base)

/-- A number is read as it is unless it wraps and never falls, or its scale makes it wrap. -/
theorem strnToUint_exact_iff :
    (∀ strlen afterp str,
      let parts := leading base (scanned strlen str)
      let number := numberFrom base 0 parts.1
      Exact w parts.1 number afterp parts.2 (strnToUint w base strlen afterp str) ↔
        number < 2 ^ w ∨ falls w base 0 parts.1 = true ∨ afterp = false ∧ parts.2 ≠ []) ∧
    (∀ afterp str,
      let parts := leading base (scanned 0 str)
      let scale := scaleFactor parts.2
      let number := numberFrom base 0 parts.1 * scale.1
      Exact w parts.1 number afterp scale.2 (strToUintScaled w base afterp str) ↔
        number < 2 ^ w ∨ falls w base 0 parts.1 = true ∨ afterp = false ∧ scale.2 ≠ []) ∧
    ∀ len v str, uintScaledToStr w len v = some str →
      strToUintScaled w ten false str = (some v, []) := by
  refine ⟨fun strlen afterp str => (strnToUint_returns strlen afterp str).exact_iff le_rfl ?_,
    fun afterp str => (strToUintScaled_returns afterp str).exact_iff
      (Nat.le_mul_of_pos_right _ (scaleFactor_pos _)) ?_, fun len v str => strToUintScaled_toStr⟩
  all_goals
    intro hnil
    rw [hnil]
  · rfl
  · exact Nat.zero_mul _

/-- Numbers that wrap without getting smaller. -/
theorem strnToUint_wraps :
    strnToUint32 ten 0 false (ascii "5000000000".toList) = (some 705032704#32, []) ∧
      strToUintScaled 32 ten false (ascii "5G".toList) = (some 1073741824#32, []) := by
  decide +kernel

end Meaning

end ServalMesh.Util
