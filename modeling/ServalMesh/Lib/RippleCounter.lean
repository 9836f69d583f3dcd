import Mathlib.Data.Nat.Digits.Lemmas

/-!
# Ripple counters

A counter kept in a list of machine words, the lowest first. Counting increments the lowest word,
and the next one as long as a word becomes zero.
-/

namespace ServalMesh.Lib

open List

variable {w : ℕ}

def increment : List (BitVec w) → List (BitVec w)
  | [] => []
  | b :: words => (b + 1#w) :: if b + 1#w = 0#w then increment words else words

/-- The number that the words hold. -/
def counterValue (words : List (BitVec w)) : ℕ := Nat.ofDigits (2 ^ w) (words.map BitVec.toNat)

variable {words words' : List (BitVec w)}

theorem counterValue_cons (b : BitVec w) (words : List (BitVec w)) :
    counterValue (b :: words) = b.toNat + 2 ^ w * counterValue words :=
  Nat.ofDigits_cons ..

theorem length_increment (words : List (BitVec w)) : (increment words).length = words.length := by
  induction words with
  | nil => rfl
  | cons b words ih =>
    rw [increment, length_cons, length_cons]
    split
    · rw [ih]
    · rfl

theorem counterValue_lt (words : List (BitVec w)) :
    counterValue words < 2 ^ (w * words.length) := by
  induction words with
  | nil => exact Nat.one_pos
  | cons b words ih =>
    rw [counterValue_cons, length_cons, Nat.mul_succ, add_comm, pow_add, mul_comm]
    calc counterValue words * 2 ^ w + b.toNat
      _ < counterValue words * 2 ^ w + 2 ^ w := Nat.add_lt_add_left b.isLt _
      _ = (counterValue words + 1) * 2 ^ w := (Nat.succ_mul _ _).symm
      _ ≤ 2 ^ (w * words.length) * 2 ^ w := Nat.mul_le_mul_right _ ih

/-- Counting adds one, and starts again behind the largest number. -/
theorem counterValue_increment (words : List (BitVec w)) :
    counterValue (increment words) = (counterValue words + 1) % 2 ^ (w * words.length) := by
  induction words with
  | nil =>
    rw [length_nil, Nat.mul_zero, pow_zero, Nat.mod_one]
    rfl
  | cons b words ih =>
    have hpos := Nat.two_pow_pos w
    have hone : (b + 1#w).toNat = (b.toNat + 1) % 2 ^ w := by
      rw [BitVec.toNat_add, BitVec.toNat_ofNat, Nat.add_mod_mod]
    rw [increment, counterValue_cons, counterValue_cons, length_cons, Nat.mul_succ,
      add_comm (w * _), pow_add, Nat.mod_mul]
    by_cases hcarry : b + 1#w = 0#w
    · have hzero := congrArg BitVec.toNat hcarry
      rw [hone, BitVec.toNat_zero] at hzero
      have hfull : b.toNat + 1 = 2 ^ w := by
        have hdvd := Nat.dvd_of_mod_eq_zero hzero
        have hle := Nat.le_of_dvd (Nat.succ_pos _) hdvd
        have hlt := b.isLt
        omega
      rw [if_pos hcarry, hone, hzero, ih, add_right_comm, hfull, Nat.add_mul_mod_self_left,
        Nat.mod_self, zero_add, zero_add, ← mul_one_add, Nat.mul_div_cancel_left _ hpos,
        add_comm 1]
    · have hne : b.toNat + 1 ≠ 2 ^ w := fun h => hcarry (BitVec.eq_of_toNat_eq (by
        rw [hone, h, Nat.mod_self, BitVec.toNat_zero]))
      have hlt : b.toNat + 1 < 2 ^ w := lt_of_le_of_ne b.isLt hne
      rw [if_neg hcarry, hone, add_right_comm, Nat.add_mul_mod_self_left,
        Nat.add_mul_div_left _ _ hpos, Nat.div_eq_of_lt hlt, zero_add,
        Nat.mod_eq_of_lt (counterValue_lt words)]

/-- The first words hold the number modulo their range. -/
theorem counterValue_take (n : ℕ) (words : List (BitVec w)) (hn : n ≤ words.length) :
    counterValue (words.take n) = counterValue words % 2 ^ (w * n) := by
  induction words generalizing n with
  | nil =>
    obtain rfl : n = 0 := Nat.le_zero.mp hn
    rfl
  | cons b words ih =>
    cases n with
    | zero => exact (Nat.mod_one _).symm
    | succ n =>
      rw [take_succ_cons, counterValue_cons, counterValue_cons, ih n (Nat.le_of_succ_le_succ hn),
        Nat.mul_succ, add_comm (w * n), pow_add, Nat.mod_mul, Nat.add_mul_mod_self_left,
        Nat.mod_eq_of_lt b.isLt, Nat.add_mul_div_left _ _ (Nat.two_pow_pos w),
        Nat.div_eq_of_lt b.isLt, zero_add]

theorem counterValue_injective (hlength : words.length = words'.length)
    (h : counterValue words = counterValue words') : words = words' := by
  induction words generalizing words' with
  | nil => exact (eq_nil_of_length_eq_zero hlength.symm).symm
  | cons b words ih =>
    obtain ⟨b', words', rfl⟩ := exists_cons_of_length_eq_add_one hlength.symm
    rw [counterValue_cons, counterValue_cons] at h
    have hlow := congrArg (· % 2 ^ w) h
    have hhigh := congrArg (· / 2 ^ w) h
    simp only [Nat.add_mul_mod_self_left, Nat.mod_eq_of_lt (BitVec.isLt _),
      Nat.add_mul_div_left _ _ (Nat.two_pow_pos w), Nat.div_eq_of_lt (BitVec.isLt _),
      zero_add] at hlow hhigh
    rw [BitVec.eq_of_toNat_eq hlow, ih (Nat.succ.inj hlength) hhigh]

end ServalMesh.Lib
