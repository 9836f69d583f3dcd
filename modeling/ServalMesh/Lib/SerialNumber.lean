import Mathlib

/-!
# Serial numbers

Numbers of a fixed width that wrap around are compared by their distance.
-/

namespace ServalMesh.Lib

open BitVec

variable {w : ℕ} {a b : ℕ}

/-- How far `a` is ahead of `b`, or behind if negative. -/
def distance (a b : BitVec w) : ℤ := (a - b).toInt

theorem distance_ofInt {a b : ℤ} (hlow : -2 ^ w ≤ 2 * (a - b)) (hhigh : 2 * (a - b) < 2 ^ w) :
    distance (BitVec.ofInt w a) (BitVec.ofInt w b) = a - b := by
  rw [distance, toInt_sub, toInt_ofInt, toInt_ofInt, Int.sub_bmod_bmod,
    Int.bmod_sub_bmod]
  exact Int.bmod_eq_of_le_mul_two (by push_cast; linarith) (by push_cast; linarith)

/-- Numbers from the lower half of the range are compared as they are. -/
theorem distance_ofNat (ha : 2 * a < 2 ^ w) (hb : 2 * b < 2 ^ w) :
    distance (BitVec.ofNat w a) (BitVec.ofNat w b) = a - b := by
  have hpow : ((2 : ℕ) ^ w : ℕ) = ((2 : ℤ) ^ w) := by push_cast; rfl
  rw [← ofInt_natCast, ← ofInt_natCast]
  exact distance_ofInt (by omega) (by omega)

theorem ofNat_sub_one (k : ℕ) : BitVec.ofNat w k - 1 = BitVec.ofInt w (k - 1) := by
  have hone : (1 : BitVec w) = BitVec.ofInt w 1 := by
    rw [show (1 : ℤ) = ((1 : ℕ) : ℤ) by rfl, ofInt_natCast]
    rfl
  rw [← ofInt_natCast, hone]
  apply eq_of_toInt_eq
  rw [toInt_sub, toInt_ofInt, toInt_ofInt, toInt_ofInt,
    Int.sub_bmod_bmod, Int.bmod_sub_bmod]

/-- The number before `k` may be that before the first one. -/
theorem distance_ofNat_sub_one {a k : ℕ} (hlow : 2 * k ≤ 2 ^ w + 2 * (a + 1))
    (hhigh : 2 * (a + 1) < 2 ^ w + 2 * k) :
    distance (BitVec.ofNat w a) (BitVec.ofNat w k - 1) = a + 1 - k := by
  have hpow : ((2 : ℕ) ^ w : ℕ) = ((2 : ℤ) ^ w) := by push_cast; rfl
  rw [ofNat_sub_one, ← ofInt_natCast, distance_ofInt (by omega) (by omega)]
  omega

theorem ofNat_inj (ha : a < 2 ^ w) (hb : b < 2 ^ w) (h : BitVec.ofNat w a = BitVec.ofNat w b) :
    a = b := by
  have := congrArg BitVec.toNat h
  rwa [toNat_ofNat, toNat_ofNat, Nat.mod_eq_of_lt ha, Nat.mod_eq_of_lt hb] at this

end ServalMesh.Lib
