import Mathlib

/-!
Shifts as C has them, and a shift register that remembers which of the most recent numbers have
arrived.
-/
namespace ServalMesh.Lib

/-- What the compiled program does where C leaves a shift undefined. -/
structure UndefinedShifts where
  int : BitVec 32 → ℕ → BitVec 32
  uint64 : BitVec 64 → ℕ → BitVec 64

namespace UndefinedShifts

/-- ARM shifts by a register amount of the operand's width or more produce zero. -/
def arm : UndefinedShifts := ⟨fun _ _ => 0, fun _ _ => 0⟩

/-- x86 takes the amount modulo the operand's width. -/
def x86 : UndefinedShifts := ⟨fun v i => v <<< (i % 32), fun v i => v <<< (i % 64)⟩

def shlInt (u : UndefinedShifts) (v : BitVec 32) (i : ℕ) : BitVec 32 :=
  if i < 32 then v <<< i else u.int v i

def shlUint64 (u : UndefinedShifts) (v : BitVec 64) (i : ℕ) : BitVec 64 :=
  if i < 64 then v <<< i else u.uint64 v i

theorem shlInt_of_lt {u : UndefinedShifts} {v : BitVec 32} {i : ℕ} (hi : i < 32) :
    u.shlInt v i = v <<< i :=
  if_pos hi

end UndefinedShifts

variable {w n k high : ℕ} {mask bit : BitVec w} {seen seen' : ℕ → Prop}

/-- The lowest `n` bits are exact: bit `i` stands for the number `high - 1 - i`. -/
def Tracks (n : ℕ) (mask : BitVec w) (seen : ℕ → Prop) (high : ℕ) : Prop :=
  ∀ i, i < n → (mask.getLsbD i = true ↔ i < high ∧ seen (high - 1 - i))

theorem tracks_zero (h : ∀ m, m < high → ¬ seen m) : Tracks n (0#w) seen high := by
  intro i _
  simp only [BitVec.getLsbD_zero, Bool.false_eq_true, false_iff, not_and]
  intro hi
  exact h _ (by omega)

section

variable (h : Tracks n mask seen high)

include h

/-- Only numbers below `high` are represented. -/
theorem tracks_congr (he : ∀ m, m < high → (seen m ↔ seen' m)) : Tracks n mask seen' high := by
  intro i hi
  rw [h i hi]
  constructor
  · rintro ⟨hh, hs⟩
    exact ⟨hh, (he _ (by omega)).mp hs⟩
  · rintro ⟨hh, hs⟩
    exact ⟨hh, (he _ (by omega)).mpr hs⟩

omit h in
/-- Testing the single bit of a late number tells whether it has arrived. -/
theorem tracks_test (h : Tracks w mask seen high) (hk : k < high) (hw : high - 1 - k < w)
    (hb : ∀ i, i < w → (bit.getLsbD i = true ↔ i = high - 1 - k)) :
    mask &&& bit ≠ 0#w ↔ seen k := by
  have hbit := h (high - 1 - k) hw
  rw [show high - 1 - (high - 1 - k) = k by omega] at hbit
  constructor
  · intro hnz
    by_contra hnot
    apply hnz
    apply BitVec.eq_of_getLsbD_eq
    intro i hi
    rw [BitVec.getLsbD_and, BitVec.getLsbD_zero]
    by_cases he : i = high - 1 - k
    · have : mask.getLsbD i = false := by
        rw [← Bool.not_eq_true, he, hbit]
        exact fun hc => hnot hc.2
      simp [this]
    · have : bit.getLsbD i = false := by
        rwa [← Bool.not_eq_true, hb i hi]
      simp [this]
  · intro hseen hz
    have hset : (mask &&& bit).getLsbD (high - 1 - k) = true := by
      rw [BitVec.getLsbD_and, hbit.mpr ⟨by omega, hseen⟩, (hb _ hw).mpr rfl]
      rfl
    rw [hz, BitVec.getLsbD_zero] at hset
    cases hset

/-- Setting the single bit of a late number records its arrival. -/
theorem tracks_mark (hk : k < high) (hb : ∀ i, i < n → (bit.getLsbD i = true ↔ i = high - 1 - k)) :
    Tracks n (mask ||| bit) (fun m => seen m ∨ m = k) high := by
  intro i hi
  rw [BitVec.getLsbD_or, Bool.or_eq_true, h i hi, hb i hi]
  constructor
  · rintro (⟨hh, hs⟩ | he)
    · exact ⟨hh, .inl hs⟩
    · exact ⟨by omega, .inr (by omega)⟩
  · rintro ⟨hh, hs | he⟩
    · exact .inl ⟨hh, hs⟩
    · exact .inr (by omega)

/-- Recording a number a second time changes nothing, not even unrepresented bits. -/
theorem tracks_mark_again (hk : k < high) (hn : high - 1 - k < n)
    (hb : ∀ i, i < w → (bit.getLsbD i = true ↔ i = high - 1 - k)) (hs : seen k) :
    mask ||| bit = mask := by
  have hbit := h (high - 1 - k) hn
  rw [show high - 1 - (high - 1 - k) = k by omega] at hbit
  apply BitVec.eq_of_getLsbD_eq
  intro i hi
  rw [BitVec.getLsbD_or]
  by_cases he : i = high - 1 - k
  · rw [he, hbit.mpr ⟨by omega, hs⟩, Bool.true_or]
  · have : bit.getLsbD i = false := by
      rwa [← Bool.not_eq_true, hb i hi]
    rw [this, Bool.or_false]

/-- Moving past numbers that never arrived only shifts. -/
theorem tracks_shift (hn : n ≤ w) (hs : ∀ m, high ≤ m → m < high + k → ¬ seen m) :
    Tracks n (mask <<< k) seen (high + k) := by
  intro i hi
  rw [BitVec.getLsbD_shiftLeft]
  by_cases hik : i < k
  · simp only [hik, decide_true, Bool.not_true, Bool.and_false, Bool.false_and,
      Bool.false_eq_true, false_iff, not_and]
    intro _
    exact hs _ (by omega) (by omega)
  have hw : i < w := by omega
  simp only [hw, decide_true, hik, decide_false, Bool.not_false, Bool.true_and]
  rw [h (i - k) (by omega)]
  have he : high + k - 1 - i = high - 1 - (i - k) := by omega
  rw [he]
  constructor
  · rintro ⟨hh, hm⟩
    exact ⟨by omega, hm⟩
  · rintro ⟨hh, hm⟩
    exact ⟨by omega, hm⟩

/-- Moving past a number that did arrive shifts in a one. -/
theorem tracks_push (hn : n ≤ w) (hs : seen high) :
    Tracks n ((mask <<< 1) ||| 1#w) seen (high + 1) := by
  intro i hi
  rw [BitVec.getLsbD_or, BitVec.getLsbD_shiftLeft, BitVec.getLsbD_one]
  rcases Nat.eq_zero_or_pos i with rfl | hpos
  · have hw : 0 < w := by omega
    simp [hw, hs]
  have hw : i < w := by omega
  have hi0 : i ≠ 0 := by omega
  have hi1 : ¬ i < 1 := by omega
  simp only [hw, hi0, hi1, decide_true, decide_false, Bool.not_false, Bool.true_and,
    Bool.and_true, Bool.and_false, Bool.or_false]
  rw [h (i - 1) (by omega)]
  have he : high + 1 - 1 - i = high - 1 - (i - 1) := by omega
  rw [he]
  constructor
  · rintro ⟨hh, hm⟩
    exact ⟨by omega, hm⟩
  · rintro ⟨hh, hm⟩
    exact ⟨by omega, hm⟩

end

end ServalMesh.Lib
