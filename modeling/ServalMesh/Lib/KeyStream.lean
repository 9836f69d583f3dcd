import Mathlib.Data.List.Basic
import Mathlib.Data.BitVec

/-!
# Stream ciphers

A byte of a text is combined with the byte of a key stream at its own position. How the text
is cut into pieces does not matter then, as long as each piece starts at the right position.
-/

namespace ServalMesh.Lib

variable {ks ks' : ℕ → BitVec 8} {n m : ℕ} {text more : List (BitVec 8)}

/-- The text combined with the key stream from a position on. -/
def xorStream (ks : ℕ → BitVec 8) : ℕ → List (BitVec 8) → List (BitVec 8)
  | _, [] => []
  | n, byte :: rest => (byte ^^^ ks n) :: xorStream ks (n + 1) rest

@[simp]
theorem length_xorStream (n : ℕ) (text : List (BitVec 8)) :
    (xorStream ks n text).length = text.length := by
  induction text generalizing n with
  | nil => rfl
  | cons byte rest ih => simp [xorStream, ih]

theorem xorStream_append (n : ℕ) (text more : List (BitVec 8)) :
    xorStream ks n (text ++ more) = xorStream ks n text ++ xorStream ks (n + text.length) more := by
  induction text generalizing n with
  | nil => rfl
  | cons byte rest ih =>
    rw [List.cons_append, xorStream, xorStream, ih, List.cons_append, List.length_cons]
    congr 3
    omega

/-- Decrypting what was encrypted at the same position. -/
theorem xorStream_xorStream (n : ℕ) (text : List (BitVec 8)) :
    xorStream ks n (xorStream ks n text) = text := by
  induction text generalizing n with
  | nil => rfl
  | cons byte rest ih => rw [xorStream, xorStream, ih, BitVec.xor_assoc, BitVec.xor_self,
      BitVec.xor_zero]

theorem xorStream_congr (h : ∀ i < text.length, ks (n + i) = ks' (m + i)) :
    xorStream ks n text = xorStream ks' m text := by
  induction text generalizing n m with
  | nil => rfl
  | cons byte rest ih =>
    have hhead := h 0 (by simp)
    have htail : xorStream ks (n + 1) rest = xorStream ks' (m + 1) rest := by
      refine ih fun i hi => ?_
      have := h (i + 1) (by simpa using hi)
      rwa [← add_assoc, ← add_assoc, add_right_comm n, add_right_comm m] at this
    rw [xorStream, xorStream, htail]
    exact congrArg (· :: _) (congrArg _ hhead)

theorem take_xorStream (n k : ℕ) (text : List (BitVec 8)) :
    (xorStream ks n text).take k = xorStream ks n (text.take k) := by
  induction text generalizing n k with
  | nil => simp [xorStream]
  | cons byte rest ih =>
    cases k with
    | zero => rfl
    | succ k => rw [xorStream, List.take_succ_cons, List.take_succ_cons, xorStream, ih]

theorem drop_xorStream (n k : ℕ) (text : List (BitVec 8)) :
    (xorStream ks n text).drop k = xorStream ks (n + k) (text.drop k) := by
  induction text generalizing n k with
  | nil => simp [xorStream]
  | cons byte rest ih =>
    cases k with
    | zero => rfl
    | succ k =>
      rw [xorStream, List.drop_succ_cons, List.drop_succ_cons, ih]
      congr 1
      omega

end ServalMesh.Lib
