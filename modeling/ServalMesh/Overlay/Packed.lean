import ServalMesh.Lib.ShiftRegister
import ServalMesh.Overlay.Overrun

/-!
# Packed numbers

A packed number has seven bits in each byte, the lowest first, and the eighth bit says whether there
are more.
-/

namespace ServalMesh.Overlay

open Lib BitVec

section Bytes

variable {w : ℕ}

theorem packedByte_low (x : Fin 128) (c : Byte) (hc : c ∈ [0x80#8, 0#8]) :
    ((BitVec.ofNat 8 x ||| c) &&& 0x7f#8).toNat = x ∧
      ((BitVec.ofNat 8 x ||| c) &&& 0x80#8 ≠ 0#8 ↔ c ≠ 0#8) := by
  have hall : ∀ x : Fin 128, ∀ c ∈ [0x80#8, 0#8],
      ((BitVec.ofNat 8 x ||| c) &&& 0x7f#8).toNat = x ∧
        ((BitVec.ofNat 8 x ||| c) &&& 0x80#8 ≠ 0#8 ↔ c ≠ 0#8) := by decide +kernel
  exact hall x c hc

theorem shiftRight_seven (v : BitVec w) : (v >>> 7).toNat = v.toNat / 128 := by
  rw [toNat_ushiftRight, Nat.shiftRight_eq_div_pow]

theorem toNat_low (hw : 7 ≤ w) (v : BitVec w) : (v &&& 0x7f#w).toNat = v.toNat % 128 := by
  have hlt : 127 < 2 ^ w := lt_of_lt_of_le (by decide) (Nat.pow_le_pow_right Nat.two_pos hw)
  rw [toNat_and, toNat_ofNat, Nat.mod_eq_of_lt hlt]
  exact Nat.and_two_pow_sub_one_eq_mod v.toNat 7

/-- The first byte of a packed number has its low seven bits, and says whether there are more. -/
theorem packedBytes_succ (hw : 7 ≤ w) (n : ℕ) (v : BitVec w) :
    packedBytes (n + 1) v =
      (BitVec.ofNat 8 (v.toNat % 128) ||| if 128 ≤ v.toNat then 0x80#8 else 0#8) ::
        if 128 ≤ v.toNat then packedBytes n (v >>> 7) else [] := by
  have hlow : (v &&& 0x7f#w).setWidth 8 = BitVec.ofNat 8 (v.toNat % 128) := by
    apply eq_of_toNat_eq
    rw [toNat_setWidth, toNat_low hw, toNat_ofNat]
  have hmore : 0x7f#w < v ↔ 128 ≤ v.toNat := by
    have hlt : 127 < 2 ^ w := lt_of_lt_of_le (by decide) (Nat.pow_le_pow_right Nat.two_pos hw)
    rw [lt_def, toNat_ofNat, Nat.mod_eq_of_lt hlt]
    exact Iff.rfl
  have hzero : v >>> 7 = 0#w ↔ ¬128 ≤ v.toNat := by
    rw [← toNat_inj, shiftRight_seven]
    exact Nat.div_eq_zero_iff.trans (by simp)
  rw [packedBytes, hlow]
  simp only [hmore, hzero, ite_not]

theorem packedBytes_cons (hw : 7 ≤ w) (n : ℕ) (v : BitVec w) :
    ∃ byte : Byte, packedBytes (n + 1) v =
        byte :: (if 128 ≤ v.toNat then packedBytes n (v >>> 7) else []) ∧
      (byte &&& 0x7f#8).toNat = v.toNat % 128 ∧ (byte &&& 0x80#8 ≠ 0#8 ↔ 128 ≤ v.toNat) := by
  obtain ⟨hval, htop⟩ := packedByte_low ⟨v.toNat % 128, Nat.mod_lt _ (by decide)⟩
    (if 128 ≤ v.toNat then 0x80#8 else 0#8) (by split <;> decide)
  refine ⟨_, packedBytes_succ hw n v, hval, htop.trans ?_⟩
  split <;> simp [*]

/-- The width of a number does not matter, nor how many bytes more it could have. -/
theorem packedBytes_width (hw : 7 ≤ w) (n k : ℕ) {v : BitVec w} {u : BitVec 32}
    (h : v.toNat = u.toNat) (hu : u.toNat < 128 ^ (n + 1)) :
    packedBytes (n + k + 1) v = packedBytes (n + 1) u := by
  induction n generalizing v u with
  | zero =>
    have hsmall : ¬128 ≤ u.toNat := not_le.mpr (by simpa using hu)
    rw [packedBytes_succ hw, packedBytes_succ (by decide), h]
    simp only [if_neg hsmall]
  | succ n ih =>
    have hrest : (u >>> 7).toNat < 128 ^ (n + 1) := by
      rw [shiftRight_seven]
      exact Nat.div_lt_of_lt_mul (by rwa [← pow_succ'])
    rw [packedBytes_succ hw, packedBytes_succ (by decide), h, Nat.add_right_comm n 1 k,
      ih (by rw [shiftRight_seven, shiftRight_seven, h]) hrest]

theorem length_packedBytes_le (n : ℕ) (v : BitVec w) : (packedBytes n v).length ≤ n := by
  induction n generalizing v with
  | zero => exact le_rfl
  | succ n ih =>
    rw [packedBytes, List.length_cons]
    split
    · exact Nat.succ_le_succ (Nat.zero_le n)
    · exact Nat.succ_le_succ (ih _)

end Bytes

section Reading

/-- The loop of `ob_get_packed_ui32`. The bits are shifted in an `int`; a number that ends too early
is `-1`. -/
def packedLoop32 (ret : BitVec 32) (shift : ℕ) : List Byte → BitVec 32 × List Byte
  | [] => (BitVec.allOnes 32, [])
  | byte :: rest =>
    let ret := ret ||| UndefinedShifts.x86.shlInt ((byte &&& 0x7f#8).setWidth 32) shift
    if byte &&& 0x80#8 ≠ 0#8 then packedLoop32 ret (shift + 7) rest else (ret, rest)

def obGetPackedUi32 (bytes : List Byte) : BitVec 32 × List Byte := packedLoop32 0#32 0 bytes

theorem length_packedLoop32 (ret : BitVec 32) (shift : ℕ) (bytes : List Byte) :
    (packedLoop32 ret shift bytes).2.length ≤ bytes.length := by
  induction bytes generalizing ret shift with
  | nil => exact le_rfl
  | cons byte rest ih =>
    rw [packedLoop32]
    split
    · exact (ih _ _).trans (Nat.le_succ _)
    · exact Nat.le_succ _

/-- The low seven bits and the others. -/
theorem shiftLeft_split (v : BitVec 32) (shift : ℕ) :
    (v &&& 0x7f#32) <<< shift ||| (v >>> 7) <<< (shift + 7) = v <<< shift := by
  apply eq_of_getLsbD_eq
  intro i hi
  have hseven : ∀ k, (0x7f#32).getLsbD k = decide (k < 7) := by
    intro k
    by_cases hk : k < 32
    · exact (by decide : ∀ k < 32, (0x7f#32).getLsbD k = decide (k < 7)) k hk
    · rw [getLsbD_of_ge _ _ (not_lt.mp hk)]
      exact (decide_eq_false (by omega)).symm
  simp only [getLsbD_or, getLsbD_shiftLeft, getLsbD_and, hseven,
    getLsbD_ushiftRight, hi, decide_true, Bool.true_and]
  by_cases hlow : i < shift
  · simp [hlow, Nat.lt_add_right 7 hlow]
  by_cases hmid : i < shift + 7
  · have : i - shift < 7 := by omega
    simp [hlow, hmid, this]
  · have : ¬i - shift < 7 := by omega
    simp [hlow, hmid, this, show 7 + (i - (shift + 7)) = i - shift by omega]

variable {v : BitVec 32} {shift : ℕ}

theorem setWidth_low {byte : Byte} (hlow : (byte &&& 0x7f#8).toNat = v.toNat % 128) :
    (byte &&& 0x7f#8).setWidth 32 = v &&& 0x7f#32 := by
  apply eq_of_toNat_eq
  rw [toNat_setWidth, hlow, toNat_low (by decide)]
  exact Nat.mod_eq_of_lt (lt_trans (Nat.mod_lt _ (by decide)) (by decide))

theorem packedLoop32_last (n : ℕ) (ret : BitVec 32) (rest : List Byte)
    (hv : v.toNat < 128) (hshift : shift < 32) :
    packedLoop32 ret shift (packedBytes (n + 1) v ++ rest) = (ret ||| v <<< shift, rest) := by
  obtain ⟨byte, hbytes, hlow, hmore⟩ := packedBytes_cons (by decide) n v
  have hall : v &&& 0x7f#32 = v := by
    apply eq_of_toNat_eq
    rw [toNat_low (by decide), Nat.mod_eq_of_lt hv]
  rw [hbytes, if_neg (not_le.mpr hv), List.singleton_append, packedLoop32,
    if_neg (mt hmore.mp (not_le.mpr hv)), setWidth_low hlow, hall,
    UndefinedShifts.shlInt_of_lt hshift]

/-- What was packed is read again. -/
theorem packedLoop32_packedBytes (n : ℕ) (ret : BitVec 32) (rest : List Byte)
    (hv : v.toNat < 128 ^ (n + 1)) (hshift : shift + 7 * n < 32) :
    packedLoop32 ret shift (packedBytes (n + 1) v ++ rest) = (ret ||| v <<< shift, rest) := by
  induction n generalizing v shift ret with
  | zero => exact packedLoop32_last 0 ret rest (by simpa using hv) (by omega)
  | succ n ih =>
    by_cases hsmall : v.toNat < 128
    · exact packedLoop32_last (n + 1) ret rest hsmall (by omega)
    obtain ⟨byte, hbytes, hlow, hmore⟩ := packedBytes_cons (by decide) (n + 1) v
    have hrest : (v >>> 7).toNat < 128 ^ (n + 1) := by
      rw [shiftRight_seven]
      exact Nat.div_lt_of_lt_mul (by rwa [← pow_succ'])
    rw [hbytes, if_pos (not_lt.mp hsmall), List.cons_append, packedLoop32,
      if_pos (hmore.mpr (not_lt.mp hsmall)), setWidth_low hlow,
      UndefinedShifts.shlInt_of_lt (show shift < 32 by omega), ih _ hrest (by omega),
      BitVec.or_assoc,
      shiftLeft_split]

theorem obGetPackedUi32_packedBytes (v : BitVec 32) (rest : List Byte) :
    obGetPackedUi32 (packedBytes 5 v ++ rest) = (v, rest) := by
  rw [obGetPackedUi32, packedLoop32_packedBytes 4 _ _ (v.isLt.trans (by decide)) (by decide),
    shiftLeft_zero, zero_or]

end Reading

end ServalMesh.Overlay
