import ServalMesh.Meshms.Ply
import ServalMesh.Rhizome.SyncLists

/-!
# Packed numbers of 64 bits

The functions that pack a number take 64 bits. Those that unpack it shift each byte as an `int`, so
they return the number as long as it fits into one.
-/

namespace ServalMesh.Meshms

open Overlay Rhizome List

variable {shift : ℕ → ℕ → ℕ}

def measurePackedUint (v : ℕ) : ℕ :=
  if v / 2 ^ 7 ≠ 0 then measurePackedUint (v / 2 ^ 7) + 1 else 1

theorem length_packUint (v : ℕ) : (packUint v).length = measurePackedUint v := by
  induction v using Nat.strongRecOn with
  | ind v ih =>
    rw [packUint, measurePackedUint]
    by_cases hsmall : v < 2 ^ 7
    · rw [if_pos hsmall, if_neg (not_not.mpr (Nat.div_eq_of_lt hsmall)), length_singleton]
    · have hdiv : v / 2 ^ 7 ≠ 0 := by omega
      rw [if_neg hsmall, if_pos hdiv, length_cons, ih _ (by omega)]

/-- What was packed is unpacked whatever follows, however the compiler shifts out of an `int`. -/
def ReadsBack (v : BitVec 64) : Prop :=
  ∀ rest, (∀ shift, ShiftsInt shift → unpackUint shift (packUint v.toNat ++ rest) =
      (v.toNat, some (measurePackedUint v.toNat))) ∧
    obGetPackedUi64 (packedBytes 10 v ++ rest) = (v, rest)

/-- After bytes that all say that there are more, a number ends with the next byte that does not,
and fails if there is none. -/
def Stops (shift : ℕ → ℕ → ℕ) (more : List Byte) : List Byte → Prop
  | [] => (unpackUint shift more).2 = none ∧ obGetPackedUi32 more = (BitVec.allOnes 32, []) ∧
      obGetPackedUi64 more = (BitVec.allOnes 64, [])
  | byte :: rest => byte &&& 0x80#8 = 0#8 →
      (unpackUint shift (more ++ byte :: rest)).2 = some (more.length + 1) ∧
        (obGetPackedUi32 (more ++ byte :: rest)).2 = rest ∧
        (obGetPackedUi64 (more ++ byte :: rest)).2 = rest

theorem and_eq_zero_iff (byte : Byte) : byte &&& 0x80#8 = 0#8 ↔ byte.toNat < 2 ^ 7 :=
  (by decide +kernel : ∀ byte : Byte, byte &&& 0x80#8 = 0#8 ↔ byte.toNat < 2 ^ 7) byte

section Loops

variable {more : List Byte}

section

variable (hmore : ∀ byte ∈ more, byte &&& 0x80#8 ≠ 0#8) (rest : List Byte)
include hmore rest

theorem unpackLoop_more (i v : ℕ) : ∃ v', unpackLoop shift (more ++ rest) i v =
      unpackLoop shift rest (i + more.length) v' := by
  induction more generalizing i v with
  | nil => exact ⟨v, rfl⟩
  | cons byte more ih =>
    obtain ⟨hbyte, hmore⟩ := forall_mem_cons.mp hmore
    obtain ⟨v', h⟩ := ih hmore (i + 1) (v ||| shift (byte.toNat % 2 ^ 7) (i * 7))
    refine ⟨v', ?_⟩
    rw [cons_append, unpackLoop, if_neg (mt (and_eq_zero_iff byte).mpr hbyte), h, length_cons,
      Nat.add_right_comm, add_assoc]

theorem packedLoop32_more (ret : BitVec 32) (n : ℕ) : ∃ ret' n', packedLoop32 ret n (more ++ rest) =
      packedLoop32 ret' n' rest := by
  induction more generalizing ret n with
  | nil => exact ⟨ret, n, rfl⟩
  | cons byte more ih =>
    obtain ⟨hbyte, hmore⟩ := forall_mem_cons.mp hmore
    rw [cons_append, packedLoop32, if_pos hbyte]
    exact ih hmore _ _

end

theorem stops (shift : ℕ → ℕ → ℕ) (hmore : ∀ byte ∈ more, byte &&& 0x80#8 ≠ 0#8)
    (rest : List Byte) : Stops shift more rest := by
  obtain ⟨v, hv⟩ := @unpackLoop_more shift more hmore rest 0 0
  obtain ⟨ret, n, hret⟩ := packedLoop32_more hmore rest 0#32 0
  cases rest with
  | nil =>
    rw [append_nil] at hv hret
    rw [Stops, obGetPackedUi64_eq, unpackUint, obGetPackedUi32, hv, hret, packedLoop32]
    exact ⟨rfl, rfl, by decide⟩
  | cons byte rest =>
    intro hlast
    rw [obGetPackedUi64_eq, unpackUint, obGetPackedUi32, hv, hret, unpackLoop, packedLoop32,
      if_pos ((and_eq_zero_iff byte).mp hlast), if_neg (not_not.mpr hlast), zero_add]
    exact ⟨rfl, rfl, rfl⟩

/-- If what does not fit is shifted out, no number is read that does not fit. -/
theorem unpackLoop_lt (hsmall : ∀ v i, shift v i < 2 ^ 31) (buffer : List Byte) (i : ℕ) {v : ℕ}
    (hv : v < 2 ^ 31) : (unpackLoop shift buffer i v).1 < 2 ^ 31 := by
  induction buffer generalizing i v with
  | nil => exact hv
  | cons byte buffer ih =>
    have hor := Nat.or_lt_two_pow hv (hsmall (byte.toNat % 2 ^ 7) (i * 7))
    rw [unpackLoop]
    split
    · exact hor
    · exact ih _ hor

end Loops

theorem readsBack_iff (v : BitVec 64) : ReadsBack v ↔ v.toNat < 2 ^ 31 := by
  constructor
  · intro h
    have hread := (h []).1 (fun v i => if v * 2 ^ i < 2 ^ 31 then v * 2 ^ i else 0)
      fun _ _ _ hfits => if_pos hfits
    refine (congrArg Prod.fst hread).symm.trans_lt (unpackLoop_lt (fun v i => ?_) _ 0 (by decide))
    split
    · assumption
    · decide
  · intro hv rest
    have hget := obGetPackedUi64_packedBytes hv rest
    rw [BitVec.ofNat_toNat, BitVec.setWidth_eq] at hget
    exact ⟨fun shift hshift => length_packUint _ ▸ unpackUint_packUint hshift hv rest, hget⟩

/-- Packed numbers are read again exactly if they fit into an `int`, those of 32 bits always; the
readers stop at the end of the number, or fail at the end of the bytes. -/
theorem packed_readsBack_iff (v : BitVec 64) (u : BitVec 32) (rest : List Byte) :
    (ReadsBack v ↔ v.toNat < 2 ^ 31) ∧ (packUint v.toNat).length = measurePackedUint v.toNat ∧
      obGetPackedUi32 (packedBytes 5 u ++ rest) = (u, rest) ∧
      ∀ shift more, (∀ byte ∈ more, byte &&& 0x80#8 ≠ 0#8) → Stops shift more rest :=
  ⟨readsBack_iff v, length_packUint v.toNat, obGetPackedUi32_packedBytes u rest,
    fun shift _ hmore => stops shift hmore rest⟩

/-- The fifth byte of `2 ^ 31` sets the sign, which is extended. -/
theorem obGetPackedUi64_two_pow :
    obGetPackedUi64 (packedBytes 10 0x80000000#64) = (0xffffffff80000000#64, []) := by
  decide

end ServalMesh.Meshms
