import ServalMesh.Lib.RippleCounter
import ServalMesh.Overlay.Buffer

/-!
# Nonces

Payloads are encrypted with nonces taken from a counter of 128 bytes. The first 24 bytes are used,
and of their first byte only seven bits: two nonces are the same if the counter differs in the
eighth bit only.
-/

namespace ServalMesh.Mdp

open Lib Overlay List

/-- `crypto_box_curve25519xsalsa20poly1305_ZEROBYTES`. -/
def boxZeroBytes : ℕ := 32

/-- `crypto_box_curve25519xsalsa20poly1305_BOXZEROBYTES`. -/
def boxBoxZeroBytes : ℕ := 16

/-- `crypto_box_curve25519xsalsa20poly1305_NONCEBYTES`. -/
def boxNonceBytes : ℕ := 24

section Encrypting

/-- The content of `nonce_buffer`. -/
abbrev NonceBuffer := { bytes : List Byte // bytes.length = 128 }

theorem NonceBuffer.length (b : NonceBuffer) : b.val.length = 128 := b.property

structure NonceState where
  nonceInitialised : Bool
  nonceBuffer : NonceBuffer

def NonceBuffer.increment (b : NonceBuffer) : NonceBuffer :=
  ⟨Lib.increment b.val, (length_increment _).trans b.property⟩

/-- `generate_nonce`, given what `urandombytes` returns if it is called. -/
def generateNonce (s : NonceState) (urandombytes : Option NonceBuffer) (bytes : ℕ) :
    Option (List Byte) × NonceState :=
  if bytes < 1 ∨ 128 < bytes then (none, s)
  else
    match if s.nonceInitialised then some s.nonceBuffer else urandombytes with
    | none => (none, s)
    | some buffer => (some (buffer.increment.val.take bytes), ⟨true, buffer.increment⟩)

/-- Clear the bit that is reserved as a flag. -/
def clearFlag : List Byte → List Byte
  | [] => []
  | b :: nonce => (b &&& 0x7f#8) :: nonce

/-- A call of `crypto_box_curve25519xsalsa20poly1305_afternm`. -/
structure BoxCall where
  plain : List Byte
  nonce : List Byte
  key : List Byte
deriving DecidableEq

/-- `encrypt_payload`, given what `keyring_get_nm_bytes` returns, up to the call that encrypts. -/
def encryptPayload (s : NonceState) (urandombytes : Option NonceBuffer) (k : Option (List Byte))
    (buffer : List Byte) : Option BoxCall × NonceState :=
  match generateNonce s urandombytes boxNonceBytes with
  | (none, s) => (none, s)
  | (some nonce, s) =>
    (k.map fun k => ⟨List.replicate boxZeroBytes 0#8 ++ buffer, clearFlag nonce, k⟩, s)

/-- The payload that `encrypt_payload` returns: the nonce and what was encrypted, without the bytes
that are always zero. -/
def BoxCall.payload (afternm : List Byte → List Byte → List Byte → List Byte) (c : BoxCall) :
    List Byte :=
  c.nonce ++ (afternm c.plain c.nonce c.key).drop boxBoxZeroBytes

/-- The arguments of `encrypt_payload`, with what the functions it calls return. -/
structure EncryptCall where
  urandombytes : Option NonceBuffer
  nmBytes : Option (List Byte)
  buffer : List Byte

def encryptAll : NonceState → List EncryptCall → List (Option BoxCall)
  | _, [] => []
  | s, c :: calls =>
    let (call, s) := encryptPayload s c.urandombytes c.nmBytes c.buffer
    call :: encryptAll s calls

/-- Whether a call gets as far as to encrypt. -/
def Encrypts (calls : List EncryptCall) (i : ℕ) : Prop :=
  ∃ c k, calls[i]? = some c ∧ c.nmBytes = some k

end Encrypting

section Values

/-- The nonce of a call. -/
def nonceAt (buffer : NonceBuffer) (i : ℕ) : List Byte :=
  clearFlag ((NonceBuffer.increment^[i + 1] buffer).val.take boxNonceBytes)

theorem encryptAll_getElem (buffer : NonceBuffer) (calls : List EncryptCall) (i : ℕ) :
    (encryptAll ⟨true, buffer⟩ calls)[i]? = calls[i]?.map fun c => c.nmBytes.map fun k =>
      ⟨List.replicate boxZeroBytes 0#8 ++ c.buffer, nonceAt buffer i, k⟩ := by
  induction calls generalizing buffer i with
  | nil => rfl
  | cons c calls ih =>
    cases i with
    | zero => rfl
    | succ i => exact ih buffer.increment i

theorem counterValue_iterate (buffer : NonceBuffer) (n : ℕ) :
    counterValue (NonceBuffer.increment^[n] buffer).val =
      (counterValue buffer.val + n) % 2 ^ (8 * 128) := by
  induction n with
  | zero =>
    have hlt := counterValue_lt buffer.val
    rw [buffer.property] at hlt
    exact (Nat.mod_eq_of_lt hlt).symm
  | succ n ih =>
    rw [Function.iterate_succ_apply', NonceBuffer.increment, counterValue_increment, ih,
      NonceBuffer.length, Nat.mod_add_mod, add_assoc]

theorem counterValue_clearFlag {nonce : List Byte} (hne : nonce ≠ []) :
    counterValue (clearFlag nonce) =
      counterValue nonce % 128 + 256 * (counterValue nonce / 256) := by
  obtain ⟨b, nonce, rfl⟩ := exists_cons_of_ne_nil hne
  have hb : (b &&& 0x7f#8).toNat = b.toNat % 128 := by
    exact Nat.and_two_pow_sub_one_eq_mod b.toNat 7
  rw [clearFlag, counterValue_cons, counterValue_cons, hb, show 2 ^ 8 = 256 from rfl]
  omega

theorem length_clearFlag (nonce : List Byte) : (clearFlag nonce).length = nonce.length := by
  cases nonce <;> rfl

theorem length_nonceAt (buffer : NonceBuffer) (i : ℕ) :
    (nonceAt buffer i).length = boxNonceBytes := by
  rw [nonceAt, length_clearFlag, length_take, NonceBuffer.length]
  rfl

/-- The number that a nonce is. -/
theorem counterValue_nonceAt (buffer : NonceBuffer) (i : ℕ) :
    counterValue (nonceAt buffer i) =
      (counterValue buffer.val + (i + 1)) % 2 ^ 192 % 128 +
        256 * ((counterValue buffer.val + (i + 1)) % 2 ^ 192 / 256) := by
  have hlength : boxNonceBytes ≤ (NonceBuffer.increment^[i + 1] buffer).val.length := by
    rw [NonceBuffer.length]
    decide
  have hne : (NonceBuffer.increment^[i + 1] buffer).val.take boxNonceBytes ≠ [] := by
    refine ne_nil_of_length_pos ?_
    rw [length_take, min_eq_left hlength]
    decide
  rw [nonceAt, counterValue_clearFlag hne, counterValue_take _ _ hlength, counterValue_iterate,
    show 8 * boxNonceBytes = 192 from rfl,
    Nat.mod_mod_of_dvd _ (show 2 ^ 192 ∣ 2 ^ (8 * 128) from pow_dvd_pow 2 (by decide))]

/-- Two nonces are the same only if they are 128 calls apart, and only the eighth bit is
different. -/
theorem nonceAt_eq_iff (buffer : NonceBuffer) {i j : ℕ} (hlt : i < j) (hj : j < 2 ^ 64) :
    nonceAt buffer i = nonceAt buffer j ↔
      j = i + 128 ∧ (counterValue buffer.val + (i + 1)) % 256 < 128 := by
  have hvalue : nonceAt buffer i = nonceAt buffer j ↔
      counterValue (nonceAt buffer i) = counterValue (nonceAt buffer j) :=
    ⟨congrArg counterValue, counterValue_injective (by rw [length_nonceAt, length_nonceAt])⟩
  rw [hvalue, counterValue_nonceAt, counterValue_nonceAt]
  omega

end Values

section Runs

variable {buffer : NonceBuffer} {calls : List EncryptCall} {i : ℕ}

/-- The calls that encrypt, with their nonces. -/
theorem mem_encryptAll {call : BoxCall}
    (h : (encryptAll ⟨true, buffer⟩ calls)[i]? = some (some call)) :
    Encrypts calls i ∧ call.nonce = nonceAt buffer i := by
  rw [encryptAll_getElem, Option.map_eq_some_iff] at h
  obtain ⟨c, hc, hcall⟩ := h
  obtain ⟨k, hk, rfl⟩ := Option.map_eq_some_iff.mp hcall
  exact ⟨⟨c, k, hc, hk⟩, rfl⟩

theorem Encrypts.call (h : Encrypts calls i) (buffer : NonceBuffer) :
    ∃ call, (encryptAll ⟨true, buffer⟩ calls)[i]? = some (some call) ∧
      call.nonce = nonceAt buffer i := by
  obtain ⟨c, k, hc, hk⟩ := h
  refine ⟨⟨List.replicate boxZeroBytes 0#8 ++ c.buffer, nonceAt buffer i, k⟩, ?_, rfl⟩
  rw [encryptAll_getElem, hc, Option.map_some, hk, Option.map_some]

theorem Encrypts.lt (h : Encrypts calls i) : i < calls.length := by
  obtain ⟨c, k, hc, -⟩ := h
  exact (List.getElem?_eq_some_iff.mp hc).1

/-- The nonces of a run, pair by pair. -/
theorem encryptAll_nodup_iff :
    (((encryptAll ⟨true, buffer⟩ calls).filterMap id).map BoxCall.nonce).Nodup ↔
      ∀ i j, i < j → Encrypts calls i → Encrypts calls j →
        nonceAt buffer i ≠ nonceAt buffer j := by
  rw [List.Nodup, pairwise_map, pairwise_filterMap, pairwise_iff_getElem]
  constructor
  · intro h i j hlt hi hj
    obtain ⟨call, hcall, hnonce⟩ := hi.call buffer
    obtain ⟨call', hcall', hnonce'⟩ := hj.call buffer
    obtain ⟨hilt, hcall⟩ := List.getElem?_eq_some_iff.mp hcall
    obtain ⟨hjlt, hcall'⟩ := List.getElem?_eq_some_iff.mp hcall'
    rw [← hnonce, ← hnonce']
    exact h i j hilt hjlt hlt call hcall call' hcall'
  · intro h i j hilt hjlt hlt call hcall call' hcall'
    obtain ⟨hi, hnonce⟩ := mem_encryptAll (List.getElem?_eq_some_iff.mpr ⟨hilt, hcall⟩)
    obtain ⟨hj, hnonce'⟩ := mem_encryptAll (List.getElem?_eq_some_iff.mpr ⟨hjlt, hcall'⟩)
    rw [hnonce, hnonce']
    exact h i j hlt hi hj

/-- The nonces of a run are different exactly if no two calls encrypt that are 128 calls apart and
where the eighth bit of the counter is clear at the first of them. -/
theorem encryptPayload_nonces_nodup_iff (buffer : NonceBuffer) (calls : List EncryptCall)
    (hcalls : calls.length < 2 ^ 64) :
    (((encryptAll ⟨true, buffer⟩ calls).filterMap id).map BoxCall.nonce).Nodup ↔
      ∀ i, Encrypts calls i → Encrypts calls (i + 128) →
        128 ≤ (counterValue buffer.val + (i + 1)) % 256 := by
  rw [encryptAll_nodup_iff]
  constructor
  · intro h i hi hj
    have hne := h i (i + 128) (Nat.lt_add_of_pos_right (by decide)) hi hj
    rw [Ne, nonceAt_eq_iff buffer (by omega) (hj.lt.trans hcalls)] at hne
    omega
  · intro h i j hlt hi hj heq
    obtain ⟨rfl, hbit⟩ := (nonceAt_eq_iff buffer hlt (hj.lt.trans hcalls)).mp heq
    have := h i hi hj
    omega

/-- The buffer and calls of the following runs. -/
def zeroNonce : NonceBuffer := ⟨List.replicate 128 0#8, length_replicate⟩

def emptyCall : EncryptCall := ⟨none, some [], []⟩

theorem encryptPayload_nonces_nodup_two :
    (((encryptAll ⟨true, zeroNonce⟩ [emptyCall, emptyCall]).filterMap id).map
      BoxCall.nonce).Nodup := by
  refine (encryptPayload_nonces_nodup_iff zeroNonce [emptyCall, emptyCall] (by decide)).mpr ?_
  intro i _ hj
  have hlt : i + 128 < 2 := hj.lt
  omega

/-- The first nonce is used again at the 129th call. -/
theorem encryptPayload_nonces_repeat :
    ¬(((encryptAll ⟨true, zeroNonce⟩ (List.replicate 129 emptyCall)).filterMap id).map
      BoxCall.nonce).Nodup := by
  intro h
  have hencrypts : ∀ i < 129, Encrypts (List.replicate 129 emptyCall) i := fun i hi =>
    ⟨emptyCall, [], getElem?_replicate_of_lt hi, rfl⟩
  refine encryptAll_nodup_iff.mp h 0 128 (by decide) (hencrypts 0 (by decide))
    (hencrypts 128 (by decide)) ((nonceAt_eq_iff zeroNonce (by decide) (by decide)).mpr ⟨rfl, ?_⟩)
  have hzero : counterValue zeroNonce.val = 0 := by decide +kernel
  rw [hzero]
  decide

end Runs

end ServalMesh.Mdp
