import ServalMesh.Keyring.Rotbuf

/-!
# Identities in the keyring

An identity is packed into a slot of the keyring file and unpacked from it. After a salt, a message
authentication code and a rotation, the slot holds its key pairs in a rotated buffer. Memory can
always be allocated, and random bytes are always available.
-/

namespace ServalMesh.Keyring

open Overlay

def pkrMaxKeypairs : ℕ := 64
def pkrSaltBytes : ℕ := 32
def pkrMacBytes : ℕ := 64
def keyringPageSize : ℕ := 4096

def keytypeCryptobox : ℕ := 1
def keytypeCryptosign : ℕ := 2
def keytypeRhizome : ℕ := 3
def keytypeDid : ℕ := 4
def keytypePublicTag : ℕ := 5

/-- The functions `pack_*`. -/
inductive Packer where
  | privateOnly
  | publicOnly
  | privatePublic
  | didName

/-- The functions `unpack_*`. -/
inductive Unpacker where
  | privatePublic
  | privateOnly
  | publicOnly
  | cryptobox
  | didName

/-- `struct keytype`, without what creates, dumps and loads keys. -/
structure Keytype where
  privateKeySize : ℕ
  publicKeySize : ℕ
  packedSize : ℕ
  packer : Packer
  unpacker : Unpacker

/-- The array `keytypes`. Types behind its end are unknown, and type 0 is never looked up. -/
def keytypes : ℕ → Option Keytype
  | 1 => some ⟨32, 32, 32, .privateOnly, .cryptobox⟩
  | 2 => some ⟨64, 32, 64 + 32, .privatePublic, .privatePublic⟩
  | 3 => some ⟨32, 0, 32, .privateOnly, .privateOnly⟩
  | 4 => some ⟨32, 64, 32 + 64, .didName, .didName⟩
  | 5 => some ⟨0, 0, 0, .publicOnly, .publicOnly⟩
  | _ => none

/-- The original four types, whose length is not stored. -/
def lengthImplied (ktype : ℕ) : Bool :=
  ktype = keytypeCryptobox || ktype = keytypeCryptosign || ktype = keytypeRhizome ||
    ktype = keytypeDid

/-- `struct keypair`: a key is missing if its pointer is `NULL`. -/
structure Keypair where
  type : ℕ
  privateKey : Option (List Byte)
  publicKey : Option (List Byte)
deriving DecidableEq

namespace Keypair

/-- The bytes of the private key, none if it is missing. -/
def priv (kp : Keypair) : List Byte := kp.privateKey.getD []

/-- The bytes of the public key, none if it is missing. -/
def pub (kp : Keypair) : List Byte := kp.publicKey.getD []

end Keypair

/-- `struct keyring_identity`. -/
structure KeyringIdentity where
  pkrPin : List Byte
  keypairs : List Keypair
deriving DecidableEq

section Packing

def Packer.pack (packer : Packer) (kp : Keypair) (slot : Slot) (rb : Rotbuf) :
    Option (Slot × Rotbuf) :=
  match packer with
  | .privateOnly => some (rotbufPutbuf slot rb kp.priv)
  | .publicOnly => some (rotbufPutbuf slot rb kp.pub)
  | .privatePublic =>
    let (slot, rb) := rotbufPutbuf slot rb kp.priv
    some (rotbufPutbuf slot rb kp.pub)
  | .didName =>
    -- the name has to be terminated
    if 0#8 ∈ kp.pub then
      let (slot, rb) := rotbufPutbuf slot rb kp.priv
      some (rotbufPutbuf slot rb kp.pub)
    else none

/-- The function that packs a key pair, and the length that it should have. -/
def packerOf (kp : Keypair) : Packer × ℕ :=
  match keytypes kp.type with
  | some kt => (kt.packer, if kt.packedSize = 0 then kp.priv.length + kp.pub.length
      else kt.packedSize)
  | none => (.privateOnly, kp.priv.length)

/-- The two bytes of a length, if it is stored. -/
def lengthBytes (ktype keypairLen : ℕ) : List Byte :=
  if lengthImplied ktype then []
  else [BitVec.ofNat 8 (keypairLen / 2 ^ 8), BitVec.ofNat 8 keypairLen]

/-- How the loop over the key pairs ends: behind the last one, before that, or with an error that
scrambles the slot. -/
inductive PackEnd where
  | done
  | stopped
  | scram
deriving DecidableEq

def packLoop : List Keypair → Slot → Rotbuf → Except Abort (PackEnd × Slot × Rotbuf)
  | [], slot, rb => .ok (.done, slot, rb)
  | kp :: rest, slot, rb =>
    if rb.wrap ≠ 0 then .ok (.stopped, slot, rb)
    else if kp.type = 0 then .error .fatal
    else
      let (packer, keypairLen) := packerOf kp
      let (slot, rb) := rotbufPutc slot rb (BitVec.ofNat 8 kp.type)
      let (slot, rb) := rotbufPutbuf slot rb (lengthBytes kp.type keypairLen)
      match packer.pack kp slot rb with
      | none => .ok (.stopped, slot, rb)
      | some (slot, rb') =>
        match rotbufDelta rb rb' with
        | .error e => .error e
        | .ok packed =>
          if packed % 2 ^ 32 ≠ keypairLen then .ok (.scram, slot, rb')
          else packLoop rest slot rb'

/-- The code that `keyring_identity_mac` computes. -/
def keyringIdentityMac (sha512 : List Byte → List Byte) (id : KeyringIdentity)
    (pkrsalt : List Byte) : Option (List Byte) :=
  match id.keypairs with
  | [] => none
  | kp :: _ =>
    if kp.type ≠ keytypeCryptobox then none
    else
      let work := pkrsalt ++ kp.priv ++ kp.pub ++ id.pkrPin
      if 65536 < work.length then none else some (sha512 work)

/-- Random bytes in the rest of the slot. -/
def fillLoop (fill : Slot) (slot : Slot) (rb : Rotbuf) : Slot :=
  match _h : rotbufNextChunk rb with
  | none => slot
  | some (offset, len, rb') =>
    fillLoop fill (fun i => if offset ≤ i ∧ i < offset + len then fill i else slot i) rb'
termination_by if rb.wrap ≠ 0 then 0 else if rb.start ≤ rb.cursor then 2 else 1
decreasing_by
  rw [rotbufNextChunk] at _h
  grind

/-- The rotated buffer of a slot. -/
def slotBuf (rotation : BitVec 16) : Rotbuf :=
  rotbufInit (pkrSaltBytes + pkrMacBytes + 2) (keyringPageSize - (pkrSaltBytes + pkrMacBytes + 2))
    rotation.toNat (by decide)

/-- What `urandombytes` returns: the salt, the rotation, and what a slot is filled with. -/
structure SlotRandom where
  salt : List Byte
  rotation : BitVec 16
  fill : Slot

/-- The code and the rotation behind the salt. -/
def slotHeader (rotation : BitVec 16) (mac : List Byte) (slot : Slot) : Slot := fun i =>
  if pkrSaltBytes ≤ i ∧ i < pkrSaltBytes + pkrMacBytes then mac.getD (i - pkrSaltBytes) 0#8
  else if i = pkrSaltBytes + pkrMacBytes then BitVec.ofNat 8 (rotation.toNat / 2 ^ 8)
  else if i = pkrSaltBytes + pkrMacBytes + 1 then BitVec.ofNat 8 rotation.toNat
  else slot i

/-- `keyring_pack_identity`, with what was in the memory of the slot before. -/
def keyringPackIdentity (sha512 : List Byte → List Byte) (random : SlotRandom)
    (id : KeyringIdentity) (slot : Slot) : Except Abort (ℤ × Slot) :=
  let slot : Slot := fun i => if i < pkrSaltBytes then random.salt.getD i 0#8 else slot i
  match keyringIdentityMac sha512 id random.salt with
  | none => .ok (-1, slot)
  | some mac =>
    match packLoop id.keypairs (slotHeader random.rotation mac slot) (slotBuf random.rotation) with
    | .error e => .error e
    | .ok (packEnd, slot, rb) =>
      let (slot, rb) := rotbufPutc slot rb 0#8
      if packEnd = .scram ∨ 1 < rb.wrap ∨ packEnd ≠ .done then .ok (-1, random.fill)
      else .ok (0, fillLoop random.fill slot rb)

end Packing

section Ordering

/-- `memcmp` of two keys, and then their lengths. -/
def cmpKey : List Byte → List Byte → ℤ
  | [], [] => 0
  | [], _ :: b => -(b.length + 1)
  | _ :: a, [] => a.length + 1
  | x :: a, y :: b => if x < y then -1 else if y < x then 1 else cmpKey a b

def cmpKeypair (a b : Keypair) : Except Abort ℤ :=
  let c := if a.type < b.type then -1 else if b.type < a.type then 1 else 0
  let c : Except Abort ℤ := if c = 0 ∧ a.pub ≠ [] then
      if b.publicKey.isNone then .error .assertion else .ok (cmpKey a.pub b.pub)
    else .ok c
  match c with
  | .error e => .error e
  | .ok c =>
    if c = 0 ∧ a.priv ≠ [] then
      if b.privateKey.isNone then .error .assertion else .ok (cmpKey a.priv b.priv)
    else .ok c

/-- The assertion that two key pairs next to each other are in order. -/
def checkOrder (previous : Option Keypair) (kp : Keypair) : Except Abort Unit :=
  match previous with
  | none => .ok ()
  | some p =>
    match cmpKeypair p kp with
    | .error e => .error e
    | .ok c => if c < 0 then .ok () else .error .assertion

/-- The loop that finds the place of a key pair, and nothing if it is there already. -/
def addLoop (kp : Keypair) : Option Keypair → List Keypair → Except Abort (Option (List Keypair))
  | _, [] => .ok (some [kp])
  | previous, x :: rest =>
    match cmpKeypair x kp with
    | .error e => .error e
    | .ok c =>
      if c < 0 then
        match checkOrder previous x with
        | .error e => .error e
        | .ok () =>
          match addLoop kp (some x) rest with
          | .error e => .error e
          | .ok added => .ok (added.map (x :: ·))
      else if c = 0 then .ok none
      else .ok (some (kp :: x :: rest))

def keyringIdentityAddKeypair (keypairs : List Keypair) (kp : Keypair) :
    Except Abort (Option (List Keypair)) :=
  if pkrMaxKeypairs ≤ keypairs.length then .error .assertion else addLoop kp none keypairs

end Ordering

section Unpacking

/-- Memory for a key, if there are any bytes. -/
def newKey (bytes : List Byte) : Option (List Byte) := if bytes = [] then none else some bytes

/-- `keyring_alloc_keypair` and the function that unpacks a key pair of a known type. If the buffer
ends before its private key does, the public key of `CRYPTOBOX` is left as it was allocated. -/
def Unpacker.unpack (scalarmultBase : List Byte → List Byte) (slot : Slot) (ktype : ℕ)
    (kt : Keytype) (keypairLen : ℕ) (rb : Rotbuf) : Except Abort (Option (Keypair × Rotbuf)) :=
  match kt.unpacker with
  | .privatePublic =>
    if keypairLen ≠ kt.privateKeySize + kt.publicKeySize then .error .assertion
    else
      let (priv, rb) := rotbufGetbuf slot kt.privateKeySize rb
      let (pub, rb) := rotbufGetbuf slot kt.publicKeySize rb
      .ok (some (⟨ktype, newKey priv, newKey pub⟩, rb))
  | .privateOnly =>
    let (priv, rb) := rotbufGetbuf slot
      (if kt.privateKeySize = 0 then keypairLen else kt.privateKeySize) rb
    .ok (some (⟨ktype, some priv, newKey (List.replicate kt.publicKeySize 0#8)⟩, rb))
  | .publicOnly =>
    let (pub, rb) := rotbufGetbuf slot
      (if kt.publicKeySize = 0 then keypairLen else kt.publicKeySize) rb
    .ok (some (⟨ktype, newKey (List.replicate kt.privateKeySize 0#8), some pub⟩, rb))
  | .cryptobox =>
    if keypairLen ≠ kt.privateKeySize then .error .assertion
    else
      let (priv, rb) := rotbufGetbuf slot kt.privateKeySize rb
      let pub := if rb.wrap ≠ 0 then List.replicate kt.publicKeySize 0#8 else scalarmultBase priv
      .ok (some (⟨ktype, newKey priv, newKey pub⟩, rb))
  | .didName =>
    if keypairLen ≠ kt.privateKeySize + kt.publicKeySize then .error .assertion
    else
      let (priv, rb) := rotbufGetbuf slot kt.privateKeySize rb
      let (pub, rb) := rotbufGetbuf slot kt.publicKeySize rb
      if 0#8 ∈ pub then .ok (some (⟨ktype, newKey priv, newKey pub⟩, rb)) else .ok none

/-- The length of a key pair, which is too large if the buffer ends before it. -/
def keypairLength (slot : Slot) (ktype : ℕ) (rb : Rotbuf) : ℕ × Rotbuf :=
  if lengthImplied ktype then (((keytypes ktype).map (·.packedSize)).getD 0, rb)
  else
    let (high, rb) := rotbufGetc slot rb
    let (low, rb) := rotbufGetc slot rb
    match high, low with
    | some high, some low => (high.toNat * 2 ^ 8 + low.toNat, rb)
    | _, _ => (2 ^ 64 - 1, rb)

/-- The part of the loop that unpacks a key pair, behind its type. -/
def unpackKeypair (scalarmultBase : List Byte → List Byte) (slot : Slot) (ktype : ℕ)
    (rb : Rotbuf) : Except Abort (Option (Keypair × Rotbuf)) :=
  let (keypairLen, rb) := keypairLength slot ktype rb
  if rotbufRemain rb < keypairLen then .ok none
  else
    match keytypes ktype with
    | some kt =>
      match Unpacker.unpack scalarmultBase slot ktype kt keypairLen rb with
      | .error e => .error e
      | .ok none => .ok none
      | .ok (some (kp, rb')) =>
        match rotbufDelta rb rb' with
        | .error e => .error e
        | .ok unpacked => if unpacked % 2 ^ 64 ≠ keypairLen then .ok none else .ok (some (kp, rb'))
    | none =>
      let (priv, rb) := rotbufGetbuf slot keypairLen rb
      .ok (some (⟨ktype, newKey priv, none⟩, rb))

variable {scalarmultBase : List Byte → List Byte} {rb rb' : Rotbuf} {kp : Keypair} {slot : Slot}
  {ktype : ℕ}

/-- Unpacking only moves the cursor forwards. -/
theorem Unpacker.unpack_skip {kt : Keytype} {keypairLen : ℕ}
    (h : unpack scalarmultBase slot ktype kt keypairLen rb = .ok (some (kp, rb'))) :
    (∃ n, rb' = rb.skip n) ∧ kp.type = ktype := by
  have hboth : ∀ m n, (rotbufGetbuf slot n (rotbufGetbuf slot m rb).2).2 = rb.skip (m + n) := by
    intro m n
    rw [rotbufGetbuf_skip, rotbufGetbuf_skip, Rotbuf.skip_add]
  have hdone : ∀ {kp₀ : Keypair} {rb₀ n},
      (.ok (some (kp₀, rb₀)) : Except Abort _) = .ok (some (kp, rb')) → rb₀ = rb.skip n →
      kp₀.type = ktype →
      (∃ n, rb' = rb.skip n) ∧ kp.type = ktype := by
    rintro kp₀ rb₀ n ⟨⟩ hskip htype
    exact ⟨⟨n, hskip⟩, htype⟩
  rw [unpack] at h
  split at h
  case h_1 =>
    split at h
    · exact nomatch h
    exact hdone h (hboth _ _) rfl
  case h_2 | h_3 => exact hdone h (rotbufGetbuf_skip _ _ _) rfl
  case h_4 =>
    split at h
    · exact nomatch h
    exact hdone h (rotbufGetbuf_skip _ _ _) rfl
  case h_5 =>
    split at h
    · exact nomatch h
    dsimp only at h
    split at h
    · exact hdone h (hboth _ _) rfl
    · exact nomatch h

theorem keypairLength_skip (slot : Slot) (ktype : ℕ) (rb : Rotbuf) :
    ∃ n, (keypairLength slot ktype rb).2 = rb.skip n := by
  rw [keypairLength]
  split
  · exact ⟨0, rfl⟩
  · refine ⟨2, ?_⟩
    dsimp only
    rw [rotbufGetc_next, rotbufGetc_next]
    split <;> rfl

theorem unpackKeypair_skip
    (h : unpackKeypair scalarmultBase slot ktype rb = .ok (some (kp, rb'))) :
    (∃ n, rb' = rb.skip n) ∧ kp.type = ktype ∧ (keytypes ktype = none → kp.pub = []) := by
  obtain ⟨m, hlength⟩ := keypairLength_skip slot ktype rb
  rw [unpackKeypair] at h
  dsimp only at h
  rw [hlength] at h
  generalize (keypairLength slot ktype rb).1 = keypairLen at h
  split at h
  · exact nomatch h
  split at h
  case h_1 kt hkt =>
    split at h
    · exact nomatch h
    · exact nomatch h
    case h_3 kp₁ rb₁ hunpack =>
      obtain ⟨⟨n, rfl⟩, htype⟩ := Unpacker.unpack_skip hunpack
      split at h
      · exact nomatch h
      split at h
      · exact nomatch h
      · obtain ⟨rfl, rfl⟩ := h
        exact ⟨⟨m + n, (rb.skip_add m n).symm⟩, htype, fun hnone => by cases hkt.symm.trans hnone⟩
  case h_2 =>
    obtain ⟨rfl, rfl⟩ := h
    refine ⟨⟨m + keypairLen, ?_⟩, rfl, fun _ => rfl⟩
    rw [rotbufGetbuf_skip, Rotbuf.skip_add]

def unpackLoop (scalarmultBase : List Byte → List Byte) (slot : Slot) (rb : Rotbuf)
    (keypairs : List Keypair) : Except Abort (Option (List Keypair × Rotbuf)) :=
  if _hwrap : rb.wrap ≠ 0 then .ok (some (keypairs, rb))
  else if pkrMaxKeypairs ≤ keypairs.length then .ok none
  else
    let ktype := ((rotbufGetc slot rb).1.getD 0xff#8).toNat
    if rb.next.wrap ≠ 0 ∨ ktype = 0 then .ok (some (keypairs, rb.next))
    else
      match _h : unpackKeypair scalarmultBase slot ktype rb.next with
      | .error e => .error e
      | .ok none => .ok none
      | .ok (some (kp, rb')) =>
        match keyringIdentityAddKeypair keypairs kp with
        | .error e => .error e
        | .ok added => unpackLoop scalarmultBase slot rb' (added.getD keypairs)
termination_by rb.size - rotbufCount rb
decreasing_by
  obtain ⟨⟨n, rfl⟩, -⟩ := unpackKeypair_skip _h
  have hlt := rotbufCount_lt_size.mpr (not_not.mp _hwrap)
  rw [rotbufCount_skip, rotbufCount_next, (rb.next_region.trans (rb.next.skip_region n)).size]
  omega

/-- The rotation that is read from a slot. -/
def rotationOf (slot : Slot) : BitVec 16 :=
  slot (pkrSaltBytes + pkrMacBytes) ++ slot (pkrSaltBytes + pkrMacBytes + 1)

def keyringUnpackIdentity (scalarmultBase : List Byte → List Byte) (slot : Slot) (pin : List Byte) :
    Except Abort (Option KeyringIdentity) :=
  match unpackLoop scalarmultBase slot (slotBuf (rotationOf slot)) [] with
  | .error e => .error e
  | .ok none => .ok none
  | .ok (some (keypairs, rb)) => if 1 < rb.wrap then .ok none else .ok (some ⟨pin, keypairs⟩)

end Unpacking

end ServalMesh.Keyring
