import ServalMesh.Mdp.Nonce
import ServalMesh.Overlay.Packed

/-!
# Frames

A payload is sent behind its port numbers, in the clear, with a signature, or encrypted. The
receiver undoes this. The port numbers are two packed numbers, or one if they are equal, which the
lowest bit of the first one says; the highest bit of the destination port is lost for it.
-/

namespace ServalMesh.Mdp

open Lib Overlay List

abbrev MdpPort := BitVec 32

def mdpFlagNoCrypt : Byte := 1#8

def mdpFlagNoSign : Byte := 2#8

def signatureBytes : ℕ := 64

/-- `struct internal_mdp_header`. -/
structure InternalMdpHeader where
  source : Option Sid
  sourcePort : MdpPort
  destination : Option Sid
  destinationPort : MdpPort
  ttl : Byte
  qos : Byte
  cryptFlags : Byte
deriving DecidableEq

/-- The cryptographic primitives. -/
structure Crypto where
  /-- `crypto_box_curve25519xsalsa20poly1305_afternm`. -/
  boxAfternm : List Byte → List Byte → List Byte → List Byte
  /-- `crypto_box_curve25519xsalsa20poly1305_open_afternm`. -/
  boxOpenAfternm : List Byte → List Byte → List Byte → Option (List Byte)
  /-- `crypto_hash_sha512`. -/
  hashSha512 : List Byte → List Byte
  /-- The signature of `crypto_create_signature`. -/
  createSignature : List Byte → List Byte → List Byte
  /-- `crypto_verify_signature` returns 0. -/
  verifySignature : List Byte → List Byte → List Byte → Bool

/-- What is encrypted and signed is decrypted and verified, with matching keys. -/
structure Crypto.Lawful (c : Crypto) (matching : List Byte → List Byte → Prop) : Prop where
  zeros : ∀ plain nonce key, List.replicate boxZeroBytes 0#8 <+: plain →
    List.replicate boxBoxZeroBytes 0#8 <+: c.boxAfternm plain nonce key
  open_box : ∀ plain nonce key, List.replicate boxZeroBytes 0#8 <+: plain →
    c.boxOpenAfternm (c.boxAfternm plain nonce key) nonce key = some plain
  signature_length : ∀ key hash, (c.createSignature key hash).length = signatureBytes
  verify : ∀ privateKey publicKey hash, matching privateKey publicKey →
    c.verifySignature publicKey hash (c.createSignature privateKey hash)

section Ports

def overlayMdpEncodePorts (dstPort srcPort : MdpPort) : List Byte :=
  let port := dstPort <<< 1
  packedBytes 5 (if dstPort = srcPort then port ||| 1#32 else port) ++
    if dstPort ≠ srcPort then packedBytes 5 srcPort else []

def overlayMdpDecodeHeader (header : InternalMdpHeader) (buff : List Byte) :
    InternalMdpHeader × List Byte :=
  let (port, buff) := obGetPackedUi32 buff
  let same := port &&& 1#32
  let port := port >>> 1
  let header := { header with destinationPort := port }
  if same = 0#32 then
    let (port, buff) := obGetPackedUi32 buff
    ({ header with sourcePort := port }, buff)
  else ({ header with sourcePort := port }, buff)

end Ports

section Sending

variable (c : Crypto) (urandombytes : Option NonceBuffer)

/-- `crypto_sign_message` with the signing key of an identity. -/
def cryptoSignMessage (key : Option (List Byte)) (content : List Byte) : Option (List Byte) :=
  key.map fun key => content ++ c.createSignature key (c.hashSha512 content)

/-- The part of `_overlay_send_frame` that makes the payload of the frame, given the key that
`keyring_get_nm_bytes` returns and the signing key of the source. -/
def framePayload (s : NonceState) (nmBytes sasPrivate : Option (List Byte))
    (header : InternalMdpHeader) (payload : List Byte) : Option (List Byte) × NonceState :=
  let plaintext :=
    overlayMdpEncodePorts header.destinationPort header.sourcePort ++ payload
  if header.cryptFlags = 0#8 then
    if header.destination = none then (none, s)
    else
      let (call, s) := encryptPayload s urandombytes nmBytes plaintext
      (call.map (BoxCall.payload c.boxAfternm), s)
  else if header.cryptFlags = mdpFlagNoCrypt then (cryptoSignMessage c sasPrivate plaintext, s)
  else if header.cryptFlags = mdpFlagNoCrypt ||| mdpFlagNoSign then (some plaintext, s)
  else (none, s)

/-- The modifiers `OF_CRYPTO_CIPHERED` and `OF_CRYPTO_SIGNED` of the frame. -/
def frameModifiers (cryptFlags : Byte) : Bool × Bool :=
  (cryptFlags &&& mdpFlagNoCrypt = 0#8, cryptFlags &&& mdpFlagNoSign = 0#8)

end Sending

section Receiving

variable (c : Crypto)

/-- The flags that `overlay_saw_mdp_containing_frame` derives from the modifiers of the frame. -/
def cryptFlagsOf (ciphered signed : Bool) : Byte :=
  (if ciphered then 0#8 else mdpFlagNoCrypt) ||| if signed then 0#8 else mdpFlagNoSign

/-- `crypto_verify_message`, given the signing key on record. It returns the length of the message
without its signature. -/
def cryptoVerifyMessage (sas : Option (List Byte)) (message : List Byte) : Option ℕ :=
  match sas with
  | none => none
  | some sasPublic =>
    if message.length < signatureBytes then none
    else
      let len := message.length - signatureBytes
      if c.verifySignature sasPublic (c.hashSha512 (message.take len))
        ((message.drop len).take signatureBytes) then some len else none

/-- `overlay_mdp_decrypt`, given the keys on record. -/
def overlayMdpDecrypt (nmBytes : Sid → Sid → Option (List Byte)) (sas : Sid → Option (List Byte))
    (header : InternalMdpHeader) (payload : List Byte) :
    Except Abort (Option (InternalMdpHeader × List Byte)) :=
  if header.cryptFlags = mdpFlagNoCrypt ||| mdpFlagNoSign then
    .ok (some (overlayMdpDecodeHeader header payload))
  else if header.cryptFlags = mdpFlagNoCrypt then
    match header.source with
    | none => .error .nullPointer
    | some source =>
      match cryptoVerifyMessage c (sas source) payload with
      | none => .ok none
      | some len => .ok (some (overlayMdpDecodeHeader header (payload.take len)))
  else if header.cryptFlags = 0#8 then
    match header.destination, header.source with
    | some destination, some source =>
      match nmBytes destination source with
      | none => .ok none
      | some k =>
        if payload.length < boxNonceBytes then .ok none
        else
          let nonce := payload.take boxNonceBytes
          let cipherText := payload.drop boxNonceBytes
          match c.boxOpenAfternm (List.replicate boxBoxZeroBytes 0#8 ++ cipherText) nonce k with
          | none => .ok none
          | some plaintext =>
            .ok (some (overlayMdpDecodeHeader header
              (if plaintext.length < boxZeroBytes then plaintext else plaintext.drop boxZeroBytes)))
    | _, _ => .error .nullPointer
  else .ok none

end Receiving

section RoundTrip

variable {c : Crypto} {matching : List Byte → List Byte → Prop}

theorem same_or_one (port : BitVec 32) : (port <<< 1 ||| 1#32) &&& 1#32 = 1#32 := by
  apply BitVec.eq_of_getLsbD_eq
  intro i hi
  cases i <;> simp

theorem same_zero (port : BitVec 32) : (port <<< 1) &&& 1#32 = 0#32 := by
  apply BitVec.eq_of_getLsbD_eq
  intro i hi
  cases i <;> simp

theorem or_one_shiftRight (port : BitVec 32) :
    (port <<< 1 ||| 1#32) >>> 1 = (port <<< 1) >>> 1 := by
  apply BitVec.eq_of_getLsbD_eq
  intro i hi
  simp

/-- The port numbers are read again, without the highest bit of the destination port. -/
theorem overlayMdpDecodeHeader_encode (header : InternalMdpHeader) (dstPort srcPort : MdpPort)
    (payload : List Byte) :
    overlayMdpDecodeHeader header (overlayMdpEncodePorts dstPort srcPort ++ payload) =
      ({ header with
        destinationPort := (dstPort <<< 1) >>> 1
        sourcePort := if dstPort = srcPort then (dstPort <<< 1) >>> 1 else srcPort }, payload) := by
  by_cases hsame : dstPort = srcPort
  · rw [overlayMdpEncodePorts, if_pos hsame, if_neg (not_not.mpr hsame), append_nil,
      overlayMdpDecodeHeader, obGetPackedUi32_packedBytes]
    dsimp only
    rw [same_or_one, if_neg (by decide), or_one_shiftRight, if_pos hsame]
  · rw [overlayMdpEncodePorts, if_neg hsame, if_pos hsame, append_assoc,
      overlayMdpDecodeHeader, obGetPackedUi32_packedBytes]
    dsimp only
    rw [same_zero, if_pos rfl, obGetPackedUi32_packedBytes, if_neg hsame]

theorem shiftLeft_shiftRight_eq_iff (port : MdpPort) :
    (port <<< 1) >>> 1 = port ↔ port.toNat < 2 ^ 31 := by
  rw [← BitVec.toNat_inj, BitVec.toNat_ushiftRight, BitVec.toNat_shiftLeft,
    Nat.shiftLeft_eq, Nat.shiftRight_eq_div_pow]
  omega

/-- The keys on record at the receiver match those of the sender. -/
structure KeysMatch (matching : List Byte → List Byte → Prop) (header : InternalMdpHeader)
    (nmSender sasPrivate : Option (List Byte)) (nmBytes : Sid → Sid → Option (List Byte))
    (sas : Sid → Option (List Byte)) : Prop where
  box : ∀ k source destination, nmSender = some k → header.source = some source →
    header.destination = some destination → nmBytes destination source = some k
  sign : ∀ key source, sasPrivate = some key → header.source = some source →
    ∃ sasPublic, sas source = some sasPublic ∧ matching key sasPublic

variable {urandombytes : Option NonceBuffer} {s s' : NonceState}
  {nmSender sasPrivate : Option (List Byte)} {nmBytes : Sid → Sid → Option (List Byte)}
  {sas : Sid → Option (List Byte)} {header received : InternalMdpHeader} {source : Sid}
  {frame payload plaintext : List Byte} {call : BoxCall}

theorem encryptPayload_call
    (h : encryptPayload s urandombytes nmSender plaintext = (some call, s')) :
    call.plain = List.replicate boxZeroBytes 0#8 ++ plaintext ∧
      call.nonce.length = boxNonceBytes ∧ nmSender = some call.key := by
  rw [encryptPayload, generateNonce, if_neg (by decide)] at h
  rcases hbuffer : if s.nonceInitialised then some s.nonceBuffer else urandombytes
    with _ | buffer <;>
    rw [hbuffer] at h
  · exact nomatch h
  · obtain ⟨k, hk, rfl⟩ := Option.map_eq_some_iff.mp (Prod.mk.inj h).1
    refine ⟨rfl, ?_, hk⟩
    rw [length_clearFlag, length_take, NonceBuffer.length]
    rfl

theorem open_payload (hc : c.Lawful matching)
    (h : encryptPayload s urandombytes nmSender plaintext = (some call, s')) :
    (call.payload c.boxAfternm).take boxNonceBytes = call.nonce ∧
      boxNonceBytes ≤ (call.payload c.boxAfternm).length ∧
      c.boxOpenAfternm (List.replicate boxBoxZeroBytes 0#8 ++
        (call.payload c.boxAfternm).drop boxNonceBytes) call.nonce call.key = some call.plain := by
  obtain ⟨hplain, hnonce, -⟩ := encryptPayload_call h
  have hzero : List.replicate boxZeroBytes 0#8 <+: call.plain := ⟨plaintext, hplain.symm⟩
  obtain ⟨cipherText, hcipher⟩ := hc.zeros call.plain call.nonce call.key hzero
  refine ⟨take_left' hnonce, ?_, ?_⟩
  · rw [BoxCall.payload, length_append, hnonce]
    exact Nat.le_add_right _ _
  · rw [BoxCall.payload, drop_left' hnonce, ← hcipher,
      drop_left' length_replicate, hcipher]
    exact hc.open_box _ _ _ hzero

theorem cryptoVerifyMessage_sign (hc : c.Lawful matching) {key sasPublic : List Byte}
    (hmatch : matching key sasPublic) (h : cryptoSignMessage c (some key) plaintext = some frame) :
    cryptoVerifyMessage c (some sasPublic) frame = some plaintext.length ∧
      frame.take plaintext.length = plaintext := by
  cases h
  have hlength := hc.signature_length key (c.hashSha512 plaintext)
  have hlen : (plaintext ++ c.createSignature key (c.hashSha512 plaintext)).length -
      signatureBytes = plaintext.length := by
    rw [length_append, hlength, Nat.add_sub_cancel]
  refine ⟨?_, take_left' rfl⟩
  rw [cryptoVerifyMessage]
  dsimp only
  rw [hlen, take_left' rfl, drop_left' rfl, take_of_length_le hlength.le, if_neg,
    if_pos (hc.verify _ _ _ hmatch)]
  rw [length_append, hlength]
  exact not_lt.mpr (Nat.le_add_left _ _)

variable (hc : c.Lawful matching)
  (hsend : framePayload c urandombytes s nmSender sasPrivate header payload = (some frame, s'))
  (hkeys : KeysMatch matching header nmSender sasPrivate nmBytes sas)
  (hsource : header.source = some source) (hreceived : received.source = header.source)
  (hdestination : received.destination = header.destination)
  (hflags : received.cryptFlags = cryptFlagsOf (frameModifiers header.cryptFlags).1
    (frameModifiers header.cryptFlags).2)

include hc hsend hkeys hsource hreceived hdestination hflags

/-- What the receiver reads behind the encryption or before the signature is what was sent. -/
theorem overlayMdpDecrypt_framePayload :
    overlayMdpDecrypt c nmBytes sas received frame = .ok (some (overlayMdpDecodeHeader received
      (overlayMdpEncodePorts header.destinationPort header.sourcePort ++ payload))) := by
  rw [framePayload] at hsend
  rw [overlayMdpDecrypt, hflags, hreceived, hdestination, hsource]
  split at hsend
  case isTrue hzero =>
    rw [hzero, if_neg (by decide), if_neg (by decide), if_pos (by decide)]
    split at hsend
    · exact nomatch hsend
    rename_i hne
    obtain ⟨destination, hdest⟩ := Option.ne_none_iff_exists'.mp hne
    obtain ⟨⟨call, hcall, rfl⟩, rfl⟩ := And.imp_left Option.map_eq_some_iff.mp
      (Prod.mk.inj hsend)
    have hencrypt : encryptPayload s urandombytes nmSender (overlayMdpEncodePorts
        header.destinationPort header.sourcePort ++ payload) = (some call, _) :=
      Prod.ext hcall rfl
    obtain ⟨hplain, hnonce, hk⟩ := encryptPayload_call hencrypt
    obtain ⟨htake, hlength, hopen⟩ := open_payload hc hencrypt
    rw [hdest]
    dsimp only
    rw [hkeys.box _ _ _ hk hsource hdest]
    dsimp only
    rw [if_neg (not_lt.mpr hlength), htake, hopen]
    dsimp only
    rw [hplain, if_neg, drop_left' length_replicate]
    rw [length_append, length_replicate]
    exact not_lt.mpr (Nat.le_add_right _ _)
  case isFalse =>
    split at hsend
    case isTrue hone =>
      rw [hone, if_neg (by decide), if_pos (by decide)]
      obtain ⟨hsign, rfl⟩ := Prod.mk.inj hsend
      obtain ⟨key, hkey, -⟩ := Option.map_eq_some_iff.mp hsign
      obtain ⟨sasPublic, hsas, hmatch⟩ := hkeys.sign key source hkey hsource
      rw [hkey] at hsign
      obtain ⟨hverify, htake⟩ := cryptoVerifyMessage_sign hc hmatch hsign
      dsimp only
      rw [hsas, hverify]
      dsimp only
      rw [htake]
    case isFalse =>
      split at hsend
      case isTrue hthree =>
        obtain ⟨hframe, rfl⟩ := Prod.mk.inj hsend
        rw [hthree, if_pos (by decide), Option.some.inj hframe]
      case isFalse => exact nomatch hsend

/-- A frame survives sending and receiving exactly if its destination port has no highest bit. -/
theorem overlayMdpDecrypt_framePayload_iff :
    (∃ header', overlayMdpDecrypt c nmBytes sas received frame = .ok (some (header', payload)) ∧
      header'.sourcePort = header.sourcePort ∧
        header'.destinationPort = header.destinationPort) ↔
      header.destinationPort.toNat < 2 ^ 31 := by
  rw [overlayMdpDecrypt_framePayload hc hsend hkeys hsource hreceived hdestination hflags,
    overlayMdpDecodeHeader_encode, ← shiftLeft_shiftRight_eq_iff]
  constructor
  · rintro ⟨header', hheader, -, hport⟩
    cases hheader
    exact hport
  intro hport
  refine ⟨_, rfl, ?_, hport⟩
  split
  case isTrue hsame => rw [hport, hsame]
  case isFalse => rfl

omit hc hsend hkeys hsource hreceived hdestination hflags

/-- Primitives that do nothing. -/
def Crypto.plain : Crypto where
  boxAfternm plain _ _ := plain
  boxOpenAfternm cipherText _ _ := some cipherText
  hashSha512 content := content
  createSignature _ _ := List.replicate signatureBytes 0#8
  verifySignature _ _ _ := true

theorem Crypto.plain_lawful : plain.Lawful fun _ _ => True where
  zeros _ _ _ := List.IsPrefix.trans ⟨List.replicate 16 0#8, rfl⟩
  open_box _ _ _ _ := rfl
  signature_length _ _ := length_replicate
  verify _ _ _ _ := rfl

/-- A header from a node to itself, with these ports. -/
def portsHeader (sid : Sid) (sourcePort destinationPort : MdpPort) (cryptFlags : Byte) :
    InternalMdpHeader :=
  ⟨some sid, sourcePort, some sid, destinationPort, 0#8, 0#8, cryptFlags⟩

def zeroSid : Sid := ⟨List.replicate sidSize 0#8, rfl⟩

theorem overlayMdpDecrypt_framePayload_signed :
    ∃ header', overlayMdpDecrypt Crypto.plain (fun _ _ => none) (fun _ => some [])
        (portsHeader zeroSid 0#32 0#32 mdpFlagNoCrypt)
        ([10#8, 7#8, 1#8, 2#8] ++ List.replicate signatureBytes 0#8) =
          .ok (some (header', [1#8, 2#8])) ∧
      header'.sourcePort = 7#32 ∧ header'.destinationPort = 5#32 :=
  (@overlayMdpDecrypt_framePayload_iff Crypto.plain (fun _ _ => True) none
    ⟨true, zeroNonce⟩ ⟨true, zeroNonce⟩ none (some []) (fun _ _ => none) (fun _ => some [])
    (portsHeader zeroSid 7#32 5#32 mdpFlagNoCrypt) (portsHeader zeroSid 0#32 0#32 mdpFlagNoCrypt)
    zeroSid ([10#8, 7#8, 1#8, 2#8] ++ List.replicate signatureBytes 0#8) [1#8, 2#8]
    Crypto.plain_lawful rfl ⟨nofun, fun _ _ _ _ => ⟨[], rfl, trivial⟩⟩ rfl rfl
    rfl rfl).mpr (by decide)

/-- A frame in the clear to port 2^31 arrives at port 0. -/
theorem overlayMdpDecrypt_high_port :
    framePayload Crypto.plain none ⟨true, zeroNonce⟩ none none
        (portsHeader zeroSid 7#32 0x80000000#32 (mdpFlagNoCrypt ||| mdpFlagNoSign)) [1#8] =
          (some [0#8, 7#8, 1#8], ⟨true, zeroNonce⟩) ∧
      overlayMdpDecrypt Crypto.plain (fun _ _ => none) (fun _ => none)
        (portsHeader zeroSid 0#32 0#32 (mdpFlagNoCrypt ||| mdpFlagNoSign)) [0#8, 7#8, 1#8] =
          .ok (some (portsHeader zeroSid 7#32 0#32 (mdpFlagNoCrypt ||| mdpFlagNoSign), [1#8])) :=
  ⟨rfl, rfl⟩

end RoundTrip

end ServalMesh.Mdp
