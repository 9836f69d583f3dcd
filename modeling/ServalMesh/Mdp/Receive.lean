import ServalMesh.Mdp.Binding
import ServalMesh.Overlay.Header

/-!
# Receiving frames

A frame from the network is decrypted or verified and handed to who has bound its port. A frame for
everybody that says it is encrypted has no key, its port numbers may end too early, and it may be
longer than a legacy client can be sent.
-/

namespace ServalMesh.Mdp

open Lib Overlay Option

section Frames

variable {α η : Type} (c : Crypto) (nmBytes : Sid → Sid → Option (List Byte))
  (sas : Sid → Option (List Byte)) (allowInbound : InternalMdpHeader → Bool)
  (bindings : List (Binding α η))

/-- The header of a frame, before its payload was decrypted. -/
def headerOf (f : Frame) : InternalMdpHeader where
  source := f.source
  sourcePort := 0#32
  destination := f.destination
  destinationPort := 0#32
  ttl := BitVec.ofNat 8 f.ttl
  qos := BitVec.ofNat 8 f.queue
  cryptFlags := cryptFlagsOf (f.modifiers.getLsbD payloadFlagCiphered)
    (f.modifiers.getLsbD payloadFlagSigned)

/-- `overlay_saw_mdp_containing_frame`; nothing is returned for a payload that is rejected. -/
def overlaySawMdpContainingFrame (f : Frame) (payload : List Byte) :
    Except Abort (Option (Delivery α η)) :=
  match f.source with
  | none => .error .nullPointer
  | some _ =>
    match overlayMdpDecrypt c nmBytes sas (headerOf f) payload with
    | .error e => .error e
    | .ok none => .ok none
    | .ok (some (header, payload)) =>
      match overlaySawMdpFrame allowInbound bindings header payload with
      | .error e => .error e
      | .ok delivery => .ok (some delivery)

/-- The frame says that it is encrypted and signed. -/
def Boxed (f : Frame) : Prop := (headerOf f).cryptFlags = 0#8

/-- The frame says that it is signed only. -/
def SignedOnly (f : Frame) : Prop := (headerOf f).cryptFlags = mdpFlagNoCrypt

instance (f : Frame) : Decidable (Boxed f) := inferInstanceAs (Decidable (_ = _))

instance (f : Frame) : Decidable (SignedOnly f) := inferInstanceAs (Decidable (_ = _))

/-- What a frame from a node carries, if it can be decrypted or verified. -/
def plaintextOf (source : Sid) (f : Frame) (payload : List Byte) : Option (List Byte) :=
  if Boxed f then
    if payload.length < boxNonceBytes then none
    else
      (f.destination.bind (nmBytes · source)).bind fun k =>
        (c.boxOpenAfternm (List.replicate boxBoxZeroBytes 0#8 ++ payload.drop boxNonceBytes)
          (payload.take boxNonceBytes) k).map fun plain =>
            if plain.length < boxZeroBytes then plain else plain.drop boxZeroBytes
  else if SignedOnly f then (cryptoVerifyMessage c (sas source) payload).map (payload.take ·)
  else if (headerOf f).cryptFlags = mdpFlagNoCrypt ||| mdpFlagNoSign then some payload
  else none

end Frames

section Complete

/-- What is behind a packed number, if it is complete. -/
def behindPacked : List Byte → Option (List Byte)
  | [] => none
  | byte :: rest => if byte &&& 0x80#8 ≠ 0#8 then behindPacked rest else some rest

/-- Both port numbers are there, or the one that stands for both. -/
def PortsComplete (buff : List Byte) : Prop :=
  ∃ rest, behindPacked buff = some rest ∧
    ((obGetPackedUi32 buff).1 &&& 1#32 ≠ 0#32 ∨ behindPacked rest ≠ none)

end Complete

section Handling

variable {α η : Type} {c : Crypto} {nmBytes : Sid → Sid → Option (List Byte)}
  {sas : Sid → Option (List Byte)} {allowInbound : InternalMdpHeader → Bool}
  {bindings : List (Binding α η)} {f : Frame} {source : Sid} {payload : List Byte}
  {header : InternalMdpHeader}

/-- What is too short is not handed to anybody. -/
structure RejectsShort (c : Crypto) (nmBytes : Sid → Sid → Option (List Byte))
    (sas : Sid → Option (List Byte)) (source : Sid) (f : Frame) (payload : List Byte)
    (result : Option (Delivery α η)) : Prop where
  nonce : Boxed f → payload.length < boxNonceBytes → result = none
  signature : SignedOnly f → payload.length < signatureBytes → result = none
  ports : ∀ plaintext, plaintextOf c nmBytes sas source f payload = some plaintext →
    ¬PortsComplete plaintext → ∀ delivery ∈ result, ¬delivery.Handed

theorem not_signedOnly (h : Boxed f) : ¬SignedOnly f := by
  rw [SignedOnly, h]
  decide

theorem cryptoVerifyMessage_short {sas : Option (List Byte)} (h : payload.length < signatureBytes) :
    cryptoVerifyMessage c sas payload = none := by
  cases sas with
  | none => rfl
  | some sasPublic => exact if_pos h

/-- Decrypting gives what the frame carries, behind its port numbers. -/
theorem overlayMdpDecrypt_plaintextOf (c : Crypto) (nmBytes : Sid → Sid → Option (List Byte))
    (sas : Sid → Option (List Byte)) (payload : List Byte) (hsource : f.source = some source)
    (hbox : ¬(Boxed f ∧ f.destination = none)) :
    overlayMdpDecrypt c nmBytes sas (headerOf f) payload =
      .ok ((plaintextOf c nmBytes sas source f payload).map
        (overlayMdpDecodeHeader (headerOf f))) := by
  have hs : (headerOf f).source = some source := hsource
  rw [overlayMdpDecrypt, plaintextOf]
  by_cases hboxed : Boxed f
  · obtain ⟨destination, hdestination⟩ :=
      ne_none_iff_exists'.mp fun hnone => hbox ⟨hboxed, hnone⟩
    have hd : (headerOf f).destination = some destination := hdestination
    have hzero : (headerOf f).cryptFlags = 0#8 := hboxed
    rw [if_pos hboxed, hzero, if_neg (by decide), if_neg (by decide), if_pos rfl, hd, hs,
      hdestination, bind_some]
    dsimp only
    cases nmBytes destination source with
    | none =>
      rw [bind_none, ite_self]
      rfl
    | some k =>
      dsimp only
      split
      · rfl
      · rw [bind_some]
        cases c.boxOpenAfternm (List.replicate boxBoxZeroBytes 0#8 ++ payload.drop boxNonceBytes)
          (payload.take boxNonceBytes) k <;> rfl
  · rw [if_neg hboxed]
    by_cases hsigned : SignedOnly f
    · have hone : (headerOf f).cryptFlags = mdpFlagNoCrypt := hsigned
      rw [if_pos hsigned, hone, if_neg (by decide), if_pos rfl, hs]
      dsimp only
      cases cryptoVerifyMessage c (sas source) payload <;> rfl
    rw [if_neg hsigned]
    by_cases hclear : (headerOf f).cryptFlags = mdpFlagNoCrypt ||| mdpFlagNoSign
    · rw [if_pos hclear, if_pos hclear]
      rfl
    · have hone : (headerOf f).cryptFlags ≠ mdpFlagNoCrypt := hsigned
      have hzero : (headerOf f).cryptFlags ≠ 0#8 := hboxed
      rw [if_neg hclear, if_neg hclear, if_neg hone, if_neg hzero]
      rfl

theorem plaintextOf_noNonce (hboxed : Boxed f) (hlt : payload.length < boxNonceBytes) :
    plaintextOf c nmBytes sas source f payload = none := by
  rw [plaintextOf, if_pos hboxed, if_pos hlt]

theorem plaintextOf_noSignature (hsigned : SignedOnly f) (hlt : payload.length < signatureBytes) :
    plaintextOf c nmBytes sas source f payload = none := by
  rw [plaintextOf, if_neg fun hboxed => not_signedOnly hboxed hsigned, if_pos hsigned,
    cryptoVerifyMessage_short hlt]
  rfl

theorem length_overlayMdpDecodeHeader (header : InternalMdpHeader) (buff : List Byte) :
    (overlayMdpDecodeHeader header buff).2.length ≤ buff.length := by
  have hfirst := length_packedLoop32 0#32 0 buff
  rw [overlayMdpDecodeHeader]
  dsimp only
  split
  · exact (length_packedLoop32 0#32 0 _).trans hfirst
  · exact hfirst

theorem length_plaintextOf (hopen : ∀ cipherText nonce key plain,
      c.boxOpenAfternm cipherText nonce key = some plain → plain.length = cipherText.length)
    {plaintext : List Byte} (h : plaintextOf c nmBytes sas source f payload = some plaintext) :
    plaintext.length ≤ payload.length + boxBoxZeroBytes := by
  rw [plaintextOf] at h
  split at h
  · split at h
    · exact nomatch h
    obtain ⟨k, -, hplain⟩ := bind_eq_some_iff.mp h
    obtain ⟨plain, hbox, rfl⟩ := map_eq_some_iff.mp hplain
    have hlength := hopen _ _ _ _ hbox
    rw [List.length_append, List.length_replicate, List.length_drop] at hlength
    split
    · omega
    · rw [List.length_drop]
      omega
  · split at h
    · obtain ⟨len, -, rfl⟩ := map_eq_some_iff.mp h
      exact (List.length_take_le' _ _).trans (Nat.le_add_right _ _)
    · split at h
      · cases h
        exact Nat.le_add_right _ _
      · exact nomatch h

/-- A frame is handed to a binding of one of the two versions. -/
theorem overlaySawMdpFrame_handed {delivery : Delivery α η}
    (h : overlaySawMdpFrame allowInbound bindings header payload = .ok delivery) :
    delivery.Handed ↔
      allowInbound header ∧ ∃ b, matchBinding bindings header = some b ∧ b.version ≤ 1 := by
  rw [overlaySawMdpFrame] at h
  cases hallow : allowInbound header with
  | false =>
    rw [hallow] at h
    cases h
    exact ⟨False.elim, fun ⟨h, _⟩ => nomatch h⟩
  | true =>
    rw [hallow, if_neg (by decide)] at h
    rcases hmatch : matchBinding bindings header with _ | b <;> rw [hmatch] at h
    · cases h
      exact ⟨False.elim, fun ⟨_, _, h, _⟩ => nomatch h⟩
    · dsimp only at h
      simp only [true_and, Option.some.injEq, exists_eq_left']
      split at h
      · split at h
        · exact nomatch h
        · cases h
          exact iff_of_true trivial (by omega)
      · split at h
        · split at h <;> cases h <;> exact iff_of_true trivial (by omega)
        · cases h
          exact iff_of_false id (by omega)

/-- A frame is handed over, unless it is too long for a legacy client. -/
theorem overlaySawMdpFrame_ok_iff (allowInbound : InternalMdpHeader → Bool)
    (bindings : List (Binding α η)) (header : InternalMdpHeader)
    (hlength : payload.length < 2 ^ 16) :
    (∃ delivery, overlaySawMdpFrame allowInbound bindings header payload = .ok delivery) ↔
      (allowInbound header → ∀ b, matchBinding bindings header = some b → b.version = 0 →
        payload.length ≤ mdpLegacyPayloadSize) := by
  have hmod := Nat.mod_eq_of_lt hlength
  rw [overlaySawMdpFrame]
  cases hallow : allowInbound header with
  | false => exact ⟨nofun, fun _ => ⟨_, rfl⟩⟩
  | true =>
    rw [if_neg (by decide)]
    cases hmatch : matchBinding bindings header with
    | none => exact ⟨nofun, fun _ => ⟨_, rfl⟩⟩
    | some b =>
      dsimp only
      by_cases hversion : b.version = 0
      · rw [if_pos hversion, overlayMdpFillLegacy, hmod]
        by_cases hsize : mdpLegacyPayloadSize < payload.length
        · rw [if_pos hsize]
          refine ⟨(fun ⟨_, h⟩ => nomatch h), fun h => ?_⟩
          exact absurd (h rfl b rfl hversion) (not_le.mpr hsize)
        · rw [if_neg hsize]
          exact ⟨fun _ _ _ _ _ => not_lt.mp hsize, fun _ => ⟨_, rfl⟩⟩
      · rw [if_neg hversion]
        refine ⟨fun _ _ b' hb' hzero => absurd (Option.some.inj hb' ▸ hzero) hversion, fun _ => ?_⟩
        split
        · split <;> exact ⟨_, rfl⟩
        · exact ⟨_, rfl⟩

/-- What a frame carries can be handed to who has bound its port. -/
def Deliverable (allowInbound : InternalMdpHeader → Bool) (bindings : List (Binding α η))
    (f : Frame) (plaintext : List Byte) : Prop :=
  allowInbound (overlayMdpDecodeHeader (headerOf f) plaintext).1 →
    ∀ b, matchBinding bindings (overlayMdpDecodeHeader (headerOf f) plaintext).1 = some b →
      (b.version ≤ 1 → PortsComplete plaintext) ∧
      (b.version = 0 →
        (overlayMdpDecodeHeader (headerOf f) plaintext).2.length ≤ mdpLegacyPayloadSize)

/-- A frame from the network is handled within bounds exactly if it is not encrypted for everybody,
and what it carries has complete port numbers and is not too long for who has bound its port. -/
theorem overlaySawMdpContainingFrame_iff (hopen : ∀ cipherText nonce key plain,
      c.boxOpenAfternm cipherText nonce key = some plain → plain.length = cipherText.length)
    (hsource : f.source = some source) (hlength : payload.length ≤ 16384) :
    (∃ result,
      overlaySawMdpContainingFrame c nmBytes sas allowInbound bindings f payload = .ok result ∧
        RejectsShort c nmBytes sas source f payload result) ↔
      ¬(Boxed f ∧ f.destination = none) ∧
        ∀ plaintext, plaintextOf c nmBytes sas source f payload = some plaintext →
          Deliverable allowInbound bindings f plaintext := by
  by_cases hbox : Boxed f ∧ f.destination = none
  · -- the missing destination is dereferenced
    have hd : (headerOf f).destination = none := hbox.2
    have hzero : (headerOf f).cryptFlags = 0#8 := hbox.1
    refine ⟨?_, fun h => absurd hbox h.1⟩
    rintro ⟨result, h, -⟩
    rw [overlaySawMdpContainingFrame, hsource, overlayMdpDecrypt, hzero, if_neg (by decide),
      if_neg (by decide), if_pos rfl, hd] at h
    cases h
  · have hdecrypt := overlayMdpDecrypt_plaintextOf c nmBytes sas payload hsource hbox
    rw [overlaySawMdpContainingFrame, hsource, hdecrypt]
    cases hplain : plaintextOf c nmBytes sas source f payload with
    | none =>
      refine ⟨fun _ => ⟨hbox, by simp⟩, fun _ => ⟨none, rfl, ?_⟩⟩
      exact ⟨fun _ _ => rfl, fun _ _ => rfl, by simp⟩
    | some plaintext =>
      have hle := length_plaintextOf hopen hplain
      have hdecode := length_overlayMdpDecodeHeader (headerOf f) plaintext
      have hlt : (overlayMdpDecodeHeader (headerOf f) plaintext).2.length < 2 ^ 16 := by
        rw [boxBoxZeroBytes] at hle
        omega
      have hok := overlaySawMdpFrame_ok_iff allowInbound bindings
        (overlayMdpDecodeHeader (headerOf f) plaintext).1 hlt
      rw [map_some]
      dsimp only
      constructor
      · rintro ⟨result, hresult, hrejects⟩
        refine ⟨hbox, fun plaintext' hplain' hallow b hmatch => ?_⟩
        cases hplain'
        rcases hsaw : overlaySawMdpFrame allowInbound bindings
            (overlayMdpDecodeHeader (headerOf f) plaintext).1
            (overlayMdpDecodeHeader (headerOf f) plaintext).2 with e | delivery <;>
          rw [hsaw] at hresult
        · cases hresult
        · cases hresult
          refine ⟨fun hversion => ?_,
            fun hversion => hok.mp ⟨delivery, hsaw⟩ hallow b hmatch hversion⟩
          by_contra hincomplete
          exact hrejects.ports plaintext hplain hincomplete delivery rfl
            ((overlaySawMdpFrame_handed hsaw).mpr ⟨hallow, b, hmatch, hversion⟩)
      · rintro ⟨-, hdeliverable⟩
        have hfits := hdeliverable plaintext rfl
        obtain ⟨delivery, hsaw⟩ := hok.mpr fun hallow b hmatch => (hfits hallow b hmatch).2
        rw [hsaw]
        refine ⟨some delivery, rfl, ?_, ?_, ?_⟩
        · intro hboxed hlt
          rw [plaintextOf_noNonce hboxed hlt] at hplain
          cases hplain
        · intro hsigned hlt
          rw [plaintextOf_noSignature hsigned hlt] at hplain
          cases hplain
        intro plaintext' hplain' hincomplete delivery' hdelivery hhanded
        cases hdelivery
        cases hplain.symm.trans hplain'
        obtain ⟨hallow, b, hmatch, hversion⟩ := (overlaySawMdpFrame_handed hsaw).mp hhanded
        exact hincomplete ((hfits hallow b hmatch).1 hversion)

/-- A frame from a node with these modifiers. -/
def frameFrom (destination : Option Sid) (modifiers : Byte) : Frame :=
  { Frame.zero with source := some zeroSid, destination, modifiers }

/-- A legacy client that has bound port 1. -/
def legacyBinding : Binding Unit Unit := ⟨none, 1#32, 0, none, some ()⟩

theorem overlaySawMdpContainingFrame_clear :
    ∃ result, overlaySawMdpContainingFrame Crypto.plain (fun _ _ => none) (fun _ => none)
        (fun _ => true) [legacyBinding] (frameFrom none 0#8) [3#8, 7#8] = .ok result ∧
      RejectsShort Crypto.plain (fun _ _ => none) (fun _ => none) zeroSid (frameFrom none 0#8)
        [3#8, 7#8] result := by
  refine (overlaySawMdpContainingFrame_iff ?_ rfl (by decide)).mpr ⟨by decide, ?_⟩
  · intro cipherText nonce key plain h
    rw [Option.some.inj h]
  · intro plaintext hplain hallow b hmatch
    obtain rfl : [3#8, 7#8] = plaintext := Option.some.inj hplain
    exact ⟨fun _ => ⟨[7#8], rfl, .inl (by decide)⟩, fun _ => (by decide : 1 ≤ 1100)⟩

theorem overlaySawMdpFrame_long {b : Binding α η} (hallow : allowInbound header)
    (hmatch : matchBinding bindings header = some b) (hversion : b.version = 0)
    (hlong : mdpLegacyPayloadSize < payload.length % 2 ^ 16) :
    overlaySawMdpFrame allowInbound bindings header payload = .error .outOfBounds := by
  rw [overlaySawMdpFrame, hallow, if_neg (by decide), hmatch]
  dsimp only
  rw [if_pos hversion, overlayMdpFillLegacy, if_pos hlong]

/-- A frame that is encrypted for everybody, a frame without a source port and a long frame. -/
theorem overlaySawMdpContainingFrame_faults :
    overlaySawMdpContainingFrame Crypto.plain (fun _ _ => none) (fun _ => none)
        (fun _ => true) [legacyBinding] (frameFrom none 0x30#8) [] = .error .nullPointer ∧
      overlaySawMdpContainingFrame Crypto.plain (fun _ _ => none) (fun _ => none)
        (fun _ => true) [legacyBinding] (frameFrom none 0#8) [2#8] =
          .ok (some (.legacy (some ()) { headerOf (frameFrom none 0#8) with
            destinationPort := 1#32
            sourcePort := BitVec.allOnes 32 } [])) ∧
      overlaySawMdpContainingFrame Crypto.plain (fun _ _ => none) (fun _ => none)
        (fun _ => true) [legacyBinding] (frameFrom none 0#8) (3#8 :: List.replicate 1101 0#8) =
          .error .outOfBounds := by
  refine ⟨rfl, rfl, ?_⟩
  have hlong : mdpLegacyPayloadSize < (List.replicate 1101 0#8).length % 2 ^ 16 := by
    rw [List.length_replicate]
    decide
  generalize List.replicate 1101 0#8 = payload at hlong ⊢
  have hdecrypt : overlayMdpDecrypt Crypto.plain (fun _ _ => none) (fun _ => none)
      (headerOf (frameFrom none 0#8)) (3#8 :: payload) =
        .ok (some (⟨some zeroSid, 1#32, none, 1#32, 0#8, 0#8, 3#8⟩, payload)) := by
    have hports : overlayMdpEncodePorts 1#32 1#32 = [3#8] := by decide
    rw [overlayMdpDecrypt, if_pos (by decide), ← List.singleton_append, ← hports,
      overlayMdpDecodeHeader_encode]
    rfl
  have hsaw := @overlaySawMdpFrame_long Unit Unit (fun _ => true) [legacyBinding] payload
    ⟨some zeroSid, 1#32, none, 1#32, 0#8, 0#8, 3#8⟩ legacyBinding rfl rfl rfl hlong
  rw [overlaySawMdpContainingFrame, show (frameFrom none 0#8).source = some zeroSid from rfl]
  rw [hdecrypt]
  dsimp only
  rw [hsaw]

end Handling

end ServalMesh.Mdp
