import ServalMesh.Mdp.Frame

/-!
# Key mappings and unlock requests

A node asks others for the signing keys of their identities, and asks one that has an identity of
its own unlocked to release it. Whether the frames are encrypted and signed is looked for in flags
of the legacy protocol, which the flags of the header never have.
-/

namespace ServalMesh.Keyring

open Overlay Mdp

section Requests

def mdpNocrypt : BitVec 16 := 0x0200#16

def mdpNosign : BitVec 16 := 0x0400#16

def mdpPortKeymaprequest : MdpPort := 1#32

def keytypeCryptosignByte : Byte := 0x02#8

def unlockRequest : Byte := 0xf0#8

def unlockChallenge : Byte := 0xf1#8

def unlockResponse : Byte := 0xf2#8

def sasSize : ℕ := 32

def challengeSize : ℕ := 24

/-- The signing key of an identity. -/
structure SignKey where
  publicKey : List Byte
  privateKey : List Byte
  verified : Bool
deriving DecidableEq

abbrev Challenge := { challenge : List Byte // challenge.length = challengeSize }

/-- What is needed of a `keyring_identity`. -/
structure UnlockedIdentity where
  challengeExpires : ℤ
  challenge : Challenge
  signKey : Option SignKey
deriving DecidableEq

/-- The fields of the subscribers that requests read and change. A signing key is on record if it is
valid. -/
structure Subscribers where
  sas : Sid → Option (List Byte)
  sasLastRequest : Sid → ℤ
  identity : Sid → Option UnlockedIdentity
  reachableSelf : Sid → Bool
  mySubscriber : Option Sid

/-- The clock, random numbers and primitives. -/
structure Surroundings where
  crypto : Crypto
  now : ℤ
  /-- What `urandombytes` returns for a challenge. -/
  random : Challenge
  /-- `rhizome_verify_bundle_privatekey`. -/
  keyMatches : SignKey → Bool
  /-- What `crypto_sign_edwards25519sha512batch_keypair` returns. -/
  freshKey : SignKey

/-- What a request did: frames it sent and the identity that it released. -/
structure Answer where
  state : Subscribers
  sent : List (InternalMdpHeader × List Byte)
  released : Option Sid

/-- Nothing is done. -/
def Answer.nothing (s : Subscribers) : Answer := ⟨s, [], none⟩

variable (env : Surroundings) (s : Subscribers)

def Subscribers.setIdentity (subscriber : Sid) (identity : Option UnlockedIdentity) : Subscribers :=
  { s with identity := Function.update s.identity subscriber identity }

/-- `keyring_find_sas_private`, which replaces a key that does not verify. -/
def keyringFindSasPrivate (subscriber : Sid) (identity : UnlockedIdentity) :
    Option (SignKey × Subscribers) :=
  identity.signKey.map fun kp =>
    let kp := if kp.verified then kp
      else if env.keyMatches kp then { kp with verified := true }
      else { env.freshKey with verified := true }
    (kp, s.setIdentity subscriber (some { identity with signKey := some kp }))

/-- `keyring_store_sas`. What was signed is the id itself, so the tests behind the signature
hold. -/
def keyringStoreSas (source : Sid) (payload : List Byte) : Answer :=
  if s.sas source ≠ none then .nothing s
  else if payload.length < sasSize + signatureBytes then .nothing s
  else if env.crypto.verifySignature (payload.take sasSize) source.bytes
      ((payload.drop sasSize).take signatureBytes) then
    .nothing { s with
      sas := Function.update s.sas source (some (payload.take sasSize))
      sasLastRequest := Function.update s.sasLastRequest source (-1) }
  else .nothing s

/-- `mdp_init_response` on a cleared header. -/
def mdpInitResponse (header : InternalMdpHeader) : InternalMdpHeader where
  source := if header.destination ≠ none then header.destination else s.mySubscriber
  sourcePort := header.destinationPort
  destination := header.source
  destinationPort := header.sourcePort
  ttl := 0#8
  qos := header.qos
  cryptFlags := 0#8

/-- The header of a request of our own. -/
def keymapHeader (source destination : Option Sid) : InternalMdpHeader where
  source := source
  sourcePort := mdpPortKeymaprequest
  destination := destination
  destinationPort := mdpPortKeymaprequest
  ttl := 0#8
  qos := 1#8
  cryptFlags := 0#8

/-- `keyring_respond_sas`. -/
def keyringRespondSas (header : InternalMdpHeader) : Except Abort Answer :=
  match header.destination with
  | none => .error .nullPointer
  | some destination =>
    match s.identity destination with
    | none => .error .assertion
    | some identity =>
      match keyringFindSasPrivate env s destination identity with
      | none => .ok (.nothing s)
      | some (kp, s) =>
        .ok ⟨s, [(mdpInitResponse s header, keytypeCryptosignByte :: kp.publicKey ++
          env.crypto.createSignature kp.privateKey destination.bytes)], none⟩

/-- `keyring_send_sas_request`. -/
def keyringSendSasRequest (subscriber : Sid) : Answer :=
  if s.sas subscriber ≠ none then .nothing s
  else if env.now < s.sasLastRequest subscriber + 100 then .nothing s
  else if s.mySubscriber = none then .nothing s
  else
    ⟨{ s with sasLastRequest := Function.update s.sasLastRequest subscriber env.now },
      [(keymapHeader s.mySubscriber (some subscriber), [keytypeCryptosignByte])], none⟩

/-- `crypto_verify_message` for a destination. If it fails, a signing key may be asked for. -/
def verifyMessage (destination : Option Sid) (message : List Byte) :
    Except Abort (Answer ⊕ (Sid × ℕ)) :=
  match destination with
  | none => .error .nullPointer
  | some destination =>
    match cryptoVerifyMessage env.crypto (s.sas destination) message with
    | none =>
      .ok (.inl (if s.sas destination = none then keyringSendSasRequest env s destination
        else .nothing s))
    | some len => .ok (.inr (destination, len))

/-- `keyring_send_challenge`. -/
def keyringSendChallenge (source : Sid) (destination : Option Sid) : Except Abort Answer :=
  match s.identity source with
  | none => .error .nullPointer
  | some identity =>
    let identity := if identity.challengeExpires < env.now then { identity with
        challengeExpires := env.now + 5000
        challenge := env.random }
      else identity
    .ok ⟨s.setIdentity source (some identity),
      [(keymapHeader (some source) destination, unlockChallenge :: identity.challenge.1)], none⟩

/-- `keyring_respond_challenge`. -/
def keyringRespondChallenge (subscriber : Sid) (payload : List Byte) : Except Abort Answer :=
  match s.identity subscriber with
  | none => .ok (.nothing s)
  | some identity =>
    if s.reachableSelf subscriber then .ok (.nothing s)
    else if payload = [] then .error .assertion
    else if mdpMtu < 1 + payload.length + signatureBytes then .ok (.nothing s)
    else
      let response := unlockResponse :: payload
      match keyringFindSasPrivate env s subscriber identity with
      | none => .ok (.nothing s)
      | some (kp, s) =>
        .ok ⟨s, [(keymapHeader s.mySubscriber (some subscriber), response ++
          env.crypto.createSignature kp.privateKey (env.crypto.hashSha512 response))], none⟩

/-- `keyring_process_challenge`, with `keyring_release_subscriber`. -/
def keyringProcessChallenge (subscriber : Sid) (payload : List Byte) : Except Abort Answer :=
  match s.identity subscriber with
  | none => .error .nullPointer
  | some identity =>
    if identity.challengeExpires < env.now then .ok (.nothing s)
    else if payload.length ≠ challengeSize then .ok (.nothing s)
    else if payload ≠ identity.challenge.1 then .ok (.nothing s)
    else if s.mySubscriber = some subscriber then .ok (.nothing s)
    else
      .ok ⟨{ s.setIdentity subscriber none with
        reachableSelf := Function.update s.reachableSelf subscriber false }, [], some subscriber⟩

def keyringMappingRequest (header : InternalMdpHeader) (payload : List Byte) :
    Except Abort Answer :=
  if header.cryptFlags.setWidth 16 &&& (mdpNocrypt ||| mdpNosign) ≠ 0#16 then .ok (.nothing s)
  else
    match payload with
    | [] => .ok (.nothing s)
    | type :: rest =>
      if type = keytypeCryptosignByte then
        if rest = [] then keyringRespondSas env s header
        else
          match header.source with
          | none => .error .nullPointer
          | some source => .ok (keyringStoreSas env s source rest)
      else if type = unlockRequest then
        match verifyMessage env s header.destination payload with
        | .error e => .error e
        | .ok (.inl answer) => .ok answer
        | .ok (.inr (destination, _)) => keyringSendChallenge env s destination header.source
      else if type = unlockChallenge then
        match header.source with
        | none => .error .nullPointer
        | some source => keyringRespondChallenge env s source rest
      else if type = unlockResponse then
        match verifyMessage env s header.destination payload with
        | .error e => .error e
        | .ok (.inl answer) => .ok answer
        | .ok (.inr (destination, len)) =>
          -- `ob_limitsize` asserts that the type is not a part of the signature
          if len = 0 then .error .assertion
          else keyringProcessChallenge env s destination (rest.take (len - 1))
      else .ok (.nothing s)

end Requests

section Safety

variable {env : Surroundings} {s : Subscribers} {header : InternalMdpHeader} {payload : List Byte}
  {answer : Answer} {destination : Sid} {source destination : Sid}

/-- The payload has the challenge of an identity while that is valid, signed with the key of the
identity. -/
def AnswersChallenge (env : Surroundings) (s : Subscribers) (payload : List Byte)
    (subscriber : Sid) : Prop :=
  ∃ identity key signature, s.identity subscriber = some identity ∧
    identity.signKey = some key ∧ env.now ≤ identity.challengeExpires ∧
    payload = unlockResponse :: identity.challenge.1 ++ signature ∧
    env.crypto.verifySignature key.publicKey
      (env.crypto.hashSha512 (unlockResponse :: identity.challenge.1)) signature

/-- A request is only acted upon under authcryption. -/
structure MappingSafe (env : Surroundings) (s : Subscribers) (header : InternalMdpHeader)
    (payload : List Byte) : Prop where
  present : keyringMappingRequest env s header payload ≠ .error .nullPointer
  authcrypted : ∀ answer, keyringMappingRequest env s header payload = .ok answer →
    answer.state.sas ≠ s.sas ∨ answer.sent ≠ [] ∨ answer.released ≠ none →
      header.cryptFlags = 0#8
  challenged : ∀ answer subscriber, keyringMappingRequest env s header payload = .ok answer →
    answer.released = some subscriber → AnswersChallenge env s payload subscriber

/-- The signing key on record for a subscriber, if there is one, is that of its identity. -/
def OwnKey (s : Subscribers) (subscriber : Sid) : Prop :=
  ∀ sasPublic, s.sas subscriber = some sasPublic → ∃ identity key,
    s.identity subscriber = some identity ∧ identity.signKey = some key ∧
      key.publicKey = sasPublic

/-- An encrypted and signed frame to somebody who can only be released with their own key. -/
def Authcrypted (s : Subscribers) (header : InternalMdpHeader) : Prop :=
  header.cryptFlags = 0#8 ∧ ∃ destination, header.destination = some destination ∧
    (s.mySubscriber = some destination ∨ OwnKey s destination)

/-- The flags of a header are not those that are tested. -/
theorem guard_never (cryptFlags : Byte) :
    cryptFlags.setWidth 16 &&& (mdpNocrypt ||| mdpNosign) = 0#16 := by
  have hall : ∀ flags : Fin 256,
      (BitVec.ofNat 8 flags).setWidth 16 &&& (mdpNocrypt ||| mdpNosign) = 0#16 := by decide +kernel
  have h := hall ⟨cryptFlags.toNat, cryptFlags.isLt⟩
  rwa [BitVec.ofNat_toNat, BitVec.setWidth_eq] at h

/-- Nothing missing is dereferenced, and no identity is released. -/
def Quiet (result : Except Abort Answer) : Prop :=
  result ≠ .error .nullPointer ∧ ∀ answer, result = .ok answer → answer.released = none

theorem quiet_ok (h : answer.released = none) : Quiet (.ok answer) :=
  ⟨nofun, fun _ hok => Except.ok.inj hok ▸ h⟩

theorem quiet_assertion : Quiet (.error .assertion) :=
  ⟨nofun, nofun⟩

theorem keyringRespondSas_quiet (h : header.destination = some destination) :
    Quiet (keyringRespondSas env s header) := by
  rw [keyringRespondSas, h]
  dsimp only
  cases s.identity destination with
  | none => exact quiet_assertion
  | some identity =>
    dsimp only
    cases keyringFindSasPrivate env s destination identity with
    | none | some kp => exact quiet_ok rfl

theorem keyringStoreSas_released (source : Sid) (payload : List Byte) :
    (keyringStoreSas env s source payload).released = none := by
  rw [keyringStoreSas]
  split_ifs <;> rfl

theorem keyringSendSasRequest_released (subscriber : Sid) :
    (keyringSendSasRequest env s subscriber).released = none := by
  rw [keyringSendSasRequest]
  split_ifs <;> rfl

theorem keyringSendChallenge_quiet {source : Sid} (h : s.identity source ≠ none)
    (destination : Option Sid) : Quiet (keyringSendChallenge env s source destination) := by
  obtain ⟨identity, hidentity⟩ := Option.ne_none_iff_exists'.mp h
  rw [keyringSendChallenge, hidentity]
  exact quiet_ok rfl

theorem keyringRespondChallenge_quiet (subscriber : Sid) (payload : List Byte) :
    Quiet (keyringRespondChallenge env s subscriber payload) := by
  rw [keyringRespondChallenge]
  cases s.identity subscriber with
  | none => exact quiet_ok rfl
  | some identity =>
    dsimp only
    split_ifs
    · exact quiet_ok rfl
    · exact quiet_assertion
    · exact quiet_ok rfl
    · cases keyringFindSasPrivate env s subscriber identity with
      | none | some kp => exact quiet_ok rfl

/-- What is verified is signed with the key on record. -/
theorem verifyMessage_cases (h : header.destination = some destination) (message : List Byte) :
    (∃ answer, verifyMessage env s header.destination message = .ok (.inl answer) ∧
      answer.released = none) ∨
    ∃ len sasPublic, verifyMessage env s header.destination message =
        .ok (.inr (destination, len)) ∧
      s.sas destination = some sasPublic ∧ message.length = len + signatureBytes ∧
      env.crypto.verifySignature sasPublic (env.crypto.hashSha512 (message.take len))
        (message.drop len) := by
  rw [h, verifyMessage]
  cases hsas : s.sas destination with
  | none => exact .inl ⟨_, rfl, keyringSendSasRequest_released destination⟩
  | some sasPublic =>
    by_cases hshort : message.length < signatureBytes
    · refine .inl ⟨.nothing s, ?_, rfl⟩
      rw [cryptoVerifyMessage, if_pos hshort]
      rfl
    have hdrop : (message.drop (message.length - signatureBytes)).take signatureBytes =
        message.drop (message.length - signatureBytes) := by
      refine List.take_of_length_le ?_
      rw [List.length_drop]
      omega
    rw [cryptoVerifyMessage]
    dsimp only
    rw [if_neg hshort, hdrop]
    split
    case h_1 => exact .inl ⟨.nothing s, rfl, rfl⟩
    case h_2 len hverify =>
      split at hverify
      case isTrue hvalid =>
        cases hverify
        exact .inr ⟨_, sasPublic, rfl, rfl, by omega, hvalid⟩
      case isFalse => cases hverify

/-- An identity is released if the payload is its challenge. -/
theorem keyringProcessChallenge_released {subscriber : Sid} {identity : UnlockedIdentity}
    (h : s.identity subscriber = some identity) (payload : List Byte) :
    Quiet (keyringProcessChallenge env s subscriber payload) ∨
      env.now ≤ identity.challengeExpires ∧ payload = identity.challenge.1 ∧
        s.mySubscriber ≠ some subscriber ∧
        ∃ answer, keyringProcessChallenge env s subscriber payload = .ok answer ∧
          answer.released = some subscriber := by
  rw [keyringProcessChallenge, h]
  dsimp only
  split_ifs with hexpires _ hchallenge hme
  · exact .inl (quiet_ok rfl)
  · exact .inl (quiet_ok rfl)
  · exact .inl (quiet_ok rfl)
  · exact .inl (quiet_ok rfl)
  · exact .inr ⟨not_lt.mp hexpires, not_not.mp hchallenge, hme, _, rfl, rfl⟩

/-- Releasing an identity answers its challenge. -/
def QuietOrChallenged (env : Surroundings) (s : Subscribers) (payload : List Byte)
    (destination : Sid) (result : Except Abort Answer) : Prop :=
  Quiet result ∨ AnswersChallenge env s payload destination ∧
    ∃ answer, result = .ok answer ∧ answer.released = some destination

section

variable (hdestination : header.destination = some destination)
  (hunlocked : s.identity destination ≠ none)
  (hown : s.mySubscriber = some destination ∨ OwnKey s destination)
include hdestination hunlocked hown

theorem unlockResponse_challenged {rest : List Byte} :
    QuietOrChallenged env s (unlockResponse :: rest) destination
      (match verifyMessage env s header.destination (unlockResponse :: rest) with
        | .error e => .error e
        | .ok (.inl answer) => .ok answer
        | .ok (.inr (destination, len)) =>
          if len = 0 then .error .assertion
          else keyringProcessChallenge env s destination (rest.take (len - 1))) := by
  rcases verifyMessage_cases hdestination (unlockResponse :: rest) with
    ⟨answer, hverify, hreleased⟩ | ⟨len, sasPublic, hverify, hsas, -, hvalid⟩ <;> rw [hverify]
  · exact .inl (quiet_ok hreleased)
  dsimp only
  cases len with
  | zero => exact .inl quiet_assertion
  | succ len =>
    obtain ⟨identity, hidentity⟩ := Option.ne_none_iff_exists'.mp hunlocked
    rcases keyringProcessChallenge_released hidentity (rest.take len) with
      hquiet | ⟨hexpires, hchallenge, hme, answer, hprocess, hreleased⟩
    · exact .inl hquiet
    obtain ⟨identity', key, hidentity', hkey, rfl⟩ := hown.resolve_left hme sasPublic hsas
    cases hidentity.symm.trans hidentity'
    refine .inr ⟨⟨identity, key, rest.drop len, hidentity, hkey, hexpires, ?_, ?_⟩,
      answer, hprocess, hreleased⟩
    · rw [← hchallenge, List.cons_append, List.take_append_drop]
    · rwa [← hchallenge]

theorem keyringMappingRequest_challenged (hsource : header.source = some source) :
    QuietOrChallenged env s payload destination (keyringMappingRequest env s header payload) := by
  rw [keyringMappingRequest.eq_def, if_neg (not_not.mpr (guard_never _))]
  cases payload with
  | nil => exact .inl (quiet_ok rfl)
  | cons type rest =>
    dsimp only
    split
    · split
      · exact .inl (keyringRespondSas_quiet hdestination)
      · rw [hsource]
        exact .inl (quiet_ok (keyringStoreSas_released source rest))
    split
    · rcases verifyMessage_cases hdestination (type :: rest) with
        ⟨answer, hverify, hreleased⟩ | ⟨len, sasPublic, hverify, -⟩ <;> rw [hverify]
      · exact .inl (quiet_ok hreleased)
      · exact .inl (keyringSendChallenge_quiet hunlocked _)
    split
    · rw [hsource]
      exact .inl (keyringRespondChallenge_quiet source rest)
    split
    case isTrue htype =>
      rw [htype]
      exact unlockResponse_challenged hdestination hunlocked hown
    case isFalse => exact .inl (quiet_ok rfl)

end

/-- Under authcryption, requests to an unlocked destination are safe. -/
theorem Authcrypted.mappingSafe (h : Authcrypted s header) (hsource : header.source = some source)
    (hunlocked : ∀ destination, header.destination = some destination →
      s.identity destination ≠ none) : MappingSafe env s header payload := by
  obtain ⟨hflags, destination, hdestination, hown⟩ := h
  have hsafe : QuietOrChallenged env s payload destination _ :=
    keyringMappingRequest_challenged hdestination (hunlocked _ hdestination) hown hsource
  refine ⟨?_, fun _ _ _ => hflags, ?_⟩
  · rcases hsafe with hquiet | ⟨-, answer, hanswer, -⟩
    · exact hquiet.1
    · rw [hanswer]
      exact nofun
  intro answer subscriber hanswer hreleased
  rcases hsafe with hquiet | ⟨hchallenge, answer', hanswer', hreleased'⟩
  · exact nomatch (hquiet.2 answer hanswer).symm.trans hreleased
  · cases hanswer.symm.trans hanswer'
    cases hreleased.symm.trans hreleased'
    exact hchallenge

def Surroundings.plain : Surroundings :=
  ⟨Crypto.plain, 0, ⟨List.replicate challengeSize 0#8, rfl⟩, fun _ => true, ⟨[], [], true⟩⟩

/-- A request for a signing key is answered, whatever the flags of the header are. -/
theorem keyringMappingRequest_respond (env : Surroundings) {identity : UnlockedIdentity}
    (hdestination : header.destination = some destination)
    (hidentity : s.identity destination = some identity) (hkey : identity.signKey ≠ none) :
    ∃ answer, keyringMappingRequest env s header [keytypeCryptosignByte] = .ok answer ∧
      answer.sent ≠ [] := by
  obtain ⟨key, hkey⟩ := Option.ne_none_iff_exists'.mp hkey
  rw [keyringMappingRequest, if_neg (not_not.mpr (guard_never _)), if_pos rfl, if_pos rfl,
    keyringRespondSas, hdestination]
  simp only [hidentity, keyringFindSasPrivate, hkey]
  exact ⟨_, rfl, List.cons_ne_nil _ _⟩

theorem keyringMappingRequest_null (env : Surroundings) (s : Subscribers)
    (hdestination : header.destination = none) :
    keyringMappingRequest env s header [keytypeCryptosignByte] = .error .nullPointer := by
  rw [keyringMappingRequest, if_neg (not_not.mpr (guard_never _)), if_pos rfl, if_pos rfl,
    keyringRespondSas, hdestination]

/-- The response to a challenge, with a signature. -/
def responseTo (challenge : Challenge) : List Byte :=
  unlockResponse :: challenge.1 ++ List.replicate signatureBytes 0#8

/-- Whoever has the key on record can have an identity released. -/
theorem keyringMappingRequest_release {identity : UnlockedIdentity} {sasPublic : List Byte}
    (hdestination : header.destination = some destination)
    (hidentity : s.identity destination = some identity) (hme : s.mySubscriber ≠ some destination)
    (hsas : s.sas destination = some sasPublic) (hnow : env.now ≤ identity.challengeExpires)
    (hverify : ∀ hash signature, env.crypto.verifySignature sasPublic hash signature = true) :
    ∃ answer, keyringMappingRequest env s header (responseTo identity.challenge) = .ok answer ∧
      answer.released = some destination := by
  have hlength := identity.challenge.2
  have hmessage : cryptoVerifyMessage env.crypto (some sasPublic) (responseTo identity.challenge) =
      some (challengeSize + 1) := by
    rw [cryptoVerifyMessage]
    simp only [hverify, responseTo, List.length_append, List.length_cons, List.length_replicate,
      hlength, if_true]
    rw [if_neg (by omega), Nat.add_sub_cancel]
  rw [responseTo, List.cons_append, keyringMappingRequest, if_neg (not_not.mpr (guard_never _)),
    if_neg (by decide), if_neg (by decide), if_neg (by decide), if_pos rfl, ← List.cons_append,
    ← responseTo, hdestination, verifyMessage]
  simp only [hsas, hmessage]
  rw [if_neg (Nat.succ_ne_zero _), Nat.add_sub_cancel, List.take_left' hlength,
    keyringProcessChallenge, hidentity]
  dsimp only
  rw [if_neg (not_lt.mpr hnow), if_neg (not_not.mpr hlength), if_neg (not_not.mpr rfl), if_neg hme]
  exact ⟨_, rfl, rfl⟩

/-- Requests to an unlocked destination are safe, for any payload and primitives, exactly if the
frame was encrypted and signed, had a destination, and that cannot be released with a key other than
its own. Without a signing key there may be nothing to reply. -/
theorem mappingSafe_iff (hsource : header.source = some source)
    (hunlocked : ∀ destination, header.destination = some destination →
      s.identity destination ≠ none) :
    (Authcrypted s header → ∀ env payload, MappingSafe env s header payload) ∧
      ((∀ destination identity, header.destination = some destination →
          s.identity destination = some identity → identity.signKey ≠ none) →
        (∀ env payload, MappingSafe env s header payload) → Authcrypted s header) := by
  refine ⟨fun h env payload => h.mappingSafe hsource hunlocked, fun hkey h => ?_⟩
  cases hdestination : header.destination with
  | none =>
    exact absurd (keyringMappingRequest_null .plain s hdestination) (h .plain _).present
  | some destination =>
    obtain ⟨identity, hidentity⟩ := Option.ne_none_iff_exists'.mp (hunlocked _ hdestination)
    refine ⟨?_, destination, hdestination, or_iff_not_imp_left.mpr fun hme sasPublic hsas => ?_⟩
    · obtain ⟨answer, hanswer, hsent⟩ := keyringMappingRequest_respond .plain hdestination hidentity
        (hkey destination identity hdestination hidentity)
      exact (h .plain _).authcrypted answer hanswer (.inr (.inl hsent))
    · -- surroundings in which only that key signs
      let env : Surroundings := { Surroundings.plain with
        crypto := { Crypto.plain with verifySignature := fun key _ _ => key = sasPublic }
        now := identity.challengeExpires }
      obtain ⟨answer, hanswer, hreleased⟩ := @keyringMappingRequest_release env s header destination
        identity sasPublic hdestination hidentity hme hsas le_rfl fun _ _ => decide_eq_true rfl
      obtain ⟨identity', key, signature, hidentity', hsign, -, -, hverify⟩ :=
        (h env _).challenged answer destination hanswer hreleased
      exact ⟨identity', key, hidentity', hsign, of_decide_eq_true hverify⟩

/-- Everybody has an identity with a signing key, which may be on record. -/
def Subscribers.unlocked (sas : Option (List Byte)) : Subscribers where
  sas _ := sas
  sasLastRequest _ := 0
  identity _ := some ⟨0, ⟨List.replicate challengeSize 0#8, rfl⟩, some ⟨[], [], true⟩⟩
  reachableSelf _ := true
  mySubscriber := none

/-- An identity is released by the answer to its challenge. -/
theorem mappingSafe_release : ∃ answer,
    keyringMappingRequest .plain (.unlocked (some []))
      (portsHeader zeroSid mdpPortKeymaprequest mdpPortKeymaprequest 0#8)
      (responseTo ⟨List.replicate challengeSize 0#8, rfl⟩) = .ok answer ∧
    answer.released = some zeroSid ∧
    AnswersChallenge .plain (.unlocked (some []))
      (responseTo ⟨List.replicate challengeSize 0#8, rfl⟩) zeroSid := by
  have hown : OwnKey (.unlocked (some [])) zeroSid := by
    rintro sasPublic ⟨⟩
    exact ⟨_, _, rfl, rfl, rfl⟩
  have hsafe := (@mappingSafe_iff (.unlocked (some []))
    (portsHeader zeroSid mdpPortKeymaprequest mdpPortKeymaprequest 0#8) zeroSid rfl
    (fun _ _ => Option.some_ne_none _)).1 ⟨rfl, zeroSid, rfl, .inr hown⟩ .plain
    (responseTo ⟨List.replicate challengeSize 0#8, rfl⟩)
  exact ⟨_, rfl, rfl, hsafe.challenged _ zeroSid rfl rfl⟩

/-- In the clear, a signing key is stored, a request is answered, and one to everybody fails. -/
theorem keyringMappingRequest_clear :
    (∃ answer, keyringMappingRequest .plain (.unlocked none)
        (portsHeader zeroSid mdpPortKeymaprequest mdpPortKeymaprequest
          (mdpFlagNoCrypt ||| mdpFlagNoSign))
        (keytypeCryptosignByte :: List.replicate (sasSize + signatureBytes) 7#8) = .ok answer ∧
      (Subscribers.unlocked none).sas zeroSid = none ∧
      answer.state.sas zeroSid = some (List.replicate sasSize 7#8)) ∧
    (∃ answer, keyringMappingRequest .plain (.unlocked none)
        (portsHeader zeroSid mdpPortKeymaprequest mdpPortKeymaprequest
          (mdpFlagNoCrypt ||| mdpFlagNoSign)) [keytypeCryptosignByte] = .ok answer ∧
      answer.sent ≠ []) ∧
    keyringMappingRequest .plain (.unlocked none)
      { portsHeader zeroSid mdpPortKeymaprequest mdpPortKeymaprequest
        (mdpFlagNoCrypt ||| mdpFlagNoSign) with destination := none } [keytypeCryptosignByte] =
      .error .nullPointer :=
  ⟨⟨_, rfl, rfl, rfl⟩, keyringMappingRequest_respond .plain rfl rfl (Option.some_ne_none _),
    keyringMappingRequest_null .plain _ rfl⟩

end Safety

end ServalMesh.Keyring
