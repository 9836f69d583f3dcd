import ServalMesh.Keyring.KeypairOrder

/-!
# Packing and unpacking identities

What an identity is packed to is the concatenation of its encoded key pairs and a zero, which is
read back pair by pair. Whether the identity is found again depends on how many key pairs it has,
on their types, and on how they join each other.
-/

namespace ServalMesh.Keyring

open Overlay List

variable {kp : Keypair} {keypairs rest : List Keypair} {slot slot' : Slot} {rb rb' : Rotbuf}
  {scalarmultBase : List Byte → List Byte}

section Packed

/-- The keys as they are packed. -/
def payload (kp : Keypair) : List Byte :=
  match (packerOf kp).1 with
  | .privateOnly => kp.priv
  | .publicOnly => kp.pub
  | .privatePublic => kp.priv ++ kp.pub
  | .didName => kp.priv ++ kp.pub

/-- A key pair as it is packed, behind its type. -/
def body (kp : Keypair) : List Byte := lengthBytes kp.type (packerOf kp).2 ++ payload kp

def encode (kp : Keypair) : List Byte := BitVec.ofNat 8 kp.type :: body kp

/-- The bytes of the rotated buffer. -/
def packedBytes (keypairs : List Keypair) : List Byte := keypairs.flatMap encode ++ [0#8]

/-- What is known of a key pair that was packed. -/
structure Packable (kp : Keypair) : Prop where
  type_ne : kp.type ≠ 0
  length : (payload kp).length = (packerOf kp).2
  terminated : kp.type = keytypeDid → 0#8 ∈ kp.pub

theorem rotbufPutbuf_both (slot : Slot) (rb : Rotbuf) (a b : List Byte) :
    rotbufPutbuf (rotbufPutbuf slot rb a).1 (rotbufPutbuf slot rb a).2 b =
      rotbufPutbuf slot rb (a ++ b) := by
  rw [rotbufPutbuf_append, rotbufPutbuf_skip]

theorem Packer.pack_eq (h : (packerOf kp).1.pack kp slot rb = some (slot', rb')) :
    (slot', rb') = rotbufPutbuf slot rb (payload kp) ∧ (kp.type = keytypeDid → 0#8 ∈ kp.pub) := by
  have hdid : kp.type = keytypeDid → (packerOf kp).1 = .didName := by
    intro htype
    rw [packerOf, htype]
    rfl
  rw [payload]
  cases hpacker : (packerOf kp).1 with
  | privateOnly | publicOnly =>
    rw [hpacker] at h hdid
    exact ⟨(Option.some.inj h).symm, fun htype => nomatch hdid htype⟩
  | privatePublic =>
    rw [hpacker] at h hdid
    exact ⟨(Option.some.inj h).symm.trans (rotbufPutbuf_both ..), fun htype => nomatch hdid htype⟩
  | didName =>
    rw [hpacker, pack] at h
    split at h
    case isTrue hmem => exact ⟨(Option.some.inj h).symm.trans (rotbufPutbuf_both ..), fun _ => hmem⟩
    case isFalse => exact nomatch h

theorem keytypes_le {kt : Keytype} (hkt : keytypes kp.type = some kt) :
    kp.type = 1 ∨ kp.type = 2 ∨ kp.type = 3 ∨ kp.type = 4 ∨ kp.type = 5 := by
  by_contra hne
  rw [keytypes] at hkt
  · cases hkt
  all_goals omega

/-- If all key pairs were packed and there is room left, they are all there. -/
theorem packLoop_done (hsize : rb.size ≤ 2 ^ 32)
    (h : packLoop keypairs slot rb = .ok (.done, slot', rb')) (hwrap : rb'.wrap = 0) :
    (slot', rb') = rotbufPutbuf slot rb (keypairs.flatMap encode) ∧
      ∀ kp ∈ keypairs, Packable kp := by
  induction keypairs generalizing slot rb with
  | nil =>
    obtain ⟨rfl, rfl⟩ := h
    exact ⟨rfl, nofun⟩
  | cons kp rest ih =>
    have hlt := rotbufCount_lt_size.mpr hwrap
    rw [packLoop] at h
    split at h
    · exact nomatch h
    split at h
    · exact nomatch h
    rename_i htype
    have hhead : rotbufPutbuf (rotbufPutc slot rb (BitVec.ofNat 8 kp.type)).1
        (rotbufPutc slot rb (BitVec.ofNat 8 kp.type)).2 (lengthBytes kp.type (packerOf kp).2) =
        rotbufPutbuf slot rb (BitVec.ofNat 8 kp.type :: lengthBytes kp.type (packerOf kp).2) := by
      rw [rotbufPutc_next, rotbufPutbuf_cons]
    dsimp only at h
    rw [hhead] at h
    generalize hbytes : BitVec.ofNat 8 kp.type :: lengthBytes kp.type (packerOf kp).2 = head
      at h hhead
    have hencode : encode kp = head ++ payload kp := by
      rw [← hbytes, encode, body, cons_append]
    split at h
    · exact nomatch h
    rename_i slot₂ rb₂ hpack
    obtain ⟨hput, hdid⟩ := Packer.pack_eq hpack
    rw [rotbufPutbuf_skip] at h hput
    have hput₂ : (slot₂, rb₂) = rotbufPutbuf slot rb (encode kp) := by
      rw [hput, hencode, rotbufPutbuf_append]
    obtain rfl : slot₂ = (rotbufPutbuf slot rb (encode kp)).1 := congrArg Prod.fst hput₂
    obtain rfl : rb₂ = rb.skip (encode kp).length :=
      (congrArg Prod.snd hput₂).trans (rotbufPutbuf_skip ..)
    have hregion := rb.skip_region (encode kp).length
    split at h
    · exact nomatch h
    rename_i packed hdelta
    split at h
    · exact nomatch h
    rename_i hpacked
    obtain ⟨hrest, hpackable⟩ := ih (hregion.size.symm ▸ hsize) h
    have hput' : (slot', rb') = rotbufPutbuf slot rb ((kp :: rest).flatMap encode) := by
      rw [hrest, flatMap_cons, rotbufPutbuf_append]
    have hend : rb' = rb.skip ((kp :: rest).flatMap encode).length := by
      rw [← rotbufPutbuf_skip slot rb, ← hput']
    have hcount : rotbufCount rb + (encode kp).length < rb.size := by
      rw [hend, rotbufCount_skip, (rb.skip_region _).size, flatMap_cons,
        length_append] at hlt
      omega
    refine ⟨hput', fun kp' hkp' => ?_⟩
    rcases mem_cons.mp hkp' with rfl | hmem
    · -- the cursor has moved as far as the keys are long
      have hwrap₁ : (rb.skip head.length).wrap = 0 := by
        rw [← rotbufCount_lt_size, rotbufCount_skip, (rb.skip_region _).size]
        rw [hencode, length_append] at hcount
        omega
      have hwrap₂ : (rb.skip (encode kp').length).wrap = 0 := by
        rwa [← rotbufCount_lt_size, rotbufCount_skip, (rb.skip_region _).size]
      rw [rotbufDelta_eq ((rb.skip_region _).symm.trans (rb.skip_region _)) hwrap₁ hwrap₂,
        rotbufCount_skip, rotbufCount_skip, hencode, length_append] at hdelta
      rw [hencode, length_append] at hcount
      cases hdelta
      refine ⟨htype, ?_, hdid⟩
      omega
    · exact hpackable kp' hmem

theorem Holds.fill {bytes : List Byte} (h : Holds slot rb bytes) (hregion : SameRegion rb rb')
    (hcount : rotbufCount rb + bytes.length ≤ rotbufCount rb') (fill : Slot) :
    Holds (fillLoop fill slot rb') rb bytes ∧
      ∀ i < rb'.buf, fillLoop fill slot rb' i = slot i := by
  induction slot, rb' using fillLoop.induct fill with
  | case1 slot rb' hchunk =>
    rw [fillLoop, hchunk]
    exact ⟨h, fun i hi => rfl⟩
  | case2 slot rb' offset len rb'' hchunk ih =>
    obtain ⟨hregion', hcount', hoffset, -⟩ := rotbufNextChunk_behind hchunk
    obtain ⟨hholds, hsame⟩ := ih (h.chunk hregion hcount hchunk fill) (hregion.trans hregion')
      (hcount.trans hcount')
    have hnext : fillLoop fill slot rb' = fillLoop fill
        (fun i => if offset ≤ i ∧ i < offset + len then fill i else slot i) rb'' := by
      rw [fillLoop]
      split
      case h_1 hnone => exact nomatch hchunk.symm.trans hnone
      case h_2 offset' len' rb₁ hchunk' =>
        obtain ⟨rfl, rfl, rfl⟩ : offset = offset' ∧ len = len' ∧ rb'' = rb₁ := by
          simpa using hchunk.symm.trans hchunk'
        rfl
    rw [hnext]
    refine ⟨hholds, fun i hi => ?_⟩
    exact (hsame i (hregion'.buf.symm ▸ hi)).trans (if_neg fun h => by omega)

theorem rotation_append (rotation : BitVec 16) :
    BitVec.ofNat 8 (rotation.toNat / 2 ^ 8) ++ BitVec.ofNat 8 rotation.toNat = rotation := by
  apply BitVec.eq_of_toNat_eq
  rw [BitVec.toNat_append, BitVec.toNat_ofNat, BitVec.toNat_ofNat,
    ← Nat.shiftLeft_add_eq_or_of_lt (Nat.mod_lt _ (by decide)), Nat.shiftLeft_eq]
  omega

theorem rotationOf_header (rotation : BitVec 16) (mac : List Byte) (slot : Slot) :
    rotationOf (slotHeader rotation mac slot) = rotation := rotation_append rotation

theorem slotBuf_size (rotation : BitVec 16) :
    (slotBuf rotation).size = keyringPageSize - (pkrSaltBytes + pkrMacBytes + 2) :=
  rotbufInit_size _

theorem keyringPackIdentity_holds {sha512 : List Byte → List Byte} {random : SlotRandom}
    {id : KeyringIdentity} (h : keyringPackIdentity sha512 random id slot = .ok (0, slot')) :
    rotationOf slot' = random.rotation ∧
      Holds slot' (slotBuf random.rotation) (packedBytes id.keypairs) ∧
      ∀ kp ∈ id.keypairs, Packable kp := by
  rw [keyringPackIdentity] at h
  dsimp only at h
  split at h
  · exact nomatch h
  rename_i mac hmac
  split at h
  · exact nomatch h
  rename_i packEnd slot₁ rb₁ hpack
  have hrotation := rotationOf_header random.rotation mac
    fun i => if i < pkrSaltBytes then random.salt.getD i 0#8 else slot i
  generalize slotHeader random.rotation mac
    (fun i => if i < pkrSaltBytes then random.salt.getD i 0#8 else slot i) = header
    at hpack hrotation
  split at h
  · exact nomatch h
  rename_i hend
  simp only [not_or, not_lt, not_not] at hend
  obtain ⟨-, hwrap, rfl⟩ := hend
  cases h
  rw [rotbufPutc_next] at hwrap
  have hlt : rotbufCount rb₁ < rb₁.size := by
    have := rotbufCount_le_size.mpr hwrap
    rw [rotbufCount_next, rb₁.next_region.size] at this
    omega
  obtain ⟨hput, hpackable⟩ := packLoop_done (by rw [slotBuf_size]; decide) hpack
    (rotbufCount_lt_size.mp hlt)
  -- the zero is written behind the key pairs
  have hzero : rotbufPutc slot₁ rb₁ 0#8 = rotbufPutbuf slot₁ rb₁ [0#8] := rfl
  have hall : rotbufPutc slot₁ rb₁ 0#8 = rotbufPutbuf header (slotBuf random.rotation)
      (packedBytes id.keypairs) := by
    rw [hzero, packedBytes, rotbufPutbuf_append, ← rotbufPutbuf_skip, ← hput]
  have hend : rb₁ = (slotBuf random.rotation).skip (id.keypairs.flatMap encode).length := by
    rw [← rotbufPutbuf_skip header, ← hput]
  have hcount : rotbufCount (slotBuf random.rotation) + (packedBytes id.keypairs).length ≤
      (slotBuf random.rotation).size := by
    rw [hend, rotbufCount_skip, ((slotBuf random.rotation).skip_region _).size] at hlt
    rw [packedBytes, length_append, length_singleton]
    omega
  have hholds := holds_putbuf header hcount
  rw [hall, rotbufPutbuf_skip]
  have hregion := (slotBuf random.rotation).skip_region (packedBytes id.keypairs).length
  obtain ⟨hfilled, hsame⟩ := hholds.fill hregion (rotbufCount_skip _ _).ge random.fill
  refine ⟨?_, hfilled, hpackable⟩
  have hbefore : ∀ i < pkrSaltBytes + pkrMacBytes + 2, _ = header i := fun i hi =>
    (hsame i (hregion.buf ▸ hi)).trans
      (rotbufPutbuf_outside header (slotBuf random.rotation) _ (.inl hi))
  rwa [rotationOf, hbefore _ (by omega), hbefore _ (by omega)]

end Packed

section Unpacked

variable {more : List Byte} {kt : Keytype}

theorem newKey_getD (bytes : List Byte) : (newKey bytes).getD [] = bytes := by
  rw [newKey]
  split
  case isTrue hnil => exact hnil.symm
  case isFalse => rfl

/-- The key pair with these keys, which is stored if the other one is well sized. -/
theorem stored_of_keys {kp' : Keypair} (hsized : kp.WellSized scalarmultBase)
    (htype : kp'.type = kp.type) (hpriv : kp'.priv = kp.priv) (hpub : kp'.pub = kp.pub)
    (htag : kp.type = keytypePublicTag → kp'.publicKey.isSome)
    (hunknown : keytypes kp.type = none → kp.pub = [] ∧ kp'.privateKey = newKey kp.priv) :
    kp'.key = kp.key ∧ Stored scalarmultBase kp' := by
  refine ⟨key_eq_iff.mpr ⟨htype, hpub, hpriv⟩, ⟨?_, ?_, ?_, ?_⟩⟩
  · rwa [Keypair.WellSized, htype, hpriv, hpub]
  · rw [Keypair.Kept, htype, hpub]
    exact fun hkt => (hunknown hkt).1
  · rwa [htype]
  · rw [htype, hpriv]
    exact fun hkt => (hunknown hkt).2

section Unpackers

variable {priv pub : List Byte} {ktype : ℕ}

theorem Holds.getbuf_append (hholds : Holds slot rb (priv ++ pub)) :
    rotbufGetbuf slot priv.length rb = (priv, rb.skip priv.length) ∧
      rotbufGetbuf slot pub.length (rb.skip priv.length) =
        (pub, rb.skip (priv ++ pub).length) := by
  obtain ⟨hpriv, hpub⟩ := holds_append.mp hholds
  rw [length_append, Rotbuf.skip_add]
  exact ⟨hpriv.getbuf, hpub.getbuf⟩

theorem Unpacker.unpack_both
    (hkt : kt.unpacker = .privatePublic ∨ kt.unpacker = .didName ∧ 0#8 ∈ pub)
    (hpriv : priv.length = kt.privateKeySize) (hpub : pub.length = kt.publicKeySize)
    (hholds : Holds slot rb (priv ++ pub)) :
    unpack scalarmultBase slot ktype kt (priv ++ pub).length rb =
      .ok (some (⟨ktype, newKey priv, newKey pub⟩, rb.skip (priv ++ pub).length)) := by
  obtain ⟨hfirst, hsecond⟩ := hholds.getbuf_append
  rcases hkt with hkt | ⟨hkt, hterminated⟩
  all_goals
    rw [unpack, hkt]
    dsimp only
    rw [← hpriv, ← hpub, if_neg (not_not.mpr length_append), hfirst, hsecond]
  rw [if_pos hterminated]

theorem Unpacker.unpack_cryptobox (hkt : kt.unpacker = .cryptobox)
    (hpriv : priv.length = kt.privateKeySize) (hwrap : (rb.skip priv.length).wrap = 0)
    (hholds : Holds slot rb priv) :
    unpack scalarmultBase slot ktype kt priv.length rb =
      .ok (some (⟨ktype, newKey priv, newKey (scalarmultBase priv)⟩, rb.skip priv.length)) := by
  rw [unpack, hkt, ← hpriv, if_neg (not_not.mpr rfl), hholds.getbuf]
  dsimp only
  rw [if_neg (not_not.mpr hwrap)]

theorem Unpacker.unpack_privateOnly (hkt : kt.unpacker = .privateOnly)
    (hpriv : priv.length = kt.privateKeySize) (hpub : kt.publicKeySize = 0)
    (hholds : Holds slot rb priv) :
    unpack scalarmultBase slot ktype kt priv.length rb =
      .ok (some (⟨ktype, some priv, none⟩, rb.skip priv.length)) := by
  rw [unpack, hkt, ← hpriv, hpub, ite_self, hholds.getbuf]
  rfl

theorem Unpacker.unpack_publicOnly (hkt : kt.unpacker = .publicOnly)
    (hpriv : kt.privateKeySize = 0) (hpub : kt.publicKeySize = 0) (hholds : Holds slot rb pub) :
    unpack scalarmultBase slot ktype kt pub.length rb =
      .ok (some (⟨ktype, none, some pub⟩, rb.skip pub.length)) := by
  rw [unpack, hkt, hpriv, hpub, if_pos rfl, hholds.getbuf]
  rfl

end Unpackers

/-- A key pair of a known type is unpacked from what it was packed to. -/
theorem Unpacker.unpack_payload (hkt : keytypes kp.type = some kt) (hkp : Packable kp)
    (hsized : kp.WellSized scalarmultBase) (hmore : more ≠ [])
    (hholds : Holds slot rb (payload kp ++ more)) :
    ∃ kp', unpack scalarmultBase slot kp.type kt (payload kp).length rb =
        .ok (some (kp', rb.skip (payload kp).length)) ∧
      kp'.key = kp.key ∧ Stored scalarmultBase kp' := by
  obtain ⟨hpayload, hrest⟩ := holds_append.mp hholds
  have hwrap : (rb.skip (payload kp).length).wrap = 0 := by
    obtain ⟨c, more, rfl⟩ := exists_cons_of_ne_nil hmore
    exact hrest.1
  have hsizes := hsized
  rw [Keypair.WellSized, hkt] at hsizes
  have hpacked : payload kp = match kt.packer with
      | .privateOnly => kp.priv
      | .publicOnly => kp.pub
      | .privatePublic => kp.priv ++ kp.pub
      | .didName => kp.priv ++ kp.pub := by
    rw [payload, packerOf, hkt]
  rcases keytypes_le hkt with htype | htype | htype | htype | htype
  all_goals
    have hknown {q : Prop} : keytypes kp.type = none → q := fun h => by cases hkt.symm.trans h
    rw [htype] at hkt
    cases hkt
    rw [hpacked] at hpayload hwrap ⊢
  · -- the public key is derived from the private key
    obtain ⟨hpriv, hpub, hderived⟩ := hsizes
    refine ⟨_, unpack_cryptobox rfl hpriv hwrap hpayload, ?_⟩
    rw [← hderived htype]
    exact stored_of_keys hsized rfl (newKey_getD _) (newKey_getD _)
      (fun htag => by cases htype.symm.trans htag) hknown
  · obtain ⟨hpriv, hpub, -⟩ := hsizes
    exact ⟨_, unpack_both (.inl rfl) hpriv hpub hpayload,
      stored_of_keys hsized rfl (newKey_getD _) (newKey_getD _)
        (fun htag => by cases htype.symm.trans htag) hknown⟩
  · obtain ⟨hpriv, hpub, -⟩ := hsizes
    exact ⟨_, unpack_privateOnly rfl hpriv rfl hpayload,
      stored_of_keys hsized rfl rfl (eq_nil_of_length_eq_zero hpub).symm
        (fun htag => by cases htype.symm.trans htag) hknown⟩
  · obtain ⟨hpriv, hpub, -⟩ := hsizes
    exact ⟨_, unpack_both (.inr ⟨rfl, hkp.terminated htype⟩) hpriv hpub hpayload,
      stored_of_keys hsized rfl (newKey_getD _) (newKey_getD _)
        (fun htag => by cases htype.symm.trans htag) hknown⟩
  · have hnil : kp.priv = [] := hsizes
    exact ⟨_, unpack_publicOnly rfl rfl rfl hpayload,
      stored_of_keys hsized rfl hnil.symm rfl (fun _ => rfl) hknown⟩

theorem lengthBytes_toNat {len : ℕ} (hlen : len < 2 ^ 16) :
    (BitVec.ofNat 8 (len / 2 ^ 8)).toNat * 2 ^ 8 + (BitVec.ofNat 8 len).toNat = len := by
  rw [BitVec.toNat_ofNat, BitVec.toNat_ofNat]
  omega

/-- The length that is stored, or that the type implies, is that of the keys. -/
theorem keypairLength_body (hkp : Packable kp) (hlen : (payload kp).length < 2 ^ 16)
    (hholds : Holds slot rb (body kp)) :
    keypairLength slot kp.type rb =
      ((payload kp).length, rb.skip (lengthBytes kp.type (packerOf kp).2).length) := by
  rw [keypairLength]
  by_cases himplied : lengthImplied kp.type
  · have hsize : ((keytypes kp.type).map (·.packedSize)).getD 0 = (packerOf kp).2 := by
      simp only [lengthImplied, Bool.or_eq_true, decide_eq_true_eq] at himplied
      rw [packerOf]
      obtain ((htype | htype) | htype) | htype := himplied <;> rw [htype] <;> rfl
    rw [if_pos himplied, hsize, ← hkp.length, lengthBytes, if_pos himplied]
    rfl
  · rw [body, lengthBytes, if_neg himplied, ← hkp.length] at hholds
    have hlow := hholds.2.2
    rw [if_neg himplied, lengthBytes, if_neg himplied, hholds.getc]
    dsimp only
    rw [hlow.getc]
    dsimp only
    rw [lengthBytes_toNat hlen]
    rfl

/-- A key pair is unpacked from what it was packed to, if something follows. -/
theorem unpackKeypair_body (hkp : Packable kp) (hsized : kp.WellSized scalarmultBase)
    (hkept : kp.Kept) (hsize : rb.size < 2 ^ 16) (hmore : more ≠ [])
    (hholds : Holds slot rb (body kp ++ more)) :
    ∃ kp', unpackKeypair scalarmultBase slot kp.type rb =
        .ok (some (kp', rb.skip (body kp).length)) ∧
      kp'.key = kp.key ∧ Stored scalarmultBase kp' := by
  have hfits := hholds.count_le (append_ne_nil_of_right_ne_nil _ hmore)
  have hpos := length_pos_iff.mpr hmore
  have hlength := keypairLength_body hkp (by
    rw [length_append, body, length_append] at hfits
    omega) (holds_append.mp hholds).1
  rw [body, append_assoc] at hholds
  obtain ⟨-, hpayload⟩ := holds_append.mp hholds
  rw [body] at hfits ⊢
  generalize (lengthBytes kp.type (packerOf kp).2) = bytes at hlength hpayload hfits ⊢
  rw [length_append, Rotbuf.skip_add]
  rw [length_append, length_append] at hfits
  have hregion := rb.skip_region bytes.length
  have hcount := rotbufCount_skip rb bytes.length
  rw [unpackKeypair, hlength]
  dsimp only
  rw [← hregion.size] at hfits hsize
  generalize rb.skip bytes.length = rb₁ at hpayload hfits hcount hsize ⊢
  rw [rotbufRemain_eq, if_neg (by omega)]
  cases hkt : keytypes kp.type with
  | none =>
    have hpacked : payload kp = kp.priv := by rw [payload, packerOf, hkt]
    have hpub := hkept hkt
    refine ⟨⟨kp.type, newKey kp.priv, none⟩, ?_, stored_of_keys hsized rfl (newKey_getD _)
      hpub.symm ?_ fun _ => ⟨hpub, rfl⟩⟩
    · rw [(holds_append.mp hpayload).1.getbuf, hpacked]
    · intro htag
      rw [htag] at hkt
      cases hkt
  | some kt =>
    obtain ⟨kp', hunpack, hkp'⟩ := Unpacker.unpack_payload hkt hkp hsized hmore hpayload
    refine ⟨kp', ?_, hkp'⟩
    have hwrap : rb₁.wrap = 0 := rotbufCount_lt_size.mp (by omega)
    have hwrap' : (rb₁.skip (payload kp).length).wrap = 0 := by
      rw [← rotbufCount_lt_size, rotbufCount_skip, (rb₁.skip_region _).size]
      omega
    dsimp only
    rw [hunpack]
    dsimp only
    rw [rotbufDelta_eq (rb₁.skip_region _) hwrap hwrap', rotbufCount_skip]
    dsimp only
    rw [if_neg (by omega)]

/-- The loop ends at a type of zero, unless it has no room for another key pair. -/
theorem unpackLoop_zero (hholds : Holds slot rb [0#8]) :
    unpackLoop scalarmultBase slot rb keypairs =
      if pkrMaxKeypairs ≤ keypairs.length then .ok none else .ok (some (keypairs, rb.next)) := by
  rw [unpackLoop, dif_neg (not_not.mpr hholds.1), hholds.getc]
  exact if_congr Iff.rfl rfl (if_pos (.inr rfl))

/-- One round of the loop. -/
theorem unpackLoop_encode (hkp : Packable kp) (hsized : kp.WellSized scalarmultBase)
    (hkept : kp.Kept) (htype : kp.type < 2 ^ 8) (hsize : rb.size < 2 ^ 16) (hmore : more ≠ [])
    (hlength : keypairs.length < pkrMaxKeypairs) (hholds : Holds slot rb (encode kp ++ more)) :
    ∃ kp', kp'.key = kp.key ∧ Stored scalarmultBase kp' ∧
      unpackLoop scalarmultBase slot rb keypairs =
        match addLoop kp' none keypairs with
        | .error e => .error e
        | .ok added => unpackLoop scalarmultBase slot (rb.skip (encode kp).length)
            (added.getD keypairs) := by
  rw [encode, cons_append] at hholds
  obtain ⟨kp', hunpack, hkey, hstored⟩ := unpackKeypair_body hkp hsized hkept
    (rb.next_region.size.symm ▸ hsize) hmore hholds.2.2
  have hbyte : (BitVec.ofNat 8 kp.type).toNat = kp.type := by
    rw [BitVec.toNat_ofNat, Nat.mod_eq_of_lt htype]
  have hwrap : rb.next.wrap = 0 := by
    have hfits := hholds.count_le (cons_ne_nil _ _)
    have hpos := length_pos_iff.mpr hmore
    rw [length_cons, length_append] at hfits
    rw [← rotbufCount_lt_size, rotbufCount_next, rb.next_region.size]
    omega
  refine ⟨kp', hkey, hstored, ?_⟩
  rw [unpackLoop, dif_neg (not_not.mpr hholds.1), if_neg (by omega), hholds.getc]
  dsimp only [Option.getD_some]
  rw [hbyte, if_neg (not_or.mpr ⟨not_not.mpr hwrap, hkp.type_ne⟩)]
  split
  case h_1 hfail => cases hunpack.symm.trans hfail
  case h_2 hfail => cases hunpack.symm.trans hfail
  case h_3 kp₁ rb₁ hunpack₁ =>
    obtain ⟨rfl, rfl⟩ : kp' = kp₁ ∧ rb.next.skip (body kp).length = rb₁ := by
      simpa using hunpack.symm.trans hunpack₁
    rw [keyringIdentityAddKeypair, if_neg (by omega)]
    rfl

end Unpacked

end ServalMesh.Keyring
