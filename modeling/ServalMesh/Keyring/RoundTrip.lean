import ServalMesh.Keyring.SlotCodec

/-!
# The identity that is read back from a slot

Reading a slot adds its key pairs one by one to an ordered array. Each of them is found again if it
can join those before it, and if the array never fills up.
-/

namespace ServalMesh.Keyring

open Overlay List Keypair

variable {kp kp' : Keypair} {before keypairs rest added result : List Keypair} {slot slot' : Slot}
  {rb rb' : Rotbuf} {scalarmultBase : List Byte → List Byte}

/-- A key pair that is unpacked as it was packed. -/
structure Readable (scalarmultBase : List Byte → List Byte) (kp : Keypair) : Prop where
  packable : Packable kp
  wellSized : kp.WellSized scalarmultBase
  kept : kp.Kept
  type_lt : kp.type < 2 ^ 8

/-- The array holds exactly the key pairs that were read so far, in order. -/
structure ReadBack (scalarmultBase : List Byte → List Byte) (before keypairs : List Keypair) :
    Prop where
  keys : (keypairs.map Keypair.key).Perm (before.map Keypair.key)
  stored : ∀ x ∈ keypairs, Stored scalarmultBase x
  sorted : keypairs.Pairwise fun a b => a.key < b.key

theorem ReadBack.nil : ReadBack scalarmultBase [] [] :=
  ⟨.refl _, nofun, .nil⟩

theorem ReadBack.length (h : ReadBack scalarmultBase before keypairs) :
    keypairs.length = before.length := by
  simpa using h.keys.length_eq

theorem exists_same_key {a b : List Keypair} (h : (a.map key).Perm (b.map key)) :
    ∀ x ∈ a, ∃ y ∈ b, y.key = x.key :=
  fun _ hx => mem_map.mp (h.mem_iff.mp (mem_map_of_mem hx))

section

variable (h : ReadBack scalarmultBase before keypairs) (hkey : kp'.key = kp.key)
include h hkey

theorem ReadBack.joins_iff :
    Joins before kp ↔ Joins keypairs kp' :=
  ⟨fun hj => hj.congr (exists_same_key h.keys) hkey.symm,
    fun hj => hj.congr (exists_same_key h.keys.symm) hkey⟩

/-- A key pair is added exactly if it joins the others. -/
theorem ReadBack.add (hstored : Stored scalarmultBase kp') (hne : ∀ x ∈ before, x.key ≠ kp.key) :
    (Joins before kp ↔ ∃ added, addLoop kp' none keypairs = .ok (some added)) ∧
      ∀ added, addLoop kp' none keypairs = .ok (some added) →
        ReadBack scalarmultBase (before ++ [kp]) added := by
  have hne' : ∀ x ∈ keypairs, x.key ≠ kp'.key := by
    intro x hx hxkey
    obtain ⟨y, hy, hykey⟩ := exists_same_key h.keys x hx
    exact hne y hy (hykey.trans (hxkey.trans hkey))
  obtain ⟨hiff, hsorted⟩ := @addLoop_spec _ keypairs _ none hstored h.stored h.sorted hne' nofun
  refine ⟨(h.joins_iff hkey).trans hiff, fun added hadded => ?_⟩
  have hperm := addLoop_perm hadded
  refine ⟨?_, fun x hx => ?_, hsorted added hadded⟩
  · have hcons : (added.map key).Perm (kp.key :: before.map key) :=
      (hperm.map key).trans (hkey ▸ h.keys.cons _)
    rw [map_append]
    exact hcons.trans (perm_append_singleton _ _).symm
  · rcases mem_cons.mp (hperm.mem_iff.mp hx) with rfl | hx
    · exact hstored
    · exact h.stored x hx

end

theorem packedBytes_cons (kp : Keypair) (rest : List Keypair) :
    packedBytes (kp :: rest) = encode kp ++ packedBytes rest := by
  rw [packedBytes, packedBytes, flatMap_cons, append_assoc]

theorem packedBytes_ne_nil (keypairs : List Keypair) : packedBytes keypairs ≠ [] :=
  append_ne_nil_of_right_ne_nil _ (cons_ne_nil _ _)

theorem unpackLoop_room (hholds : Holds slot rb (packedBytes rest))
    (h : unpackLoop scalarmultBase slot rb keypairs = .ok (some (result, rb'))) :
    keypairs.length < pkrMaxKeypairs := by
  have hwrap : rb.wrap = 0 := by
    obtain ⟨c, more, hmore⟩ := exists_cons_of_ne_nil (packedBytes_ne_nil rest)
    rw [hmore] at hholds
    exact hholds.1
  by_contra hfull
  rw [unpackLoop, dif_neg (not_not.mpr hwrap), if_pos (not_lt.mp hfull)] at h
  cases h

/-- The loop reads all key pairs back if there is room for them and each joins those before it.
Otherwise it reads back less than there were. -/
theorem unpackLoop_spec (h : ReadBack scalarmultBase before keypairs)
    (hrest : ∀ kp ∈ rest, Readable scalarmultBase kp)
    (hdistinct : (before ++ rest).Pairwise fun a b => a.key ≠ b.key)
    (hsize : rb.size < 2 ^ 16) (hholds : Holds slot rb (packedBytes rest)) :
    (before.length + rest.length < pkrMaxKeypairs → JoinAll before rest →
      ∃ result, unpackLoop scalarmultBase slot rb keypairs =
          .ok (some (result, rb.skip (packedBytes rest).length)) ∧
        ReadBack scalarmultBase (before ++ rest) result) ∧
    ∀ result rb', unpackLoop scalarmultBase slot rb keypairs = .ok (some (result, rb')) →
      result.length ≤ before.length + rest.length ∧
        (result.length = before.length + rest.length →
          before.length + rest.length < pkrMaxKeypairs ∧ JoinAll before rest) := by
  have hbefore := h.length
  induction rest generalizing before keypairs rb with
  | nil =>
    rw [append_nil]
    refine ⟨fun hroom _ => ⟨keypairs, ?_, h⟩, fun result rb' hloop => ?_⟩
    · rw [unpackLoop_zero hholds, if_neg (by rw [hbefore]; simpa using hroom)]
      rfl
    · have hroom := unpackLoop_room hholds hloop
      rw [unpackLoop_zero hholds, if_neg (not_le.mpr hroom)] at hloop
      cases hloop
      exact ⟨hbefore.le, fun _ => ⟨hbefore ▸ hroom, trivial⟩⟩
  | cons kp rest ih =>
    by_cases hlength : keypairs.length < pkrMaxKeypairs
    swap
    · refine ⟨fun hroom => absurd hroom (by omega), fun result rb' hloop => ?_⟩
      exact absurd (unpackLoop_room hholds hloop) hlength
    obtain ⟨hkp, hrest'⟩ := forall_mem_cons.mp hrest
    rw [packedBytes_cons] at hholds
    have hholds' := (holds_append.mp hholds).2
    have hsize' := (rb.skip_region (encode kp).length).size.symm ▸ hsize
    obtain ⟨kp', hkey, hstored, hround⟩ := unpackLoop_encode hkp.packable hkp.wellSized hkp.kept
      hkp.type_lt hsize (packedBytes_ne_nil rest) hlength hholds
    obtain ⟨hiff, hadd⟩ := h.add hkey hstored fun x hx =>
      (pairwise_append.mp hdistinct).2.2 x hx kp mem_cons_self
    rw [hround, packedBytes_cons, length_append, Rotbuf.skip_add, length_cons]
    rcases hadded : addLoop kp' none keypairs with e | _ | added <;> rw [hadded] at hiff
    · exact ⟨fun _ hjoin => (nomatch hiff.mp hjoin.1), nofun⟩
    · -- a key pair that was weeded is missing from the result
      refine ⟨fun _ hjoin => (nomatch hiff.mp hjoin.1), fun result rb' hloop => ?_⟩
      obtain ⟨hle, -⟩ := (ih h hrest' (hdistinct.sublist
        ((sublist_cons_self kp rest).append_left before)) hsize' hholds' hbefore).2 _ _ hloop
      exact ⟨by omega, fun hall => by omega⟩
    · have hread := hadd added hadded
      obtain ⟨hall, hless⟩ := ih hread hrest' (by rwa [append_assoc]) hsize' hholds' hread.length
      rw [append_assoc, length_append, length_singleton] at hall
      rw [length_append, length_singleton] at hless
      refine ⟨fun hroom hjoin => hall (by omega) hjoin.2, fun result rb' hloop => ?_⟩
      obtain ⟨hle, hjoin⟩ := hless result rb' hloop
      refine ⟨by omega, fun heq => ?_⟩
      obtain ⟨hroom, hjoin⟩ := hjoin (by omega)
      exact ⟨by omega, hiff.mpr ⟨added, rfl⟩, hjoin⟩

/-- A type is one byte, and an unknown one comes without a public key. -/
theorem unpackLoop_types (hkeypairs : ∀ kp ∈ keypairs, kp.type < 2 ^ 8 ∧ kp.Kept)
    (h : unpackLoop scalarmultBase slot rb keypairs = .ok (some (result, rb'))) :
    ∀ kp ∈ result, kp.type < 2 ^ 8 ∧ kp.Kept := by
  fun_induction unpackLoop scalarmultBase slot rb keypairs with
  | case1 | case3 =>
    cases h
    exact hkeypairs
  | case2 | case4 | case5 | case6 => exact nomatch h
  | case7 rb keypairs _ hroom _ _ kp rb' hunpack added hadd ih =>
    refine ih (fun x hx => ?_) h
    rw [keyringIdentityAddKeypair, if_neg hroom] at hadd
    cases added with
    | none => exact hkeypairs x hx
    | some added =>
      rcases mem_cons.mp ((addLoop_perm hadd).mem_iff.mp hx) with rfl | hx
      · obtain ⟨-, htype, hpub⟩ := unpackKeypair_skip hunpack
        rw [Kept, htype]
        exact ⟨BitVec.isLt _, hpub⟩
      · exact hkeypairs x hx

/-- The slot is unpacked to an identity with the same key pairs in ascending order, and nothing is
read behind the zero that ends them. -/
def RoundTrips (scalarmultBase : List Byte → List Byte) (id : KeyringIdentity) (pin : List Byte)
    (slot : Slot) : Prop :=
  ∃ keypairs rb, keyringUnpackIdentity scalarmultBase slot pin = .ok (some ⟨pin, keypairs⟩) ∧
    unpackLoop scalarmultBase slot (slotBuf (rotationOf slot)) [] = .ok (some (keypairs, rb)) ∧
    (keypairs.map Keypair.key).Perm (id.keypairs.map Keypair.key) ∧
    keypairs.Pairwise (fun a b => a.key < b.key) ∧
    rotbufCount rb = (packedBytes id.keypairs).length

section Packed

variable {sha512 : List Byte → List Byte} {random : SlotRandom} {id : KeyringIdentity}
  {pin : List Byte}

theorem slotBuf_size_lt (rotation : BitVec 16) : (slotBuf rotation).size < 2 ^ 16 := by
  rw [slotBuf_size]
  decide

variable (hsized : ∀ kp ∈ id.keypairs, kp.WellSized scalarmultBase)
  (hdistinct : id.keypairs.Pairwise fun a b => a.key ≠ b.key)
  (hpack : keyringPackIdentity sha512 random id slot = .ok (0, slot'))

include hsized hdistinct hpack

theorem joinAll_of_roundTrips (h : RoundTrips scalarmultBase id pin slot') :
    id.keypairs.length < pkrMaxKeypairs ∧ (∀ kp ∈ id.keypairs, kp.type < 2 ^ 8 ∧ kp.Kept) ∧
      JoinAll [] id.keypairs := by
  obtain ⟨hrotation, hholds, hpackable⟩ := keyringPackIdentity_holds hpack
  obtain ⟨keypairs, rb, -, hloop, hperm, -, -⟩ := h
  rw [hrotation] at hloop
  have htypes : ∀ kp ∈ id.keypairs, kp.type < 2 ^ 8 ∧ kp.Kept := by
    intro kp hkp
    obtain ⟨x, hx, hkey⟩ := exists_same_key hperm.symm kp hkp
    obtain ⟨htype, hpub, -⟩ := key_eq_iff.mp hkey
    rw [Kept, ← htype, ← hpub]
    exact unpackLoop_types (by simp) hloop x hx
  obtain ⟨hroom, hjoin⟩ := ((unpackLoop_spec .nil
    (fun kp hkp => ⟨hpackable kp hkp, hsized kp hkp, (htypes kp hkp).2, (htypes kp hkp).1⟩)
    hdistinct
    (slotBuf_size_lt _) hholds).2 _ _ hloop).2 (by simpa using hperm.length_eq)
  exact ⟨by simpa using hroom, htypes, hjoin⟩

theorem roundTrips_of_joinAll (hroom : id.keypairs.length < pkrMaxKeypairs)
    (htypes : ∀ kp ∈ id.keypairs, kp.type < 2 ^ 8 ∧ kp.Kept)
    (hjoin : JoinAll [] id.keypairs) : RoundTrips scalarmultBase id pin slot' := by
  obtain ⟨hrotation, hholds, hpackable⟩ := keyringPackIdentity_holds hpack
  obtain ⟨result, hloop, hread⟩ := (unpackLoop_spec .nil
    (fun kp hkp => ⟨hpackable kp hkp, hsized kp hkp, (htypes kp hkp).2, (htypes kp hkp).1⟩)
    hdistinct
    (slotBuf_size_lt _) hholds).1 (by simpa using hroom) hjoin
  have hcount : rotbufCount ((slotBuf random.rotation).skip (packedBytes id.keypairs).length) =
      (packedBytes id.keypairs).length := by
    rw [rotbufCount_skip, slotBuf, rotbufCount_init, Nat.zero_add]
  have hwrap : ((slotBuf random.rotation).skip (packedBytes id.keypairs).length).wrap ≤ 1 := by
    rw [← rotbufCount_le_size, rotbufCount_skip, ((slotBuf random.rotation).skip_region _).size]
    exact hholds.count_le (packedBytes_ne_nil _)
  rw [← hrotation] at hloop hcount hwrap
  refine ⟨result, _, ?_, hloop, hread.keys, hread.sorted, hcount⟩
  rw [keyringUnpackIdentity, hloop]
  exact if_neg (not_lt.mpr hwrap)

/-- An identity with well-sized, pairwise distinct key pairs that was packed into a slot is found in
it again exactly if it has less than `PKR_MAX_KEYPAIRS` of them, their types fit in a byte, those of
unknown types have no public key, and each of them joins those before it. -/
theorem keyringUnpackIdentity_pack_iff :
    RoundTrips scalarmultBase id pin slot' ↔
      id.keypairs.length < pkrMaxKeypairs ∧ (∀ kp ∈ id.keypairs, kp.type < 2 ^ 8 ∧ kp.Kept) ∧
        JoinAll [] id.keypairs :=
  ⟨joinAll_of_roundTrips hsized hdistinct hpack, fun ⟨hroom, htypes, hjoin⟩ =>
    roundTrips_of_joinAll hsized hdistinct hpack hroom htypes hjoin⟩

end Packed

section Full

/-- A `CRYPTOBOX` key pair of zeros and `n` key pairs of an unknown type. -/
def zeroIdentity (n : ℕ) : KeyringIdentity where
  pkrPin := []
  keypairs := ⟨keytypeCryptobox, some (List.replicate 32 0#8), some (List.replicate 32 0#8)⟩ ::
    (List.range n).map fun i => ⟨6, some [BitVec.ofNat 8 i], none⟩

variable {n : ℕ}

theorem mem_zeroIdentity :
    kp ∈ (zeroIdentity n).keypairs ↔
      kp = ⟨keytypeCryptobox, some (List.replicate 32 0#8), some (List.replicate 32 0#8)⟩ ∨
        ∃ i < n, kp = ⟨6, some [BitVec.ofNat 8 i], none⟩ := by
  simp [zeroIdentity, eq_comm]

theorem zeroIdentity_wellSized :
    ∀ kp ∈ (zeroIdentity n).keypairs, kp.WellSized fun _ => List.replicate 32 0#8 := by
  intro kp hkp
  rcases mem_zeroIdentity.mp hkp with rfl | ⟨i, -, rfl⟩
  · exact ⟨rfl, rfl, fun _ => rfl⟩
  · trivial

theorem exists_packed {packed : Except Abort (ℤ × Slot)} (h : packed.map Prod.fst = .ok 0) :
    ∃ slot', packed = .ok (0, slot') := by
  cases packed with
  | error e => exact nomatch h
  | ok packed => exact ⟨packed.2, by rw [← Except.ok.inj h]⟩

/-- With two key pairs an identity is found again. -/
theorem keyringUnpackIdentity_pack_two :
    ∃ slot', keyringPackIdentity (fun _ => []) ⟨[], 0x1234#16, fun _ => 0#8⟩ (zeroIdentity 1)
        (fun _ => 0#8) = .ok (0, slot') ∧
      RoundTrips (fun _ => List.replicate 32 0#8) (zeroIdentity 1) [] slot' := by
  obtain ⟨slot', hpack⟩ := exists_packed (show (keyringPackIdentity (fun _ => [])
    ⟨[], 0x1234#16, fun _ => 0#8⟩ (zeroIdentity 1) fun _ => 0#8).map Prod.fst = .ok 0 by
      decide +kernel)
  refine ⟨slot', hpack, (keyringUnpackIdentity_pack_iff zeroIdentity_wellSized
    (by decide +kernel) hpack).mpr
      ⟨by decide, by simp [zeroIdentity, Kept, keytypes, keytypeCryptobox, pub], ?_⟩⟩
  refine ⟨⟨by simp, by simp⟩, ⟨fun x hx htype => ?_, fun p hp x hx hempty => ?_⟩, trivial⟩
  · rw [mem_singleton.mp hx] at htype
    cases htype
  · rw [mem_singleton.mp hp] at hempty
    cases hempty.1

/-- With `PKR_MAX_KEYPAIRS` key pairs it is packed, and lost. -/
theorem keyringUnpackIdentity_pack_max :
    (zeroIdentity 63).keypairs.length = pkrMaxKeypairs ∧
      (∀ kp ∈ (zeroIdentity 63).keypairs, kp.WellSized fun _ => List.replicate 32 0#8) ∧
      (zeroIdentity 63).keypairs.Pairwise (fun a b => a.key ≠ b.key) ∧
      ∃ slot', keyringPackIdentity (fun _ => []) ⟨[], 0x1234#16, fun _ => 0#8⟩ (zeroIdentity 63)
          (fun _ => 0#8) = .ok (0, slot') ∧
        ¬RoundTrips (fun _ => List.replicate 32 0#8) (zeroIdentity 63) [] slot' := by
  have hdistinct : (zeroIdentity 63).keypairs.Pairwise fun a b => a.key ≠ b.key := by
    decide +kernel
  obtain ⟨slot', hpack⟩ := exists_packed (show (keyringPackIdentity (fun _ => [])
    ⟨[], 0x1234#16, fun _ => 0#8⟩ (zeroIdentity 63) fun _ => 0#8).map Prod.fst = .ok 0 by
      decide +kernel)
  refine ⟨rfl, zeroIdentity_wellSized, hdistinct, slot', hpack, fun h => ?_⟩
  exact absurd (joinAll_of_roundTrips zeroIdentity_wellSized hdistinct hpack h).1 (by decide)

end Full

end ServalMesh.Keyring
