import ServalMesh.Overlay.AddressCodec

/-!
# Reading back payload headers

The decoder finds the layout of a header in its flags, reads back its trailer in any
case, and its addresses as far as it can follow.
-/

namespace ServalMesh.Overlay

open Lib List Run

variable {τ : Type} {host : Host τ} {packet : List Byte}

section Flags

variable (f : Outgoing) (e : EncodeContext)

theorem flags_getLsbD {i : ℕ} (hi : i < 8) :
    (f.flags e).getLsbD i =
      ((f.modifiers.testBit i &&
        (decide (i = payloadFlagCiphered) || decide (i = payloadFlagSigned)))
        || (f.willRetransmit && decide (i = payloadFlagAckSoon))
        || (f.oneHop && decide (i = payloadFlagOneHop))
        || (f.senderSame e && decide (i = payloadFlagSenderSame))
        || (f.toBroadcast && decide (i = payloadFlagToBroadcast))
        || (f.legacyType && decide (i = payloadFlagLegacyType))) := by
  simp only [Outgoing.flags, BitVec.getLsbD_or, BitVec.getLsbD_and, flag_getLsbD hi,
    BitVec.getLsbD_ofNat, hi, decide_true, Bool.true_and]

/-- Each flag of the header has its own bit. -/
theorem flags_bits : (f.flags e).getLsbD payloadFlagSenderSame = f.senderSame e ∧
    (f.flags e).getLsbD payloadFlagToBroadcast = f.toBroadcast ∧
    (f.flags e).getLsbD payloadFlagOneHop = f.oneHop ∧
    (f.flags e).getLsbD payloadFlagCiphered = f.modifiers.testBit payloadFlagCiphered ∧
    (f.flags e).getLsbD payloadFlagSigned = f.modifiers.testBit payloadFlagSigned ∧
    (f.flags e).getLsbD payloadFlagLegacyType = f.legacyType := by
  refine ⟨?_, ?_, ?_, ?_, ?_, ?_⟩ <;> rw [flags_getLsbD f e (by decide)] <;>
    simp [payloadFlagSenderSame, payloadFlagCiphered, payloadFlagSigned, payloadFlagAckSoon,
      payloadFlagOneHop, payloadFlagToBroadcast, payloadFlagLegacyType]

end Flags

section Trailer

variable {f : Outgoing} {t : Rx τ} {flags : Byte} {J : τ → Prop}

theorem ttlQueue_toNat (httl : f.ttl ≤ payloadTtlMax) :
    f.ttlQueue.toNat &&& 0x1F = f.ttl ∧ (f.ttlQueue.toNat >>> 5) &&& 3 = f.queue &&& 3 := by
  have hqueue : f.queue &&& 3 < 4 := Nat.and_lt_two_pow _ (by decide : 3 < 2 ^ 2)
  have hall : ∀ ttl < 32, ∀ queue < 4,
      (BitVec.ofNat 8 (ttl ||| queue <<< 5)).toNat &&& 0x1F = ttl ∧
        ((BitVec.ofNat 8 (ttl ||| queue <<< 5)).toNat >>> 5) &&& 3 = queue := by
    decide
  exact hall f.ttl (by simp only [payloadTtlMax] at httl; omega) (f.queue &&& 3) hqueue

/-- The fields of the frame that the trailer of a header determines. -/
def Outgoing.received (f : Outgoing) (flags : Byte) (packetVersion : ℕ) (frame : Frame) : Frame :=
  { frame with
    ttl := if f.oneHop then 0 else f.ttl - 1
    queue := if f.oneHop then frame.queue else f.queue &&& 3
    type := f.type % 256
    modifiers := flags
    packetVersion := packetVersion }

theorem parseTtl_run (httl : f.ttl ≤ payloadTtlMax)
    (hflag : flags.getLsbD payloadFlagOneHop = f.oneHop)
    (hahead : Ahead packet t.position (if f.oneHop then [] else [f.ttlQueue])) :
    (parseTtl packet flags).run t =
      (.ok (some (!f.oneHop && decide (f.ttl - 1 ≠ 0))),
        { t with
          position := t.position + (if f.oneHop then [] else [f.ttlQueue]).length
          frame := { t.frame with
            ttl := if f.oneHop then 0 else f.ttl - 1
            queue := if f.oneHop then t.frame.queue else f.queue &&& 3 } }) := by
  unfold parseTtl
  rw [hflag]
  cases hop : f.oneHop with
  | true => rfl
  | false =>
    simp only [hop, Bool.false_eq_true, if_false] at hahead ⊢
    rw [run_bind_ok (obGet_ahead hahead)]
    obtain ⟨hnat, hqueue⟩ := ttlQueue_toNat httl
    simp only [hnat, hqueue, run_modify_bind, run_pure, Bool.not_false, Bool.true_and,
      length_singleton]

theorem parseType_run (hflag : flags.getLsbD payloadFlagLegacyType = f.legacyType)
    (hahead : Ahead packet t.position (if f.legacyType then [BitVec.ofNat 8 f.type] else [])) :
    (parseType packet flags).run t =
      (.ok (some (f.type % 256)),
        { t with
          position :=
            t.position + (if f.legacyType then [BitVec.ofNat 8 f.type] else []).length }) := by
  unfold parseType
  rw [hflag]
  cases hlegacy : f.legacyType with
  | true =>
    simp only [hlegacy, if_true] at hahead ⊢
    rw [run_bind_ok (obGet_ahead hahead)]
    simp
  | false =>
    have htype : f.type = ofTypeData := by simpa [Outgoing.legacyType] using hlegacy
    simp [htype, ofTypeData]

theorem parseSequence_run (hJ : host.Keeps J) (hd : J t.daemon)
    (hahead : Ahead packet t.position
      (if 1 ≤ t.context.packetVersion then [BitVec.ofNat 8 f.sequence] else [])) :
    ∃ new d, J d ∧ (parseSequence host packet).run t =
      (.ok (some
          (if 1 ≤ t.context.packetVersion then some (BitVec.ofNat 8 f.sequence) else none, new)),
        { t with
          daemon := d
          position := t.position +
            (if 1 ≤ t.context.packetVersion then [BitVec.ofNat 8 f.sequence]
              else []).length }) := by
  unfold parseSequence
  by_cases hversion : 1 ≤ t.context.packetVersion
  · simp only [hversion, if_true] at hahead ⊢
    simp only [run_get_bind, hversion, if_true]
    rw [run_bind_ok (obGet_ahead hahead)]
    exact ⟨_, _, hJ.linkReceivedDuplicate _ _ _ hd, rfl⟩
  · simp only [run_get_bind, hversion, if_false]
    exact ⟨_, _, hd, rfl⟩

/-- The trailer of a header is read back whatever the addresses were. -/
theorem parseTrailer_run (hJ : host.Keeps J) (hd : J t.daemon) (httl : f.ttl ≤ payloadTtlMax)
    (hhop : flags.getLsbD payloadFlagOneHop = f.oneHop)
    (hlegacy : flags.getLsbD payloadFlagLegacyType = f.legacyType)
    (hahead : Ahead packet t.position (wire (trailer t.context.packetVersion f)))
    (verdict : Verdict) (nexthop : Option Sid) :
    ∃ new d, J d ∧ (parseTrailer host packet flags verdict nexthop).run t =
      (.ok (some ⟨verdict.and ⟨new && !t.context.invalidAddresses,
          !f.oneHop && decide (f.ttl - 1 ≠ 0) && (new && !t.context.invalidAddresses)⟩, nexthop,
          if 1 ≤ t.context.packetVersion then some (BitVec.ofNat 8 f.sequence) else none⟩),
        { t with
          daemon := d
          position := t.position + (wire (trailer t.context.packetVersion f)).length
          frame := f.received flags t.context.packetVersion t.frame }) := by
  have hbytes : (wire (trailer t.context.packetVersion f)) =
      (if f.oneHop then [] else [f.ttlQueue]) ++
        ((if f.legacyType then [BitVec.ofNat 8 f.type] else []) ++
          if 1 ≤ t.context.packetVersion then [BitVec.ofNat 8 f.sequence] else []) := by
    unfold trailer
    cases f.oneHop <;> cases f.legacyType <;> by_cases h : 1 ≤ t.context.packetVersion <;> simp [h]
  rw [hbytes] at hahead ⊢
  obtain ⟨hahead₁, hrest⟩ := ahead_append.mp hahead
  obtain ⟨hahead₂, hahead₃⟩ := ahead_append.mp hrest
  obtain ⟨new, d, hd', hrun⟩ := parseSequence_run (t := { t with
    position := t.position + (if f.oneHop then [] else [f.ttlQueue]).length +
      (if f.legacyType then [BitVec.ofNat 8 f.type] else []).length
    frame := { t.frame with
      ttl := if f.oneHop then 0 else f.ttl - 1
      queue := if f.oneHop then t.frame.queue else f.queue &&& 3
      type := f.type % 256 } }) hJ hd hahead₃
  refine ⟨new, d, hd', Eq.trans (run_bind_ok (parseTtl_run httl hhop hahead₁))
    (Eq.trans (run_bind_ok (parseType_run hlegacy hahead₂))
      (Eq.trans (run_modify_bind ..) (Eq.trans (run_bind_ok hrun) ?_)))⟩
  simp only [run_modify_bind, run_get_bind, run_pure, Outgoing.received,
    length_append, add_assoc]

end Trailer

/-- The first address that the header has. -/
def Outgoing.firstAddress (f : Outgoing) (e : EncodeContext) : Option Sid :=
  if f.senderSame e then f.destination else some f.source

/-- The next hop as far as the header has one. -/
def Outgoing.writtenNextHop (f : Outgoing) : Option Sid :=
  if f.destination = none ∨ f.oneHop then none else f.nextHop

/-- The broadcast id that the receiver ends up with. -/
def Outgoing.writtenBroadcast (f : Outgoing) (id : List Byte) : List Byte :=
  if f.destination = none ∧ f.oneHop = false then (f.broadcast.map Broadcast.id).getD id else id

section Encoding

variable {e e' : EncodeContext} {f : Outgoing} {s : Sid} {items items' : List Item}
  {P : Sid → AddressCode → Prop}

/-- This holds for each address of these items and its code. -/
def EachAddress (P : Sid → AddressCode → Prop) (items : List Item) : Prop :=
  ∀ x code, .address x code ∈ items → P x code

theorem eachAddress_append (h : EachAddress P items) (h' : EachAddress P items') :
    EachAddress P (items ++ items') :=
  fun x code hx => (mem_append.mp hx).elim (h x code) (h' x code)

theorem eachAddress_nil : EachAddress P [] := by
  intro x code hx
  cases hx

theorem eachAddress_bytes {data : List Byte} : EachAddress P [.bytes data] := by
  intro x code hx
  cases mem_singleton.mp hx

theorem eachAddress_one (h : P s (e.addressCode s)) :
    EachAddress P (overlayAddressAppend e s).1 := by
  intro x code hx
  cases mem_singleton.mp hx
  exact h

theorem eachAddress_trailer (packetVersion : ℕ) : EachAddress P (trailer packetVersion f) := by
  refine eachAddress_append (eachAddress_append ?_ ?_) ?_ <;> split
  exacts [eachAddress_nil, eachAddress_bytes, eachAddress_bytes, eachAddress_nil, eachAddress_bytes,
    eachAddress_nil]

/-- What appending addresses leaves as it is. -/
structure EncodeContext.Extends (e e' : EncodeContext) : Prop where
  mySubscriber_eq : e'.mySubscriber = e.mySubscriber
  peer_eq : e'.pointToPointDevice = e.pointToPointDevice
  sender_eq : e'.sender = e.sender
  header_eq : e'.encodingHeader = e.encodingHeader
  abbreviateLen_eq : e'.abbreviateLen = e.abbreviateLen

theorem EncodeContext.Extends.refl (e : EncodeContext) : e.Extends e :=
  ⟨rfl, rfl, rfl, rfl, rfl⟩

theorem EncodeContext.Extends.trans {e'' : EncodeContext} (h : e.Extends e') (h' : e'.Extends e'') :
    e.Extends e'' :=
  ⟨h'.1.trans h.1, h'.2.trans h.2, h'.3.trans h.3, h'.4.trans h.4, h'.5.trans h.5⟩

open EncodeContext

theorem afterAddress_extends (e : EncodeContext) (s : Sid) : e.Extends (e.afterAddress s) := by
  unfold afterAddress
  split <;> exact ⟨rfl, rfl, rfl, rfl, rfl⟩

theorem afterAddress_previous (e : EncodeContext) (s : Sid) :
    (e.afterAddress s).previous = some s := by
  unfold afterAddress
  split <;> rfl

theorem mem_overlayAddressAppend {len : ℕ} (h : e.addressCode s = .explicit len) :
    .address s (.explicit len) ∈ (overlayAddressAppend e s).1 := by
  rw [overlayAddressAppend, h]
  exact mem_singleton_self _

/-- The addresses of the header. -/
def Outgoing.Mentions (f : Outgoing) (s : Sid) : Prop :=
  s = f.source ∨ f.destination = some s ∨ f.nextHop = some s

/-- What a context like `e` writes are addresses of the header. -/
def Outgoing.Writes (f : Outgoing) (e : EncodeContext) : List Item → Prop :=
  EachAddress fun x code => f.Mentions x ∧ ∃ e₁, e.Extends e₁ ∧ e₁.addressCode x = code

theorem Matching.means {lossy wrong : Prop} {c : DecodeContext}
    (h : Matching lossy wrong host e c) (he : e.Extends e') (x : Sid) :
    Means lossy wrong host c x (e'.addressCode x) := by
  have hx := addressCode_cases e' x
  cases hcode : e'.addressCode x with
  | p2pYou =>
    rw [hcode] at hx
    refine means_of_referent ((h.peer x (he.peer_eq ▸ hx)).imp ?_ ?_)
    · rintro ⟨rfl, hpeer⟩
      rw [DecodeContext.referent, hpeer, Option.map_some]
    · rintro ⟨hlossy, hc⟩
      refine ⟨hlossy, hc.imp_left fun hc => ?_⟩
      rw [DecodeContext.referent, hc, Option.map_none]
  | p2pMe =>
    rw [hcode] at hx
    obtain ⟨rfl, hsome⟩ := hx
    obtain ⟨device, hdevice⟩ := Option.isSome_iff_exists.mp hsome
    refine means_of_referent ((h.peer device (he.peer_eq ▸ hdevice)).imp ?_ ?_)
    · rintro ⟨-, hpeer⟩
      rw [DecodeContext.referent, hpeer, he.mySubscriber_eq]
    · rintro ⟨hlossy, hc⟩
      exact ⟨hlossy, hc.imp_left (congrArg some)⟩
  | self =>
    rw [hcode] at hx
    exact h.means_self (he.sender_eq ▸ hx)
  | previous | explicit =>
    constructor
    · simp [DecodeContext.referent]
    · simp [DecodeContext.Reads, DecodeContext.referent]

theorem foldl_afterAddress_eq (addresses : List Sid) (e : EncodeContext) :
    addresses.foldl afterAddress e = { e with
      previous := (addresses.foldl afterAddress e).previous
      sendFull := (addresses.foldl afterAddress e).sendFull } := by
  induction addresses generalizing e with
  | nil => rfl
  | cons s rest ih =>
    rw [foldl_cons, ih]
    unfold afterAddress
    split <;> rfl

theorem foldl_afterAddress_extends (addresses : List Sid) (e : EncodeContext) :
    e.Extends (addresses.foldl afterAddress e) := by
  rw [foldl_afterAddress_eq]
  exact ⟨rfl, rfl, rfl, rfl, rfl⟩

theorem appendSource_context (h : appendSource e f = .ok (items, e')) :
    e' = (if f.senderSame e then [] else [f.source]).foldl afterAddress e := by
  unfold appendSource at h
  split at h
  case isTrue hsame =>
    cases h
    rw [if_pos hsame]
    rfl
  case isFalse hother =>
    cases h
    rw [if_neg hother]
    rfl

theorem appendSource_extends (h : appendSource e f = .ok (items, e')) : e.Extends e' := by
  rw [appendSource_context h]
  exact foldl_afterAddress_extends _ e

theorem appendSource_writes (h : appendSource e f = .ok (items, e')) : f.Writes e items := by
  unfold appendSource at h
  split at h
  · cases h
    exact eachAddress_nil
  · cases h
    exact eachAddress_one ⟨.inl rfl, e, .refl e, rfl⟩

theorem appendDestination_writes {e₁ : EncodeContext} (he : e.Extends e₁)
    (h : appendDestination e₁ f = .ok (items, e')) : f.Writes e items := by
  unfold appendDestination at h
  rcases hd : f.destination with _ | d
  · simp only [hd] at h
    split at h
    · cases h
      exact eachAddress_nil
    · split at h
      · cases h
      · cases h
        exact eachAddress_bytes
  · simp only [hd] at h
    split at h
    · cases h
      exact eachAddress_one ⟨.inr (.inl hd), e₁, he, rfl⟩
    · rcases hn : f.nextHop with _ | n
      · rw [hn] at h
        cases h
      · rw [hn] at h
        cases h
        exact eachAddress_append (eachAddress_one ⟨.inr (.inl hd), e₁, he, rfl⟩)
          (eachAddress_one ⟨.inr (.inr hn), _, he.trans (afterAddress_extends e₁ d), rfl⟩)

theorem appendDestination_context (h : appendDestination e f = .ok (items, e')) :
    e' = (f.destination.toList ++ f.writtenNextHop.toList).foldl EncodeContext.afterAddress e := by
  unfold appendDestination at h
  unfold Outgoing.writtenNextHop
  rcases hd : f.destination with _ | d
  · simp only [hd] at h
    split at h
    · cases h
      rfl
    · split at h
      · cases h
      · cases h
        rfl
  · simp only [hd] at h
    split at h
    case isTrue hop =>
      cases h
      rw [if_pos (.inr hop)]
      rfl
    case isFalse hop =>
      rcases hn : f.nextHop with _ | n
      · rw [hn] at h
        cases h
      · rw [hn] at h
        cases h
        rw [if_neg (not_or_intro (nomatch ·) hop)]
        rfl

end Encoding

section Headers

variable {lossy bad : Prop} {right : List Lookup → Prop} {J : τ → Prop} {e e' : EncodeContext}
  {f : Outgoing} {seen : List Lookup} {s : Rx τ} {position : ℕ} {frame : Frame} {items : List Item}
  {flags : Byte} {previous : Option Sid} {t : Rx τ}

/-- The flag for the sender stands for the same subscriber at the decoder, or for nobody. -/
def SenderReads (host : Host τ) (c : DecodeContext) (e : EncodeContext) (f : Outgoing) : Prop :=
  f.senderSame e = true → c.Reads host f.source .self

/-- The decoder can follow the header that is written next. -/
def FollowsHeader (lossy : Prop) (e : EncodeContext) (f : Outgoing) (c : DecodeContext) : Prop :=
  ∀ x, f.firstAddress e = some x → Follows lossy e x c

theorem follows_afterAddress {x y : Sid} {c : DecodeContext} (hvalid : c.invalidAddresses = false)
    (hprevious : c.previous = some x) : Follows lossy (e.afterAddress x) y c :=
  ⟨hvalid, .inl (hprevious.trans (afterAddress_previous e x).symm)⟩

theorem Reading.setFrame (h : Reading J bad seen s position frame t) (g : Frame → Frame) :
    Reading J bad seen s position (g frame) { t with frame := g t.frame } :=
  { h with frame_eq := by rw [h.2] }

theorem parseBroadcast_reading (hJ : host.Keeps J) (hnone : f.destination = none)
    (happend : appendDestination e f = .ok (items, e'))
    (hflag : flags.getLsbD payloadFlagOneHop = f.oneHop)
    (hahead : Ahead packet position (wire items)) (inv : List Lookup → DecodeContext → Prop) :
    Triple (fun t => Reading J bad seen s position frame t ∧ inv t.lookups t.context)
      (parseBroadcast host packet flags)
      (fun verdict t => verdict.isSome ∧
        Reading J bad seen s (position + (wire items).length)
          { frame with
            broadcastId := f.writtenBroadcast frame.broadcastId
            destination := none } t ∧ inv t.lookups t.context)
      (Lost lossy seen s) := by
  rintro t ⟨ht, hinv⟩
  unfold parseBroadcast
  unfold appendDestination at happend
  simp only [hnone] at happend
  rw [hflag]
  rcases hop : f.oneHop with _ | _ <;> rw [hop] at happend
  · rcases hb : f.broadcast with _ | broadcast
    · rw [hb] at happend
      cases happend
    rw [hb] at happend
    cases happend
    have hid : f.writtenBroadcast frame.broadcastId = broadcast.id := by
      simp [Outgoing.writtenBroadcast, hop, hnone, hb]
    rw [wire_bytes, wire_nil, append_nil] at hahead ⊢
    have hread := obGetBytes_ahead (ht.ahead hahead) (by
      intro hnil
      have := broadcast.size
      rw [hnil] at this
      cases this)
    rw [broadcast.size] at hread
    simp only [Bool.false_eq_true, if_false]
    rw [run_bind_ok hread, hid, broadcast.size]
    refine ⟨rfl, { ht with
      position_eq := ?_, frame_eq := ?_, daemon := hJ.broadcastDropCheck _ _ ht.3 }, hinv⟩
    · rw [ht.1]
    · rw [ht.2]
  · cases happend
    have hid : f.writtenBroadcast frame.broadcastId = frame.broadcastId := by
      simp [Outgoing.writtenBroadcast, hop]
    rw [hid]
    exact ⟨rfl, ht.setFrame fun frame => { frame with destination := none }, hinv⟩

theorem Reading.mark (h : Reading J bad seen s position frame t)
    (hinvalid : t.context.invalidAddresses = true) : Reading J True seen s position frame t :=
  { h with marked := fun _ => hinvalid }

theorem Reading.unmark (h : Reading J True seen s position frame t) :
    Reading J bad seen s position frame t :=
  { h with marked := fun _ => h.marked trivial }

theorem Lost.since {seen' : List Lookup} {abort : Abort} (hseen : seen' ⊆ seen)
    (h : Lost lossy seen s abort t) : Lost lossy seen' s abort t :=
  ⟨h.1, h.2.1, List.Subset.trans hseen h.2.2⟩

/-- The next hop, after the destination has been read. -/
theorem parseNexthop_reading {d n : Sid} {current destination : Option Sid}
    (hdown : Hereditary right) (hJ : host.Keeps J)
    (hnames : ∀ len, (e.afterAddress d).addressCode n = .explicit len →
      Names lossy right host J n len)
    (hmeans : Means lossy (¬ right seen) host s.context n ((e.afterAddress d).addressCode n))
    (hahead : Ahead packet position (wire (overlayAddressAppend (e.afterAddress d) n).1)) :
    Triple (fun t => Reading J bad seen s position frame t ∧
        (right t.lookups → Understood lossy d current destination t.context))
      (overlayAddressParse host packet none)
      (fun read t => ∃ nexthop, read = some nexthop ∧
        Reading J bad seen s
          (position + (wire (overlayAddressAppend (e.afterAddress d) n).1).length) frame t ∧
        (nexthop = some n → s.context.Reads host n ((e.afterAddress d).addressCode n)) ∧
        (right t.lookups → lossy ∧ t.context.invalidAddresses = true ∨
          t.context.invalidAddresses = false ∧ destination = some d ∧ nexthop = some n))
      (Lost lossy seen s) := by
  rintro t ⟨ht, hunderstood⟩
  have hreads : Triple (Reading J bad seen s position frame) (overlayAddressParse host packet none)
      (fun read _ => read = some (some n) →
        s.context.Reads host n ((e.afterAddress d).addressCode n)) fun _ _ => True :=
    overlayAddressParse_reads hahead none
  by_cases hlost : lossy ∧ t.context.invalidAddresses = true
  · -- the destination was not known, so whatever is read now does not matter
    have hread : ReadsBack lossy (fun _ => False) True J host packet seen s position
        (e.afterAddress d) n _ :=
      readsBack_append (fun _ _ _ h => h) hJ
        (fun len hlen => (hnames len hlen).mono fun _ => False.elim)
        (hmeans.mono fun _ h => h) hahead
    refine (((hread frame none).and hreads).weaken (fun _ h => h) ?_) t
      ⟨⟨ht.mark hlost.2, False.elim⟩, ht⟩
    rintro read u ⟨⟨hu, nexthop, rfl, -⟩, hreads⟩
    exact ⟨nexthop, rfl, hu.unmark, fun h => hreads (congrArg some h),
      fun _ => .inl ⟨hlost.1, hu.marked trivial⟩⟩
  · have hread : ReadsBack lossy right bad J host packet t.lookups s position
        (e.afterAddress d) n _ :=
      readsBack_append hdown hJ hnames
        (hmeans.mono fun h hright => h (hdown ht.seen_subset hright)) hahead
    have hknown : right t.lookups → t.context.invalidAddresses = false ∧ destination = some d ∧
        t.context.previous = some d := by
      intro h
      rcases hunderstood h with ⟨hlossy, hinvalid, -⟩ | hknown
      · exact absurd ⟨hlossy, hinvalid⟩ hlost
      · exact hknown
    refine ((((hread frame none).weaken_abort fun _ _ =>
      Lost.since ht.seen_subset).and hreads).weaken
      (fun _ h => h) ?_) t
      ⟨⟨ht.catchUp, fun h => follows_afterAddress (hknown h).1 (hknown h).2.2⟩, ht⟩
    rintro read u ⟨⟨hu, nexthop, rfl, hnext⟩, hreads⟩
    refine ⟨nexthop, rfl, hu.since ht.seen_subset, fun h => hreads (congrArg some h), fun h => ?_⟩
    rcases hnext h with ⟨hlossy, hinvalid, -⟩ | ⟨hvalid, hn, -⟩
    · exact .inl ⟨hlossy, hinvalid⟩
    · exact .inr ⟨hvalid, (hknown (hdown hu.seen_subset h)).2.1, hn⟩

/-- The parts of a header that could be built. -/
theorem overlayFrameBuildHeader_parts {packetVersion : ℕ}
    (h : overlayFrameBuildHeader packetVersion e f = .ok (some items, e')) :
    ∃ source destination e₁, f.ttl ≤ payloadTtlMax ∧ appendSource e f = .ok (source, e₁) ∧
      appendDestination e₁ f = .ok (destination, e') ∧
      items = [.bytes [f.flags e]] ++ source ++ destination ++ trailer packetVersion f := by
  unfold overlayFrameBuildHeader at h
  split at h
  · cases h
  rename_i httl
  obtain ⟨⟨source, e₁⟩, hsource, h⟩ := ok_of_bind h
  obtain ⟨⟨destination, e₂⟩, hdestination, h⟩ := ok_of_bind h
  cases h
  exact ⟨source, destination, e₁, by omega, hsource, hdestination, rfl⟩

theorem overlayFrameBuildHeader_writes {packetVersion : ℕ}
    (h : overlayFrameBuildHeader packetVersion e f = .ok (some items, e')) : f.Writes e items := by
  obtain ⟨source, destination, e₁, -, hsource, hdestination, rfl⟩ := overlayFrameBuildHeader_parts h
  exact eachAddress_append (eachAddress_append (eachAddress_append eachAddress_bytes
    (appendSource_writes hsource))
    (appendDestination_writes (appendSource_extends hsource) hdestination))
    (eachAddress_trailer packetVersion)

/-- What parsing the header of `f`, written in the context `e`, finds out. -/
structure HeaderRead (lossy : Prop) (right : List Lookup → Prop) (e : EncodeContext) (f : Outgoing)
    (packetVersion : ℕ) (frame : Frame) (header : Header) (t : Rx τ) : Prop where
  sequence : header.sequence =
    if 1 ≤ packetVersion then some (BitVec.ofNat 8 f.sequence) else none
  oneHop : f.oneHop = true → header.verdict.forward = false
  valid : header.verdict.process = true ∨ header.verdict.forward = true →
    t.context.invalidAddresses = false
  trailer : t.frame.ttl = (if f.oneHop then 0 else f.ttl - 1) ∧
    t.frame.queue = (if f.oneHop then frame.queue else f.queue &&& 3) ∧
    t.frame.type = f.type % 256 ∧ t.frame.modifiers = f.flags e
  addresses : right t.lookups → lossy ∧ t.context.invalidAddresses = true ∨
    t.context.invalidAddresses = false ∧ t.frame.source = some f.source ∧
      t.frame.destination = f.destination ∧ header.nexthop = f.writtenNextHop ∧
      t.frame.broadcastId = f.writtenBroadcast frame.broadcastId

section

variable (hdown : Hereditary right) (hJ : host.Keeps J)
  (hnames : ∀ x len, .address x (.explicit len) ∈ items → Names lossy right host J x len)
  (hmeans : ∀ x code, .address x code ∈ items → Means lossy (¬ right seen) host s.context x code)
  {packetVersion : ℕ}

include hdown hJ hnames hmeans

theorem parseSource_reading (happend : appendSource e f = .ok (items, e'))
    (hself : f.senderSame e = true → Means lossy (¬ right seen) host s.context f.source .self)
    (hflag : flags.getLsbD payloadFlagSenderSame = f.senderSame e)
    (hahead : Ahead packet position (wire items)) :
    Triple (fun t => Reading J bad seen s position frame t ∧ t.context.previous = previous ∧
        t.context.invalidAddresses = false ∧ (right t.lookups → FollowsHeader lossy e f t.context))
      (parseSource host packet flags)
      (fun verdict t => verdict.isSome ∧ ∃ source,
        Reading J bad seen s (position + (wire items).length) { frame with source := source } t ∧
        (f.senderSame e = true ∧ e' = e ∧ t.context.previous = previous ∨
          f.senderSame e = false ∧ Taken e f.source previous source) ∧
        (source = some f.source → EachAddress (s.context.Reads host) items ∧
          SenderReads host s.context e f) ∧
        (right t.lookups → lossy ∧ t.context.invalidAddresses = true ∨
          t.context.invalidAddresses = false ∧ source = some f.source ∧
            ∀ d, f.destination = some d → Follows lossy e' d t.context))
      (Lost lossy seen s) := by
  rintro t ⟨ht, hprevious, hvalid, hfollows⟩
  unfold parseSource
  unfold appendSource at happend
  rw [hflag]
  rcases hsame : f.senderSame e with _ | _ <;> rw [hsame] at happend
  · cases happend
    simp only [run_get_bind, Bool.false_eq_true, if_false]
    have hread : ReadsBack lossy right bad J host packet seen s position e f.source _ :=
      readsBack_append hdown hJ (fun len hlen => hnames _ _ (mem_overlayAddressAppend hlen))
        (hmeans _ _ (mem_singleton_self _)) hahead
    refine (Triple.bind (((hread frame _).and (overlayAddressParse_taken hahead _ previous)).and
      (overlayAddressParse_reads hahead _)) fun read => ?_) t
      ⟨⟨⟨ht, fun h => hfollows h f.source (by
        rw [Outgoing.firstAddress, hsame]; rfl)⟩, ht.position_eq, hprevious⟩, ht⟩
    rintro u ⟨⟨⟨hu, source, rfl, hunderstood⟩, htaken⟩, hreads⟩
    refine ⟨rfl, source, hu.setFrame fun frame => { frame with source := source },
      .inr ⟨trivial, htaken source rfl⟩, fun h => ⟨eachAddress_one (hreads (congrArg some h)), ?_⟩,
      fun h => ?_⟩
    · intro h
      cases hsame.symm.trans h
    rcases hunderstood h with ⟨hlossy, hinvalid, -⟩ | ⟨hval, rfl, hprevious⟩
    · exact .inl ⟨hlossy, hinvalid⟩
    · exact .inr ⟨hval, rfl, fun d _ => follows_afterAddress hval hprevious⟩
  · cases happend
    simp only [run_get_bind, if_true, run_modify_bind, run_pure]
    refine ⟨rfl, s.context.sender, { ht with frame_eq := ?_, marked := ?_ },
      .inl ⟨trivial, trivial, hprevious⟩, fun h => ⟨eachAddress_nil, fun _ y hy => ?_⟩, fun h => ?_⟩
    · rw [ht.frame_eq, ht.sender_eq]
    · intro hbad
      rw [ht.marked hbad]
      rfl
    · cases h.symm.trans (Option.some.inj hy)
      rfl
    rcases hc : s.context.sender with _ | y
    · refine .inl ⟨(hself hsame).known (congrArg some hc), ?_⟩
      rw [ht.sender_eq, hc]
      simp
    obtain rfl := (hself hsame).reads (ht.not_wrong hdown h) y (congrArg some hc)
    refine .inr ⟨?_, rfl, fun d hd => ?_⟩
    · rw [hvalid, ht.sender_eq, hc]
      rfl
    · have := hfollows h d (by rw [Outgoing.firstAddress, hsame, if_pos rfl, hd])
      simpa [Follows, hvalid, ht.sender_eq, hc] using this

section

variable (happend : appendDestination e f = .ok (items, e'))
  (hflag : flags.getLsbD payloadFlagOneHop = f.oneHop) (hahead : Ahead packet position (wire items))
include happend hflag hahead

theorem parseDestination_reading {d : Sid} (hd : f.destination = some d) :
    Triple (fun t => Reading J bad seen s position frame t ∧ t.context.previous = previous ∧
        (right t.lookups → Follows lossy e d t.context))
      (parseDestination host packet flags)
      (fun result t => ∃ verdict nexthop destination, result = some (verdict, nexthop) ∧
        Reading J bad seen s (position + (wire items).length)
          { frame with destination := destination } t ∧ Taken e d previous destination ∧
        (destination = f.destination → nexthop = f.writtenNextHop →
          EachAddress (s.context.Reads host) items) ∧
        (right t.lookups → lossy ∧ t.context.invalidAddresses = true ∨
          t.context.invalidAddresses = false ∧ destination = f.destination ∧
            nexthop = f.writtenNextHop))
      (Lost lossy seen s) := by
  rintro t ⟨ht, hprevious, hfollows⟩
  unfold appendDestination at happend
  simp only [hd] at happend
  rcases hop : f.oneHop with _ | _ <;> rw [hop] at happend
  · rcases hn : f.nextHop with _ | n
    · rw [hn] at happend
      cases happend
    rw [hn] at happend
    cases happend
    rw [wire_append] at hahead ⊢
    obtain ⟨hahead₁, hahead₂⟩ := ahead_append.mp hahead
    have hread : ReadsBack lossy right bad J host packet seen s position e d _ :=
      readsBack_append hdown hJ (fun len hlen =>
        hnames _ _ (mem_append_left _ (mem_overlayAddressAppend hlen)))
        (hmeans _ _ (mem_append_left _ (mem_singleton_self _))) hahead₁
    refine (Triple.bind (((hread frame _).and (overlayAddressParse_taken hahead₁ _ previous)).and
      (overlayAddressParse_reads hahead₁ _)) fun read => ?_) t
      ⟨⟨⟨ht, hfollows⟩, ht.position_eq, hprevious⟩, ht⟩
    rintro u ⟨⟨⟨hu, destination, rfl, hunderstood⟩, htaken⟩, hreads⟩
    simp only [run_modify_bind, run_get_bind, hflag, hop, Bool.false_eq_true, if_false]
    refine (Triple.bind (parseNexthop_reading hdown hJ
      (fun len hlen => hnames _ _ (mem_append_right _ (mem_overlayAddressAppend hlen)))
      (hmeans _ _ (mem_append_right _ (mem_singleton_self _))) hahead₂) fun read => ?_) _
      ⟨hu.setFrame fun frame => { frame with destination := destination }, hunderstood⟩
    rintro v ⟨nexthop, rfl, hv, hreads', hnext⟩
    refine ⟨_, nexthop, destination, rfl, ?_, htaken _ rfl, fun hdest hhop => ?_, fun h => ?_⟩
    · rwa [length_append, ← add_assoc]
    · refine eachAddress_append (eachAddress_one (hreads (congrArg some (hdest.trans hd))))
        (eachAddress_one (hreads' (hhop.trans ?_)))
      simp [Outgoing.writtenNextHop, hop, hd, hn]
    · rcases hnext h with hlost | ⟨hvalid, hdest, hnexthop⟩
      · exact .inl hlost
      · refine .inr ⟨hvalid, hdest.trans hd.symm, ?_⟩
        simpa [Outgoing.writtenNextHop, hop, hd, hn] using hnexthop
  · cases happend
    have hread : ReadsBack lossy right bad J host packet seen s position e d _ :=
      readsBack_append hdown hJ (fun len hlen => hnames _ _ (mem_overlayAddressAppend hlen))
        (hmeans _ _ (mem_singleton_self _)) hahead
    refine (Triple.bind (((hread frame _).and (overlayAddressParse_taken hahead _ previous)).and
      (overlayAddressParse_reads hahead _)) fun read => ?_) t
      ⟨⟨⟨ht, hfollows⟩, ht.position_eq, hprevious⟩, ht⟩
    rintro u ⟨⟨⟨hu, destination, rfl, hunderstood⟩, htaken⟩, hreads⟩
    simp only [run_modify_bind, run_get_bind, hflag, hop, if_true, run_pure]
    refine ⟨_, none, destination, rfl,
      hu.setFrame fun frame => { frame with destination := destination }, htaken _ rfl,
      fun hdest _ => eachAddress_one (hreads (congrArg some (hdest.trans hd))), fun h => ?_⟩
    rcases hunderstood h with ⟨hlossy, hinvalid, -⟩ | ⟨hvalid, rfl, -⟩
    · exact .inl ⟨hlossy, hinvalid⟩
    · exact .inr ⟨hvalid, hd.symm, by simp [Outgoing.writtenNextHop, hop]⟩

theorem parseTarget_reading (hbroadcast : flags.getLsbD payloadFlagToBroadcast = f.toBroadcast) :
    Triple (fun t => Reading J bad seen s position frame t ∧ t.context.previous = previous ∧
        (right t.lookups → t.context.invalidAddresses = false ∧
          ∀ d, f.destination = some d → Follows lossy e d t.context))
      (parseTarget host packet flags)
      (fun result t => ∃ verdict nexthop destination broadcastId,
        result = some (verdict, nexthop) ∧
        Reading J bad seen s (position + (wire items).length)
          { frame with
            broadcastId := broadcastId
            destination := destination } t ∧
        (∀ d, f.destination = some d → Taken e d previous destination) ∧
        (destination = f.destination → nexthop = f.writtenNextHop →
          EachAddress (s.context.Reads host) items) ∧
        (right t.lookups → lossy ∧ t.context.invalidAddresses = true ∨
          t.context.invalidAddresses = false ∧ destination = f.destination ∧
            nexthop = f.writtenNextHop ∧ broadcastId = f.writtenBroadcast frame.broadcastId))
      (Lost lossy seen s) := by
  unfold parseTarget
  rw [hbroadcast]
  rcases hd : f.destination with _ | d
  · have hto : f.toBroadcast = true := by simp [Outgoing.toBroadcast, hd]
    rw [hto, if_pos rfl]
    refine Triple.bind (Triple.weaken (parseBroadcast_reading hJ hd happend hflag hahead
      fun l c => right l → c.invalidAddresses = false) (fun t ht => ⟨ht.1, fun h => (ht.2.2 h).1⟩)
      fun _ _ h => h) fun verdict => ?_
    rintro t ⟨hsome, ht, hvalid⟩
    obtain ⟨verdict, rfl⟩ := Option.isSome_iff_exists.mp hsome
    refine ⟨verdict, none, none, _, rfl, ht, nofun, fun _ _ => ?_,
      fun h => .inr ⟨hvalid h, rfl, ?_, rfl⟩⟩
    · unfold appendDestination at happend
      simp only [hd] at happend
      split at happend
      · cases happend
        exact eachAddress_nil
      · split at happend
        · cases happend
        · cases happend
          exact eachAddress_bytes
    · simp [Outgoing.writtenNextHop, hd]
  · have hto : f.toBroadcast = false := by simp [Outgoing.toBroadcast, hd]
    rw [hto]
    refine Triple.weaken (parseDestination_reading hdown hJ hnames hmeans happend hflag hahead hd)
      (fun t ht => ⟨ht.1, ht.2.1, fun h => (ht.2.2 h).2 d rfl⟩) ?_
    rintro result t ⟨verdict, nexthop, destination, rfl, ht, htaken, hreads, hright⟩
    refine ⟨verdict, nexthop, destination, frame.broadcastId, rfl, ht, ?_, hd ▸ hreads, fun h => ?_⟩
    · intro d' hd'
      cases hd'
      exact htaken
    have hid : f.writtenBroadcast frame.broadcastId = frame.broadcastId := by
      simp [Outgoing.writtenBroadcast, hd]
    rw [hid, ← hd]
    rcases hright h with hlost | ⟨hvalid, hdest, hnext⟩
    · exact .inl hlost
    · exact .inr ⟨hvalid, hdest, hnext, rfl⟩

end

/-- What follows the source of a header. -/
theorem parseTarget_parseTrailer_reading {verdict : Verdict}
    (hversion : s.context.packetVersion = packetVersion) (httl : f.ttl ≤ payloadTtlMax)
    {e₀ : EncodeContext} (happend : appendDestination e f = .ok (items, e'))
    (hahead : Ahead packet position (wire items ++ wire (trailer packetVersion f)))
    (hsource : right seen → frame.source = some f.source) :
    Triple (fun t => Reading J bad seen s position frame t ∧ t.context.previous = previous ∧
        (right t.lookups → t.context.invalidAddresses = false ∧
          ∀ d, f.destination = some d → Follows lossy e d t.context))
      (do
        match ← parseTarget host packet (f.flags e₀) with
        | none => pure none
        | some (verdict', nexthop) =>
          parseTrailer host packet (f.flags e₀) (verdict.and verdict') nexthop)
      (fun result t => ∃ header, result = some header ∧
        (∃ frame', Reading J bad seen s (position +
          (wire items ++ wire (trailer packetVersion f)).length) frame' t) ∧
        t.frame.source = frame.source ∧
        (∀ d, f.destination = some d → Taken e d previous t.frame.destination) ∧
        (t.frame.destination = f.destination → header.nexthop = f.writtenNextHop →
          EachAddress (s.context.Reads host) items) ∧
        HeaderRead lossy right e₀ f packetVersion frame header t)
      (Lost lossy seen s) := by
  obtain ⟨-, hbroadcast, hhop, -, -, hlegacy⟩ := flags_bits f e₀
  obtain ⟨haheadTarget, haheadTrailer⟩ := ahead_append.mp hahead
  refine Triple.bind
    (parseTarget_reading hdown hJ hnames hmeans happend hhop haheadTarget hbroadcast)
    fun result => ?_
  rintro ⟨_, _, _, _, frame', _, _⟩
    ⟨verdict', nexthop, dest, broadcastId, rfl, hu, htaken, hreads, hright⟩
  obtain rfl : frame' = _ := hu.frame_eq
  have huversion := hu.version_eq.trans hversion
  have htrailer := hu.ahead haheadTrailer
  rw [← huversion] at htrailer
  obtain ⟨new, d, hd, hrun⟩ := parseTrailer_run hJ hu.daemon httl hhop hlegacy htrailer
    (verdict.and verdict') nexthop
  rw [hrun, huversion]
  refine ⟨_, rfl, ⟨_, ?_, rfl, hd, hu.4, hu.5, hu.6, hu.7, hu.8, hu.9, hu.10, hu.11⟩, rfl, htaken,
    hreads,
    rfl, ?_, ?_, ⟨rfl, rfl, rfl, rfl⟩, fun h => ?_⟩
  · rw [length_append, hu.position_eq, add_assoc]
  · intro hop
    simp [Verdict.and, hop]
  · simp only [Verdict.and, Bool.and_eq_true, Bool.not_eq_true']
    rintro (h | h)
    · exact h.2.2
    · exact h.2.2.2
  rcases hright h with hlost | ⟨hvalid, hdest, hnext, hid⟩
  · exact .inl hlost
  · exact .inr ⟨hvalid, hsource (hdown hu.seen_subset h), hdest, hnext, hid⟩

theorem parseMdpPacketHeader_reading (hversion : s.context.packetVersion = packetVersion)
    (hself : f.senderSame e = true → Means lossy (¬ right seen) host s.context f.source .self)
    (hbuild : overlayFrameBuildHeader packetVersion e f = .ok (some items, e'))
    (hahead : Ahead packet position (wire items)) :
    Triple (fun t => Reading J False seen s position frame t ∧ t.context.previous = previous ∧
        t.context.invalidAddresses = false ∧ (right t.lookups → FollowsHeader lossy e f t.context))
      (parseMdpPacketHeader host packet)
      (fun result t => ∃ header, result = some header ∧
        (∃ frame', Reading J False seen s (position + (wire items).length) frame' t) ∧
        (∀ x, f.firstAddress e = some x → Taken e x previous
          (if f.senderSame e then t.frame.destination else t.frame.source)) ∧
        (t.frame.source = some f.source → t.frame.destination = f.destination →
          header.nexthop = f.writtenNextHop →
          EachAddress (s.context.Reads host) items ∧ SenderReads host s.context e f) ∧
        HeaderRead lossy right e f packetVersion frame header t)
      (Lost lossy seen s) := by
  obtain ⟨source, destination, e₁, httl, hsource, hdestination, rfl⟩ :=
    overlayFrameBuildHeader_parts hbuild
  obtain ⟨hsame, -⟩ := flags_bits f e
  have hwire : wire ([.bytes [f.flags e]] ++ source ++ destination ++ trailer packetVersion f) =
      [f.flags e] ++ (wire source ++ (wire destination ++ wire (trailer packetVersion f))) := by
    simp [wire_append]
  rw [hwire] at hahead ⊢
  rw [length_append, ← add_assoc, length_append, ← add_assoc]
  obtain ⟨hflags, hrest⟩ := ahead_append.mp hahead
  obtain ⟨haheadSource, hrest⟩ := ahead_append.mp hrest
  rintro t ⟨ht, hprevious, hvalid, hfollows⟩
  rw [parseMdpPacketHeader, run_bind_ok (obGet_ahead (ht.ahead hflags))]
  refine (Triple.bind (parseSource_reading hdown hJ
    (fun x len hx => hnames x len (by simp [hx])) (fun x code hx => hmeans x code (by simp [hx]))
    hsource hself hsame haheadSource) fun verdict => ?_) _
    ⟨ht.advance 1, hprevious, hvalid, hfollows⟩
  rintro u ⟨hsome, source', hu, hfirst, hreads, hright⟩
  obtain ⟨verdict, rfl⟩ := Option.isSome_iff_exists.mp hsome
  have hnames₁ : ∀ x len, .address x (.explicit len) ∈ destination →
      Names lossy right host J x len :=
    fun x len hx => hnames x len (by simp [hx])
  have hmeans₁ : ∀ x code, .address x code ∈ destination →
      Means lossy (¬ right seen) host s.context x code :=
    fun x code hx => hmeans x code (by simp [hx])
  have hall : ∀ {t : Rx τ} {header : Header}, t.frame.source = source' →
      (t.frame.destination = f.destination → header.nexthop = f.writtenNextHop →
        EachAddress (s.context.Reads host) destination) →
      t.frame.source = some f.source → t.frame.destination = f.destination →
      header.nexthop = f.writtenNextHop →
      EachAddress (s.context.Reads host) ([.bytes [f.flags e]] ++ source ++ destination ++
        trailer packetVersion f) ∧ SenderReads host s.context e f := by
    intro t header hkept hdest hmeant hmeant₁ hmeant₂
    obtain ⟨hreads, hsender⟩ := hreads (hkept.symm.trans hmeant)
    exact ⟨eachAddress_append (eachAddress_append (eachAddress_append eachAddress_bytes hreads)
      (hdest hmeant₁ hmeant₂)) (eachAddress_trailer _), hsender⟩
  have htaken : ∀ {t : Rx τ}, t.frame.source = source' → (∀ d, f.destination = some d →
      Taken e₁ d u.context.previous t.frame.destination) → ∀ x, f.firstAddress e = some x →
      Taken e x previous
        (if f.senderSame e then t.frame.destination else t.frame.source) := by
    intro t hkept hdest x hx
    unfold Outgoing.firstAddress at hx
    rcases hfirst with ⟨hsame, rfl, hlast⟩ | ⟨hsame, hsource⟩
    · rw [hsame, if_pos rfl] at hx ⊢
      rw [← hlast]
      exact hdest x hx
    · rw [hsame] at hx ⊢
      cases hx
      exact hkept ▸ hsource
  by_cases hlost : lossy ∧ u.context.invalidAddresses = true
  · -- the source was not known, so the other addresses do not matter
    refine (Triple.weaken (parseTarget_parseTrailer_reading (fun _ _ _ h => h) hJ
      (fun x len hx => (hnames₁ x len hx).mono fun _ => False.elim)
      (fun x code hx => (hmeans₁ x code hx).mono fun _ h => h)
      hversion httl hdestination hrest False.elim) (fun _ h => h) ?_) u
      ⟨hu.mark hlost.2, rfl, False.elim⟩
    rintro result t ⟨header, rfl, ⟨frame', ht⟩, hkept, hdest, hreads, hread⟩
    exact ⟨header, rfl, ⟨frame', ht.unmark⟩, htaken hkept hdest, hall hkept hreads,
      { hread with addresses := fun _ => .inl ⟨hlost.1, ht.marked trivial⟩ }⟩
  · have hright' : right u.lookups → u.context.invalidAddresses = false ∧
        source' = some f.source ∧ ∀ d, f.destination = some d → Follows lossy e₁ d u.context := by
      intro h
      rcases hright h with hlost' | hright
      · exact absurd hlost' hlost
      · exact hright
    refine (((parseTarget_parseTrailer_reading hdown hJ hnames₁
      (fun x code hx => (hmeans₁ x code hx).mono fun h hright => h (hdown hu.seen_subset hright))
      hversion httl hdestination hrest fun h => ?_).weaken_abort ?_).weaken (fun _ h => h) ?_) u
      ⟨hu.catchUp, rfl, fun h => ⟨(hright' h).1, (hright' h).2.2⟩⟩
    · exact (hright' h).2.1
    · exact fun _ _ => Lost.since hu.seen_subset
    · rintro result t ⟨header, rfl, ⟨frame', ht⟩, hkept, hdest, hreads, hread⟩
      exact ⟨header, rfl, ⟨frame', ht.since hu.seen_subset⟩, htaken hkept hdest, hall hkept hreads,
        { hread with }⟩

end

end Headers

end ServalMesh.Overlay
