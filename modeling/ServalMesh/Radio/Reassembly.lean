import ServalMesh.Radio.Link

/-!
# Reassembly

As long as a gap is noticed by its sequence number, what the receiver has of a packet is what the
sender has sent of it.
-/

namespace ServalMesh.Radio

open Overlay List

section Frames

variable {codec : LinkCodec} {rx : RxLink}

/-- What the receiver reads of a sequence number and the marks. -/
theorem fragmentFlags_spec (seq : ℕ) (startP endP : Bool) :
    (fragmentFlags seq startP endP &&& 0x3f#8).toNat = seq % 64 ∧
      (fragmentFlags seq startP endP &&& 0x40#8 ≠ 0#8 ↔ startP = true) ∧
      (fragmentFlags seq startP endP &&& 0x80#8 ≠ 0#8 ↔ endP = true) := by
  have hall : ∀ n : Fin 64, ∀ s e : Bool,
      (fragmentFlags n s e &&& 0x3f#8).toNat = n % 64 ∧
        (fragmentFlags n s e &&& 0x40#8 ≠ 0#8 ↔ s = true) ∧
        (fragmentFlags n s e &&& 0x80#8 ≠ 0#8 ↔ e = true) := by decide +kernel
  have hmod := hall ⟨seq % 64, Nat.mod_lt _ (by decide)⟩ startP endP
  rwa [show fragmentFlags (⟨seq % 64, Nat.mod_lt _ (by decide)⟩ : Fin 64) startP endP =
    fragmentFlags seq startP endP by simp [fragmentFlags], Nat.mod_mod] at hmod

/-- A frame is received as it was sent. -/
theorem radioLinkParse_linkFrame (flags : Byte) (data : List Byte) :
    radioLinkParse codec rx (linkFrame codec flags data) =
      ((reassemble rx flags data).1, (reassemble rx flags data).2, true) := by
  have hheader : ∀ a b c : Byte, ∃ x y z, codec.golayEncode [a, b, c] = [x, y, z] := by
    intro a b c
    exact length_eq_three.mp (codec.length_golayEncode [a, b, c])
  obtain ⟨x, y, z, hxyz⟩ := hheader (BitVec.ofNat 8 (data.length + fecLength - radioCrcLength))
    (BitVec.ofNat 8 ((data.length + fecLength - radioCrcLength) % 16)) 0#8
  have hparity := codec.length_encodeRs8 (flags :: mavlinkMsgIdDatastream :: data)
  have hframe : linkFrame codec flags data = 0xfe#8 :: x :: y :: z ::
      (flags :: mavlinkMsgIdDatastream :: data ++
        codec.encodeRs8 (flags :: mavlinkMsgIdDatastream :: data)) := by
    rw [linkFrame, hxyz]
    simp
  have hlength : (linkFrame codec flags data).length = data.length + 38 := by
    rw [hframe]
    simp [hparity, fecLength]
  have hdrop : (linkFrame codec flags data).drop radioUsedHeaderLength =
      flags :: mavlinkMsgIdDatastream :: data ++
        codec.encodeRs8 (flags :: mavlinkMsgIdDatastream :: data) := by
    rw [hframe]
    rfl
  rw [radioLinkParse, hlength, if_neg (by omega), hdrop, codec.decodeRs8_encodeRs8]
  have hdata : data.length + 38 - (radioUsedHeaderLength + fecLength) - 2 = data.length := by
    rw [radioUsedHeaderLength, fecLength]
    omega
  simp [hdata]

theorem radioLinkParse_buildHeartbeat :
    (radioLinkParse codec rx (buildHeartbeat codec)).1 = rx := by
  have hlength : (buildHeartbeat codec).length = 17 := by
    simp [buildHeartbeat, codec.length_golayEncode]
  rw [radioLinkParse, if_pos hlength]

end Frames

section Invariant

variable {codec : LinkCodec} {sys : RadioSystem} {packet : List Byte} {position : ℕ}

/-- What holds of both ends. A packet that is not discarded has been received as far as it was sent,
unless frames were lost since. -/
structure Reassembles (sys : RadioSystem) : Prop where
  seq : sys.heard = true → (sys.rx.seq + 1 + sys.lost) % 64 = sys.tx.txSeq % 64
  fresh : sys.heard = false → sys.rx.seq = 0
  received : sys.heard = true → sys.lost = 0 → sys.rx.packetLength ≤ mdpMtu →
    ∃ packet, sys.tx.txPacket = some (packet, sys.rx.packetLength) ∧
      sys.rx.dst.take sys.rx.packetLength = packet.take sys.rx.packetLength
  sending : ∀ packet position, sys.tx.txPacket = some (packet, position) →
    ∃ finished, sys.queued = finished ++ [packet] ∧ sys.delivered.Sublist finished
  idle : sys.tx.txPacket = none → sys.delivered.Sublist sys.queued

theorem Reassembles.start (txSeq : ℕ) : Reassembles (.start txSeq) where
  seq := nofun
  fresh := fun _ => rfl
  received := nofun
  sending := nofun
  idle := fun _ => List.Sublist.refl _

theorem Reassembles.queue (h : Reassembles sys) (packet : List Byte) :
    Reassembles (radioStep codec sys (.queue packet)) := by
  rw [radioStep, radioLinkQueuePacket]
  cases hpacket : sys.tx.txPacket with
  | some p => exact h
  | none =>
    refine ⟨h.seq, h.fresh, ?_, ?_, nofun⟩
    · intro hheard hlost hle
      obtain ⟨p, hp, -⟩ := h.received hheard hlost hle
      exact absurd (hpacket.symm.trans hp) (by simp)
    · intro p position hp
      cases hp
      exact ⟨sys.queued, rfl, h.idle hpacket⟩

/-- Where a fragment is put. -/
def fragmentStart (rx : RxLink) (seq : ℕ) (startP : Bool) : ℕ :=
  if startP then 0 else if seq % 64 ≠ (rx.seq + 1) % 64 then mdpMtu + 1 else rx.packetLength

/-- A fragment is discarded, or completes a packet, or is added to it. -/
theorem reassemble_cases (rx : RxLink) (seq : ℕ) (startP endP : Bool) (data : List Byte) :
    let r := reassemble rx (fragmentFlags seq startP endP) data
    let position := fragmentStart rx seq startP
    r.1.seq = seq % 64 ∧
      ((r.1.packetLength = mdpMtu + 1 ∧ r.2 = none) ∨
        (position + data.length ≤ mdpMtu ∧ endP = true ∧ r.1.packetLength = mdpMtu + 1 ∧
          r.2 = some (rx.dst.take position ++ data)) ∨
        (position + data.length ≤ mdpMtu ∧ endP = false ∧
          r.1.packetLength = position + data.length ∧
          r.1.dst = rx.dst.take position ++ data ∧ r.2 = none)) := by
  obtain ⟨hseq, hstart, hend⟩ := fragmentFlags_spec seq startP endP
  rw [reassemble]
  simp only [hseq, hstart, hend]
  rw [← fragmentStart]
  split
  case isTrue => exact ⟨rfl, .inl ⟨rfl, rfl⟩⟩
  case isFalse hfits =>
    split
    case isTrue hlast => exact ⟨rfl, .inr (.inl ⟨not_lt.mp hfits, hlast, rfl, rfl⟩)⟩
    case isFalse hmore =>
      exact ⟨rfl, .inr (.inr ⟨not_lt.mp hfits, Bool.eq_false_iff.mpr hmore, rfl, rfl, rfl⟩)⟩

section

variable (h : Reassembles sys) (hpacket : sys.tx.txPacket = some (packet, position))
include h hpacket

/-- A fragment that is not discarded is put where the sender took it from, after what came before
it. -/
theorem Reassembles.fragment (hlost : sys.lost < 64) (hjoins : joins sys (.send false) = true)
    (hle : fragmentStart sys.rx sys.tx.txSeq (position = 0) ≤ mdpMtu) :
    fragmentStart sys.rx sys.tx.txSeq (position = 0) = position ∧
      sys.rx.dst.take position = packet.take position := by
  rw [fragmentStart] at hle ⊢
  by_cases hstart : position = 0
  · subst hstart
    exact ⟨rfl, rfl⟩
  rw [if_neg (by simpa using hstart)] at hle ⊢
  by_cases hseq : sys.tx.txSeq % 64 ≠ (sys.rx.seq + 1) % 64
  · rw [if_pos hseq] at hle
    exact absurd hle (by omega)
  rw [if_neg hseq] at hle ⊢
  have hheard : sys.heard = true := by
    -- A new receiver would take the fragment with the number one for the one that follows.
    by_contra hnew
    have hzero := h.fresh (Bool.eq_false_iff.mpr hnew)
    simp [joins, hnew, hpacket, hstart] at hjoins
    omega
  have hgap : sys.lost = 0 := by
    have := h.seq hheard
    omega
  obtain ⟨p, hp, htake⟩ := h.received hheard hgap hle
  cases hpacket.symm.trans hp
  exact ⟨rfl, htake⟩

/-- What the sender has left after a fragment. -/
theorem Reassembles.sent (endP : Bool) (count : ℕ) :
    (∀ p q, (if endP then none else some (packet, position + count)) = some (p, q) →
        ∃ finished, sys.queued = finished ++ [p] ∧ sys.delivered.Sublist finished) ∧
      ((if endP then none else some (packet, position + count)) = none →
        sys.delivered.Sublist sys.queued) := by
  obtain ⟨finished, hqueued, hsub⟩ := h.sending packet position hpacket
  constructor
  · intro p q hp
    cases endP with
    | true => exact nomatch hp
    | false =>
      cases hp
      exact ⟨finished, hqueued, hsub⟩
  · intro _
    rw [hqueued]
    exact hsub.trans (sublist_append_left ..)

end

/-- The next fragment of a packet: it ends the packet, or has as much as fits. -/
theorem radioLinkEncodePacket_some (codec : LinkCodec) {tx : TxLink}
    (h : tx.txPacket = some (packet, position)) :
    ∃ endP data, radioLinkEncodePacket codec tx =
        ({ txSeq := tx.txSeq + 1
           txPacket := if endP then none else some (packet, position + data.length) },
          some (linkFrame codec (fragmentFlags tx.txSeq (position = 0) endP) data)) ∧
      (endP = true → data = packet.drop position) ∧
      (endP = false → packet.take position ++ data = packet.take (position + data.length) ∧
        position ≤ packet.length) := by
  rw [radioLinkEncodePacket, h]
  by_cases hmore : linkPayloadMtu < packet.length - position
  · have hlength : ((packet.drop position).take linkPayloadMtu).length = linkPayloadMtu := by
      rw [length_take, length_drop]
      omega
    refine ⟨false, (packet.drop position).take linkPayloadMtu, ?_, nofun,
      fun _ => ⟨?_, by omega⟩⟩
    · simp [hmore, hlength]
    · rw [hlength, take_add]
  · refine ⟨true, packet.drop position, ?_, fun _ => rfl, nofun⟩
    have htake : (packet.drop position).take (packet.length - position) = packet.drop position :=
      take_of_length_le (by rw [length_drop])
    simp [hmore, htake]

/-- A frame is lost. -/
theorem Reassembles.lose (h : Reassembles sys) :
    Reassembles (radioStep codec sys (.send true)) := by
  cases hpacket : sys.tx.txPacket with
  | none => rwa [radioStep, radioLinkEncodePacket, hpacket]
  | some p =>
    obtain ⟨endP, data, hencode, -, -⟩ := radioLinkEncodePacket_some codec hpacket
    obtain ⟨hsending, hidle⟩ := h.sent hpacket endP data.length
    rw [radioStep, hencode]
    refine ⟨fun hheard => ?_, h.fresh, nofun, hsending, hidle⟩
    have := h.seq hheard
    show (sys.rx.seq + 1 + (sys.lost + 1)) % 64 = (sys.tx.txSeq + 1) % 64
    omega

/-- A frame is received. -/
theorem Reassembles.receive (h : Reassembles sys) (hlost : sys.lost < 64)
    (hjoins : joins sys (.send false) = true) :
    Reassembles (radioStep codec sys (.send false)) := by
  cases hpacket : sys.tx.txPacket with
  | none => rwa [radioStep, radioLinkEncodePacket, hpacket]
  | some p =>
    obtain ⟨packet, position⟩ := p
    obtain ⟨endP, data, hencode, hlast, hmore⟩ := radioLinkEncodePacket_some codec hpacket
    obtain ⟨finished, hqueued, hsub⟩ := h.sending packet position hpacket
    obtain ⟨hsending, hidle⟩ := h.sent hpacket endP data.length
    obtain ⟨hseq, hcases⟩ := reassemble_cases sys.rx sys.tx.txSeq (position = 0) endP data
    have hfragment := h.fragment hpacket hlost hjoins
    rw [radioStep, hencode]
    simp only [Bool.false_eq_true, if_false, radioLinkParse_linkFrame]
    generalize reassemble sys.rx (fragmentFlags sys.tx.txSeq (position = 0) endP) data = r at *
    generalize fragmentStart sys.rx sys.tx.txSeq (position = 0) = place at *
    have hnext : (r.1.seq + 1 + 0) % 64 = (sys.tx.txSeq + 1) % 64 := by omega
    rcases hcases with ⟨hlength, hnone⟩ | ⟨hfits, rfl, hlength, hsome⟩ |
      ⟨hfits, rfl, hlength, hdst, hnone⟩
    · -- The fragment is discarded.
      rw [hnone, Option.toList_none, append_nil]
      refine ⟨fun _ => hnext, nofun, fun _ _ hle => ?_, hsending, hidle⟩
      rw [hlength] at hle
      omega
    · -- The packet is complete.
      obtain ⟨rfl, htake⟩ := hfragment (by omega)
      have hwhole : sys.rx.dst.take place ++ data = packet := by
        rw [htake, hlast rfl, take_append_drop]
      rw [hsome, hwhole, Option.toList_some]
      refine ⟨fun _ => hnext, nofun, fun _ _ hle => ?_,
        nofun, fun _ => ?_⟩
      · rw [hlength] at hle
        omega
      · rw [hqueued]
        exact hsub.append (List.Sublist.refl _)
    · obtain ⟨rfl, htake⟩ := hfragment (by omega)
      obtain ⟨hpart, hle⟩ := hmore rfl
      rw [hnone, Option.toList_none, append_nil]
      refine ⟨fun _ => hnext, nofun, fun _ _ _ => ⟨packet, by rw [hlength]; rfl, ?_⟩, hsending,
        hidle⟩
      rw [hlength, hdst, htake, hpart, take_take, min_self]

end Invariant

/-- Every step keeps what was received of a packet. -/
theorem Reassembles.run {codec : LinkCodec} {sys : RadioSystem} {ops : List RadioOp}
    (h : Reassembles sys) (hlost : sys.lost < 64) (hfew : fewLost codec sys ops = true)
    (hjoins : joinsRun codec sys ops = true) : Reassembles (runRadio codec sys ops) := by
  induction ops generalizing sys with
  | nil => exact h
  | cons op ops ih =>
    rw [fewLost, Bool.and_eq_true, decide_eq_true_eq] at hfew
    rw [joinsRun, Bool.and_eq_true] at hjoins
    refine ih ?_ hfew.1 hfew.2 hjoins.2
    cases op with
    | queue packet => exact h.queue packet
    | send lost =>
      cases lost with
      | true => exact h.lose
      | false => exact h.receive hlost hjoins.1
    | heartbeat => rwa [radioStep, radioLinkParse_buildHeartbeat]

/-- Only whole packets are passed on, each at most once and in the order in which they were queued,
if the first frame that is received does not seem to follow one that was never received. -/
theorem runRadio_delivered (codec : LinkCodec) (txSeq : ℕ) (ops : List RadioOp)
    (hfew : fewLost codec (.start txSeq) ops = true)
    (hjoins : joinsRun codec (.start txSeq) ops = true) :
    (runRadio codec (.start txSeq) ops).delivered.Sublist
      (runRadio codec (.start txSeq) ops).queued := by
  have h := (Reassembles.start txSeq).run (show 0 < 64 by decide) hfew hjoins
  cases hpacket : (runRadio codec (.start txSeq) ops).tx.txPacket with
  | none => exact h.idle hpacket
  | some p =>
    obtain ⟨finished, hqueued, hsub⟩ := h.sending p.1 p.2 hpacket
    rw [hqueued]
    exact hsub.trans (sublist_append_left ..)

section Samples

/-- A code that corrects nothing. -/
def plainCodec : LinkCodec where
  golayEncode := id
  golayDecode := fun _ => 0
  encodeRs8 := fun _ => List.replicate fecLength 0#8
  decodeRs8 := some
  length_golayEncode := fun _ => rfl
  length_encodeRs8 := fun _ => length_replicate
  decodeRs8_encodeRs8 := fun _ => rfl

/-- A packet of two fragments. -/
def twoFragments (b : Byte) : List Byte := List.replicate linkPayloadMtu b ++ [0x2a#8]

/-- The second fragment of the first packet is lost, and the second packet arrives. -/
theorem runRadio_delivered_second :
    (runRadio plainCodec (.start 0) [.queue (twoFragments 1#8), .send false, .send true,
        .heartbeat, .queue (twoFragments 2#8), .send false, .send false]).delivered =
      [twoFragments 2#8] ∧
    (runRadio plainCodec (.start 0) [.queue (twoFragments 1#8), .send false, .send true,
        .heartbeat, .queue (twoFragments 2#8), .send false, .send false]).delivered.Sublist
      (runRadio plainCodec (.start 0) [.queue (twoFragments 1#8), .send false, .send true,
        .heartbeat, .queue (twoFragments 2#8), .send false, .send false]).queued :=
  ⟨by decide +kernel, runRadio_delivered plainCodec 0 _ (by decide +kernel) (by decide +kernel)⟩

/-- The first fragment of all is lost, and the second one is taken for a whole packet. -/
theorem runRadio_second_fragment :
    (runRadio plainCodec (.start 0)
        [.queue (twoFragments 1#8), .send true, .send false]).delivered = [[0x2a#8]] ∧
      (runRadio plainCodec (.start 0)
        [.queue (twoFragments 1#8), .send true, .send false]).queued = [twoFragments 1#8] := by
  decide +kernel

end Samples

end ServalMesh.Radio
