import ServalMesh.Msp.Effects
import ServalMesh.Msp.Windows

/-!
# The two ends of a stream

The invariants say what the windows, the messages on the wire and the bytes given to the handler
have to do with the payloads that were queued at the other end.
-/

namespace ServalMesh.Msp

open Lib Overlay List Option MspWindow

section Messages

variable {state : MspState} {rx : MspWindow} {flags : Byte} {p : MspPacket}

theorem mspHeader_ack : readUint16 (mspHeader state rx flags) 1 = rx.nextSeq - 1 :=
  uint16_of_bytes _

theorem mspMessage_ack : readUint16 (mspMessage state rx p) 1 = rx.nextSeq - 1 :=
  uint16_of_bytes _

theorem mspMessage_seq : readUint16 (mspMessage state rx p) 3 = p.seq :=
  uint16_of_bytes _

theorem mspMessage_payload : (mspMessage state rx p).drop mspPayloadPreambleSize = p.payload :=
  rfl

theorem mspMessage_shutdown :
    ((mspMessage state rx p).headD 0#8).getLsbD flagShutdown = p.flags.getLsbD flagShutdown := by
  have hfirst : (mspMessage state rx p).headD 0#8 =
      p.flags ||| flag flagAck state.receivedData ||| flag flagFirst (!state.receivedPacket) := rfl
  rw [hfirst, BitVec.getLsbD_or, BitVec.getLsbD_or, flag_getLsbD (by decide),
    flag_getLsbD (by decide)]
  simp [flagShutdown, flagAck, flagFirst]

end Messages

section Sender

variable {c d : Core} {state : MspState} {shut : Option ℕ} {i : ℕ}

/-- The `i`-th packet has been sent. -/
def Core.Sent (c : Core) (i : ℕ) : Prop :=
  i < c.log.released ∨ ∃ p, c.tx.packets[i - c.log.released]? = some p ∧ p.sent ≠ timeMsNeverHas

/-- The message has the `i`-th packet. -/
structure Carries (c : Core) (i : ℕ) (message : List Byte) : Prop where
  seq : readUint16 message 3 = BitVec.ofNat 16 i
  payload : c.log.queued[i]? = some (message.drop mspPayloadPreambleSize)
  shut : (message.headD 0#8).getLsbD flagShutdown = decide (c.log.shut = some i)
  sent : c.Sent i

/-- A packet of the transmit window is the `i`-th one. -/
structure Holds (c : Core) (i : ℕ) (p : MspPacket) : Prop where
  seq : p.seq = BitVec.ofNat 16 i
  payload : c.log.queued[i]? = some p.payload
  shut : p.flags.getLsbD flagShutdown = decide (c.log.shut = some i)

/-- What holds at each end for itself. -/
structure Sender (c : Core) : Prop where
  length : c.log.released + c.tx.packets.length = c.log.queued.length
  window : ∀ j p, c.tx.packets[j]? = some p → Holds c (c.log.released + j) p
  nextSeq : c.tx.nextSeq = BitVec.ofNat 16 c.log.queued.length
  shutdownLocal : c.state.shutdownLocal = c.log.shut.isSome
  last : ∀ k, c.log.shut = some k → k + 1 = c.log.queued.length
  expected : c.rx.nextSeq = BitVec.ofNat 16 c.log.completed
  wire : ∀ message ∈ c.log.wire, mspPayloadPreambleSize ≤ message.length →
    ∃ i, Carries c i message
  acks : ∀ message ∈ c.log.wire, 3 ≤ message.length →
    ∃ k ≤ c.log.completed, readUint16 message 1 = BitVec.ofNat 16 k - 1

theorem Sender.shut_none (h : Sender c) (hopen : c.state.shutdownLocal = false) :
    c.log.shut = none := by
  have := h.shutdownLocal
  rw [hopen] at this
  exact not_isSome_iff_eq_none.mp (by simp [← this])

theorem Sender.numbered (h : Sender c) : Numbered c.tx.packets c.log.released :=
  fun j p hp => (h.window j p hp).seq

theorem Sender.window_end (h : Sender c) :
    c.tx.nextSeq = BitVec.ofNat 16 (c.log.released + c.tx.packets.length) := by
  rw [h.nextSeq, h.length]

theorem seq_succ (n : ℕ) : BitVec.ofNat 16 n + 1 = BitVec.ofNat 16 (n + 1) :=
  (BitVec.ofNat_add n 1).symm

/-- Packets already numbered stay as they are when another one is queued. -/
theorem queued_append {queued : List (List Byte)} {p : List Byte} (payload : List Byte)
    (hshut : ∀ k, shut = some k → k = queued.length) (hi : queued[i]? = some p) :
    (queued ++ [payload])[i]? = some p ∧ shut ≠ some i := by
  obtain ⟨hlt, -⟩ := List.getElem?_eq_some_iff.mp hi
  refine ⟨by rw [List.getElem?_append_left hlt, hi], fun h => ?_⟩
  have := hshut i h
  omega

/-- What becomes of a window when another packet is queued. -/
theorem Sender.queue (h : Sender c) {flags : Byte} {payload : List Byte} (hopen : c.log.shut = none)
    (hflags : flags.getLsbD flagShutdown = decide (shut = some c.log.queued.length))
    (hshut : ∀ k, shut = some k → k = c.log.queued.length)
    (hstate : state.shutdownLocal = shut.isSome) :
    Sender { c with
      tx := (insertPacket c.tx c.tx.packets []
        ⟨c.tx.nextSeq, flags, timeMsNeverHas, payload, 0⟩).advance
      state
      log := { c.log with
        queued := c.log.queued ++ [payload]
        shut } } where
  __ := h
  length := by
    have := h.length
    simp only [advance, insertPacket, length_append, length_cons,
      length_nil]
    omega
  window := by
    intro j p hp
    simp only [advance, insertPacket] at hp
    rcases lt_or_ge j c.tx.packets.length with hj | hj
    · rw [getElem?_append_left hj] at hp
      have hold := h.window j p hp
      obtain ⟨hpayload, hne⟩ := queued_append payload hshut hold.payload
      refine ⟨hold.seq, hpayload, ?_⟩
      rw [hold.shut, hopen]
      simp [hne]
    · rw [List.getElem?_append_right hj] at hp
      obtain ⟨hlt, rfl⟩ := List.getElem?_eq_some_iff.mp hp
      obtain rfl : j = c.tx.packets.length := by
        rw [List.length_singleton] at hlt
        omega
      rw [h.length]
      refine ⟨by simpa using h.nextSeq, by simp, by simpa using hflags⟩
  nextSeq := by
    simp only [advance, insertPacket, h.nextSeq, length_append, length_cons,
      length_nil]
    exact seq_succ _
  shutdownLocal := hstate
  last := by
    intro k hk
    rw [hshut k hk, length_append, length_singleton]
  wire := by
    intro message hmem hlen
    obtain ⟨i, hi⟩ := h.wire message hmem hlen
    obtain ⟨hpayload, hne⟩ := queued_append payload hshut hi.payload
    refine ⟨i, hi.seq, hpayload, ?_, hi.sent.imp id ?_⟩
    · rw [hi.shut, hopen]
      simp [hne]
    rintro ⟨p, hp, hsent⟩
    obtain ⟨hlt, -⟩ := List.getElem?_eq_some_iff.mp hp
    refine ⟨p, ?_, hsent⟩
    simp only [advance, insertPacket]
    rw [getElem?_append_left hlt, hp]

/-- The same fact holds of each packet after one of them has changed. -/
theorem getElem?_modify_some {α : Type} {l : List α} {i j : ℕ} {f : α → α} {b : α}
    (h : (l.modify i f)[j]? = some b) : ∃ a, l[j]? = some a ∧ b = if i = j then f a else a := by
  rw [getElem?_modify] at h
  obtain ⟨a, ha, hb⟩ := map_eq_some_iff.mp h
  exact ⟨a, ha, hb.symm⟩

theorem shut_flags (p : MspPacket) : p.shut.flags.getLsbD flagShutdown = true := by
  rw [MspPacket.shut, BitVec.getLsbD_or, flag_getLsbD (by decide)]
  simp

section

variable (h : Sender c)
include h

theorem Sender.shutLast (hopen : c.log.shut = none)
    (hlast : c.tx.packets.getLast?.map MspPacket.sent = some timeMsNeverHas)
    (hstate : state.shutdownLocal = true) :
    Sender { c with
      tx := c.tx.shutLast
      state
      log := { c.log with shut := some (c.log.queued.length - 1) } } := by
  obtain ⟨tail, htail, hunsent⟩ := map_eq_some_iff.mp hlast
  rw [List.getLast?_eq_getElem?] at htail
  obtain ⟨hlt, -⟩ := List.getElem?_eq_some_iff.mp htail
  have hlen := h.length
  have hlast' : c.log.queued.length - 1 = c.log.released + (c.tx.packets.length - 1) := by omega
  refine ⟨by simpa [MspWindow.shutLast] using hlen, ?_, h.nextSeq, hstate, ?_, h.expected, ?_,
    h.acks⟩
  · intro j p hp
    obtain ⟨q, hq, rfl⟩ := getElem?_modify_some hp
    have hold := h.window j q hq
    have hflag := hold.shut
    rw [hopen] at hflag
    rw [hlast']
    split
    case isTrue hj =>
      subst hj
      exact ⟨hold.seq, hold.payload, by rw [shut_flags]; simp⟩
    case isFalse hj => exact ⟨hold.seq, hold.payload, by simp [hflag, hj]⟩
  · rintro k ⟨⟩
    dsimp only
    omega
  · intro message hmem hmsg
    obtain ⟨i, hi⟩ := h.wire message hmem hmsg
    -- what is on the wire has been sent, so it is not the last packet
    have hne : c.log.queued.length - 1 ≠ i := by
      rintro rfl
      rcases hi.sent with hrel | ⟨p, hp, hsent⟩
      · omega
      · rw [show c.log.queued.length - 1 - c.log.released = c.tx.packets.length - 1 by omega,
          htail, some_inj] at hp
        exact hsent (hp ▸ hunsent)
    refine ⟨i, hi.seq, hi.payload, ?_, hi.sent.imp id ?_⟩
    · rw [hi.shut, hopen]
      simp [hne]
    rintro ⟨p, hp, hsent⟩
    refine ⟨_, by rw [MspWindow.shutLast, getElem?_modify, hp]; rfl, ?_⟩
    split <;> exact hsent

theorem Sender.stamp (i now : ℕ) : Sender { c with tx := c.tx.stamp i now } where
  __ := h
  length := by simpa [MspWindow.stamp] using h.length
  window := by
    intro j p hp
    obtain ⟨q, hq, rfl⟩ := getElem?_modify_some hp
    have hold := h.window j q hq
    split <;> exact { hold with }
  wire := by
    intro message hmem hlen
    obtain ⟨k, hk⟩ := h.wire message hmem hlen
    refine ⟨k, hk.seq, hk.payload, hk.shut, hk.sent.imp id ?_⟩
    rintro ⟨p, hp, hsent⟩
    refine ⟨_, by rw [MspWindow.stamp, getElem?_modify, hp]; rfl, ?_⟩
    split
    · exact fun hnever => absurd hnever (by dsimp only [timeMsNeverHas]; omega)
    · exact hsent

/-- Another message is sent. -/
theorem Sender.emit {message : List Byte}
    (hpacket : mspPayloadPreambleSize ≤ message.length → ∃ i, Carries c i message)
    (hack : 3 ≤ message.length → readUint16 message 1 = c.rx.nextSeq - 1) :
    Sender { c with log := { c.log with wire := c.log.wire ++ [message] } } where
  __ := h
  window := fun j p hp => { h.window j p hp with }
  wire := by
    intro m hmem hlen
    obtain ⟨i, hi⟩ := forall_mem_append.mpr ⟨h.wire, forall_mem_singleton.mpr hpacket⟩ m hmem hlen
    exact ⟨i, { hi with }⟩
  acks := by
    refine forall_mem_append.mpr ⟨h.acks, forall_mem_singleton.mpr fun hlen => ?_⟩
    exact ⟨c.log.completed, le_rfl, by rw [hack hlen, h.expected]⟩

theorem Sender.carries {p : MspPacket} (hp : c.tx.packets[i]? = some p)
    (hsent : p.sent ≠ timeMsNeverHas) :
    Carries c (c.log.released + i) (mspMessage c.state c.rx p) where
  seq := by rw [mspMessage_seq, (h.window i p hp).seq]
  payload := by rw [mspMessage_payload, (h.window i p hp).payload]
  shut := by rw [mspMessage_shutdown, (h.window i p hp).shut]
  sent := .inr ⟨p, by rw [Nat.add_sub_cancel_left, hp], hsent⟩

/-- What is received does not matter for what is sent, but for its number. -/
theorem Sender.receive {rx : MspWindow} {completed : ℕ} (consumed : List Byte)
    (hstate : state.shutdownLocal = c.state.shutdownLocal) (hle : c.log.completed ≤ completed)
    (hnext : rx.nextSeq = BitVec.ofNat 16 completed) :
    Sender { c with
      rx
      state
      log := { c.log with
        completed
        consumed } } where
  __ := h
  window := fun j p hp => { h.window j p hp with }
  shutdownLocal := hstate.trans h.shutdownLocal
  expected := hnext
  wire := by
    intro message hmem hlen
    obtain ⟨i, hi⟩ := h.wire message hmem hlen
    exact ⟨i, { hi with }⟩
  acks := by
    intro message hmem hlen
    obtain ⟨k, hk, hread⟩ := h.acks message hmem hlen
    exact ⟨k, hk.trans hle, hread⟩

/-- The first `n` packets of the window are released. -/
theorem Sender.release {tx : MspWindow} {n : ℕ} (hn : n ≤ c.tx.packets.length)
    (hpackets : tx.packets = c.tx.packets.drop n) (hnext : tx.nextSeq = c.tx.nextSeq) :
    Sender { c with
      tx
      log := { c.log with released := c.log.released + n } } where
  __ := h
  length := by
    have := h.length
    rw [hpackets, length_drop]
    dsimp only
    omega
  window := by
    intro j p hp
    rw [hpackets, getElem?_drop] at hp
    have hold := h.window (n + j) p hp
    rw [← add_assoc] at hold
    exact { hold with }
  nextSeq := hnext.trans h.nextSeq
  wire := by
    intro message hmem hlen
    obtain ⟨i, hi⟩ := h.wire message hmem hlen
    refine ⟨i, hi.seq, hi.payload, hi.shut, ?_⟩
    rcases hi.sent with hrel | ⟨p, hp, hsent⟩
    · exact .inl (hrel.trans_le (Nat.le_add_right _ _))
    rcases lt_or_ge i (c.log.released + n) with hlt | hge
    · exact .inl hlt
    · refine .inr ⟨p, ?_, hsent⟩
      rw [hpackets, getElem?_drop]
      rwa [show n + (i - (c.log.released + n)) = i - c.log.released by omega]

theorem Sender.room {payload : List Byte}
    (hbound : (c.log.queued ++ [payload]).length < maxSequenced) :
    c.log.released + c.tx.packets.length < maxSequenced := by
  have := h.length
  rw [length_append] at hbound
  omega

end

/-- Everything that `process_sock` does keeps the order of what is sent. -/
theorem effect_sender (he : Effect c d) (h : Sender c)
    (hbound : d.log.queued.length < maxSequenced) : Sender d := by
  cases he with
  | call he =>
    cases he with
    | @send payload tx outcome hport hopen hclosed hcount hadd houtcome =>
      rw [addPacket_next h.numbered h.window_end (h.room hbound), Prod.mk.injEq] at hadd
      obtain ⟨rfl, rfl⟩ := hadd
      exact h.queue (h.shut_none hopen)
        (by rw [h.shut_none hopen]; simp) (by rw [h.shut_none hopen]; simp)
        h.shutdownLocal
    | shutLast hopen hlast => exact h.shutLast (h.shut_none hopen) hlast rfl
    | @shut tx outcome hopen hadd houtcome =>
      rw [addPacket_next h.numbered h.window_end (h.room hbound), Prod.mk.injEq] at hadd
      obtain ⟨rfl, rfl⟩ := hadd
      refine h.queue (h.shut_none hopen) ?_ ?_ rfl
      · rw [flag_getLsbD (by decide)]
        simp
      · rintro k ⟨⟩
        rfl
    | stop => exact h.receive c.log.consumed rfl le_rfl h.expected
    | sendStop =>
      exact h.emit (fun hlen => absurd hlen (by simp [mspPayloadPreambleSize]))
        fun hlen => absurd hlen (by simp)
  | flagRemote hp hseq => exact h.receive c.log.consumed rfl le_rfl h.expected
  | consume hp hseq hcount => exact h.receive _ rfl le_rfl h.expected
  | complete hp hseq hoffset =>
    refine h.receive c.log.consumed rfl (Nat.le_succ _) ?_
    rw [MspWindow.advance, h.expected]
    exact seq_succ _
  | freeDelivered => exact h.receive c.log.consumed rfl le_rfl h.expected
  | stamp => exact h.stamp _ _
  | transmit hp hsent => exact h.emit (fun _ => ⟨_, h.carries hp hsent⟩) fun _ => mspMessage_ack
  | acknowledge =>
    refine h.emit (fun hlen => absurd hlen ?_) fun _ => mspHeader_ack
    simp [mspHeader, writeUint16, mspPayloadPreambleSize]
  | close hshut => exact h.receive c.log.consumed rfl le_rfl h.expected

end Sender

section Receiver

variable {x c d : Core} {p : MspPacket} {i : ℕ}

/-- A packet of the receive window came in a message of the other end. -/
def Came (x : Core) (p : MspPacket) : Prop :=
  ∃ message ∈ x.log.wire, mspPayloadPreambleSize ≤ message.length ∧
    p.seq = readUint16 message 3 ∧ p.payload = message.drop mspPayloadPreambleSize ∧
    p.flags.getLsbD flagShutdown = (message.headD 0#8).getLsbD flagShutdown

/-- What an end has received of what the other one has queued. -/
structure Receiver (x c : Core) : Prop where
  completed_le : c.log.completed ≤ x.log.queued.length
  sorted : Sorted c.rx.packets
  came : ∀ p ∈ c.rx.packets, Came x p
  ahead : ∀ p ∈ c.rx.packets, c.log.completed < p.seq.toNat → p.offset = 0
  consumed : ∃ part, c.log.consumed = (x.log.queued.take c.log.completed).flatten ++ part ∧
    (∀ p ∈ c.rx.packets, p.seq = c.rx.nextSeq → p.payload.take p.offset = part) ∧
    ((∀ p ∈ c.rx.packets, p.seq ≠ c.rx.nextSeq) → part = [])
  shutdownRemote : c.state.shutdownRemote = true →
    ∃ k, x.log.shut = some k ∧ k ≤ c.log.completed

/-- A packet that came is one of those that were queued. -/
theorem Came.holds (hx : Sender x) (hp : Came x p) : ∃ i, Holds x i p := by
  obtain ⟨message, hmem, hlen, hseq, hpayload, hflag⟩ := hp
  obtain ⟨i, hi⟩ := hx.wire message hmem hlen
  exact ⟨i, hseq.trans hi.seq, by rw [hi.payload, hpayload], by rw [hflag, hi.shut]⟩

theorem Holds.toNat (h : Holds x i p) (hbound : x.log.queued.length < maxSequenced) :
    p.seq.toNat = i ∧ i < x.log.queued.length := by
  obtain ⟨hlt, -⟩ := List.getElem?_eq_some_iff.mp h.payload
  rw [h.seq]
  exact ⟨seq_toNat (by omega), hlt⟩

/-- The packet that is expected next. -/
theorem Came.holds_next (hx : Sender x) (hbound : x.log.queued.length < maxSequenced)
    (hp : Came x p) (hc : Sender c) (hle : c.log.completed ≤ x.log.queued.length)
    (hseq : p.seq = c.rx.nextSeq) : Holds x c.log.completed p := by
  obtain ⟨i, hi⟩ := hp.holds hx
  have hnat := hi.toNat hbound
  rw [hseq, hc.expected, seq_toNat (by omega)] at hnat
  exact hnat.1 ▸ hi

/-- What is sent does not matter for what is received. -/
theorem Receiver.congr (h : Receiver x c) (hrx : d.rx = c.rx)
    (hstate : d.state.shutdownRemote = c.state.shutdownRemote)
    (hcompleted : d.log.completed = c.log.completed) (hconsumed : d.log.consumed = c.log.consumed) :
    Receiver x d := by
  constructor
  · exact hcompleted ▸ h.completed_le
  · exact hrx ▸ h.sorted
  · exact hrx ▸ h.came
  · rw [hrx, hcompleted]
    exact h.ahead
  · rw [hrx, hcompleted, hconsumed]
    exact h.consumed
  · rw [hstate, hcompleted]
    exact h.shutdownRemote

section

variable (hx : Sender x) (hbound : x.log.queued.length < maxSequenced) (hc : Sender c)
  (h : Receiver x c) (hp : c.rx.packets[i]? = some p) (hseq : p.seq = c.rx.nextSeq)

include hx hbound hc h hp hseq

theorem Receiver.flagRemote :
    Receiver x { c with
      state := { c.state with
        shutdownRemote := c.state.shutdownRemote || p.flags.getLsbD flagShutdown } } := by
  refine ⟨h.completed_le, h.sorted, h.came, h.ahead, h.consumed, fun hremote => ?_⟩
  rcases Bool.or_eq_true_iff.mp hremote with hremote | hflag
  · exact h.shutdownRemote hremote
  · have hnext := (h.came p (mem_of_getElem? hp)).holds_next hx hbound hc h.completed_le hseq
    rw [hnext.shut, decide_eq_true_eq] at hflag
    exact ⟨_, hflag, le_rfl⟩

theorem Receiver.consume {count : ℕ} :
    Receiver x { c with
      rx := c.rx.consume i count
      log := { c.log with
        consumed := c.log.consumed ++ (p.payload.drop p.offset).take count } } := by
  have hmem := mem_of_getElem? hp
  obtain ⟨part, hpart, hhead, -⟩ := h.consumed
  refine ⟨h.completed_le, h.sorted.modify fun _ => rfl, ?_, ?_, ?_, h.shutdownRemote⟩
  · intro q hq
    rcases mem_modify hq with hq | ⟨p', hp', rfl⟩
    · exact h.came q hq
    · exact h.came p' (mem_of_getElem? hp')
  · intro q hq hlt
    rcases mem_modify hq with hq | ⟨p', hp', rfl⟩
    · exact h.ahead q hq hlt
    · obtain rfl : p = p' := some_inj.mp (hp.symm.trans hp')
      have hnext := (h.came p hmem).holds_next hx hbound hc h.completed_le hseq
      exact absurd hlt (by rw [(hnext.toNat hbound).1]; exact lt_irrefl _)
  · refine ⟨part ++ (p.payload.drop p.offset).take count, ?_, ?_, ?_⟩
    · rw [hpart, append_assoc]
    · intro q hq hnext
      obtain ⟨j, hj⟩ := mem_iff_getElem?.mp hq
      obtain ⟨q', hq', rfl⟩ := getElem?_modify_some hj
      have hsame : q'.seq = p.seq := by
        rw [hseq]
        split at hnext <;> exact hnext
      obtain rfl := h.sorted.index_unique hp hq' hsame.symm
      obtain rfl : p = q' := some_inj.mp (hp.symm.trans hq')
      rw [if_pos rfl, take_add, hhead p hmem hseq]
    · intro hnone
      refine absurd hseq (hnone { p with offset := p.offset + count } ?_)
      exact mem_of_getElem? (i := i) (by simp [MspWindow.consume, hp])

theorem Receiver.complete (hoffset : p.offset = p.payload.length) :
    Receiver x { c with
      rx := c.rx.advance
      log := { c.log with completed := c.log.completed + 1 } } := by
  have hmem := mem_of_getElem? hp
  have hnext := (h.came p hmem).holds_next hx hbound hc h.completed_le hseq
  have hlt := (hnext.toNat hbound).2
  obtain ⟨part, hpart, hhead, -⟩ := h.consumed
  have hall : part = p.payload := by
    rw [← hhead p hmem hseq, hoffset, take_length]
  refine ⟨hlt, h.sorted, h.came, fun q hq hq' => h.ahead q hq (by dsimp only at hq'; omega), ?_, ?_⟩
  · refine ⟨[], ?_, ?_, fun _ => rfl⟩
    · rw [take_add_one, hnext.payload, flatten_append, hpart, hall]
      simp
    intro q hq hq'
    have hnat : q.seq.toNat = c.log.completed + 1 := by
      rw [hq', advance, hc.expected, seq_succ, seq_toNat (by omega)]
    rw [h.ahead q hq (by omega), take_zero]
  · intro hremote
    obtain ⟨k, hk, hle⟩ := h.shutdownRemote hremote
    exact ⟨k, hk, Nat.le_succ_of_le hle⟩

end

theorem Receiver.freeDelivered (hc : Sender c) (h : Receiver x c) :
    Receiver x { c with rx := freeAckedPackets c.rx (c.rx.nextSeq - 1) } := by
  have hsub := dropWhile_sublist (l := c.rx.packets)
    fun p => decide (compareWrappedUint16 p.seq (c.rx.nextSeq - 1) ≤ 0)
  refine ⟨h.completed_le, h.sorted.sublist hsub, fun p hp => h.came p (hsub.mem hp),
    fun p hp => h.ahead p (hsub.mem hp), ?_, h.shutdownRemote⟩
  obtain ⟨part, hpart, hhead, hnone⟩ := h.consumed
  refine ⟨part, hpart, fun p hp => hhead p (hsub.mem hp), fun h' => hnone fun p hp hseq => ?_⟩
  -- the packet that is expected next is not among those that are freed
  rw [← takeWhile_append_dropWhile (l := c.rx.packets)
    (p := fun p => decide (compareWrappedUint16 p.seq (c.rx.nextSeq - 1) ≤ 0)),
    mem_append] at hp
  rcases hp with hp | hp
  · have := mem_takeWhile_imp hp
    rw [decide_eq_true_eq, hseq, hc.expected, compareWrappedUint16_pred (by omega)
      (by rw [maxSequenced]; omega)] at this
    omega
  · exact h' p hp hseq

/-- A message of the other end is kept, unless its packet is already there. -/
theorem Receiver.keep (hx : Sender x) (hbound : x.log.queued.length < maxSequenced)
    (h : Receiver x c) {message : List Byte} {state : MspState} (hmem : message ∈ x.log.wire)
    (hlen : mspPayloadPreambleSize ≤ message.length)
    (hstate : state.shutdownRemote = c.state.shutdownRemote) :
    Receiver x { c with
      rx := (addPacket c.rx (readUint16 message 3) (message.headD 0#8)
        (message.drop mspPayloadPreambleSize)).1
      state } := by
  set p : MspPacket := ⟨readUint16 message 3, message.headD 0#8, timeMsNeverHas,
    message.drop mspPayloadPreambleSize, 0⟩ with hp
  have hcame : Came x p := ⟨message, hmem, hlen, rfl, rfl, rfl⟩
  obtain ⟨i, hi⟩ := hcame.holds hx
  have hnat := hi.toNat hbound
  have hseq : (readUint16 message 3).toNat < maxSequenced := by
    rw [show (readUint16 message 3).toNat = i from hnat.1]
    omega
  rcases addPacket_sorted h.sorted hseq (message.headD 0#8)
    (message.drop mspPayloadPreambleSize)
    with hadd | ⟨before, after, hpackets, hadd, hbefore, hafter⟩
  · rw [hadd]
    exact h.congr rfl hstate rfl rfl
  have hmem' : ∀ q, q ∈ before ++ p :: after ↔ q = p ∨ q ∈ c.rx.packets := by
    intro q
    rw [hpackets, mem_append, mem_append, mem_cons, or_left_comm]
  rw [hadd]
  refine ⟨h.completed_le, ?_, ?_, ?_, ?_, ?_⟩
  · exact Sorted.insert (hpackets ▸ h.sorted) hbefore hafter (by rw [hnat.1]; omega)
  · intro q hq
    rcases (hmem' q).mp hq with rfl | hq
    · exact hcame
    · exact h.came q hq
  · intro q hq hlt
    rcases (hmem' q).mp hq with rfl | hq
    · rfl
    · exact h.ahead q hq hlt
  · obtain ⟨part, hpart, hhead, hnone⟩ := h.consumed
    refine ⟨part, hpart, ?_, fun hall => hnone fun q hq => hall q ((hmem' q).mpr (.inr hq))⟩
    intro q hq hseq
    rcases (hmem' q).mp hq with rfl | hq
    · -- no packet with this number was there, so nothing of it has been consumed
      refine (hnone fun r hr hrseq => ?_).symm
      have hsame : r.seq.toNat = (readUint16 message 3).toNat := by
        rw [hrseq]
        exact congrArg BitVec.toNat hseq.symm
      rw [hpackets] at hr
      rcases mem_append.mp hr with hr | hr
      · exact absurd (hbefore r hr) (by omega)
      · exact absurd (hafter r hr) (by omega)
    · exact hhead q hq hseq
  · exact fun hremote => h.shutdownRemote (hstate ▸ hremote)

theorem effect_receiver (hx : Sender x) (hbound : x.log.queued.length < maxSequenced)
    (he : Effect c d) (hc : Sender c) (h : Receiver x c) : Receiver x d := by
  cases he with
  | call he => cases he <;> exact h.congr rfl rfl rfl rfl
  | flagRemote hp hseq => exact h.flagRemote hx hbound hc hp hseq
  | consume hp hseq hcount => exact h.consume hx hbound hc hp hseq
  | complete hp hseq hoffset => exact h.complete hx hbound hc hp hseq hoffset
  | freeDelivered => exact h.freeDelivered hc
  | stamp | transmit | acknowledge | close => exact h.congr rfl rfl rfl rfl

end Receiver

section Growth

variable {x c d : Core}

/-- What an end has done is not undone. -/
structure Grows (l m : Log) : Prop where
  queued : l.queued <+: m.queued
  wire : l.wire ⊆ m.wire
  shut : ∀ k, l.shut = some k → m.shut = some k
  completed : l.completed ≤ m.completed

theorem Grows.refl (l : Log) : Grows l l :=
  ⟨prefix_rfl, fun _ h => h, fun _ h => h, le_rfl⟩

theorem Grows.trans {l m n : Log} (h : Grows l m) (h' : Grows m n) : Grows l n :=
  ⟨h.queued.trans h'.queued, fun _ hm => h'.wire (h.wire hm), fun k hk => h'.shut k (h.shut k hk),
    h.completed.trans h'.completed⟩

open Grows

theorem effect_grows (he : Effect c d) (hc : Sender c) : Grows c.log d.log := by
  cases he with
  | call he =>
    cases he with
    | send => exact { refl c.log with queued := prefix_append _ _ }
    | shutLast hopen hlast => exact { refl c.log with shut := by simp [hc.shut_none hopen] }
    | shut hopen hadd houtcome =>
      exact { refl c.log with
        queued := prefix_append _ _
        shut := by simp [hc.shut_none hopen] }
    | stop => exact .refl _
    | sendStop => exact { refl c.log with wire := subset_append_left _ _ }
  | flagRemote hp hseq | freeDelivered | stamp | close hshut => exact .refl _
  | consume hp hseq hcount => exact { refl c.log with }
  | complete hp hseq hoffset => exact { refl c.log with completed := Nat.le_succ _ }
  | transmit hp hsent | acknowledge =>
    exact { refl c.log with wire := subset_append_left _ _ }

/-- What has been received stays true while the other end goes on. -/
theorem Receiver.mono (h : Receiver c x) (hgrows : Grows c.log d.log) : Receiver d x := by
  obtain ⟨more, hmore⟩ := hgrows.queued
  refine ⟨?_, h.sorted, ?_, h.ahead, ?_, ?_⟩
  · exact h.completed_le.trans hgrows.queued.length_le
  · intro p hp
    obtain ⟨message, hmem, hrest⟩ := h.came p hp
    exact ⟨message, hgrows.wire hmem, hrest⟩
  · have htake : d.log.queued.take x.log.completed = c.log.queued.take x.log.completed := by
      rw [← hmore, take_append_of_le_length h.completed_le]
    rw [htake]
    exact h.consumed
  · intro hremote
    obtain ⟨k, hk, hle⟩ := h.shutdownRemote hremote
    exact ⟨k, hgrows.shut k hk, hle⟩

end Growth

end ServalMesh.Msp
