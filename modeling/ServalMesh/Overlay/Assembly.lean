import ServalMesh.Overlay.Daemon
import ServalMesh.Overlay.HeaderCodec
import ServalMesh.Overlay.Packet

/-!
# What is in a packet

While a packet is filled, its buffer holds the header and the payloads that were
appended, one after the other. A payload that does not fit leaves no bytes.
-/

namespace ServalMesh.Overlay

open Lib List

namespace OutBuf

variable {b : OutBuf}

theorem rewind_checkpoint (b : OutBuf) : b.checkpoint.rewind = b.checkpoint := by
  have htake : b.bytes.take (b.bytes.length + b.beyond) = b.bytes :=
    take_of_length_le (Nat.le_add_right _ _)
  simp [rewind, checkpoint, position, htake]

/-- After an overrun, nothing can be appended any more. -/
theorem appendAll_overrun {appends : List (List Byte)} (h : b.overrun = true) (hne : appends ≠ []) :
    b.appendAll appends = .error .assertion := by
  have hlt : b.sizeLimit < b.position := of_decide_eq_true h
  cases appends with
  | nil => exact absurd rfl hne
  | cons data rest =>
    have hfail : b.append data = .error .assertion := by
      rw [append, if_neg]
      rintro ⟨-, hle⟩
      omega
    rw [appendAll, hfail]
    rfl

end OutBuf

/-- All that is written for a payload. -/
def Sent.items (encapsulation : Encapsulation) (q : Sent) : List Item :=
  q.header ++ payloadItems encapsulation q.payload

/-- All that is written into a packet. -/
def packetItems (encapsulation : Encapsulation) (header : List Item) (sent : List Sent) :
    List Item :=
  header ++ sent.flatMap (Sent.items encapsulation)

/-- The payload was written in a context that extends the one after the header of the packet. -/
structure Sent.Written (version : ℕ) (e : EncodeContext) (q : Sent) : Prop where
  extends_start : e.Extends q.context
  size : q.payload.length < mdpMtu
  header_eq : ∃ e', overlayFrameBuildHeader version q.context q.outgoing = .ok (some q.header, e')

/-- A packet whose header left the context `e`. -/
structure Assembled (version : ℕ) (encapsulation : Encapsulation) (e : EncodeContext)
    (header : List Item) (a : Assembly) : Prop where
  extends_start : e.Extends a.context
  header_eq : a.header = header
  written : ∀ q ∈ a.sent, q.Written version e
  buffer : a.buffer.beyond = 0 ∧ a.buffer.bytes = wire (packetItems encapsulation header a.sent) ∨
    a.buffer.overrun = true ∧ a.sent = []

section Assembling

variable {version : ℕ} {encapsulation : Encapsulation} {e e' : EncodeContext} {f : Outgoing}
  {header : List Item} {a a' : Assembly} {p : Queued} {items : Option (List Item)}

/-- The addresses of a header, in the order in which they are written. -/
def Outgoing.addresses (f : Outgoing) (e : EncodeContext) : List Sid :=
  (if f.senderSame e then [] else [f.source]) ++
    (f.destination.toList ++ f.writtenNextHop.toList)

theorem overlayFrameBuildHeader_context
    (h : overlayFrameBuildHeader version e f = .ok (items, e')) :
    payloadTtlMax < f.ttl ∧ e' = e ∨
      f.ttl ≤ payloadTtlMax ∧ e' = (f.addresses e).foldl EncodeContext.afterAddress e := by
  unfold overlayFrameBuildHeader at h
  split at h
  case isTrue httl =>
    cases h
    exact .inl ⟨httl, rfl⟩
  case isFalse httl =>
    refine .inr ⟨not_lt.mp httl, ?_⟩
    obtain ⟨⟨source, e₁⟩, hsource, h⟩ := ok_of_bind h
    obtain ⟨⟨destination, e₂⟩, hdestination, h⟩ := ok_of_bind h
    cases h
    rw [Outgoing.addresses, foldl_append, ← appendSource_context hsource]
    exact appendDestination_context hdestination

theorem overlayFrameBuildHeader_extends
    (h : overlayFrameBuildHeader version e f = .ok (items, e')) : e.Extends e' := by
  rcases overlayFrameBuildHeader_context h with ⟨-, rfl⟩ | ⟨-, rfl⟩
  · exact .refl e'
  · exact foldl_afterAddress_extends _ e

/-- A header is never empty: it starts with the flags. -/
theorem overlayFrameBuildHeader_appends {items : List Item}
    (h : overlayFrameBuildHeader version e f = .ok (some items, e')) (rest : List Item) :
    (items ++ rest).flatMap Item.appends ≠ [] := by
  obtain ⟨source, destination, e₁, -, -, -, rfl⟩ := overlayFrameBuildHeader_parts h
  simp [Item.appends]

theorem packetItems_append (sent : List Sent) (q : Sent) :
    packetItems encapsulation header (sent ++ [q]) =
      packetItems encapsulation header sent ++ q.items encapsulation := by
  simp [packetItems]

/-- What `overlayFrameAppendPayload` can do: the payload is left out, or it is added. -/
theorem overlayFrameAppendPayload_cases
    (h : overlayFrameAppendPayload version encapsulation a p = .ok a') :
    ∃ items e', overlayFrameBuildHeader version a.context p.outgoing = .ok (items, e') ∧
      (a' = { a with
          context := e'
          buffer := a.buffer.checkpoint } ∨
        ∃ header b, items = some header ∧ a.buffer.checkpoint.appendAll
            ((header ++ payloadItems encapsulation p.payload).flatMap Item.appends) = .ok b ∧
          (b.overrun = true ∧ a' = { a with
              context := e'
              buffer := b.rewind } ∨
            b.overrun = false ∧ a' = { a with
              context := e'
              buffer := b
              sent := a.sent ++ [⟨a.context, p.outgoing, header, p.payload⟩] })) := by
  unfold overlayFrameAppendPayload at h
  obtain ⟨⟨items, e'⟩, hbuild, h⟩ := ok_of_bind h
  refine ⟨items, e', hbuild, ?_⟩
  cases items with
  | none =>
    cases h
    left
    rw [OutBuf.rewind_checkpoint]
  | some header =>
    right
    obtain ⟨b, hb, h⟩ := ok_of_bind h
    refine ⟨header, b, rfl, hb, ?_⟩
    rcases hover : b.overrun with _ | _ <;> rw [hover] at h
    · cases h
      exact .inr ⟨rfl, rfl⟩
    · cases h
      exact .inl ⟨rfl, rfl⟩

theorem assembled_append (ha : Assembled version encapsulation e header a)
    (h : overlayFrameAppendPayload version encapsulation a p = .ok a') :
    Assembled version encapsulation e header a' := by
  obtain ⟨items, e', hbuild, hcases⟩ := overlayFrameAppendPayload_cases h
  have hextends := ha.extends_start.trans (overlayFrameBuildHeader_extends hbuild)
  rcases hcases with rfl | ⟨header', b, rfl, hb, hcases⟩
  · exact ⟨hextends, ha.header_eq, ha.written, ha.buffer⟩
  have hstart : a.buffer.beyond = 0 ∧
      a.buffer.bytes = wire (packetItems encapsulation header a.sent) := by
    rcases ha.buffer with hstart | ⟨hover, -⟩
    · exact hstart
    have hfail : a.buffer.checkpoint.appendAll
        ((header' ++ payloadItems encapsulation p.payload).flatMap Item.appends) = _ :=
      OutBuf.appendAll_overrun hover (overlayFrameBuildHeader_appends hbuild _)
    cases hfail.symm.trans hb
  rcases hcases with ⟨-, rfl⟩ | ⟨hfit, rfl⟩
  · obtain ⟨hbytes, hbeyond⟩ := OutBuf.rewind_appendAll hstart.1 hb
    exact ⟨hextends, ha.header_eq, ha.written, .inl ⟨hbeyond, hbytes.trans hstart.2⟩⟩
  obtain ⟨hbytes, hbeyond⟩ := (OutBuf.appendAll_eq_ok hb).written hfit
  refine ⟨hextends, ha.header_eq, ?_, .inl ⟨hbeyond.trans hstart.1, ?_⟩⟩
  · exact forall_mem_append.mpr ⟨ha.written, forall_mem_singleton.mpr
      ⟨ha.extends_start, p.size, e', hbuild⟩⟩
  · rwa [packetItems_append, wire_append, ← hstart.2]

theorem sent_length_append (h : overlayFrameAppendPayload version encapsulation a p = .ok a') :
    a'.sent.length ≤ a.sent.length + 1 := by
  obtain ⟨items, e', -, hcases⟩ := overlayFrameAppendPayload_cases h
  rcases hcases with rfl | ⟨header', b, -, -, ⟨-, rfl⟩ | ⟨-, rfl⟩⟩
  · exact Nat.le_succ _
  · exact Nat.le_succ _
  · simp

theorem assembled_foldlM {payloads : List Queued} (ha : Assembled version encapsulation e header a)
    (h : payloads.foldlM (overlayFrameAppendPayload version encapsulation) a = .ok a') :
    Assembled version encapsulation e header a' ∧
      a'.sent.length ≤ a.sent.length + payloads.length := by
  induction payloads generalizing a with
  | nil =>
    cases h
    exact ⟨ha, le_rfl⟩
  | cons p rest ih =>
    rw [foldlM_cons] at h
    obtain ⟨a₁, hp, h⟩ := ok_of_bind h
    obtain ⟨hassembled, hlength⟩ := ih (assembled_append ha hp) h
    have hstep := sent_length_append hp
    refine ⟨hassembled, ?_⟩
    rw [length_cons]
    omega

end Assembling

/-- A packet that was put together. -/
structure Delivery where
  version : ℕ
  encapsulation : Encapsulation
  start : EncodeContext
  header : List Item
  sent : List Sent
  written : ∀ q ∈ sent, q.Written version start
  single : encapsulation = .single → sent.length ≤ 1

def Delivery.items (p : Delivery) : List Item := packetItems p.encapsulation p.header p.sent

def Delivery.bytes (p : Delivery) : List Byte := wire p.items

section Packets

variable {params : PacketParams} {e : EncodeContext} {a₀ a : Assembly} {payloads : List Queued}

/-- The header of a packet, and the context that it leaves. -/
theorem overlayInitPacket_assembled (h : overlayInitPacket params e = .ok (some a₀)) :
    overlayPacketInitHeader params.packetVersion params.encapsulation params.interface e
        params.unicast params.index params.seq = some (a₀.header, a₀.context) ∧
      a₀.sent = [] ∧
      Assembled params.packetVersion params.encapsulation a₀.context a₀.header a₀ := by
  unfold overlayInitPacket at h
  rcases hinit : overlayPacketInitHeader params.packetVersion params.encapsulation params.interface
      e params.unicast params.index params.seq with _ | ⟨header, context⟩
  · rw [hinit] at h
    cases h
  rw [hinit] at h
  obtain ⟨b, hb, h⟩ := ok_of_bind h
  cases h
  refine ⟨rfl, rfl, .refl _, rfl, nofun, ?_⟩
  cases hover : b.overrun with
  | true => exact .inr ⟨rfl, rfl⟩
  | false =>
    obtain ⟨hbytes, hbeyond⟩ := (OutBuf.appendAll_eq_ok hb).written hover
    refine .inl ⟨hbeyond, ?_⟩
    simpa [packetItems, wire, OutBuf.new] using hbytes

/-- A packet that was put together. -/
theorem overlayStuffPacket_assembled (hinit : overlayInitPacket params e = .ok (some a₀))
    (hstuff : overlayStuffPacket params a₀ payloads = .ok a) :
    Assembled params.packetVersion params.encapsulation a₀.context a₀.header a ∧
      (params.encapsulation = .single → a.sent.length ≤ 1) := by
  obtain ⟨-, hnone, hstart⟩ := overlayInitPacket_assembled hinit
  obtain ⟨hassembled, hlength⟩ := assembled_foldlM hstart hstuff
  refine ⟨hassembled, fun hsingle => ?_⟩
  simp only [hsingle, hnone, length_nil, length_take] at hlength
  omega

end Packets

section Refused

variable {version : ℕ} {encapsulation : Encapsulation} {e : EncodeContext} {a a' : Assembly}
  {p : Queued} {s : Sid}

theorem foldl_afterAddress_previous (addresses : List Sid) (e : EncodeContext) :
    (addresses.foldl EncodeContext.afterAddress e).previous =
      addresses.getLast?.or e.previous := by
  induction addresses generalizing e with
  | nil => rfl
  | cons s rest ih =>
    rw [foldl_cons, ih, afterAddress_previous, getLast?_cons]
    cases rest.getLast? <;> rfl

/-- A subscriber whose whole id is due keeps its flag if a code is written instead. -/
theorem afterAddress_sendFull_iff : (e.afterAddress s).sendFull = e.sendFull ↔
    (e.sendFull s = true →
      e.pointToPointDevice = some s ∨ e.sender = some s ∨ e.previous = some s) := by
  cases hflag : e.sendFull s with
  | false =>
    refine iff_of_true ?_ nofun
    have hsame : Function.update e.sendFull s false = e.sendFull := by
      rw [← hflag, Function.update_eq_self]
    unfold EncodeContext.afterAddress
    split
    · exact hsame
    · rfl
  | true =>
    have hcleared : Function.update e.sendFull s false ≠ e.sendFull := by
      intro h
      have := congrFun h s
      rw [Function.update_self, hflag] at this
      cases this
    by_cases hpeer : e.pointToPointDevice = some s
    · simp [EncodeContext.afterAddress, EncodeContext.addressCode, hpeer]
    by_cases hsender : e.sender = some s
    · simp [EncodeContext.afterAddress, EncodeContext.addressCode, hpeer, hflag, hsender]
    by_cases hprevious : e.previous = some s
    · simp [EncodeContext.afterAddress, EncodeContext.addressCode, hpeer, hflag, hsender,
        hprevious]
    · simp [EncodeContext.afterAddress, EncodeContext.addressCode, hpeer, hflag, hsender,
        hprevious, hcleared]

theorem foldl_afterAddress_sendFull (addresses : List Sid)
    (h : (addresses.foldl EncodeContext.afterAddress e).sendFull s = true) :
    e.sendFull s = true := by
  induction addresses generalizing e with
  | nil => exact h
  | cons x rest ih =>
    have hx := ih h
    unfold EncodeContext.afterAddress at hx
    split at hx
    · by_cases hs : s = x
      · simp [hs] at hx
      · exact (Function.update_of_ne hs false e.sendFull).symm.trans hx
    · exact hx

/-- Where one of these addresses is a subscriber whose whole id is due, a code is written
instead. -/
def EncodeContext.Spares (e : EncodeContext) : Option Sid → List Sid → Prop
  | _, [] => True
  | previous, s :: rest => (e.sendFull s = true →
      e.pointToPointDevice = some s ∨ e.sender = some s ∨ previous = some s) ∧
    e.Spares (some s) rest

theorem EncodeContext.spares_congr {e' : EncodeContext} (hextends : e.Extends e')
    (hflags : e'.sendFull = e.sendFull) (previous : Option Sid) (addresses : List Sid) :
    e'.Spares previous addresses ↔ e.Spares previous addresses := by
  induction addresses generalizing previous with
  | nil => rfl
  | cons s rest ih => rw [Spares, Spares, hflags, hextends.peer_eq, hextends.sender_eq, ih]

theorem foldl_afterAddress_sendFull_iff (addresses : List Sid) (e : EncodeContext) :
    (addresses.foldl EncodeContext.afterAddress e).sendFull = e.sendFull ↔
      e.Spares e.previous addresses := by
  induction addresses generalizing e with
  | nil => exact iff_of_true rfl trivial
  | cons s rest ih =>
    rw [foldl_cons, EncodeContext.Spares, ← afterAddress_sendFull_iff]
    constructor
    · intro h
      -- a flag that was cleared is not set again
      have hfirst : (e.afterAddress s).sendFull = e.sendFull := by
        funext x
        cases hx : e.sendFull x with
        | true =>
          rw [← h] at hx
          exact foldl_afterAddress_sendFull rest hx
        | false =>
          cases hx' : (e.afterAddress s).sendFull x with
          | false => rfl
          | true =>
            have := foldl_afterAddress_sendFull [s] hx'
            rw [hx] at this
            cases this
      refine ⟨hfirst, ?_⟩
      rw [← EncodeContext.spares_congr (afterAddress_extends e s) hfirst,
        ← afterAddress_previous e s]
      exact (ih _).mp (h.trans hfirst.symm)
    · rintro ⟨hfirst, hrest⟩
      rw [← EncodeContext.spares_congr (afterAddress_extends e s) hfirst,
        ← afterAddress_previous e s] at hrest
      exact ((ih _).mpr hrest).trans hfirst

/-- A payload that was not put into the packet leaves the bytes of the buffer as they were. The
context is as it was, and the next payload is written as if there had been no other, exactly if
the time to live was refused, or the addresses of the header end with the previous one and spare
the flags of the subscribers. -/
theorem overlayFrameAppendPayload_refused (hbuffer : a.buffer.overrun = false → a.buffer.beyond = 0)
    (h : overlayFrameAppendPayload version encapsulation a p = .ok a') (hsent : a'.sent = a.sent) :
    (a'.buffer.bytes = a.buffer.bytes ∧ a'.buffer.position = a.buffer.position) ∧
      (((a'.context.previous = a.context.previous ∧ a'.context.sendFull = a.context.sendFull) ∧
          ∀ version' encapsulation' q, overlayFrameAppendPayload version' encapsulation' a' q =
            overlayFrameAppendPayload version' encapsulation' a q) ↔
        payloadTtlMax < p.ttl ∨
          (p.outgoing.addresses a.context).getLast?.or a.context.previous = a.context.previous ∧
            a.context.Spares a.context.previous (p.outgoing.addresses a.context)) := by
  obtain ⟨items, e', hbuild, hcases⟩ := overlayFrameAppendPayload_cases h
  have hrefused : ∃ b, a' = { a with
      context := e'
      buffer := b } ∧ b.checkpoint = a.buffer.checkpoint := by
    rcases hcases with rfl | ⟨header, b, rfl, hb, ⟨hover, rfl⟩ | ⟨-, rfl⟩⟩
    · exact ⟨_, rfl, rfl⟩
    · have hfits : a.buffer.overrun = false := by
        by_contra hfull
        have hfail := OutBuf.appendAll_overrun (b := a.buffer.checkpoint)
          (Bool.eq_true_of_not_eq_false hfull)
          (overlayFrameBuildHeader_appends hbuild (payloadItems encapsulation p.payload))
        exact nomatch hb.symm.trans hfail
      have hbeyond := hbuffer hfits
      obtain ⟨hbytes, hzero⟩ := OutBuf.rewind_appendAll hbeyond hb
      have hlimit := (OutBuf.appendAll_eq_ok hb).sizeLimit_eq
      refine ⟨_, rfl, ?_⟩
      rw [OutBuf.checkpoint, OutBuf.checkpoint, OutBuf.position, OutBuf.position, hbytes, hzero,
        hbeyond]
      exact congrArg (OutBuf.mk _ _ _) hlimit
    · exact absurd (congrArg length hsent) (by simp)
  obtain ⟨b, rfl, hb⟩ := hrefused
  obtain ⟨hbytes, -, hposition, -⟩ := OutBuf.mk.inj hb
  refine ⟨⟨hbytes, hposition⟩, ?_⟩
  rcases overlayFrameBuildHeader_context hbuild with ⟨httl, rfl⟩ | ⟨httl, rfl⟩
  · refine iff_of_true ⟨⟨rfl, rfl⟩, fun _ _ q => ?_⟩ (.inl httl)
    unfold overlayFrameAppendPayload
    rw [hb]
  change p.ttl ≤ payloadTtlMax at httl
  rw [or_iff_right (not_lt.mpr httl), ← foldl_afterAddress_previous,
    ← foldl_afterAddress_sendFull_iff]
  refine and_iff_left_of_imp fun hcontext _ _ q => ?_
  have hsame := foldl_afterAddress_eq (p.outgoing.addresses a.context) a.context
  rw [hcontext.1, hcontext.2] at hsame
  rw [hsame]
  unfold overlayFrameAppendPayload
  rw [hb]

end Refused

/-- A message of one byte from this subscriber to all neighbours. -/
def announcement (source : Sid) : Queued where
  queue := 0
  type := ofTypeData
  modifiers := 0
  willRetransmit := false
  ttl := 1
  mdpSequence := 0
  broadcastId := ⟨List.replicate broadcastLen 0#8, rfl⟩
  nextHop := none
  destination := none
  source := source
  payload := [0#8]
  size := by decide

/-- An empty packet with room for six bytes. -/
def narrowPacket : Assembly where
  context := .new (.uniform 0x1a) (fun _ => 1) false (fun _ => false)
  buffer := .new 6
  header := []
  sent := []

theorem overlayFrameAppendPayload_refused_narrow :
    ∃ a, overlayFrameAppendPayload 1 .overlay narrowPacket (announcement (.uniform 0x77)) = .ok a ∧
      a.sent = [] ∧ a.buffer.bytes = [] := by
  have hrefused : (overlayFrameAppendPayload 1 .overlay narrowPacket
      (announcement (.uniform 0x77))).toOption.map (fun a => a.sent.isEmpty) = some true := by
    decide +kernel
  rcases h : overlayFrameAppendPayload 1 .overlay narrowPacket
    (announcement (.uniform 0x77)) with e | a <;>
    rw [h] at hrefused
  · cases hrefused
  · have hsent : a.sent = [] := isEmpty_iff.mp (Option.some.inj hrefused)
    exact ⟨a, rfl, hsent, (overlayFrameAppendPayload_refused (fun _ => rfl) h hsent).1.1⟩

/-- The payload does not fit. When it is tried again it does, because its source is then written
as the previous address, which no address of the packet is. -/
theorem overlayFrameAppendPayload_refused_previous :
    (overlayFrameAppendPayload 1 .overlay narrowPacket
      (announcement (.uniform 0x77))).toOption.map (fun a =>
        ((a.sent.isEmpty, a.buffer.bytes, a.context.previous),
          (overlayFrameAppendPayload 1 .overlay a (announcement (.uniform 0x77))).toOption.map
            fun a' => a'.buffer.bytes)) =
      some ((true, [], some (.uniform 0x77)), some [6, 0xfe, 0, 0, 1, 0]) := by
  decide +kernel

end ServalMesh.Overlay
