import ServalMesh.Overlay.Address

/-!
# Payload headers

`overlay_frame_build_header` writes the header of a payload and
`parseMdpPacketHeader` reads it. Which fields are there depends on the flags alone.
-/

namespace ServalMesh.Overlay

open Lib

def ofTypeData : ℕ := 0x30

def payloadTtlMax : ℕ := 31

/-- `PAYLOAD_FLAG_SENDER_SAME` and the others, as bit numbers. -/
def payloadFlagSenderSame : ℕ := 0

def payloadFlagToBroadcast : ℕ := 1

def payloadFlagOneHop : ℕ := 2

def payloadFlagCiphered : ℕ := 4

def payloadFlagSigned : ℕ := 5

def payloadFlagAckSoon : ℕ := 6

def payloadFlagLegacyType : ℕ := 7

/-- A flag byte with one flag, if it is to be set. -/
def flag (bit : ℕ) (set : Bool) : Byte := if set then 1#8 <<< bit else 0#8

theorem flag_getLsbD {bit i : ℕ} {set : Bool} (hi : i < 8) :
    (flag bit set).getLsbD i = (set && decide (i = bit)) := by
  cases set with
  | false => simp [flag]
  | true =>
    simp only [flag, if_true, BitVec.getLsbD_shiftLeft, BitVec.getLsbD_one, hi, Bool.true_and,
      decide_true]
    by_cases h : i < bit
    · simp [h]
      omega
    · simp [h]
      omega

/-- A frame after `bzero`. -/
def Frame.zero : Frame where
  source := none
  destination := none
  broadcastId := List.replicate broadcastLen 0#8
  ttl := 0
  queue := 0
  type := 0
  modifiers := 0#8
  packetVersion := 0
  senderInterface := 0
  sourceFull := false

/-- What `overlay_frame_build_header` is told about the payload. -/
structure Outgoing where
  queue : ℕ
  type : ℕ
  modifiers : ℕ
  willRetransmit : Bool
  ttl : ℕ
  sequence : ℕ
  broadcast : Option Broadcast
  nextHop : Option Sid
  destination : Option Sid
  source : Sid
deriving DecidableEq

namespace Outgoing

variable (f : Outgoing) (e : EncodeContext)

def oneHop : Bool :=
  (f.ttl = 1 ∧ f.broadcast = none) ∨ (f.destination ≠ none ∧ f.destination = f.nextHop)

def senderSame : Bool := e.sender = some f.source

def toBroadcast : Bool := f.destination = none

def legacyType : Bool := f.type ≠ ofTypeData

def flags : Byte :=
  (BitVec.ofNat 8 f.modifiers &&& (flag payloadFlagCiphered true ||| flag payloadFlagSigned true))
    ||| flag payloadFlagAckSoon f.willRetransmit ||| flag payloadFlagOneHop f.oneHop
    ||| flag payloadFlagSenderSame (f.senderSame e) ||| flag payloadFlagToBroadcast f.toBroadcast
    ||| flag payloadFlagLegacyType f.legacyType

/-- `ttl | ((queue&3)<<5)` -/
def ttlQueue : Byte := BitVec.ofNat 8 (f.ttl ||| (f.queue &&& 3) <<< 5)

end Outgoing

/-- An address of the header, which `overlay_address_append` asserts to be there. -/
def appendAddress (e : EncodeContext) : Option Sid → Except Abort (List Item × EncodeContext)
  | none => .error .assertion
  | some s => .ok (overlayAddressAppend e s)

/-- The source, unless it is the sender. -/
def appendSource (e : EncodeContext) (f : Outgoing) :
    Except Abort (List Item × EncodeContext) :=
  if f.senderSame e then .ok ([], e) else appendAddress e (some f.source)

/-- The broadcast id, or the destination and the next hop. -/
def appendDestination (e : EncodeContext) (f : Outgoing) :
    Except Abort (List Item × EncodeContext) :=
  match f.destination with
  | none =>
    if f.oneHop then .ok ([], e)
    else
      match f.broadcast with
      | none => .error .nullPointer
      | some broadcast => .ok ([.bytes broadcast.id], e)
  | some destination => do
    let (items, e) ← appendAddress e (some destination)
    if f.oneHop then .ok (items, e)
    else
      let (items', e) ← appendAddress e f.nextHop
      .ok (items ++ items', e)

/-- The bytes that follow the addresses. -/
def trailer (packetVersion : ℕ) (f : Outgoing) : List Item :=
  (if f.oneHop then [] else [.bytes [f.ttlQueue]])
    ++ (if f.legacyType then [.bytes [BitVec.ofNat 8 f.type]] else [])
    ++ if 1 ≤ packetVersion then [.bytes [BitVec.ofNat 8 f.sequence]] else []

/-- `overlay_frame_build_header`: what it appends, or `none` for -1. -/
def overlayFrameBuildHeader (packetVersion : ℕ) (e : EncodeContext) (f : Outgoing) :
    Except Abort (Option (List Item) × EncodeContext) :=
  if payloadTtlMax < f.ttl then .ok (none, e)
  else do
    let flags := f.flags e
    let (source, e) ← appendSource e f
    let (destination, e) ← appendDestination e f
    .ok (some ([.bytes [flags]] ++ source ++ destination ++ trailer packetVersion f), e)

section Parsing

variable {τ : Type} (host : Host τ) (packet : List Byte)

/-- The local variables `process` and `forward`. -/
structure Verdict where
  process : Bool
  forward : Bool
deriving DecidableEq

def Verdict.and (v w : Verdict) : Verdict where
  process := v.process && w.process
  forward := v.forward && w.forward

/-- The source of a payload; `none` for -1. -/
def parseSource (flags : Byte) : Run Abort (Rx τ) (Option Verdict) := do
  let s ← Run.get
  if flags.getLsbD payloadFlagSenderSame then
    Run.modify fun s => { s with
      frame := { s.frame with source := s.context.sender }
      context := { s.context with
        invalidAddresses := s.context.invalidAddresses || s.context.sender.isNone } }
    pure (some ⟨true, true⟩)
  else
    match ← overlayAddressParse host packet s.frame.source with
    | none => pure none
    | some source =>
      Run.modify fun s => { s with frame := { s.frame with source } }
      let s ← Run.get
      let other := source.any fun source => !host.isSelf s.daemon source
      pure (some ⟨other, other⟩)

/-- The broadcast id of a payload for everybody. -/
def parseBroadcast (flags : Byte) : Run Abort (Rx τ) (Option Verdict) := do
  if flags.getLsbD payloadFlagOneHop then
    Run.modify fun s => { s with frame := { s.frame with destination := none } }
    pure (some ⟨true, true⟩)
  else
    match ← obGetBytes packet broadcastLen with
    | none => pure none
    | some id =>
      let s ← Run.get
      let (daemon, drop) := host.broadcastDropCheck s.daemon id
      Run.modify fun s => { s with
        daemon
        frame := { s.frame with
          broadcastId := id
          destination := none } }
      pure (some ⟨!drop, !drop && host.shouldForwardBroadcast daemon s.context.sender⟩)

/-- The destination and the next hop of a payload for somebody. -/
def parseDestination (flags : Byte) : Run Abort (Rx τ) (Option (Verdict × Option Sid)) := do
  let s ← Run.get
  match ← overlayAddressParse host packet s.frame.destination with
  | none => pure none
  | some destination =>
    Run.modify fun s => { s with frame := { s.frame with destination } }
    let s ← Run.get
    let process := destination.any (host.isSelf s.daemon)
    if flags.getLsbD payloadFlagOneHop then pure (some (⟨process, true⟩, none))
    else
      match ← overlayAddressParse host packet none with
      | none => pure none
      | some nexthop =>
        let s ← Run.get
        pure (some (⟨process, nexthop.any (host.isSelf s.daemon)⟩, nexthop))

/-- Both kinds of destination, with `*nexthop`. -/
def parseTarget (flags : Byte) : Run Abort (Rx τ) (Option (Verdict × Option Sid)) := do
  if flags.getLsbD payloadFlagToBroadcast then
    match ← parseBroadcast host packet flags with
    | none => pure none
    | some verdict => pure (some (verdict, none))
  else parseDestination host packet flags

/-- The time to live, one less than in the packet; tells whether it allows forwarding. -/
def parseTtl (flags : Byte) : Run Abort (Rx τ) (Option Bool) := do
  if flags.getLsbD payloadFlagOneHop then
    Run.modify fun s => { s with frame := { s.frame with ttl := 0 } }
    pure (some false)
  else
    match ← obGet packet with
    | none => pure none
    | some ttlQos =>
      let ttl := (ttlQos.toNat &&& 0x1F) - 1
      Run.modify fun s => { s with
        frame := { s.frame with
          ttl
          queue := (ttlQos.toNat >>> 5) &&& 3 } }
      pure (some (ttl ≠ 0))

def parseType (flags : Byte) : Run Abort (Rx τ) (Option ℕ) := do
  if flags.getLsbD payloadFlagLegacyType then
    match ← obGet packet with
    | none => pure none
    | some type => pure (some type.toNat)
  else pure (some ofTypeData)

/-- The sequence number; tells whether the payload is new. -/
def parseSequence : Run Abort (Rx τ) (Option (Option Byte × Bool)) := do
  let s ← Run.get
  if 1 ≤ s.context.packetVersion then
    match ← obGet packet with
    | none => pure none
    | some seq =>
      let s ← Run.get
      let (daemon, duplicate) := host.linkReceivedDuplicate s.daemon s.context.sender seq
      Run.modify fun s => { s with daemon }
      pure (some (some seq, !duplicate))
  else pure (some (none, true))

/-- What `parseMdpPacketHeader` finds out besides the fields of the frame. -/
structure Header where
  verdict : Verdict
  nexthop : Option Sid
  sequence : Option Byte
deriving DecidableEq

/-- What follows the addresses of the header. -/
def parseTrailer (flags : Byte) (verdict : Verdict) (nexthop : Option Sid) :
    Run Abort (Rx τ) (Option Header) := do
  match ← parseTtl packet flags with
  | none => pure none
  | some mayForward =>
    match ← parseType packet flags with
    | none => pure none
    | some type =>
      Run.modify fun s => { s with frame := { s.frame with type } }
      match ← parseSequence host packet with
      | none => pure none
      | some (sequence, new) =>
        Run.modify fun s => { s with
          frame := { s.frame with
            modifiers := flags
            packetVersion := s.context.packetVersion } }
        let s ← Run.get
        let valid := new && !s.context.invalidAddresses
        pure (some ⟨verdict.and ⟨valid, mayForward && valid⟩, nexthop, sequence⟩)

/-- `parseMdpPacketHeader`, called with `*nexthop` cleared; `none` for -1. -/
def parseMdpPacketHeader : Run Abort (Rx τ) (Option Header) := do
  match ← obGet packet with
  | none => pure none
  | some flags =>
    match ← parseSource host packet flags with
    | none => pure none
    | some verdict =>
      match ← parseTarget host packet flags with
      | none => pure none
      | some (verdict', nexthop) =>
        parseTrailer host packet flags (verdict.and verdict') nexthop

end Parsing

end ServalMesh.Overlay
