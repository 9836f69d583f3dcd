import ServalMesh.Overlay.Header

/-!
# Whole packets

`packetOkOverlay` parses a packet, forwards and processes its payloads and answers
addresses that it does not know. A packet is put together by
`overlay_packet_init_header` and `overlay_frame_append_payload`.
-/

namespace ServalMesh.Overlay

open Lib

def supportedPacketVersion : ℕ := 1

/-- `PACKET_UNICAST` and the others, as bit numbers. -/
def packetUnicast : ℕ := 0

def packetInterface : ℕ := 1

def packetSeq : ℕ := 2

def ofTypePleaseExplain : ℕ := 0x60

def payloadTtlDefault : ℕ := 31

def oqMeshManagement : ℕ := 1

def oqMax : ℕ := 5

def Encapsulation.code : Encapsulation → Byte
  | .overlay => 1#8
  | .single => 2#8

/-- The encapsulations that `parseEnvelopeHeader` accepts. -/
def Encapsulation.ofCode (code : Byte) : Option Encapsulation :=
  if code = 1#8 then some .overlay else if code = 2#8 then some .single else none

section Queueing

variable {τ : Type} (host : Host τ)

/-- `_overlay_payload_enqueue`. -/
def overlayPayloadEnqueue (frame : Frame) (payload : OutBuf) : Run Abort (Rx τ) Unit :=
  if oqMax ≤ frame.queue then Run.abort .assertion
  else if payload.overrun then pure ()
  else if mdpMtu ≤ payload.position then Run.abort .fatal
  else Run.modify fun s => { s with daemon := host.enqueue s.daemon frame payload.bytes }

/-- `op_dup` of a frame whose payload is a slice of the packet. -/
def obDup (payload : List Byte) : OutBuf where
  bytes := payload
  beyond := 0
  checkpointLength := 0
  sizeLimit := payload.length

def overlayForwardPayload (payload : List Byte) : Run Abort (Rx τ) Unit := do
  let s ← Run.get
  if s.frame.ttl = 0 then pure () else overlayPayloadEnqueue host s.frame (obDup payload)

/-- `send_please_explain`, in a context with an interface. -/
def sendPleaseExplain (reply : Reply) (sender source destination : Option Sid) :
    Run Abort (Rx τ) Unit :=
  overlayPayloadEnqueue host
    { Frame.zero with
      source := source.getD host.mySubscriber
      destination := destination
      ttl := if destination.isSome then payloadTtlDefault else 1
      queue := oqMeshManagement
      type := ofTypePleaseExplain
      sourceFull := reply.sourceFull || sender.isNone || destination.isSome }
    reply.payload

/-- The loop of `process_explain`. A badly formatted request is answered with nothing. -/
def explainRequests : ℕ → List Byte → τ → Option Reply → Except Abort (τ × Option Reply)
  | _, [], daemon, reply => .ok (daemon, reply)
  | 0, _ :: _, _, _ => .error .endless
  | fuel + 1, len :: rest, daemon, reply =>
    if len = oaCodeP2pYou then do
      let (_, daemon, reply) ← addExplainResponse host host.mySubscriber daemon reply
      explainRequests fuel rest daemon reply
    else if len.toNat = 0 ∨ sidSize < len.toNat ∨ rest.length < len.toNat then .ok (daemon, none)
    else
      let id := rest.take len.toNat
      let rest := rest.drop len.toNat
      if len.toNat = sidSize then
        explainRequests fuel rest (host.findSubscriber daemon id).1 reply
      else do
        let (daemon, reply) ← explainAll host (host.walkTree daemon id) daemon reply
        explainRequests fuel rest daemon reply

def processExplain (payload : List Byte) : Run Abort (Rx τ) Unit := do
  let s ← Run.get
  let (daemon, reply) ← Run.ofExcept (explainRequests host payload.length payload s.daemon none)
  Run.modify fun s => { s with daemon }
  match reply with
  | none => pure ()
  | some reply =>
    sendPleaseExplain host reply s.frame.source s.frame.destination s.frame.source

def processIncomingFrame (payload : List Byte) : Run Abort (Rx τ) Unit := do
  let s ← Run.get
  if s.frame.type = ofTypePleaseExplain then processExplain host payload
  else Run.modify fun s => { s with daemon := host.processFrame s.daemon s.frame payload }

end Queueing

section Packets

variable {τ : Type} (host : Host τ) (packet : List Byte)

/-- A byte that is there if a flag says so. -/
def obGetIf (set : Bool) : Run Abort (Rx τ) (Option Byte) :=
  if set then obGet packet else pure none

/-- The optional bytes of the envelope: a missing byte reads as -1, all of whose bits
are set. -/
def parseEnvelopeFlags : Run Abort (Rx τ) (Byte × Option Byte) := do
  let byte ← obGet packet
  let flags := byte.getD 0xff#8
  let interface ← obGetIf packet (flags.getLsbD packetInterface)
  Run.modify fun s => { s with
    context := { s.context with
      senderInterface :=
        if flags.getLsbD packetInterface then (interface.map fun b => (b.toNat : ℤ)).getD (-1)
        else 0 } }
  let seq ← obGetIf packet (flags.getLsbD packetSeq)
  pure (flags, if flags.getLsbD packetSeq then some (seq.getD 0xff#8) else none)

/-- The part of `parseEnvelopeHeader` after the bytes have been read: our own packets are
ignored, and a point to point link is established with the sender. -/
def acceptSender (flags : Byte) (seq : Option Byte) : Run Abort (Rx τ) ℤ := do
  let s ← Run.get
  if s.context.sender.any (host.isSelf s.daemon) then pure 1
  else
    Run.modify fun s =>
      if s.context.sender.isSome ∧ s.interface.pointToPoint = true ∧
          s.interface.otherDevice ≠ s.context.sender then
        { s with
          interface := { s.interface with otherDevice := s.context.sender }
          context := { s.context with pointToPointDevice := s.context.sender } }
      else s
    Run.modify fun s => { s with daemon := host.receivedPacket s.daemon s.context seq flags }
    pure 0

def parseEnvelopeHeader : Run Abort (Rx τ) ℤ := do
  Run.modify fun s => { s with
    context := { s.context with
      pointToPointDevice :=
        if s.interface.pointToPoint then s.interface.otherDevice else none
      senderInterface := 0 } }
  match ← obGet packet with
  | none => pure (-1)
  | some version =>
    if supportedPacketVersion < version.toNat then pure (-1)
    else
      match ← obGet packet with
      | none => pure (-1)
      | some code =>
        match Encapsulation.ofCode code with
        | none => pure (-1)
        | some encapsulation =>
          Run.modify fun s => { s with
            context := { s.context with
              packetVersion := version.toNat
              encapsulation } }
          match ← overlayAddressParse host packet none with
          | none => pure (-1)
          | some sender =>
            Run.modify fun s => { s with context := { s.context with sender } }
            let (flags, seq) ← parseEnvelopeFlags packet
            acceptSender host flags seq

/-- The length of the payload, or `none` if it is not there. -/
def payloadLength : Run Abort (Rx τ) (Option ℕ) := do
  let s ← Run.get
  match s.context.encapsulation with
  | .single =>
    let left ← obRemaining packet
    pure (some left)
  | .overlay =>
    let len ← obGetUi16 packet
    let left ← obRemaining packet
    pure (if left < len then none else some len)

/-- What is done with a payload that is for somebody. -/
def handlePayload (verdict : Verdict) (payload : List Byte) : Run Abort (Rx τ) Unit := do
  Run.when verdict.forward (overlayForwardPayload host payload)
  Run.when verdict.process (processIncomingFrame host payload)
  Run.modify fun s =>
    if s.frame.modifiers.getLsbD payloadFlagAckSoon = true ∧
        (s.frame.destination = some host.mySubscriber ∨ s.frame.destination = none) then
      { s with daemon := host.linkStateAckSoon s.daemon s.context.sender }
    else s

/-- One round of the payload loop; tells whether to go on. -/
def payloadStep : Run Abort (Rx τ) Bool := do
  Run.modify fun s => { s with
    context := { s.context with invalidAddresses := false }
    frame := { s.frame with broadcastId := List.replicate broadcastLen 0#8 } }
  let before ← Run.get
  match ← parseMdpPacketHeader host packet with
  | none => pure false
  | some header =>
    Run.modify fun s => { s with
      parsed := s.parsed ++ [{
        before := before.context
        process := header.verdict.process
        forward := header.verdict.forward
        source := s.frame.source
        destination := s.frame.destination
        nexthop := header.nexthop }] }
    match ← payloadLength packet with
    | none => pure false
    | some len =>
      let s ← Run.get
      let next := s.position + len
      if header.verdict.process || header.verdict.forward then
        -- `ob_slice` returns NULL outside of the packet
        if next ≤ packet.length then
          handlePayload host header.verdict ((packet.drop s.position).take len)
          Run.modify fun s => { s with position := next }
          pure true
        else pure false
      else
        Run.modify fun s => { s with position := next }
        pure true

/-- The payload loop; tells whether it came to the end of the packet. -/
def payloadLoop : ℕ → Run Abort (Rx τ) Bool
  | 0 => Run.abort .endless
  | fuel + 1 => do
    let left ← obRemaining packet
    if left = 0 then pure true
    else
      let goOn ← payloadStep host packet
      if goOn then payloadLoop fuel else pure false

/-- What is done at the label `end`. -/
def answer : Run Abort (Rx τ) Unit := do
  let s ← Run.get
  match s.context.pleaseExplain with
  | none => pure ()
  | some reply =>
    sendPleaseExplain host reply s.context.sender (some host.mySubscriber) s.context.sender

def packetOkOverlay : Run Abort (Rx τ) ℤ := do
  let ret ← parseEnvelopeHeader host packet
  if ret ≠ 0 then pure ret
  else
    Run.modify fun s => { s with
      frame := { s.frame with senderInterface := s.context.senderInterface } }
    let done ← payloadLoop host packet (packet.length + 1)
    answer host
    pure (if done then 0 else -1)

/-- The state in which `packetOkOverlay` is called. -/
def Rx.initial (daemon : τ) (interface : Interface) : Rx τ where
  daemon := daemon
  position := 0
  interface := interface
  context := ⟨0, 0, .overlay, false, none, none, none, none⟩
  frame := Frame.zero
  lookups := []
  parsed := []

end Packets

section Assembling

/-- The fields of a queued `struct overlay_frame` that `overlay_frame_append_payload`
reads, and the next hop it is given. Queued payloads are below `MDP_MTU`. -/
structure Queued where
  queue : ℕ
  type : ℕ
  modifiers : ℕ
  willRetransmit : Bool
  ttl : ℕ
  mdpSequence : ℕ
  broadcastId : Broadcast
  nextHop : Option Sid
  destination : Option Sid
  source : Sid
  payload : List Byte
  size : payload.length < mdpMtu

/-- The arguments for `overlay_frame_build_header`. -/
def Queued.outgoing (p : Queued) : Outgoing where
  queue := p.queue
  type := p.type
  modifiers := p.modifiers
  willRetransmit := p.willRetransmit
  ttl := p.ttl
  sequence := p.mdpSequence &&& 0xFF
  broadcast :=
    if p.destination = none ∧ p.broadcastId.id ≠ List.replicate broadcastLen 0#8 then
      some p.broadcastId
    else none
  nextHop := p.nextHop
  destination := p.destination
  source := p.source

/-- `ob_append_ui16`. -/
def ui16 (v : ℕ) : Item :=
  .bytes [BitVec.ofNat 8 ((v >>> 8) &&& 0xFF), BitVec.ofNat 8 (v &&& 0xFF)]

/-- What follows the header of a payload. -/
def payloadItems (encapsulation : Encapsulation) (payload : List Byte) : List Item :=
  (if encapsulation = .overlay then [ui16 payload.length] else [])
    ++ if payload = [] then [] else [.bytes payload]

/-- A payload that is in the packet: the context its header was written in, the header
and the payload. -/
structure Sent where
  context : EncodeContext
  outgoing : Outgoing
  header : List Item
  payload : List Byte

/-- `struct outgoing_packet`. -/
structure Assembly where
  context : EncodeContext
  buffer : OutBuf
  header : List Item
  sent : List Sent

/-- `overlay_frame_append_payload`. A payload that does not fit is taken out of the
buffer again, but the context stays as its header has left it. -/
def overlayFrameAppendPayload (packetVersion : ℕ) (encapsulation : Encapsulation) (a : Assembly)
    (p : Queued) : Except Abort Assembly := do
  let buffer := a.buffer.checkpoint
  let (header, context) ← overlayFrameBuildHeader packetVersion a.context p.outgoing
  match header with
  | none => .ok { a with
      context
      buffer := buffer.rewind }
  | some header => do
    let items := header ++ payloadItems encapsulation p.payload
    let buffer ← buffer.appendAll (items.flatMap Item.appends)
    if buffer.overrun then
      .ok { a with
        context
        buffer := buffer.rewind }
    else
      .ok { a with
        context
        buffer
        sent := a.sent ++ [⟨a.context, p.outgoing, header, p.payload⟩] }

/-- `overlay_packet_init_header`: what it appends, or `none` for -1. -/
def overlayPacketInitHeader (packetVersion : ℕ) (encapsulation : Encapsulation)
    (interface : Interface) (e : EncodeContext) (unicast : Bool) (index : Byte) (seq : Option ℕ) :
    Option (List Item × EncodeContext) :=
  if supportedPacketVersion < packetVersion then none
  else
    let device :=
      if interface.pointToPoint = true ∧ interface.otherDevice.isSome ∧ 1 ≤ packetVersion then
        interface.otherDevice
      else e.pointToPointDevice
    let e := { e with
      pointToPointDevice := device
      encodingHeader := true }
    let (address, e) := overlayAddressAppend e e.mySubscriber
    let e := { e with
      encodingHeader := false
      sender := some e.mySubscriber }
    let flags := flag packetUnicast unicast ||| flag packetInterface (index ≠ 0#8)
      ||| flag packetSeq seq.isSome
    some ([.bytes [BitVec.ofNat 8 packetVersion], .bytes [encapsulation.code]] ++ address
      ++ [.bytes [flags]] ++ (if index ≠ 0#8 then [.bytes [index]] else [])
      ++ (match seq with
        | some seq => [.bytes [BitVec.ofNat 8 seq]]
        | none => []), e)

/-- The context of a new packet. -/
def EncodeContext.new (me : Sid) (abbreviateLen : Sid → ℕ) (localEcho : Bool)
    (sendFull : Sid → Bool) : EncodeContext where
  mySubscriber := me
  abbreviateLen := abbreviateLen
  localEcho := localEcho
  encodingHeader := false
  pointToPointDevice := none
  sender := none
  previous := none
  sendFull := sendFull

/-- The arguments of `overlay_init_packet`. -/
structure PacketParams where
  packetVersion : ℕ
  encapsulation : Encapsulation
  interface : Interface
  mtu : ℕ
  unicast : Bool
  index : Byte
  seq : Option ℕ

/-- `overlay_init_packet`. -/
def overlayInitPacket (params : PacketParams) (e : EncodeContext) :
    Except Abort (Option Assembly) :=
  match overlayPacketInitHeader params.packetVersion params.encapsulation params.interface e
      params.unicast params.index params.seq with
  | none => .ok none
  | some (header, context) => do
    let buffer ← (OutBuf.new params.mtu).appendAll (header.flatMap Item.appends)
    .ok (some ⟨context, buffer, header, []⟩)

/-- A packet is filled with payloads; with `ENCAP_SINGLE` there is one attempt. -/
def overlayStuffPacket (params : PacketParams) (a : Assembly) (payloads : List Queued) :
    Except Abort Assembly :=
  let payloads := match params.encapsulation with
    | .single => payloads.take 1
    | .overlay => payloads
  payloads.foldlM (overlayFrameAppendPayload params.packetVersion params.encapsulation) a

end Assembling

end ServalMesh.Overlay
