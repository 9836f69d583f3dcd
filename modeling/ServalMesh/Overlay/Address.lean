import ServalMesh.Lib.Run
import ServalMesh.Overlay.Buffer

/-!
# Addresses on the wire

`overlay_address_append` writes a subscriber as a one byte code that refers to the
context, or as a whole or abbreviated id. `overlay_address_parse` reads it in the
context of the receiver, which asks for an explanation of what it does not know.
-/

namespace ServalMesh.Overlay

open Lib

def oaCodeSelf : Byte := 0xff#8

def oaCodePrevious : Byte := 0xfe#8

def oaCodeP2pYou : Byte := 0xfd#8

def oaCodeP2pMe : Byte := 0xfc#8

/-- `struct decode_context` while encoding, and what it reads of the sender:
`localEcho` is the one of the interface, `abbreviateLen` and `sendFull` are those of
each subscriber. -/
structure EncodeContext where
  mySubscriber : Sid
  abbreviateLen : Sid → ℕ
  localEcho : Bool
  encodingHeader : Bool
  pointToPointDevice : Option Sid
  sender : Option Sid
  previous : Option Sid
  sendFull : Sid → Bool

/-- How an address is written. -/
inductive AddressCode where
  | p2pYou
  | p2pMe
  | self
  | previous
  | explicit (len : ℕ)
deriving DecidableEq

/-- The choice made by `overlay_address_append`. -/
def EncodeContext.addressCode (e : EncodeContext) (s : Sid) : AddressCode :=
  if e.pointToPointDevice = some s then .p2pYou
  else if e.sendFull s = false ∧ s = e.mySubscriber ∧ e.pointToPointDevice.isSome ∧
      (e.encodingHeader = false ∨ e.localEcho = false) then .p2pMe
  else if e.sender = some s then .self
  else if e.previous = some s then .previous
  else if e.sendFull s then .explicit sidSize
  else .explicit ((Known.mk s.bytes (e.abbreviateLen s)).addressLen e.encodingHeader)

/-- Something that an encoder appends. -/
inductive Item where
  | bytes (data : List Byte)
  | address (s : Sid) (code : AddressCode)
deriving DecidableEq

/-- The calls of `ob_append_byte` and `ob_append_bytes` for an item. -/
def Item.appends : Item → List (List Byte)
  | .bytes data => [data]
  | .address _ .p2pYou => [[oaCodeP2pYou]]
  | .address _ .p2pMe => [[oaCodeP2pMe]]
  | .address _ .self => [[oaCodeSelf]]
  | .address _ .previous => [[oaCodePrevious]]
  | .address s (.explicit len) => [[BitVec.ofNat 8 len], s.bytes.take len]

/-- All the bytes of some items. -/
def wire (items : List Item) : List Byte := (items.flatMap Item.appends).flatten

@[simp]
theorem wire_nil : wire [] = [] := rfl

theorem wire_append (items items' : List Item) :
    wire (items ++ items') = wire items ++ wire items' := by
  simp [wire]

@[simp]
theorem wire_bytes (data : List Byte) (items : List Item) :
    wire (.bytes data :: items) = data ++ wire items := by
  simp [wire, Item.appends]

/-- The context after an address has been written: a whole id clears `send_full`. -/
def EncodeContext.afterAddress (e : EncodeContext) (s : Sid) : EncodeContext :=
  match e.addressCode s with
  | .explicit _ =>
    { e with
      previous := some s
      sendFull := Function.update e.sendFull s false }
  | _ => { e with previous := some s }

def overlayAddressAppend (e : EncodeContext) (s : Sid) : List Item × EncodeContext :=
  ([.address s (e.addressCode s)], e.afterAddress s)

/-- The fields of `struct overlay_interface` that the parser uses. -/
structure Interface where
  pointToPoint : Bool
  otherDevice : Option Sid
deriving DecidableEq

inductive Encapsulation where
  | overlay
  | single
deriving DecidableEq

/-- `context->please_explain`: the payload of the frame and its `source_full`. -/
structure Reply where
  payload : OutBuf
  sourceFull : Bool
deriving DecidableEq

def Reply.new (limit : ℕ) : Reply where
  payload := OutBuf.new limit
  sourceFull := false

/-- `struct decode_context` while decoding. -/
structure DecodeContext where
  senderInterface : ℤ
  packetVersion : ℕ
  encapsulation : Encapsulation
  invalidAddresses : Bool
  pleaseExplain : Option Reply
  sender : Option Sid
  previous : Option Sid
  pointToPointDevice : Option Sid
deriving DecidableEq

/-- The fields of `struct overlay_frame` that the parser or a reply fills in. -/
structure Frame where
  source : Option Sid
  destination : Option Sid
  broadcastId : List Byte
  ttl : ℕ
  queue : ℕ
  type : ℕ
  modifiers : Byte
  packetVersion : ℕ
  senderInterface : ℤ
  sourceFull : Bool
deriving DecidableEq

/-- The rest of the daemon, whose state `τ` the parser changes only through these
operations. Subscribers are named by their ids. -/
structure Host (τ : Type) where
  mySubscriber : Sid
  /-- `subscriber->reachable == REACHABLE_SELF` -/
  isSelf : τ → Sid → Bool
  /-- `find_subscriber(id, len, 1)` -/
  findSubscriber : τ → List Byte → τ × Option Sid
  /-- the subscribers that `walk_tree` visits for an abbreviation -/
  walkTree : τ → List Byte → List Sid
  /-- the last explanation was at least half a second ago -/
  explainDue : τ → Sid → Bool
  setExplained : τ → Sid → τ
  setSendFull : τ → Sid → τ
  linkExplained : τ → Sid → τ
  broadcastDropCheck : τ → List Byte → τ × Bool
  shouldForwardBroadcast : τ → Option Sid → Bool
  linkReceivedDuplicate : τ → Option Sid → Byte → τ × Bool
  /-- the updates of the sender, `link_received_packet` and `recv_count` -/
  receivedPacket : τ → DecodeContext → Option Byte → Byte → τ
  /-- the rest of `overlay_payload_enqueue`, once the size of the payload is checked -/
  enqueue : τ → Frame → List Byte → τ
  /-- the frame types of `process_incoming_frame` that do not explain addresses -/
  processFrame : τ → Frame → List Byte → τ
  linkStateAckSoon : τ → Option Sid → τ

/-- A header that was parsed, and the context before. -/
structure Parsed where
  before : DecodeContext
  process : Bool
  forward : Bool
  source : Option Sid
  destination : Option Sid
  nexthop : Option Sid
deriving DecidableEq

/-- An id that was looked up, and the subscriber that was found. -/
abbrev Lookup := List Byte × Option Sid

/-- All that parsing a packet changes. `lookups` (the latest first) and `parsed` (the latest
last) only record what happened. -/
structure Rx (τ : Type) where
  daemon : τ
  position : ℕ
  interface : Interface
  context : DecodeContext
  frame : Frame
  lookups : List Lookup
  parsed : List Parsed

section Reading

variable {τ : Type} (packet : List Byte)

/-- The bytes from a position on; reading outside of the packet would be undefined. -/
def readBytes (position len : ℕ) : Run Abort (Rx τ) (List Byte) :=
  if position + len ≤ packet.length then pure ((packet.drop position).take len)
  else Run.abort .outOfBounds

/-- `ob_get_bytes` and `ob_get_bytes_ptr`; the packet is as long as its limit. -/
def obGetBytes (len : ℕ) : Run Abort (Rx τ) (Option (List Byte)) := do
  let s ← Run.get
  if s.position + len ≤ packet.length then
    let bytes ← readBytes packet s.position len
    Run.modify fun s => { s with position := s.position + len }
    pure (some bytes)
  else pure none

/-- `ob_get`, with `none` for -1. -/
def obGet : Run Abort (Rx τ) (Option Byte) := do
  match ← obGetBytes packet 1 with
  | some bytes => pure bytes.head?
  | none => pure none

def obGetUi16 : Run Abort (Rx τ) ℕ := do
  let bytes ← obGetBytes packet 2
  pure (ui16Value bytes).toNat

def obRemaining : Run Abort (Rx τ) ℕ := do
  let s ← Run.get
  if s.position ≤ packet.length then pure (packet.length - s.position)
  else Run.abort .assertion

end Reading

section Explaining

variable {τ : Type} (host : Host τ)

/-- Tell the sender about one subscriber; the result tells whether to stop. -/
def addExplainResponse (s : Sid) (daemon : τ) (reply : Option Reply) :
    Except Abort (Bool × τ × Option Reply) :=
  if host.explainDue daemon s = false then .ok (false, daemon, reply)
  else
    let daemon := host.setExplained daemon s
    let reply := reply.getD (.new 1024)
    if host.isSelf daemon s = true ∧ s = host.mySubscriber then
      .ok (false, daemon, some { reply with sourceFull := true })
    else
      let daemon := if host.isSelf daemon s then host.setSendFull daemon s else daemon
      do
        let payload ← reply.payload.checkpoint.appendAll [[BitVec.ofNat 8 sidSize], s.bytes]
        if payload.overrun then
          .ok (true, daemon, some { reply with payload := payload.rewind })
        else .ok (false, host.linkExplained daemon s, some { reply with payload })

/-- `walk_tree` with `add_explain_response`. -/
def explainAll : List Sid → τ → Option Reply → Except Abort (τ × Option Reply)
  | [], daemon, reply => .ok (daemon, reply)
  | s :: rest, daemon, reply => do
    let (stop, daemon, reply) ← addExplainResponse host s daemon reply
    if stop then .ok (daemon, reply) else explainAll rest daemon reply

/-- The part of `find_subscr_buffer` that asks for an explanation of an id, and
explains the subscribers that it may be taken for. -/
def askExplanation (id : List Byte) : Run Abort (Rx τ) Unit := do
  let s ← Run.get
  let reply := s.context.pleaseExplain.getD (.new mdpMtu)
  let known := host.walkTree s.daemon id
  let (daemon, reply) ← Run.ofExcept (explainAll host known s.daemon (some reply))
  let reply := reply.getD (.new mdpMtu)
  let payload ← Run.ofExcept (reply.payload.appendAll [[BitVec.ofNat 8 id.length], id])
  Run.modify fun s => { s with
    daemon
    context := { s.context with pleaseExplain := some { reply with payload } } }

/-- The part of `overlay_address_parse` that asks who the sender is. -/
def askPeer : Run Abort (Rx τ) Unit := do
  let s ← Run.get
  let reply := s.context.pleaseExplain.getD (.new mdpMtu)
  let payload ← Run.ofExcept (reply.payload.append [oaCodeP2pYou])
  Run.modify fun s => { s with
    context := { s.context with pleaseExplain := some { reply with payload } } }

end Explaining

section Parsing

variable {τ : Type} (host : Host τ) (packet : List Byte)

def setPrevious (s : Sid) : Run Abort (Rx τ) Unit :=
  Run.modify fun r => { r with context := { r.context with previous := some s } }

def setInvalid : Run Abort (Rx τ) Unit :=
  Run.modify fun r => { r with context := { r.context with invalidAddresses := true } }

/-- `find_subscr_buffer`: `none` for -1, or else the new `*subscriber`. -/
def findSubscrBuffer (len : ℕ) : Run Abort (Rx τ) (Option (Option Sid)) := do
  if len = 0 ∨ sidSize < len then pure none
  else
    match ← obGetBytes packet len with
    | none => pure none
    | some id =>
      let s ← Run.get
      let (daemon, subscriber) := host.findSubscriber s.daemon id
      Run.modify fun s => { s with
        daemon
        lookups := (id, subscriber) :: s.lookups }
      match subscriber with
      | none =>
        setInvalid
        askExplanation host id
        pure (some none)
      | some subscriber =>
        setPrevious subscriber
        pure (some (some subscriber))

/-- `overlay_address_parse`, given `*subscriber`: `none` for -1, or else the new
`*subscriber`, which stays as it was when a code means nothing here. -/
def overlayAddressParse (subscriber : Option Sid) : Run Abort (Rx τ) (Option (Option Sid)) := do
  match ← obGet packet with
  | none => pure none
  | some code =>
    let s ← Run.get
    if code = oaCodeP2pYou then
      if s.context.pointToPointDevice.isSome then
        setPrevious host.mySubscriber
        pure (some (some host.mySubscriber))
      else
        setInvalid
        pure (some subscriber)
    else if code = oaCodeP2pMe then
      match s.context.pointToPointDevice with
      | some device =>
        setPrevious device
        pure (some (some device))
      | none =>
        askPeer
        setInvalid
        pure (some subscriber)
    else if code = oaCodeSelf then
      match s.context.sender with
      | some sender =>
        setPrevious sender
        pure (some (some sender))
      | none =>
        setInvalid
        pure (some subscriber)
    else if code = oaCodePrevious then
      match s.context.previous with
      | some previous => pure (some (some previous))
      | none =>
        setInvalid
        pure (some subscriber)
    else findSubscrBuffer host packet code.toNat

end Parsing

end ServalMesh.Overlay
