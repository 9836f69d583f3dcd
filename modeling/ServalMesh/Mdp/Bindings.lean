import ServalMesh.Mdp.Binding
import ServalMesh.Lib.PreferredSearch

/-!
# Binding and releasing ports

Internal services bind ports when the daemon starts. Clients bind ports with requests of the legacy
protocol, or with the packets that they send. A slot is released by setting its port to zero.
-/

namespace ServalMesh.Mdp

open Lib Overlay

variable {α η : Type}

def mdpFlagBind : Byte := 4#8

def mdpFlagClose : Byte := 8#8

/-- `SID_BROADCAST`. -/
def broadcastSid : Sid := ⟨List.replicate sidSize 0xff#8, List.length_replicate⟩

/-- `struct mdp_header`. -/
structure MdpHeader where
  localSid : Sid
  localPort : MdpPort
  remoteSid : Sid
  remotePort : MdpPort
  flags : Byte
  qos : Byte
  ttl : Byte
deriving DecidableEq

def MdpHeader.binds (header : MdpHeader) : Bool := header.flags &&& mdpFlagBind ≠ 0#8

def MdpHeader.closes (header : MdpHeader) : Bool := header.flags &&& mdpFlagClose ≠ 0#8

/-- The header of the frame that is sent for a packet. -/
def MdpHeader.internal (header : MdpHeader) (source : Option Sid) : InternalMdpHeader where
  source := source
  sourcePort := header.localPort
  destination := if header.remoteSid = broadcastSid then none else some header.remoteSid
  destinationPort := header.remotePort
  ttl := header.ttl
  qos := header.qos
  cryptFlags := header.flags &&& (mdpFlagNoCrypt ||| mdpFlagNoSign)

/-- What a slot is bound to. -/
def Binding.key (b : Binding α η) : Option Sid × MdpPort := (b.subscriber, b.port)

/-- A slot is taken for a client. -/
def Binding.take (b : Binding α η) (subscriber : Option Sid) (port : MdpPort) (version : ℕ)
    (client : Option α) : Binding α η :=
  { b with port := port, subscriber := subscriber, version := version, client := client }

/-- The bindings, with `next_port_binding` and `mdp_bindings_initialised`. -/
structure Bindings (α η : Type) where
  slots : List (Binding α η)
  nextPort : MdpPort
  initialised : Bool
  length_slots : slots.length = mdpMaxBindings

namespace Bindings

def initial : Bindings α η where
  slots := List.replicate mdpMaxBindings .zero
  nextPort := 256#32
  initialised := false
  length_slots := List.length_replicate

def modify (s : Bindings α η) (i : ℕ) (f : Binding α η → Binding α η) : Bindings α η where
  slots := s.slots.modify i f
  nextPort := s.nextPort
  initialised := s.initialised
  length_slots := (List.length_modify f s.slots i).trans s.length_slots

def map (s : Bindings α η) (f : Binding α η → Binding α η) : Bindings α η where
  slots := s.slots.map f
  nextPort := s.nextPort
  initialised := s.initialised
  length_slots := List.length_map f |>.trans s.length_slots

/-- The first slot with port zero. -/
def freeSlot (s : Bindings α η) : Option ℕ := s.slots.findIdx? fun b => b.port = 0#32

/-- Mark all slots as unused, the first time. -/
def initialise (s : Bindings α η) : Bindings α η :=
  if s.initialised then s
  else { s.map (fun b => { b with port := 0#32 }) with initialised := true }

end Bindings

section Services

variable [DecidableEq η]

/-- `mdp_bind_internal`, which says whether the port is bound. -/
def mdpBindInternal (s : Bindings α η) (subscriber : Option Sid) (port : MdpPort) (internal : η) :
    Bindings α η × Bool :=
  let s := s.initialise
  if s.slots.any fun b => b.key = (subscriber, port) then (s, false)
  else
    match s.freeSlot with
    | none => (s, false)
    | some i =>
      (s.modify i fun b =>
        { b with subscriber := subscriber, port := port, version := 1, internal := some internal },
        true)

/-- `mdp_unbind_internal`. -/
def mdpUnbindInternal (s : Bindings α η) (subscriber : Option Sid) (port : MdpPort)
    (internal : η) : Bindings α η :=
  s.map fun b =>
    if b.key = (subscriber, port) ∧ b.internal = some internal then
      { b with port := 0#32, subscriber := none, internal := none }
    else b

end Services

section Clients

variable [DecidableEq α]

/-- `overlay_mdp_releasebindings`. -/
def overlayMdpReleasebindings (s : Bindings α η) (client : α) : Bindings α η :=
  s.map fun b => if b.client = some client then { b with port := 0#32 } else b

/-- `overlay_mdp_process_bind_request` with a random number for a table that is full. -/
def overlayMdpProcessBindRequest (s : Bindings α η) (subscriber : Option Sid) (port : MdpPort)
    (force : Bool) (client : α) (random : ℕ) : Bindings α η × Bool :=
  let record : Binding α η → Binding α η := fun b => b.take subscriber port 0 (some client)
  if port = 0#32 then (s, false)
  else
    let s := s.initialise
    match s.slots.findIdx? fun b => b.key = (subscriber, port) with
    | some i =>
      if s.slots[i]?.bind Binding.client = some client then (s, true)
      else if force then (s.modify i record, true)
      else (s, false)
    | none =>
      match s.freeSlot with
      | some i => (s.modify i record, true)
      | none => (s.modify (random % mdpMaxBindings) record, true)

/-- What `mdp_process_packet` reads and calls apart from the bindings. -/
structure PacketHost (α η : Type) where
  mySubscriber : Option Sid
  /-- The subscriber is known and `REACHABLE_SELF`. -/
  isSelf : Sid → Bool
  /-- `overlay_send_frame`, which may hand the frame to one of the bindings, returns zero. -/
  sendFrame : List (Binding α η) → InternalMdpHeader → List Byte → Except Abort Bool
  /-- The commands that have nothing to do with bindings. -/
  command : MdpHeader → List Byte → Except Abort Unit

/-- The replies of `mdp_process_packet`. -/
inductive PacketReply where
  | error (header : MdpHeader)
  | bound (header : MdpHeader)
deriving DecidableEq

/-- The values of `next_port_binding`. -/
def followingPort (port : MdpPort) : MdpPort := if 32768#32 < port then 256#32 else port + 1#32

/-- The loop that assigns the next available port number. -/
def assignPort (slots : List (Binding α η)) : ℕ → MdpPort → Option MdpPort
  | 0, _ => none
  | fuel + 1, port =>
    let port := followingPort port
    if slots.any fun b => b.port = port then assignPort slots fuel port else some port

/-- The source of a packet: `none` if it is not local, and else a local subscriber or all of
them. -/
def localSource (host : PacketHost α η) (sid : Sid) : Except Abort (Option (Option Sid)) :=
  if sid = broadcastSid then .ok (some none)
  else if sid = zeroSid then
    match host.mySubscriber with
    | none => .error .nullPointer
    | some me => .ok (some (some me))
  else if host.isSelf sid then .ok (some (some sid))
  else .ok none

/-- The loop of `mdp_process_packet` that looks for the slot of a port. -/
def findBinding (slots : List (Binding α η)) (source : Option Sid) (port : MdpPort) : Option ℕ :=
  (searchPreferring (fun slot : Binding α η × ℕ => slot.1.port = port ∧ slot.1.subscriber = source)
    (fun slot => slot.1.port = port ∧ slot.1.subscriber = none) slots.zipIdx none).map Prod.snd

/-- The slot belongs to the connection that the packet came from. -/
def ownsSlot (s : Bindings α η) (client : Option α) (binding : Option ℕ) : Bool :=
  match binding.bind fun i => s.slots[i]? with
  | none => false
  | some b => b.internal = none ∧ b.client = client

/-- The end of `mdp_process_packet`: the slot is released if the packet asks for it. -/
def removeBinding (s : Bindings α η) (client : Option α) (binding : Option ℕ) (closes : Bool) :
    Bindings α η :=
  match binding with
  | none => s
  | some i =>
    if closes ∧ ownsSlot s client (some i) then s.modify i fun b => { b with port := 0#32 } else s

/-- The part of `mdp_process_packet` behind the binding: a local command or data to send. -/
def processBound (host : PacketHost α η) (s : Bindings α η) (client : Option α)
    (source : Option Sid)
    (header : MdpHeader) (payload : List Byte) (binding : Option ℕ) :
    Except Abort (Bindings α η × List PacketReply) :=
  if header.remoteSid = zeroSid then
    if header.remotePort = 0#32 then
      let replies := if ownsSlot s client binding then [] else [.error header]
      .ok (removeBinding s client binding header.closes, replies)
    else
      match host.command header payload with
      | .error e => .error e
      | .ok () => .ok (removeBinding s client binding header.closes, [])
  else if ¬ownsSlot s client binding ∨ source = none ∨ header.localPort = 0#32 then
    .ok (s, [.error header])
  else
    match host.sendFrame s.slots (header.internal source) payload with
    | .error e => .error e
    | .ok false => .ok (s, [.error header])
    | .ok true => .ok (removeBinding s client binding header.closes, [])

/-- The part of `mdp_process_packet` that finds the binding of the packet or makes it. -/
def bindPacket (s : Bindings α η) (client : Option α) (source : Option Sid) (header : MdpHeader) :
    Option (Bindings α η × Option ℕ) :=
  let binding := findBinding s.slots source header.localPort
  if header.binds then
    if binding.isSome then none
    else
      match s.freeSlot with
      | none => none
      | some i => some (s.modify i fun b => b.take source header.localPort 1 client, some i)
  else some (s, binding)

/-- `mdp_process_packet` when the source and the port of the packet are known. -/
def processSource (host : PacketHost α η) (s : Bindings α η) (client : Option α)
    (source : Option Sid) (header : MdpHeader) (payload : List Byte) :
    Except Abort (Bindings α η × List PacketReply) :=
  match bindPacket s client source header with
  | none => .ok (s, [.error header])
  | some (s, binding) =>
    match processBound host s client source header payload binding with
    | .error e => .error e
    | .ok (s, replies) => .ok (s, if header.binds then .bound header :: replies else replies)

/-- The part of `mdp_process_packet` that completes the local address of a packet. -/
def addressPacket (s : Bindings α η) (source : Option Sid) (header : MdpHeader) :
    Option (Bindings α η × MdpHeader) :=
  let header := if header.localSid = zeroSid then
    { header with localSid := source.getD header.localSid } else header
  if header.localPort = 0#32 ∧ header.binds then
    (assignPort s.slots (mdpMaxBindings + 1) s.nextPort).map fun port =>
      ({ s with nextPort := port }, { header with localPort := port })
  else some (s, header)

/-- `mdp_process_packet`. The client has no address if its socket is not bound to one. -/
def mdpProcessPacket (host : PacketHost α η) (s : Bindings α η) (client : Option α)
    (header : MdpHeader) (payload : List Byte) : Except Abort (Bindings α η × List PacketReply) :=
  if header.closes ∧ header.localPort = 0#32 then
    .ok (s.map fun b =>
      if b.port ≠ 0#32 ∧ b.client = client then { b with port := 0#32 } else b, [])
  else
    match localSource host header.localSid with
    | .error e => .error e
    | .ok none => .ok (s, [.error header])
    | .ok (some source) =>
      match addressPacket s source header with
      | none => .error .endless
      | some (s, header) => processSource host s client source header payload

end Clients

end ServalMesh.Mdp
