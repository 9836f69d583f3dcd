import ServalMesh.Lib.SerialNumber
import ServalMesh.Overlay.Header

/-!
# A socket of the mesh stream protocol

A stream is sent in numbered packets, which are kept until they are acknowledged.
The other end keeps what arrives too early and gives the rest to a handler, which may
consume only a part of it and may call back into the socket.
-/

namespace ServalMesh.Msp

open Lib Overlay

/-- `FLAG_SHUTDOWN` and the others, as bit numbers. -/
def flagShutdown : ℕ := 0

def flagAck : ℕ := 1

def flagFirst : ℕ := 2

def flagStop : ℕ := 3

def retransmitTime : ℕ := 1500

def handlerKeepalive : ℕ := 1000

def maxWindowSize : ℕ := 4

def mspPayloadPreambleSize : ℕ := 5

/-- `MDP_FLAG_BIND` and `MDP_FLAG_ERROR`, as bit numbers. -/
def mdpFlagBind : ℕ := 2

def mdpFlagError : ℕ := 4

def timeMsNeverHas : ℤ := -2 ^ 63

def timeMsNeverWill : ℤ := 2 ^ 63 - 1

/-- `write_uint16`, the low byte first. -/
def writeUint16 (v : BitVec 16) : List Byte := [v.setWidth 8, (v >>> 8).setWidth 8]

/-- `read_uint16` at a position. -/
def readUint16 (bytes : List Byte) (position : ℕ) : BitVec 16 :=
  (bytes.getD (position + 1) 0#8).setWidth 16 <<< 8 ||| (bytes.getD position 0#8).setWidth 16

theorem uint16_of_bytes (v : BitVec 16) :
    ((v >>> 8).setWidth 8).setWidth 16 <<< 8 ||| (v.setWidth 8).setWidth 16 = v := by
  apply BitVec.eq_of_getLsbD_eq
  intro i hi
  by_cases h : i < 8
  · simp [h, hi]
  · have h8 : i - 8 < 8 := by omega
    have h16 : 8 + (i - 8) = i := by omega
    simp [h, hi, h8, h16]

/-- `struct msp_packet`. -/
structure MspPacket where
  seq : BitVec 16
  flags : Byte
  sent : ℤ
  payload : List Byte
  offset : ℕ
deriving DecidableEq

/-- `struct msp_window`; `_tail` is the last packet. -/
structure MspWindow where
  packetCount : ℕ
  nextSeq : BitVec 16
  packets : List MspPacket
deriving DecidableEq

/-- The bits of `msp_state_t`. -/
structure MspState where
  listening : Bool
  receivedData : Bool
  receivedPacket : Bool
  shutdownLocal : Bool
  shutdownRemote : Bool
  closed : Bool
  error : Bool
  dataOut : Bool
  stopped : Bool
deriving DecidableEq

/-- `MSP_STATE_UNINITIALISED`. -/
def MspState.uninitialised : MspState :=
  ⟨false, false, false, false, false, false, false, false, false⟩

/-- `struct mdp_sockaddr`. -/
structure MdpSockaddr where
  sid : Sid
  port : ℕ
deriving DecidableEq

/-- `struct mdp_header`. -/
structure MdpHeader where
  localAddr : MdpSockaddr
  remoteAddr : MdpSockaddr
  flags : Byte
deriving DecidableEq

/-- `struct msp_sock`; `handler` tells whether there is one. -/
structure MspSock where
  salt : ℕ
  mdpSock : ℕ
  state : MspState
  lastState : Option MspState
  lastHandler : ℤ
  tx : MspWindow
  rx : MspWindow
  previousAck : BitVec 16
  nextAck : ℤ
  handler : Bool
  header : MdpHeader
  timeout : ℤ
  nextAction : ℤ
deriving DecidableEq

/-- What ends the process. -/
inductive MspAbort where
  /-- an assertion of a function of the interface, on its arguments -/
  | misuse
  /-- `assert(packet->offset <= packet->len)` and `assert(packet->offset == packet->len)` -/
  | offset
  /-- `assert(nconsumed <= len)` -/
  | consumed
  /-- the flow control assertions of `process_sock` -/
  | flowControl
  /-- `assert(sock->header.remote.port)` -/
  | remotePort
  /-- after `msp_close_all`, the socket is used again -/
  | freed
  | endless
deriving DecidableEq

/-- A call of the handler back into the socket. -/
inductive Call where
  | send (payload : List Byte)
  | shutdown
  | stop
deriving DecidableEq

/-- What the handler does when it is called. -/
structure Reply where
  calls : List Call
  consumed : ℕ
deriving DecidableEq

inductive SendResult where
  | sent
  /-- `errno` is `EAGAIN` -/
  | again
  | failed
  /-- there is no address to send to -/
  | noAddress
deriving DecidableEq

/-- What a call into the socket meets with: the times that `gettime_ms` returns, what
the handler does, and what becomes of messages. -/
structure Env where
  times : List ℕ
  replies : List Reply
  sends : List SendResult
deriving DecidableEq

/-- What happened to a socket; it has no influence on what happens next.
`queued` has the payloads of all packets that were given a sequence number, and `shut`
tells which of them carries the shutdown flag. The first `released` of them are no longer
in the window. The `wire` has all messages that were sent. On the receiving side
`completed` packets have been consumed as a whole, and `consumed` has all bytes. -/
structure Log where
  queued : List (List Byte)
  shut : Option ℕ
  released : ℕ
  wire : List (List Byte)
  completed : ℕ
  consumed : List Byte
deriving DecidableEq

def Log.empty : Log := ⟨[], none, 0, [], 0, []⟩

structure Machine where
  sock : MspSock
  env : Env
  log : Log
deriving DecidableEq

abbrev MspRun := Run MspAbort Machine

section Windows

/-- `compare_wrapped_uint16`. -/
def compareWrappedUint16 (one two : BitVec 16) : ℤ := distance one two

/-- What `add_packet` returns: 1, 0 and -1. -/
inductive Added where
  | added
  | duplicate
  | ambiguous
deriving DecidableEq

def insertPacket (window : MspWindow) (before after : List MspPacket) (packet : MspPacket) :
    MspWindow :=
  { window with
    packetCount := window.packetCount + 1
    packets := before ++ packet :: after }

def addPacket (window : MspWindow) (seq : BitVec 16) (flags : Byte) (payload : List Byte) :
    MspWindow × Added :=
  let packet : MspPacket := ⟨seq, flags, timeMsNeverHas, payload, 0⟩
  match window.packets with
  | [] => (insertPacket window [] [] packet, .added)
  | head :: rest =>
    let tail := rest.getLastD head
    if tail.seq = seq then (window, .duplicate)
    else if compareWrappedUint16 tail.seq seq < 0 then
      if 0 < compareWrappedUint16 head.seq seq then (window, .ambiguous)
      else (insertPacket window window.packets [] packet, .added)
    else
      let before := window.packets.takeWhile fun p => compareWrappedUint16 p.seq seq < 0
      let after := window.packets.dropWhile fun p => compareWrappedUint16 p.seq seq < 0
      if (after.head?.map MspPacket.seq) = some seq then (window, .duplicate)
      else (insertPacket window before after packet, .added)

/-- `free_acked_packets`, but for the round trip times. -/
def freeAckedPackets (window : MspWindow) (seq : BitVec 16) : MspWindow :=
  let acked := window.packets.takeWhile fun p => compareWrappedUint16 p.seq seq ≤ 0
  { window with
    packetCount := window.packetCount - acked.length
    packets := window.packets.dropWhile fun p => compareWrappedUint16 p.seq seq ≤ 0 }

/-- The next number is taken. -/
def MspWindow.advance (w : MspWindow) : MspWindow := { w with nextSeq := w.nextSeq + 1 }

/-- `count` bytes more of the `i`-th packet are consumed. -/
def MspWindow.consume (w : MspWindow) (i count : ℕ) : MspWindow :=
  { w with packets := w.packets.modify i fun p => { p with offset := p.offset + count } }

/-- The `i`-th packet is sent. -/
def MspWindow.stamp (w : MspWindow) (i : ℕ) (now : ℤ) : MspWindow :=
  { w with packets := w.packets.modify i fun p => { p with sent := now } }

end Windows

section Environment

def modifySock (f : MspSock → MspSock) : MspRun Unit :=
  Run.modify fun m => { m with sock := f m.sock }

def gettimeMs : MspRun ℕ := do
  let m ← Run.get
  Run.modify fun m => { m with env := { m.env with times := m.env.times.tail } }
  pure (m.env.times.headD 0)

/-- `send_message`: what is sent is on the wire. -/
def sendMessage (message : List Byte) : MspRun SendResult := do
  let m ← Run.get
  let result := m.env.sends.headD .sent
  Run.modify fun m => { m with
    env := { m.env with sends := m.env.sends.tail }
    log := { m.log with
      wire := if result = .sent then m.log.wire ++ [message] else m.log.wire } }
  pure result

/-- A message that is not sent. -/
def failSend : MspRun Unit :=
  Run.modify fun m => { m with env := { m.env with sends := m.env.sends.tail } }

end Environment

section Interface

/-- The end of `msp_send`, with the packet in the window. -/
def finishSend (tx : MspWindow) (payload : List Byte) : MspRun ℤ := do
  let now ← gettimeMs
  Run.modify fun m => { m with
    sock := { m.sock with
      tx := tx.advance
      state := { m.sock.state with
        dataOut := m.sock.state.dataOut && decide (tx.packetCount < maxWindowSize) }
      nextAction := now }
    log := { m.log with queued := m.log.queued ++ [payload] } }
  pure payload.length

/-- `msp_send`: the result is -1 if the payload is not accepted. -/
def mspSend (payload : List Byte) : MspRun ℤ := do
  let m ← Run.get
  if m.sock.state.listening = true ∨ m.sock.header.remoteAddr.port = 0 ∨
      m.sock.state.shutdownLocal = true then Run.abort .misuse
  else if m.sock.state.closed = true ∨ maxWindowSize < m.sock.tx.packetCount then pure (-1)
  else
    match addPacket m.sock.tx m.sock.tx.nextSeq 0#8 payload with
    | (_, .ambiguous) => pure (-1)
    | (tx, _) => finishSend tx payload

/-- The packet with the flag that says that nothing follows. -/
def MspPacket.shut (p : MspPacket) : MspPacket :=
  { p with flags := p.flags ||| flag flagShutdown true }

def MspWindow.shutLast (w : MspWindow) : MspWindow :=
  { w with packets := w.packets.modify (w.packets.length - 1) MspPacket.shut }

/-- The end of `msp_shutdown`. -/
def finishShutdown (tx : MspWindow) (queued : List (List Byte)) : MspRun ℤ := do
  let now ← gettimeMs
  Run.modify fun m => { m with
    sock := { m.sock with
      tx
      state := { m.sock.state with
        shutdownLocal := true
        dataOut := false }
      nextAction := now }
    log := { m.log with
      queued
      shut := some (queued.length - 1) } }
  pure 0

def mspShutdown : MspRun ℤ := do
  let m ← Run.get
  if m.sock.state.listening = true ∨ m.sock.state.shutdownLocal = true then Run.abort .misuse
  else
    if (m.sock.tx.packets.getLast?.map MspPacket.sent) = some timeMsNeverHas then
      finishShutdown m.sock.tx.shutLast m.log.queued
    else
      match addPacket m.sock.tx m.sock.tx.nextSeq (flag flagShutdown true) [] with
      | (_, .ambiguous) => pure (-1)
      | (tx, _) =>
        finishShutdown tx.advance (m.log.queued ++ [[]])

def mspStop : MspRun Unit := do
  let m ← Run.get
  if m.sock.state.stopped then pure ()
  else
    modifySock fun s => { s with
      state := { s.state with
        stopped := true
        closed := true
        dataOut := false } }
    if m.sock.header.remoteAddr.port ≠ 0 ∧ m.sock.state.listening = false then
      let _ ← sendMessage [flag flagStop true]
    else pure ()

def Call.run : Call → MspRun Unit
  | .send payload => do
    let _ ← mspSend payload
  | .shutdown => do
    let _ ← mspShutdown
  | .stop => mspStop

def runCalls : List Call → MspRun Unit
  | [] => pure ()
  | call :: rest => do
    call.run
    runCalls rest

end Interface

section Processing

/-- `call_handler`: the number of bytes it has consumed. -/
def callHandler (payload : List Byte) : MspRun ℕ := do
  let now ← gettimeMs
  let m ← Run.get
  if m.sock.handler = true ∧ (payload ≠ [] ∨ m.sock.lastState ≠ some m.sock.state ∨
      m.sock.lastHandler + handlerKeepalive < now) then
    modifySock fun s => { s with
      lastState := some s.state
      lastHandler := now }
    let reply := m.env.replies.headD ⟨[], 0⟩
    Run.modify fun m => { m with env := { m.env with replies := m.env.replies.tail } }
    runCalls reply.calls
    if payload.length < reply.consumed then Run.abort .consumed else pure reply.consumed
  else pure payload.length

/-- The handler has consumed `count` bytes more of a packet in the window. -/
def consume (i : ℕ) (p : MspPacket) (count : ℕ) : MspRun Unit :=
  Run.modify fun m => { m with
    sock := { m.sock with
      rx := m.sock.rx.consume i count }
    log := { m.log with
      consumed := m.log.consumed ++ (p.payload.drop p.offset).take count } }

/-- The packet at the head has been consumed as a whole. -/
def complete : MspRun Unit :=
  Run.modify fun m => { m with
    sock := { m.sock with rx := m.sock.rx.advance }
    log := { m.log with completed := m.log.completed + 1 } }

/-- Deliver packets that have now arrived in order, from the `i`-th in the window on. -/
def deliver : ℕ → ℕ → MspRun Unit
  | 0, _ => Run.abort .endless
  | fuel + 1, i => do
    let m ← Run.get
    match m.sock.rx.packets[i]? with
    | none => pure ()
    | some p =>
      if p.seq ≠ m.sock.rx.nextSeq then pure ()
      else
        modifySock fun s => { s with
          state := { s.state with
            shutdownRemote := s.state.shutdownRemote || p.flags.getLsbD flagShutdown } }
        if p.payload.length < p.offset then Run.abort .offset
        else
          let count ← callHandler (p.payload.drop p.offset)
          if count = 0 ∧ p.offset < p.payload.length then pure ()
          else
            consume i p count
            if p.offset + count < p.payload.length then deliver fuel i
            else if p.offset + count ≠ p.payload.length then Run.abort .offset
            else
              complete
              deliver fuel (i + 1)

/-- The assertions of `process_sock` between receiving and sending. -/
def checkFlowControl : MspRun Unit := do
  let m ← Run.get
  if m.sock.tx.packets.length ≠ m.sock.tx.packetCount then Run.abort .flowControl
  else if maxWindowSize ≤ m.sock.tx.packets.length ∨ m.sock.state.closed = true ∨
      m.sock.state.shutdownLocal = true then
    if m.sock.state.dataOut then Run.abort .flowControl else pure ()
  else if m.sock.state.dataOut then pure () else Run.abort .flowControl

/-- The first bytes of a message. -/
def mspHeader (state : MspState) (rx : MspWindow) (flags : Byte) : List Byte :=
  [flags ||| flag flagAck state.receivedData ||| flag flagFirst (!state.receivedPacket)]
    ++ writeUint16 (rx.nextSeq - 1)

/-- A message with a packet of the window. -/
def mspMessage (state : MspState) (rx : MspWindow) (p : MspPacket) : List Byte :=
  mspHeader state rx p.flags ++ writeUint16 p.seq ++ p.payload

/-- `msp_send_packet` for the `i`-th packet of the window. -/
def mspSendPacket (i : ℕ) (p : MspPacket) : MspRun ℤ := do
  let m ← Run.get
  if m.sock.header.remoteAddr.port = 0 then Run.abort .remotePort
  else
    match m.env.sends.headD .sent with
    | .noAddress =>
      failSend
      pure (-1)
    | .again =>
      modifySock fun s => { s with previousAck := s.rx.nextSeq - 1 }
      failSend
      pure 1
    | .failed => Run.abort .freed
    | .sent =>
      let now ← gettimeMs
      modifySock fun s => { s with
        tx := s.tx.stamp i now
        previousAck := s.rx.nextSeq - 1
        nextAck := now + retransmitTime }
      let _ ← sendMessage (mspMessage m.sock.state m.sock.rx p)
      pure 0

/-- `send_ack`. -/
def sendAck : MspRun ℤ := do
  let m ← Run.get
  if m.sock.header.remoteAddr.port = 0 then Run.abort .remotePort
  else
    match ← sendMessage (mspHeader m.sock.state m.sock.rx 0#8) with
    | .noAddress => pure (-1)
    | .again => pure (-1)
    | .failed => Run.abort .freed
    | .sent =>
      let now ← gettimeMs
      modifySock fun s => { s with
        previousAck := s.rx.nextSeq - 1
        nextAck := now + retransmitTime }
      pure 0

/-- How the transmit loop goes on. -/
inductive Flow where
  | goOn
  | leave
  | fail
deriving DecidableEq

def sendDue (i : ℕ) (p : MspPacket) : MspRun Flow := do
  let r ← mspSendPacket i p
  pure (if r = -1 then .fail else if r = 0 then .goOn else .leave)

def setBind : MspRun Unit :=
  modifySock fun s => { s with
    header := { s.header with flags := s.header.flags ||| flag mdpFlagBind true } }

/-- One round of the transmit loop; `pending` tells whether another socket waits to be bound. -/
def transmitOne (now : ℕ) (pending : Bool) (i : ℕ) (p : MspPacket) : MspRun Flow := do
  let m ← Run.get
  if p.sent + retransmitTime < now then
    if m.sock.header.localAddr.port = 0 then
      if pending || m.sock.header.flags.getLsbD mdpFlagBind then pure .leave
      else
        setBind
        sendDue i p
    else sendDue i p
  else pure .goOn

/-- Transmit packets that can now be sent; tells whether that has failed. -/
def transmit (now : ℕ) (pending : Bool) : ℕ → ℕ → MspRun Bool
  | 0, _ => pure false
  | count + 1, i => do
    let m ← Run.get
    match m.sock.tx.packets[i]? with
    | none => pure false
    | some p =>
      match ← transmitOne now pending i p with
      | .fail => pure true
      | .leave => pure false
      | .goOn =>
        modifySock fun s => { s with
          nextAction := min s.nextAction
            (((s.tx.packets[i]?.map MspPacket.sent).getD 0) + retransmitTime) }
        transmit now pending count (i + 1)

/-- Whether everything has been delivered in both directions. -/
def MspSock.finished (s : MspSock) : Bool :=
  s.state.shutdownLocal && s.state.shutdownRemote && s.tx.packetCount == 0 &&
    s.rx.packetCount == 0 && ((s.previousAck.toNat : ℤ) == (s.rx.nextSeq.toNat : ℤ) - 1)

/-- The end of `process_sock`. -/
def finishProcessing : MspRun ℤ := do
  modifySock fun s => { s with nextAction := min s.nextAction s.nextAck }
  let m ← Run.get
  if m.sock.finished then
    modifySock fun s => { s with state := { s.state with closed := true } }
    pure (-1)
  else pure 0

def acknowledge : MspRun ℤ := do
  let r ← sendAck
  if r = -1 then pure (-1) else finishProcessing

/-- An acknowledgement without a payload, if it is time. -/
def acknowledgeDue (now : ℕ) : MspRun ℤ := do
  let m ← Run.get
  if m.sock.nextAck < now then
    if m.sock.header.localAddr.port = 0 then
      if m.sock.header.flags.getLsbD mdpFlagBind then pure 0
      else
        setBind
        acknowledge
    else acknowledge
  else finishProcessing

/-- Deliver what has arrived, up to the flow control assertions. -/
def processReceived : MspRun Unit := do
  let m ← Run.get
  deliver ((m.sock.rx.packets.map fun p => p.payload.length + 1).sum + 1) 0
  modifySock fun s => { s with rx := freeAckedPackets s.rx (s.rx.nextSeq - 1) }
  let _ ← callHandler []
  modifySock fun s =>
    if s.handler then { s with nextAction := min s.nextAction (s.lastHandler + handlerKeepalive) }
    else s
  checkFlowControl

/-- The rest of `process_sock`, for a socket that has not timed out. -/
def processLive (now : ℕ) (pending : Bool) : MspRun ℤ := do
  let m ← Run.get
  modifySock fun s => { s with nextAction := s.timeout }
  if m.sock.state.listening then pure 0
  else
    processReceived
    let m ← Run.get
    let failed ← transmit now pending m.sock.tx.packets.length 0
    if failed then pure (-1) else acknowledgeDue now

def processSock (pending : Bool) : MspRun ℤ := do
  let now ← gettimeMs
  let m ← Run.get
  if m.sock.timeout < now then
    modifySock fun s => { s with
      state := { s.state with
        closed := true
        error := true } }
    pure (-1)
  else processLive now pending

end Processing

section Receiving

/-- Packets that the other end has acknowledged are released. -/
def releaseAcked (payload : List Byte) : MspRun Unit :=
  Run.modify fun m =>
    let tx := freeAckedPackets m.sock.tx (readUint16 payload 1)
    { m with
      sock := { m.sock with tx }
      log := { m.log with
        released := m.log.released + (m.sock.tx.packets.length - tx.packets.length) } }

/-- A packet with a payload is kept. -/
def keepPacket (payload : List Byte) : MspRun ℤ := do
  let now ← gettimeMs
  modifySock fun s =>
    let r := addPacket s.rx (readUint16 payload 3) (payload.headD 0#8)
      (payload.drop mspPayloadPreambleSize)
    { s with
      rx := r.1
      state := { s.state with receivedData := true }
      nextAck := if r.2 = .added then now else s.nextAck }
  pure 0

/-- The part of `process_packet` for the socket that was found. -/
def receive (payload : List Byte) : MspRun ℤ := do
  let now ← gettimeMs
  modifySock fun s => { s with
    timeout := now + 10000
    state := { s.state with receivedPacket := true } }
  let flags := payload.headD 0#8
  if flags.getLsbD flagStop then
    mspStop
    pure 0
  else if payload.length < 3 then pure 0
  else
    Run.when (flags.getLsbD flagAck) (releaseAcked payload)
    let now ← gettimeMs
    modifySock fun s => { s with
      state := { s.state with
        dataOut := s.state.dataOut || (decide (s.tx.packetCount < maxWindowSize) &&
          !s.state.shutdownLocal && !s.state.closed) }
      nextAction := now }
    if payload.length < mspPayloadPreambleSize then pure 0 else keepPacket payload

end Receiving

end ServalMesh.Msp
