import ServalMesh.Msp.Socket

/-!
# The list of sockets

All sockets of a process are in one list. Calls name a socket by its salt, processing goes
through the whole list, and a packet is given to the socket it belongs to or makes a new one.
-/

namespace ServalMesh.Msp

open Lib Overlay

def saltInvalid : ℕ := 0xdeadbeef

/-- The list `root`, the newest socket first, and `salt_counter`. -/
structure Sockets where
  root : List MspSock
  saltCounter : ℕ
deriving DecidableEq

def Sockets.initial : Sockets := ⟨[], 0⟩

def sidAny : Sid := ⟨List.replicate sidSize 0#8, List.length_replicate⟩

def MspWindow.empty : MspWindow := ⟨0, 0#16, []⟩

/-- A socket as `msp_socket` makes it. -/
def MspSock.fresh (salt mdpSock now : ℕ) : MspSock where
  salt
  mdpSock
  state := .uninitialised
  lastState := none
  lastHandler := timeMsNeverHas
  tx := .empty
  rx := .empty
  previousAck := 0x7fff#16
  nextAck := 0
  handler := false
  header := ⟨⟨sidAny, 0⟩, ⟨sidAny, 0⟩, 0#8⟩
  timeout := now + 10000
  nextAction := timeMsNeverWill

/-- The salt of the next socket. -/
def Sockets.nextSalt (w : Sockets) : ℕ :=
  if w.saltCounter + 1 = saltInvalid then w.saltCounter + 2 else w.saltCounter + 1

def mspSocket (w : Sockets) (mdpSock now : ℕ) : Sockets :=
  ⟨.fresh w.nextSalt mdpSock now :: w.root, w.nextSalt⟩

/-- `handle_to_sock`. -/
def Sockets.find (w : Sockets) (salt : ℕ) : Except MspAbort MspSock :=
  match w.root.find? fun s => s.salt = salt with
  | some s => .ok s
  | none => .error .misuse

def Sockets.replace (w : Sockets) (salt : ℕ) (s : MspSock) : Sockets :=
  { w with root := w.root.map fun o => if o.salt = salt then s else o }

/-- A call on a socket of the list. -/
def Sockets.on {α : Type} (w : Sockets) (s : MspSock) (env : Env) (f : MspRun α) :
    Except MspAbort Sockets :=
  match f.run ⟨s, env, .empty⟩ with
  | (.ok _, m) => .ok (w.replace s.salt m.sock)
  | (.error e, _) => .error e

/-- A call on a socket that is named by its salt. -/
def Sockets.call {α : Type} (w : Sockets) (salt : ℕ) (env : Env) (f : MspRun α) :
    Except MspAbort Sockets := do
  let s ← w.find salt
  w.on s env f

/-- Nothing has happened to the socket since `msp_socket`: a connected socket with a full
window has the same state bits, but then packets are queued. -/
def MspSock.unused (s : MspSock) : Bool := s.state == .uninitialised && s.tx.packetCount == 0

section Setup

def mspSetHandler : MspRun Unit := modifySock fun s => { s with handler := true }

def mspSetLocal (addr : MdpSockaddr) : MspRun Unit := do
  let m ← Run.get
  if m.sock.state ≠ .uninitialised then Run.abort .misuse
  else modifySock fun s => { s with header := { s.header with localAddr := addr } }

def mspConnect (remote : MdpSockaddr) : MspRun Unit := do
  let m ← Run.get
  if m.sock.state ≠ .uninitialised then Run.abort .misuse
  else
    let now ← gettimeMs
    modifySock fun s => { s with
      header := { s.header with remoteAddr := remote }
      state := { s.state with dataOut := true }
      nextAck := now + 10
      nextAction := now + 10 }

def mspListen : MspRun ℤ := do
  let m ← Run.get
  if m.sock.state ≠ .uninitialised ∨ m.sock.header.localAddr.port = 0 then Run.abort .misuse
  else
    modifySock fun s => { s with
      state := { s.state with listening := true }
      header := { s.header with flags := s.header.flags ||| flag mdpFlagBind true } }
    match ← sendMessage [] with
    | .sent =>
      let now ← gettimeMs
      modifySock fun s => { s with
        timeout := now + 1000
        nextAction := now + 1000 }
      pure 0
    | _ =>
      modifySock fun s => { s with
        state := { s.state with
          error := true
          closed := true } }
      pure (-1)

end Setup

section Processing

/-- Whether a socket of the list waits to be bound, as `pending_bind` finds out. -/
def pendingBind (mdpSock : ℕ) (sockets : List MspSock) : Bool :=
  sockets.any fun s => s.mdpSock == mdpSock && s.header.flags.getLsbD mdpFlagBind

/-- The first loop of `msp_processing`; `before` has the sockets already processed. -/
def processAll (before : List MspSock) :
    List MspSock → List Env → Except MspAbort (List MspSock)
  | [], _ => .ok before
  | s :: rest, envs =>
    match (processSock (pendingBind s.mdpSock (before ++ rest))).run
        ⟨s, envs.headD ⟨[], [], []⟩, .empty⟩ with
    | (.ok _, m) => processAll (before ++ [m.sock]) rest envs.tail
    | (.error e, _) => .error e

/-- `msp_free`, as far as it may fail: the handler is called a last time. -/
def mspFree : MspRun Unit := do
  modifySock fun s => { s with
    state := { s.state with closed := true }
    tx := { s.tx with
      packetCount := 0
      packets := [] }
    rx := { s.rx with
      packetCount := 0
      packets := [] } }
  let _ ← callHandler []

/-- The second loop of `msp_processing`, which frees the closed sockets. -/
def freeClosed : List MspSock → List Env → Except MspAbort (List MspSock)
  | [], _ => .ok []
  | s :: rest, envs =>
    if s.state.closed then
      match mspFree.run ⟨s, envs.headD ⟨[], [], []⟩, .empty⟩ with
      | (.ok _, _) => freeClosed rest envs.tail
      | (.error e, _) => .error e
    else do
      let rest ← freeClosed rest envs
      .ok (s :: rest)

def mspProcessing (w : Sockets) (envs lastEnvs : List Env) : Except MspAbort Sockets := do
  let root ← processAll [] w.root envs
  let root ← freeClosed root lastEnvs
  .ok { w with root }

end Processing

section Packets

/-- What `process_packet` finds in the list. -/
inductive Found where
  /-- the packet is the answer to the bind request of a socket -/
  | bound (s : MspSock)
  | sock (s : MspSock)
  /-- no socket has the addresses, but there may be one that listens -/
  | listen (s : Option MspSock)
deriving DecidableEq

/-- The loop over the list. -/
def findSock (mdpSock : ℕ) (header : MdpHeader) : List MspSock → Option MspSock → Found
  | [], listen => .listen listen
  | s :: rest, listen =>
    if s.mdpSock = mdpSock then
      if s.header.flags.getLsbD mdpFlagBind && header.flags.getLsbD mdpFlagBind then .bound s
      else if s.state.listening then
        if s.header.localAddr.port = header.localAddr.port ∧
            (s.header.localAddr.sid = sidAny ∨
              s.header.localAddr.sid = header.localAddr.sid) then
          findSock mdpSock header rest (some s)
        else findSock mdpSock header rest listen
      else if s.header.remoteAddr = header.remoteAddr ∧
          s.header.localAddr = header.localAddr then .sock s
      else findSock mdpSock header rest listen
    else findSock mdpSock header rest listen

/-- The answer of the daemon to a bind request. -/
def bindResponse (header : MdpHeader) : MspRun ℤ := do
  let m ← Run.get
  modifySock fun s => { s with
    header := { s.header with
      localAddr := header.localAddr
      flags := s.header.flags &&& ~~~ (flag mdpFlagBind true) } }
  if m.sock.state.listening then
    modifySock fun s => { s with
      nextAction := timeMsNeverWill
      timeout := timeMsNeverWill }
    pure 0
  else
    let now ← gettimeMs
    modifySock fun s => { s with nextAction := now }
    pure 0

/-- A new socket for an incoming connection. -/
def MspSock.spawn (listen : MspSock) (header : MdpHeader) (salt now : ℕ) : MspSock :=
  { MspSock.fresh salt listen.mdpSock now with
    header
    handler := listen.handler }

/-- Whether a packet makes a new socket if there is one that listens. -/
def connects (payload : List Byte) : Bool :=
  match payload with
  | [] => false
  | flags :: _ => !flags.getLsbD flagStop && flags.getLsbD flagFirst

/-- `process_packet`; `now` is the time when a new socket is made. -/
def processPacket (w : Sockets) (mdpSock : ℕ) (header : MdpHeader) (payload : List Byte) (now : ℕ)
    (env : Env) : Except MspAbort Sockets :=
  if header.flags.getLsbD mdpFlagError then .ok w
  else
    match findSock mdpSock header w.root none with
    | .bound s => w.on s env (bindResponse header)
    | .sock s => if payload = [] then .ok w else w.on s env (receive payload)
    | .listen (some listen) =>
      if connects payload then
        let s := listen.spawn header w.nextSalt now
        Sockets.on ⟨s :: w.root, w.nextSalt⟩ s env (receive payload)
      else .ok w
    | .listen none => .ok w

end Packets

/-- What can happen to the sockets of a process. -/
inductive SocketsOp where
  | socket (mdpSock now : ℕ)
  | setHandler (salt : ℕ)
  | setLocal (salt : ℕ) (addr : MdpSockaddr)
  | connect (salt : ℕ) (remote : MdpSockaddr) (env : Env)
  | listen (salt : ℕ) (env : Env)
  | send (salt : ℕ) (payload : List Byte) (env : Env)
  | shutdown (salt : ℕ) (env : Env)
  | stop (salt : ℕ) (env : Env)
  | processing (envs lastEnvs : List Env)
  | packet (mdpSock : ℕ) (header : MdpHeader) (payload : List Byte) (now : ℕ) (env : Env)
deriving DecidableEq

def Sockets.step (w : Sockets) : SocketsOp → Except MspAbort Sockets
  | .socket mdpSock now => .ok (mspSocket w mdpSock now)
  | .setHandler salt => w.call salt ⟨[], [], []⟩ mspSetHandler
  | .setLocal salt addr => w.call salt ⟨[], [], []⟩ (mspSetLocal addr)
  | .connect salt remote env => w.call salt env (mspConnect remote)
  | .listen salt env => w.call salt env mspListen
  | .send salt payload env => w.call salt env (mspSend payload)
  | .shutdown salt env => w.call salt env mspShutdown
  | .stop salt env => w.call salt env mspStop
  | .processing envs lastEnvs => mspProcessing w envs lastEnvs
  | .packet mdpSock header payload now env => processPacket w mdpSock header payload now env

def Sockets.runOps (w : Sockets) (ops : List SocketsOp) : Except MspAbort Sockets :=
  ops.foldlM Sockets.step w

end ServalMesh.Msp
