import ServalMesh.Lib.SwapRemove
import ServalMesh.Overlay.Buffer

/-!
# Calls

The calls of a node are the used entries of an array. The peer of a call chooses the state that it
sends, and a node that calls itself receives its own frames while a tick sends them.
-/

namespace ServalMesh.Vomp

open Lib Overlay

section Definitions

@[grind =] def vompStateNocall : ℕ := 1

@[grind =] def vompStateCallprep : ℕ := 2

@[grind =] def vompStateRingingout : ℕ := 3

@[grind =] def vompStateRingingin : ℕ := 4

@[grind =] def vompStateIncall : ℕ := 5

@[grind =] def vompStateCallended : ℕ := 6

def vompMaxCalls : ℕ := 16

/-- An entry of `vomp_call_states`, whether its alarm is scheduled, and whether `vomp_pickup`
answered the call. -/
structure Call (α : Type) where
  localSubscriber : α
  remoteSubscriber : α
  localState : ℕ
  remoteState : ℕ
  localSession : ℕ
  remoteSession : ℕ
  initiatedCall : Bool
  createTime : ℕ
  lastActivity : ℕ
  remoteCodecs : List Byte
  scheduled : Bool
  pickedUp : Bool
deriving DecidableEq

variable {α : Type} [DecidableEq α]

/-- What `vomp_generate_session_id` draws until a number can be used, or until there is no
entropy. -/
def vompGenerateSessionId (calls : List (Call α)) (draws : List ℕ) : Option ℕ :=
  (draws.map (· % 2 ^ 16)).find? fun s =>
    s ≠ 0 ∧ ∀ c ∈ calls, s ≠ c.localSession ∧ s ≠ c.remoteSession

/-- `vomp_create_call`. Without entropy the session is -1. -/
def vompCreateCall (calls : List (Call α)) (remote localSubscriber : α) (remoteSession now : ℕ)
    (draws : List ℕ) : Call α where
  localSubscriber
  remoteSubscriber := remote
  localState := vompStateNocall
  remoteState := vompStateNocall
  localSession := (vompGenerateSessionId calls draws).getD (2 ^ 32 - 1)
  remoteSession
  initiatedCall := false
  createTime := now
  lastActivity := now
  remoteCodecs := []
  scheduled := true
  pickedUp := false

/-- A frame that is received, with the clock, what the monitor clients can do, the numbers that are
drawn, and whether its audio sample was seen before. -/
structure VompFrame (α : Type) where
  authcrypted : Bool
  source : α
  destination : α
  payload : List Byte
  now : ℕ
  interested : Bool
  supportedCodecs : List Byte
  draws : List ℕ
  seen : Bool

/-- `ob_get`, as an unsigned char. -/
def obGet : List Byte → ℕ × List Byte
  | [] => (255, [])
  | b :: rest => (b.toNat, rest)

def obGetUi16 : List Byte → ℕ × List Byte
  | a :: b :: rest => ((ui16Value (some [a, b])).toNat, rest)
  | short => ((ui16Value none).toNat, short)

/-- The fields of a frame: both sessions, both states and what follows. -/
structure VompHeader where
  senderSession : ℕ
  recvrSession : ℕ
  senderState : ℕ
  recvrState : ℕ
  rest : List Byte

/-- The beginning of a payload of version 2. -/
def vompHeader (payload : List Byte) : Option VompHeader :=
  if (obGet payload).1 ≠ 2 then none
  else
    let sender := obGetUi16 (obGet payload).2
    let recvr := obGetUi16 sender.2
    let state := obGet recvr.2
    some ⟨sender.1, recvr.1, state.1 % 16, state.1 / 16, state.2⟩

/-- The call that a frame belongs to. -/
def Call.isFor (c : Call α) (f : VompFrame α) (h : VompHeader) : Bool :=
  (c.remoteSession ≠ 0 ∧ h.senderSession ≠ 0 → h.senderSession = c.remoteSession) ∧
    (c.localSession ≠ 0 ∧ h.recvrSession ≠ 0 → h.recvrSession = c.localSession) ∧
    (c.remoteSession ≠ 0 ∧ h.senderSession ≠ 0 ∨ c.localSession ≠ 0 ∧ h.recvrSession ≠ 0) ∧
    f.source = c.remoteSubscriber ∧ f.destination = c.localSubscriber

/-- A frame that `vomp_find_or_create_call` creates a call for. -/
def VompHeader.prepares (h : VompHeader) : Bool :=
  h.senderState = vompStateCallprep ∧ h.recvrState = vompStateNocall ∧ h.recvrSession = 0

/-- `vomp_find_or_create_call`, which does not look at the number of calls. -/
def vompFindOrCreateCall (calls : List (Call α)) (f : VompFrame α) (h : VompHeader) :
    Option (ℕ × List (Call α)) :=
  match calls.findIdx? (·.isFor f h) with
  | some i => some (i, calls.modify i fun c =>
      if c.remoteSession = 0 then { c with remoteSession := h.senderSession } else c)
  | none =>
    if h.prepares then
      some (calls.length, calls ++
        [vompCreateCall calls f.source f.destination h.senderSession f.now f.draws])
    else none

@[grind =] def vompUpdateLocalState (c : Call α) (newState : ℕ) : Call α :=
  if newState ≤ c.localState then c else { c with localState := newState }

@[grind =] def vompUpdateRemoteState (c : Call α) (newState : ℕ) : Call α :=
  if newState ≤ c.remoteState then c else { c with remoteState := newState }

/-- What a state does: the new local state, whether the call is established, and whether audio is
processed. -/
structure Transition where
  state : ℕ
  established : Bool
  audio : Bool
deriving DecidableEq

/-- The switch of `vomp_mdp_received` over `recvr_state<<3 | sender_state`. -/
def transition (initiatedCall : Bool) (recvrState combinedState : ℕ) : Option Transition :=
  match combinedState with
  | 10 => some ⟨recvrState, false, false⟩ -- NOCALL, CALLPREP
  | 35 | 11 => -- RINGINGIN or NOCALL, RINGINGOUT
    some ⟨if initiatedCall then vompStateCallended else recvrState, false, false⟩
  | 17 | 18 => -- CALLPREP, NOCALL or CALLPREP
    some ⟨if initiatedCall then vompStateRingingout else vompStateCallended, false, false⟩
  | 25 | 26 | 28 => some ⟨recvrState, false, false⟩ -- RINGINGOUT, NOCALL or CALLPREP or RINGINGIN
  | 27 => some ⟨vompStateIncall, true, false⟩ -- RINGINGOUT, RINGINGOUT
  | 43 => some ⟨recvrState, false, false⟩ -- INCALL, RINGINGOUT
  | 29 => some ⟨vompStateIncall, true, true⟩ -- RINGINGOUT, INCALL
  | 45 => some ⟨recvrState, false, true⟩ -- INCALL, INCALL
  | 49 | 50 | 51 | 52 | 53 | 54 => some ⟨recvrState, false, false⟩ -- CALLENDED, any
  | _ => none

/-- What `vomp_mdp_received` does to the call of a frame, and whether audio is passed to the monitor
clients. -/
def Call.received (c : Call α) (f : VompFrame α) (h : VompHeader) : Call α × Bool :=
  let senderState := max h.senderState c.remoteState
  let recvrState := if f.interested then c.localState else vompStateCallended
  let preparing := recvrState < vompStateRingingout ∧ senderState < vompStateRingingout
  let codecs := if preparing then c.remoteCodecs ++ h.rest.takeWhile (· ≠ 0#8) else c.remoteCodecs
  let rejected := preparing ∧ ∀ codec ∈ f.supportedCodecs, codec ∉ codecs
  let recvrState :=
    if rejected ∨ senderState = vompStateCallended then vompStateCallended else recvrState
  match transition c.initiatedCall recvrState (recvrState <<< 3 ||| senderState) with
  | none => ({ c with remoteCodecs := codecs }, false)
  | some t =>
    ({ vompUpdateLocalState (vompUpdateRemoteState c senderState) t.state with
        remoteCodecs := codecs
        createTime := if t.established then f.now else c.createTime
        lastActivity := f.now },
      t.audio && !h.rest.isEmpty && !f.seen)

/-- `vomp_mdp_received`, with the call whose audio is passed on. -/
def vompMdpReceived (calls : List (Call α)) (f : VompFrame α) : List (Call α) × Option ℕ :=
  match if f.authcrypted then vompHeader f.payload else none with
  | none => (calls, none)
  | some h =>
    match vompFindOrCreateCall calls f h with
    | none => (calls, none)
    | some (i, calls) =>
      (calls.modify i fun c => (c.received f h).1,
        if calls[i]?.any fun c => (c.received f h).2 then some i else none)

structure VompConfig where
  dialTimeoutMs : ℕ
  ringTimeoutMs : ℕ
  networkTimeoutMs : ℕ

def Call.timedOut (c : Call α) (config : VompConfig) (now : ℕ) : Bool :=
  c.remoteState < vompStateRingingout ∧ c.createTime + config.dialTimeoutMs < now ∨
    c.localState < vompStateIncall ∧ c.createTime + config.ringTimeoutMs < now ∨
    c.lastActivity + config.networkTimeoutMs < now

/-- `vomp_call_destroy`: the last call takes the place of the one that is destroyed. -/
def vompCallDestroy (calls : List (Call α)) (i : ℕ) : List (Call α) :=
  (swapRemove calls i).modify i fun c => { c with scheduled := true }

/-- The calls, and the one whose tick runs, with whether it was checked for its end. -/
structure Phone (α : Type) where
  calls : List (Call α)
  ticking : Option (ℕ × Bool)

/-- What can happen. A tick is interrupted where it sends, and frames may be received there. -/
inductive VompEvent (α : Type) where
  | dial (localSubscriber remote : α) (now : ℕ) (draws : List ℕ)
  | ringing (token : ℕ)
  | pickup (token now : ℕ)
  | hangup (token : ℕ)
  | audio (token : ℕ)
  | received (f : VompFrame α)
  | tick (i now : ℕ)
  | tickCheck
  | tickEnd

/-- What the clients and the network get of it: audio of a call. -/
inductive VompOutput where
  | nothing
  | heard (i : ℕ)
  | sent (i : ℕ)
deriving DecidableEq

/-- A command of a monitor client about the call with a session. -/
def Phone.command (p : Phone α) (token : ℕ) (f : Call α → Call α) : Phone α :=
  match p.calls.findIdx? (·.localSession = token) with
  | none => p
  | some i => { p with calls := p.calls.modify i f }

@[grind =] def vompRinging (c : Call α) : Call α :=
  if !c.initiatedCall ∧ c.localState < vompStateRingingin ∧ c.remoteState = vompStateRingingout then
    vompUpdateLocalState c vompStateRingingin
  else c

@[grind =] def vompPickup (now : ℕ) (c : Call α) : Call α :=
  if c.localState ≤ vompStateRingingin ∧ c.remoteState = vompStateRingingout then
    { vompUpdateLocalState c vompStateIncall with createTime := now, pickedUp := true }
  else c

/-- `vomp_dial`. -/
def vompDial (calls : List (Call α)) (localSubscriber remote : α) (now : ℕ) (draws : List ℕ) :
    List (Call α) :=
  if vompMaxCalls ≤ calls.length then calls
  else calls ++ [{ vompCreateCall calls remote localSubscriber 0 now draws with
    localState := vompStateCallprep, initiatedCall := true }]

/-- `vomp_process_tick` up to where its first frame is sent. -/
@[grind =] def Call.tick (config : VompConfig) (now : ℕ) (c : Call α) : Call α :=
  let c := { c with scheduled := false }
  if c.timedOut config now then
    vompUpdateRemoteState (vompUpdateLocalState c vompStateCallended) vompStateCallended
  else c

/-- An event, while no tick runs or at one of its interruptions. -/
def Phone.step (config : VompConfig) (p : Phone α) : VompEvent α → Phone α × VompOutput
  | .received f =>
    ({ p with calls := (vompMdpReceived p.calls f).1 },
      match (vompMdpReceived p.calls f).2 with
      | some i => .heard i
      | none => .nothing)
  | .tickCheck =>
    match p.ticking with
    | some (i, false) =>
      if p.calls[i]?.any fun c =>
          c.localState = vompStateCallended ∧ c.remoteState = vompStateCallended then
        (⟨vompCallDestroy p.calls i, none⟩, .nothing)
      else (⟨p.calls, some (i, true)⟩, .nothing)
    | _ => (p, .nothing)
  | .tickEnd =>
    match p.ticking with
    | some (i, true) =>
      (⟨p.calls.modify i fun c => { c with scheduled := true }, none⟩, .nothing)
    | _ => (p, .nothing)
  | event =>
    if p.ticking.isSome then (p, .nothing)
    else
      match event with
      | .dial localSubscriber remote now draws =>
        ({ p with calls := vompDial p.calls localSubscriber remote now draws }, .nothing)
      | .ringing token => (p.command token vompRinging, .nothing)
      | .pickup token now => (p.command token (vompPickup now), .nothing)
      | .hangup token =>
        (p.command token fun c => vompUpdateLocalState c vompStateCallended, .nothing)
      | .audio token =>
        (p, match p.calls.findIdx? (·.localSession = token) with
          | some i => if p.calls[i]?.any (·.localState = vompStateIncall) then .sent i else .nothing
          | none => .nothing)
      | .tick i now =>
        if i < p.calls.length then
          (⟨p.calls.modify i (Call.tick config now), some (i, false)⟩, .nothing)
        else (p, .nothing)
      | _ => (p, .nothing)

def Phone.run (config : VompConfig) (events : List (VompEvent α)) : Phone α :=
  events.foldl (fun p event => (p.step config event).1) ⟨[], none⟩

end Definitions

end ServalMesh.Vomp
