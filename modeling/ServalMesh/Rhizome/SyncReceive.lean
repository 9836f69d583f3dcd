import ServalMesh.Overlay.Packed
import ServalMesh.Rhizome.SyncSend

/-!
# Receiving lists of BARs

A node keeps, for each peer, the window of the peer's rows that it has synced, and a short list of
BARs that it wants to fetch. A list of BARs extends the window if it overlaps it.
-/

namespace ServalMesh.Rhizome

open Lib Overlay

section Wire

/-- The bytes of a list of BARs, after its type. -/
def responsePayload (entries : List (ℕ × Option Bar)) : List Byte :=
  entries.flatMap fun entry => packedBytes 10 (BitVec.ofNat 64 entry.1) ++
    match entry.2 with
    | some bar => bar.bytes
    | none => List.replicate rhizomeBarBytes 0#8

/-- What `ob_get_packed_ui64` adds for one byte; the shift is made in an `int`. -/
def packedPart (byte : Byte) (shift : ℕ) : BitVec 64 :=
  (UndefinedShifts.x86.shlInt ((byte &&& 0x7f#8).setWidth 32) shift).signExtend 64

def packedLoop (ret : BitVec 64) (shift : ℕ) : List Byte → BitVec 64 × List Byte
  | [] => (BitVec.allOnes 64, [])
  | byte :: rest =>
    let ret := ret ||| packedPart byte shift
    if byte &&& 0x80#8 ≠ 0#8 then packedLoop ret (shift + 7) rest else (ret, rest)

def obGetPackedUi64 (bytes : List Byte) : BitVec 64 × List Byte := packedLoop 0#64 0 bytes

/-- It reads the number that `ob_get_packed_ui32` reads, as a signed one. -/
theorem packedLoop_signExtend (ret : BitVec 32) (shift : ℕ) (bytes : List Byte) :
    packedLoop (ret.signExtend 64) shift bytes =
      ((packedLoop32 ret shift bytes).1.signExtend 64, (packedLoop32 ret shift bytes).2) := by
  induction bytes generalizing ret shift with
  | nil => rfl
  | cons byte rest ih =>
    rw [packedLoop, packedLoop32, packedPart, ← BitVec.signExtend_or]
    split
    · exact ih _ _
    · rfl

theorem obGetPackedUi64_eq (bytes : List Byte) :
    obGetPackedUi64 bytes =
      ((obGetPackedUi32 bytes).1.signExtend 64, (obGetPackedUi32 bytes).2) :=
  packedLoop_signExtend 0#32 0 bytes

/-- The tokens and BARs of a payload; what is not complete at its end is ignored. -/
def decodeBars (bytes : List Byte) : List (ℕ × Bar) :=
  if h : ((obGetPackedUi64 bytes).2.take rhizomeBarBytes).length = rhizomeBarBytes then
    ((obGetPackedUi64 bytes).1.toNat, ⟨(obGetPackedUi64 bytes).2.take rhizomeBarBytes, h⟩) ::
      decodeBars ((obGetPackedUi64 bytes).2.drop rhizomeBarBytes)
  else []
termination_by bytes.length
decreasing_by
  have hle : (obGetPackedUi64 bytes).2.length ≤ bytes.length := by
    rw [obGetPackedUi64_eq]
    exact length_packedLoop32 0#32 0 bytes
  rw [List.length_take, rhizomeBarBytes] at h
  rw [List.length_drop, rhizomeBarBytes]
  omega

end Wire

/-- `struct rhizome_sync`, without what is only displayed. -/
structure RhizomeSync where
  syncStart : ℕ
  syncEnd : ℕ
  highestSeen : ℕ
  syncComplete : Bool
  startTime : ℕ
  nextRequest : ℕ
  bars : List BarEntry
deriving DecidableEq

/-- The state of a peer, the BARs that were passed to `rhizome_is_bar_interesting` since the last
restart with the answer, and those that were put into the list. -/
structure Syncing where
  state : RhizomeSync
  checked : List (ℕ × Bar × Bool)
  cached : List (ℕ × Bar)
deriving DecidableEq

/-- A state that has been cleared. -/
def Syncing.new (now : ℕ) : Syncing where
  state := ⟨0, 0, 0, false, now, 0, []⟩
  checked := []
  cached := []

section Cache

variable (interesting : Bar → Bool) (now : ℕ)

/-- A BAR is checked, and remembered if it is interesting. -/
def checkBar (s : Syncing) (bar : Bar) (token : ℕ) : Syncing :=
  let s := { s with checked := s.checked ++ [(token, bar, interesting bar)] }
  if interesting bar then
    { s with
      state := { s.state with bars := s.state.bars ++ [⟨bar, maxTries, now⟩] }
      cached := s.cached ++ [(token, bar)] }
  else s

/-- The window is extended to a token. -/
def extendWindow (state : RhizomeSync) (token : ℕ) : RhizomeSync :=
  let state := if state.syncEnd < token then { state with syncEnd := token } else state
  if token < state.syncStart then { state with syncStart := token } else state

/-- `sync_cache_bar`, and whether something was added. There is no BAR if the sender only marks
the edge of its range. -/
def syncCacheBar (s : Syncing) (bar : Option Bar) (token : ℕ) : Except Abort (Syncing × Bool) :=
  if cacheBars ≤ s.state.bars.length then .ok (s, false)
  else if token = 0 then
    .ok ({ s with state := extendWindow s.state token }, extendWindow s.state token ≠ s.state)
  else
    match bar with
    | none => .error .nullPointer
    | some bar =>
      let s' := checkBar interesting now s bar token
      .ok ({ s' with state := extendWindow s'.state token },
        interesting bar || extendWindow s'.state token ≠ s'.state)

/-- The BARs from the mid point on. -/
def cacheLoop (s : Syncing) (added : Bool) : List (ℕ × Option Bar) → Except Abort (Syncing × Bool)
  | [] => .ok (s, added)
  | entry :: entries =>
    match syncCacheBar interesting now s entry.2 entry.1 with
    | .error abort => .error abort
    | .ok (s, r) => cacheLoop s (added || r) entries

/-- The BARs before the mid point, unless there are too many already. -/
def cacheOldLoop (s : Syncing) (added : Bool) :
    List (ℕ × Option Bar) → Except Abort (Syncing × Bool)
  | [] => .ok (s, added)
  | entry :: entries =>
    if maxOldBars ≤ s.state.bars.length then .ok (s, added)
    else
      match syncCacheBar interesting now s entry.2 entry.1 with
      | .error abort => .error abort
      | .ok (s, r) => cacheOldLoop s (added || r) entries

/-- The BARs from the mid point on, and then those before it. -/
def cacheFrom (s : Syncing) (bars : List (ℕ × Option Bar)) (mid : ℕ) : Except Abort Syncing :=
  match cacheLoop interesting now s false (bars.drop mid) with
  | .error abort => .error abort
  | .ok (s, added) =>
    match cacheOldLoop interesting now s added (bars.take mid).reverse with
    | .error abort => .error abort
    | .ok (s, added) =>
      .ok (if added then { s with state := { s.state with nextRequest := now } } else s)

end Cache

section Process

/-- The local variables of `sync_process_bar_list` while it reads. -/
structure Reading where
  state : RhizomeSync
  bars : List (ℕ × Option Bar)
  hasBefore : Bool
  hasAfter : Bool
  midPoint : Option ℕ

/-- The highest BAR is tracked even if it cannot be synced yet. -/
def trackHighest (state : RhizomeSync) (token : ℕ) : RhizomeSync :=
  if state.highestSeen < token then { state with highestSeen := token, syncComplete := false }
  else state

def readBar (r : Reading) (token : ℕ) (bar : Bar) : Reading :=
  let bar := if rhizomeIsBarNone bar then none else some bar
  let r := { r with state := trackHighest r.state token }
  if r.state.syncEnd = 0 then { r with bars := r.bars ++ [(token, bar)] }
  else
    let r := { r with
      hasBefore := r.hasBefore || token ≤ r.state.syncEnd
      hasAfter := r.hasAfter || r.state.syncStart ≤ token }
    if token ≤ r.state.syncEnd ∧ r.state.syncStart ≤ token then r
    else
      { r with
        midPoint := if r.hasBefore && r.hasAfter && r.midPoint.isNone then some r.bars.length
          else r.midPoint
        bars := r.bars ++ [(token, bar)] }

def readBars (r : Reading) : List (ℕ × Bar) → Reading
  | [] => r
  | entry :: entries =>
    if barsPerResponse ≤ r.bars.length then r
    else readBars (readBar r entry.1 entry.2) entries

/-- Where the BARs that were read adjoin the window. -/
def midPoint (r : Reading) : Option ℕ :=
  if r.bars ≠ [] ∧ r.hasBefore ∧ r.hasAfter ∧ r.midPoint = none then some (r.bars.length - 1)
  else r.midPoint

/-- Whether the BARs that were read start the window: it starts from the end. -/
def startsSync (r : Reading) : Bool :=
  match r.bars.head?, r.bars.getLast? with
  | some first, some last => r.state.syncEnd = 0 && last.1 ≤ first.1
  | _, _ => false

/-- The sync is restarted every hour. -/
def restart (now : ℕ) (s : Syncing) : Syncing :=
  if 60 * 60 * 1000 < now - s.state.startTime then .new now else s

def reading (s : Syncing) (entries : List (ℕ × Bar)) : Reading :=
  readBars ⟨s.state, [], false, false, none⟩ entries

/-- `sync_process_bar_list`. -/
def syncProcessBarList (interesting : Bar → Bool) (now : ℕ) (s : Syncing) (payload : List Byte) :
    Except Abort Syncing :=
  let s := restart now s
  let r := reading s (decodeBars payload)
  let starts := startsSync r
  let state :=
    if starts then
      { r.state with syncStart := r.state.highestSeen, syncEnd := r.state.highestSeen }
    else r.state
  match if starts then some 0 else midPoint r with
  | none => .ok { s with state }
  | some mid => cacheFrom interesting now { s with state } r.bars mid

end Process

section Requests

/-- What the requests for manifests look up elsewhere: `rhizome_ignore_manifest_check`,
`rhizome_fetch_has_queue_space` and `rhizome_fetch_bar_queued`. -/
structure Fetching where
  ignored : Bar → Bool
  hasQueueSpace : Byte → Bool
  queued : Bar → Bool

def rhizomeBarLogSize (bar : Bar) : Byte := bar.bytes.getD 15 0#8

/-- The loop that asks for manifests, with what was asked for and how many entries are left. -/
def requestLoop (fetching : Fetching) (now : ℕ) (bars : List BarEntry) (asked : List Bar) :
    ℕ → List BarEntry × List Bar
  | 0 => (bars, asked)
  | i + 1 =>
    match bars[i]? with
    | none => requestLoop fetching now bars asked i
    | some entry =>
      if now < entry.nextRequest ∨ fetching.ignored entry.bar ∨
          (rhizomeBarLogSize entry.bar ≠ 0xff#8 ∧
            !fetching.hasQueueSpace (rhizomeBarLogSize entry.bar)) then
        requestLoop fetching now bars asked i
      else if fetching.queued entry.bar then
        requestLoop fetching now (bars.set i { entry with nextRequest := now + 2000 }) asked i
      else if mdpMtu - rhizomeBarBytes * asked.length < rhizomeBarBytes then (bars, asked)
      else
        let bars :=
          if entry.tries - 1 = 0 then removeBar bars i
          else bars.set i { entry with tries := entry.tries - 1, nextRequest := now + 5000 }
        if barsPerResponse ≤ asked.length + 1 then (bars, asked ++ [entry.bar])
        else requestLoop fetching now bars (asked ++ [entry.bar]) i

/-- `rhizome_sync_send_requests`, and the request for more BARs that it makes. -/
def rhizomeSyncSendRequests (fetching : Fetching) (now : ℕ) (state : RhizomeSync) :
    RhizomeSync × Option (ℕ × Bool) :=
  let state := { state with
    bars := (requestLoop fetching now state.bars [] state.bars.length).1 }
  if cacheBars ≤ state.bars.length ∨ now < state.nextRequest then (state, none)
  else
    let state' := { state with nextRequest := now + 5000 }
    if state.syncEnd < state.highestSeen then (state', some (state.syncEnd, true))
    else if 0 < state.syncStart then
      (state', if state.bars.length < maxOldBars then some (state.syncStart, false) else none)
    else ({ state' with syncComplete := true }, none)

end Requests

end ServalMesh.Rhizome
