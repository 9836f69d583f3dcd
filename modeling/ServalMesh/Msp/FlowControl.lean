import ServalMesh.Msp.Effects
import ServalMesh.Msp.Sockets
import ServalMesh.Msp.Windows
import ServalMesh.Overlay.Daemon

/-!
# Flow control of the sockets

Between receiving and sending, `process_sock` asserts that the transmit window has as many
packets as it counts, and that the socket asks for data exactly if there is room.
-/

namespace ServalMesh.Msp

open Lib Overlay List Machine MspWindow Triple

section Effects

/-- No packet is consumed beyond its end. -/
def OffsetsWithin (c : Core) : Prop := ∀ p ∈ c.rx.packets, p.offset ≤ p.payload.length

/-- The socket may be processed. -/
def Ready (c : Core) : Prop := FlowControlled c ∧ OffsetsWithin c

theorem called_flowControlled : Kept Called FlowControlled := by
  rintro c d h ⟨hcount, hdata⟩
  cases h with
  | @send payload tx outcome hport hopen hclosed hfull hadd houtcome =>
    have htx := addPacket_counted hcount c.tx.nextSeq 0#8 payload
    have hle := addPacket_packetCount_le c.tx c.tx.nextSeq 0#8 payload
    rw [hadd] at htx hle
    refine ⟨htx, ?_⟩
    simp only [advance, hclosed, hopen, Bool.and_eq_true, decide_eq_true_eq, and_true,
      hdata] at hle ⊢
    omega
  | shutLast hopen hlast => exact ⟨by simpa [MspWindow.shutLast] using hcount, by simp⟩
  | @shut tx outcome hopen hadd houtcome =>
    have htx := addPacket_counted hcount c.tx.nextSeq (flag flagShutdown true) []
    rw [hadd] at htx
    exact ⟨htx, by simp⟩
  | stop => exact ⟨hcount, by simp⟩
  | sendStop => exact ⟨hcount, hdata⟩

theorem effect_ready : Kept Effect Ready := by
  rintro c d h ⟨hflow, hwithin⟩
  cases h with
  | call h => exact ⟨called_flowControlled h hflow, fun p hp => hwithin p (h.rx_eq ▸ hp)⟩
  | flagRemote hp hseq => exact ⟨hflow, hwithin⟩
  | @consume i count p hp hseq hcount =>
    refine ⟨hflow, fun q hq => ?_⟩
    rcases mem_modify hq with hq | ⟨p', hp', rfl⟩
    · exact hwithin q hq
    · obtain rfl : p = p' := Option.some_inj.mp (hp.symm.trans hp')
      exact hcount
  | complete hp hseq hoffset => exact ⟨hflow, hwithin⟩
  | freeDelivered => exact ⟨hflow, fun p hp => hwithin p ((dropWhile_sublist _).mem hp)⟩
  | stamp => exact ⟨⟨by simpa [MspWindow.stamp] using hflow.1, hflow.2⟩, hwithin⟩
  | transmit hp hsent | acknowledge => exact ⟨hflow, hwithin⟩
  | close hshut =>
    refine ⟨⟨hflow.1, ?_⟩, hwithin⟩
    have := hflow.2
    simp only [hshut, Bool.true_eq_false, and_false, iff_false] at this ⊢
    exact this

/-- The ways in which a call may fail that are no fault of the socket. -/
def Excused (e : MspAbort) : Prop :=
  e = .misuse ∨ e = .consumed ∨ e = .remotePort ∨ e = .freed

theorem covers_ready : Covers Excused Ready where
  kept := effect_ready
  misuse := .inl rfl
  consumed := .inr (.inl rfl)
  remotePort := .inr (.inr (.inl rfl))
  freed := .inr (.inr (.inr rfl))
  offset := .inr fun _ h => h.2
  flowControl := .inr fun _ h => h.1

/-- A socket between two calls: it listens, nothing has happened to it yet, or flow control
is in order. -/
structure Sane (c : Core) : Prop where
  within : OffsetsWithin c
  ready : c.state.listening = true ∨
    (c.state = .uninitialised ∧ c.remotePort = 0 ∧ c.tx = .empty) ∨
    FlowControlled c

theorem called_sane : Kept Called Sane := by
  rintro c d h ⟨hwithin, hlisten | ⟨hstate, hport, htx⟩ | hflow⟩
  · refine ⟨fun p hp => hwithin p (h.rx_eq ▸ hp), .inl ?_⟩
    cases h <;> exact hlisten
  · refine ⟨fun p hp => hwithin p (h.rx_eq ▸ hp), .inr ?_⟩
    cases h with
    | send hport' => exact absurd hport hport'
    | shutLast hopen hlast => simp [htx, empty] at hlast
    | @shut tx outcome hopen hadd houtcome =>
      have hcounted := addPacket_counted (w := c.tx) (htx ▸ rfl) c.tx.nextSeq
        (flag flagShutdown true) []
      rw [hadd] at hcounted
      exact .inr ⟨hcounted, by simp⟩
    | stop => exact .inr ⟨htx ▸ rfl, by simp⟩
    | sendStop => exact .inl ⟨hstate, hport, htx⟩
  · exact ⟨fun p hp => hwithin p (h.rx_eq ▸ hp), .inr (.inr (called_flowControlled h hflow))⟩

/-- Room in the window is only promised if there is room. -/
def Half (c : Core) : Prop :=
  c.tx.Counted ∧ (c.state.dataOut = true → c.tx.packetCount < maxWindowSize ∧
    c.state.closed = false ∧ c.state.shutdownLocal = false)

theorem Sane.half {c : Core} (h : Sane c) (hlisten : c.state.listening = false) : Half c := by
  rcases h.ready with h | ⟨hstate, -, htx⟩ | hflow
  · cases hlisten.symm.trans h
  · refine ⟨htx ▸ rfl, ?_⟩
    rw [hstate]
    nofun
  · exact ⟨hflow.1, hflow.2.mp⟩

end Effects

section Receive

def MspSock.core (s : MspSock) : Core := (⟨s, ⟨[], [], []⟩, .empty⟩ : Machine).core

variable {E : MspAbort → Machine → Prop}

theorem keepPacket_ready (payload : List Byte) :
    Triple (fun m => Ready m.core) (keepPacket payload) (fun _ m => Ready m.core) E := by
  rintro m ⟨hflow, hwithin⟩
  refine ⟨hflow, fun p hp => ?_⟩
  rcases mem_addPacket hp with hp | rfl
  · exact hwithin p hp
  · exact Nat.zero_le _

/-- A socket that is stopped does not ask for data any more. -/
theorem mspStop_ready :
    Triple (fun m => m.core.tx.Counted ∧ OffsetsWithin m.core ∧
      (m.sock.state.stopped = true → FlowControlled m.core)) mspStop (fun _ m => Ready m.core)
      (FailsWith Excused Sane) := by
  apply get_bind
  rintro m ⟨hcount, hwithin, hflow⟩
  cases hstopped : m.sock.state.stopped with
  | true => exact .stay ⟨hflow hstopped, hwithin⟩
  | false =>
    apply modify_bind (I := fun m => Ready m.core)
    · rintro n rfl
      exact ⟨⟨hcount, by simp [core]⟩, hwithin⟩
    split
    · apply bind (sendMessage_keeps fun c hc => ⟨hc, effect_ready (.call .sendStop) hc⟩)
      exact fun _ => .skip
    · exact .skip

theorem releaseAcked_half (payload : List Byte) :
    Triple (fun m => Half m.core ∧ OffsetsWithin m.core) (releaseAcked payload)
      (fun _ m => Half m.core ∧ OffsetsWithin m.core) E := by
  rintro m ⟨⟨hcount, hdata⟩, hwithin⟩
  refine ⟨⟨freeAckedPackets_counted hcount, fun h => ?_⟩, hwithin⟩
  obtain ⟨hlt, hopen⟩ := hdata h
  exact ⟨lt_of_le_of_lt (Nat.sub_le _ _) hlt, hopen⟩

/-- A packet may be given to the socket: flow control is in order, or it is put in order. -/
structure Receptive (s : MspSock) (payload : List Byte) : Prop where
  half : Half s.core
  within : OffsetsWithin s.core
  stopped : s.state.stopped = true → FlowControlled s.core
  short : 3 ≤ payload.length ∨ (payload.headD 0#8).getLsbD flagStop = true ∨
    FlowControlled s.core

/-- A packet that is long enough, or stops the socket, or finds one that is in use, leaves
flow control in order. -/
theorem receive_ready {payload : List Byte} {m : Machine} (hm : Receptive m.sock payload) :
    Triple (· = m) (receive payload) (fun _ m => Ready m.core) (FailsWith Excused Sane) := by
  apply bind (Q := fun _ n => n.core = m.core)
  · rintro n rfl
    rfl
  intro now
  apply modify_bind (I := fun n => n.core =
    { m.core with state := { m.core.state with receivedPacket := true } })
  · intro n hn
    rw [← hn]
    rfl
  dsimp only
  split
  · refine bind (Q := fun _ m => Ready m.core)
      (mspStop_ready.weaken (fun n hn => ?_) fun _ _ h => h) fun _ => .skip
    have hstate : n.sock.state = n.core.state := rfl
    rw [hstate, hn]
    exact ⟨hm.half.1, hm.within, hm.stopped⟩
  rename_i hstop
  split
  · refine pure fun n hn => ?_
    rw [hn]
    rcases hm.short with h | h | h
    · omega
    · exact absurd h hstop
    · exact ⟨h, hm.within⟩
  -- acknowledged packets leave the window, then there may be room
  apply bind (Q := fun _ n => Half n.core ∧ OffsetsWithin n.core)
  · apply weaken (P := fun n => Half n.core ∧ OffsetsWithin n.core) _ _ fun _ _ h => h
    · rw [Run.when]
      split
      · exact releaseAcked_half payload
      · exact .skip
    · intro n hn
      rw [hn]
      exact ⟨hm.half, hm.within⟩
  intro _
  apply bind (Q := fun _ n => Half n.core ∧ OffsetsWithin n.core)
  · exact fun n hn => hn
  intro later
  apply modify_bind (I := fun n => Ready n.core)
  · rintro n ⟨⟨hcount, hdata⟩, hwithin⟩
    refine ⟨⟨hcount, ?_⟩, hwithin⟩
    simp only [core, Bool.or_eq_true, Bool.and_eq_true, decide_eq_true_eq,
      Bool.not_eq_true'] at hdata ⊢
    tauto
  split
  · exact .skip
  · exact keepPacket_ready payload

end Receive

section Sockets

/-- No socket is processed before it is connected or listens, none is connected twice, and a
packet of one or two bytes, but for one that stops, goes to a socket in use. -/
def SocketsOp.careful (w : Sockets) : SocketsOp → Bool
  | .connect salt _ _ => w.root.all fun s => s.salt ≠ salt || s.tx.packetCount == 0
  | .processing _ _ => w.root.all fun s => !s.unused
  | .packet mdpSock header payload _ _ =>
    3 ≤ payload.length || (payload.headD 0#8).getLsbD flagStop || 
      match findSock mdpSock header w.root none with
      | .sock s => payload = [] || !s.unused
      | .listen (some _) => !connects payload
      | _ => true
  | _ => true

variable {w : Sockets} {s : MspSock} {env : Env} {m : Machine} {payload : List Byte}
  {root : List MspSock} {header : MdpHeader} {α : Type}

theorem Sane.sock (h : Sane m.core) : Sane m.sock.core := ⟨h.within, h.ready⟩

theorem Sane.receptive (hs : Sane s.core) (hlisten : s.state.listening = false)
    (hshort : 3 ≤ payload.length ∨ (payload.headD 0#8).getLsbD flagStop = true ∨ s.unused = false) :
    Receptive s payload := by
  have hflow : s.state.stopped = true ∨ s.unused = false → FlowControlled s.core := by
    intro hused
    rcases hs.ready with h | ⟨hstate, -, htx⟩ | h
    · exact absurd (hlisten.symm.trans h) (by simp)
    · simp only [MspSock.core, core] at hstate htx
      simp [MspSock.unused, hstate, htx, empty, MspState.uninitialised] at hused
    · exact h
  exact ⟨hs.half hlisten, hs.within, fun h => hflow (.inl h),
    hshort.imp id (Or.imp id fun h => hflow (.inr h))⟩

theorem Ready.sane {c : Core} (h : Ready c) : Sane c := ⟨h.2, .inr (.inr h.1)⟩

def Sockets.Sane (w : Sockets) : Prop := ∀ s ∈ w.root, Msp.Sane s.core

/-- What a step of the process may end in. -/
def Fine : Except MspAbort Sockets → Prop
  | .ok w => w.Sane
  | .error e => Excused e

theorem on_fine {f : MspRun α} (hw : ∀ o ∈ w.root, o.salt ≠ s.salt → Sane o.core)
    (hf : Triple (· = ⟨s, env, .empty⟩) f (fun _ m => Sane m.core) fun e _ => Excused e) :
    Fine (w.on s env f) := by
  have hrun := hf _ rfl
  rw [Sockets.on]
  rcases hm : f.run ⟨s, env, .empty⟩ with ⟨e | a, m⟩
  · rwa [hm] at hrun
  rw [hm] at hrun
  intro o ho
  obtain ⟨o', ho', rfl⟩ := mem_map.mp ho
  split
  · exact Sane.sock hrun
  · rename_i hsalt
    exact hw o' ho' hsalt

theorem call_fine {f : MspRun α} {salt : ℕ} (hw : w.Sane)
    (hf : ∀ s ∈ w.root, s.salt = salt → Msp.Sane s.core →
      Triple (· = ⟨s, env, .empty⟩) f (fun _ m => Sane m.core) fun e _ => Excused e) :
    Fine (w.call salt env f) := by
  rw [Sockets.call, Sockets.find]
  rcases hfind : w.root.find? fun s => s.salt = salt with _ | s
  · rw [hfind]
    exact .inl rfl
  · rw [hfind]
    have hmem := mem_of_find?_eq_some hfind
    have hsalt : s.salt = salt := by simpa using find?_some hfind
    exact on_fine (fun o ho _ => hw o ho) (hf s hmem hsalt (hw s hmem))

theorem keeps_excused {I : Core → Prop} {f : MspRun α} {Q : α → Machine → Prop}
    (h : Triple (fun m => I m.core) f Q (FailsWith Excused I)) (hm : I m.core) :
    Triple (· = m) f Q fun e _ => Excused e := by
  rintro n rfl
  exact h.weaken_abort (fun e _ h => h.1) n hm

theorem misuse_excused : Excused .misuse := .inl rfl

theorem mspSetLocal_sane {addr : MdpSockaddr} (hm : Sane m.core) :
    Triple (· = m) (mspSetLocal addr) (fun _ m => Sane m.core) fun e _ => Excused e := by
  apply get_bind
  rintro m rfl
  split
  · exact abort fun _ _ => misuse_excused
  · rintro n rfl
    exact hm

theorem mspConnect_sane {remote : MdpSockaddr} (hm : Sane m.core)
    (hcount : m.sock.tx.packetCount = 0) :
    Triple (· = m) (mspConnect remote) (fun _ m => Sane m.core) fun e _ => Excused e := by
  apply get_bind
  rintro m rfl
  by_cases hstate : m.sock.state = .uninitialised
  swap
  · rw [if_pos hstate]
    exact abort fun _ _ => misuse_excused
  rw [if_neg (not_not.mpr hstate)]
  rintro n rfl
  have hlisten : n.sock.state.listening = false := by rw [hstate]; rfl
  refine ⟨hm.within, .inr (.inr ⟨(hm.half hlisten).1, ?_⟩)⟩
  simp only [core, hstate, hcount]
  decide

theorem mspListen_sane (hm : Sane m.core) :
    Triple (· = m) mspListen (fun _ m => Sane m.core) fun e _ => Excused e := by
  apply get_bind
  rintro m rfl
  split
  · exact abort fun _ _ => misuse_excused
  apply modify_bind (I := fun n => OffsetsWithin n.core ∧ n.core.state.listening = true)
  · rintro n rfl
    exact ⟨hm.within, rfl⟩
  apply bind (sendMessage_keeps
    (I := fun c => OffsetsWithin c ∧ c.state.listening = true) fun c hc => ⟨hc, hc⟩)
  intro result
  cases result with
  | sent | again | failed | noAddress => exact fun n hn => ⟨hn.1, .inl hn.2⟩

theorem bindResponse_sane (hm : Sane m.core) :
    Triple (· = m) (bindResponse header) (fun _ m => Sane m.core) fun e _ => Excused e := by
  apply get_bind
  rintro m rfl
  apply modify_bind (I := fun n => Sane n.core)
  · rintro n rfl
    exact ⟨hm.within, hm.ready⟩
  split <;> exact fun n hn => hn

/-- A socket that has not been left unused comes out of `process_sock` in order, or closed. -/
theorem processSock_sane (hm : Sane m.core) (hused : m.sock.unused = false) (pending : Bool) :
    Triple (· = m) (processSock pending)
      (fun _ m => m.sock.state.closed = true ∨ Sane m.core) fun e _ => Excused e := by
  apply bind (Q := fun _ n => n.core = m.core ∧ n.sock = m.sock)
  · rintro n rfl
    exact ⟨rfl, rfl⟩
  intro now
  apply get_bind
  rintro n ⟨hcore, hsock⟩
  split
  · rintro n rfl
    exact .inl rfl
  rcases hm.ready with hlisten | ⟨hstate, -, htx⟩ | hflow
  · apply get_bind
    rintro _ rfl
    apply modify_bind (I := fun n => Sane n.core)
    · rintro _ rfl
      rwa [← hcore] at hm
    rw [if_pos (by rw [hsock]; exact hlisten)]
    exact pure fun _ h => .inr h
  · simp only [core] at hstate htx
    simp [MspSock.unused, hstate, htx, empty] at hused
  · apply keeps_excused (I := Ready)
    · exact (processLive_keeps covers_ready now pending).weaken (fun _ h => h)
        fun _ _ h => .inr h.sane
    · rw [hcore]
      exact ⟨hflow, hm.within⟩

theorem processAll_sane {before rest : List MspSock} (envs : List Env)
    (hbefore : ∀ s ∈ before, s.state.closed = true ∨ Sane s.core)
    (hrest : ∀ s ∈ rest, Sane s.core ∧ s.unused = false) :
    match processAll before rest envs with
    | .ok root => ∀ s ∈ root, s.state.closed = true ∨ Sane s.core
    | .error e => Excused e := by
  induction rest generalizing before envs with
  | nil => exact hbefore
  | cons s rest ih =>
    obtain ⟨hs, hused⟩ := hrest s mem_cons_self
    have hrun := processSock_sane (m := ⟨s, envs.headD ⟨[], [], []⟩, .empty⟩) hs hused
      (pendingBind s.mdpSock (before ++ rest)) _ rfl
    rw [processAll]
    rcases hm : (processSock (pendingBind s.mdpSock (before ++ rest))).run
      ⟨s, envs.headD ⟨[], [], []⟩, .empty⟩ with ⟨e | r, m⟩
    · rwa [hm] at hrun
    rw [hm] at hrun
    apply ih
    · exact forall_mem_append.mpr ⟨hbefore, forall_mem_singleton.mpr (hrun.imp id Sane.sock)⟩
    · exact (forall_mem_cons.mp hrest).2

theorem mspFree_excused :
    Triple (fun _ => True) mspFree (fun _ _ => True) fun e _ => Excused e := by
  refine modify_bind (I := fun _ => True) (fun _ _ => trivial) ?_
  have hcall := callHandler_keeps (I := fun _ => True) (fun _ _ _ h => h) misuse_excused
    (.inr (.inl rfl)) []
  exact bind (hcall.weaken_abort fun _ _ h => h.1) fun _ => pure fun _ _ => trivial

theorem freeClosed_sane (envs : List Env)
    (hroot : ∀ s ∈ root, s.state.closed = true ∨ Sane s.core) :
    match freeClosed root envs with
    | .ok root => ∀ s ∈ root, Sane s.core
    | .error e => Excused e := by
  induction root generalizing envs with
  | nil => simp [freeClosed]
  | cons s rest ih =>
    have hrest : ∀ s ∈ rest, s.state.closed = true ∨ Sane s.core :=
      (forall_mem_cons.mp hroot).2
    rw [freeClosed]
    cases hclosed : s.state.closed with
    | true =>
      have hfree := mspFree_excused ⟨s, envs.headD ⟨[], [], []⟩, .empty⟩ trivial
      rcases hm : mspFree.run ⟨s, envs.headD ⟨[], [], []⟩, .empty⟩ with ⟨e | r, m⟩
      · rwa [hm] at hfree
      · exact ih _ hrest
    | false =>
      have hs : Sane s.core := by
        rcases hroot s mem_cons_self with h | h
        · exact absurd (hclosed.symm.trans h) (by simp)
        · exact h
      have hih := ih envs hrest
      rcases hfree : freeClosed rest envs with e | root
      · rwa [hfree] at hih
      · rw [hfree] at hih
        exact forall_mem_cons.mpr ⟨hs, hih⟩

theorem mspProcessing_fine (hw : w.Sane) (hused : ∀ s ∈ w.root, s.unused = false)
    (envs lastEnvs : List Env) : Fine (mspProcessing w envs lastEnvs) := by
  have hall := processAll_sane envs (forall_mem_nil _) fun s hs => ⟨hw s hs, hused s hs⟩
  rw [mspProcessing]
  rcases hroot : processAll [] w.root envs with e | root
  · rwa [hroot] at hall
  rw [hroot] at hall
  have hfree := freeClosed_sane lastEnvs hall
  show Fine (freeClosed root lastEnvs >>= fun root => .ok { w with root })
  cases hlast : freeClosed root lastEnvs with
  | error e | ok last => rwa [hlast] at hfree

/-- The socket that was found is in the list. -/
def Found.From (root : List MspSock) : Found → Prop
  | .bound s => s ∈ root
  | .sock s => s ∈ root ∧ s.state.listening = false
  | .listen _ => True

theorem Found.From.cons {found : Found} (h : found.From root) (s : MspSock) :
    found.From (s :: root) := by
  cases found with
  | bound o => exact mem_cons_of_mem _ h
  | sock o => exact ⟨mem_cons_of_mem _ h.1, h.2⟩
  | listen o => trivial

theorem findSock_from (mdpSock : ℕ) (header : MdpHeader) (root : List MspSock)
    (listen : Option MspSock) : (findSock mdpSock header root listen).From root := by
  induction root generalizing listen with
  | nil => trivial
  | cons s rest ih =>
    rw [findSock]
    split
    · split
      · exact mem_cons_self
      split
      · split <;> exact (ih _).cons s
      · rename_i hlisten
        split
        · exact ⟨mem_cons_self, by simpa using hlisten⟩
        · exact (ih _).cons s
    · exact (ih _).cons s

theorem processPacket_fine (hw : w.Sane) {mdpSock : ℕ} {now : ℕ}
    (hcareful : (SocketsOp.packet mdpSock header payload now env).careful w = true) :
    Fine (processPacket w mdpSock header payload now env) := by
  have hreceive : ∀ (w : Sockets) (s : MspSock), (∀ o ∈ w.root, o.salt ≠ s.salt → Sane o.core) →
      Receptive s payload → Fine (w.on s env (receive payload)) := by
    intro w s hw hs
    apply on_fine hw
    exact ((receive_ready (m := ⟨s, env, .empty⟩) hs).weaken (fun _ h => h)
      fun _ _ h => h.sane).weaken_abort fun _ _ h => h.1
  have hfound := findSock_from mdpSock header w.root none
  rw [processPacket]
  split
  · exact hw
  rw [SocketsOp.careful] at hcareful
  cases hfind : findSock mdpSock header w.root none with
  | bound s =>
    rw [hfind] at hfound
    exact on_fine (fun o ho _ => hw o ho) (bindResponse_sane (hw s hfound))
  | sock s =>
    rw [hfind] at hfound hcareful
    dsimp only
    split
    · exact hw
    · rename_i hpayload
      refine hreceive w s (fun o ho _ => hw o ho) ((hw s hfound.1).receptive hfound.2 ?_)
      simpa [hpayload, or_assoc] using hcareful
  | listen listen =>
    rw [hfind] at hcareful
    cases listen with
    | none => exact hw
    | some l =>
      dsimp only
      split
      · rename_i hconnects
        refine hreceive ⟨_ :: w.root, w.nextSalt⟩ _ ?_ ⟨⟨rfl, nofun⟩, nofun, nofun, ?_⟩
        · exact forall_mem_cons.mpr ⟨fun h => absurd rfl h, fun o ho _ => hw o ho⟩
        · simp only [hconnects, Bool.not_true, Bool.or_false, Bool.or_eq_true,
            decide_eq_true_eq] at hcareful
          exact hcareful.imp id .inl
      · exact hw

/-- A step taken with care ends in order, or with an abort that is no fault of the socket. -/
theorem step_fine (hw : w.Sane) {op : SocketsOp} (hcareful : op.careful w = true) :
    Fine (w.step op) := by
  cases op with
  | socket mdpSock now => exact forall_mem_cons.mpr ⟨⟨nofun, .inr (.inl ⟨rfl, rfl, rfl⟩)⟩, hw⟩
  | setHandler salt =>
    refine call_fine hw fun s _ _ hs => ?_
    rintro m rfl
    exact hs
  | setLocal salt addr => exact call_fine hw fun _ _ _ hs => mspSetLocal_sane hs
  | connect salt remote env =>
    refine call_fine hw fun s hmem hsalt hs => mspConnect_sane hs ?_
    simpa [hsalt] using all_eq_true.mp hcareful s hmem
  | listen salt env => exact call_fine hw fun _ _ _ hs => mspListen_sane hs
  | send salt payload env =>
    exact call_fine hw fun _ _ _ hs =>
      keeps_excused (mspSend_keeps called_sane misuse_excused payload) hs
  | shutdown salt env =>
    exact call_fine hw fun _ _ _ hs =>
      keeps_excused (mspShutdown_keeps called_sane misuse_excused) hs
  | stop salt env => exact call_fine hw fun _ _ _ hs => keeps_excused (mspStop_keeps called_sane) hs
  | processing envs lastEnvs =>
    refine mspProcessing_fine hw (fun s hs => ?_) envs lastEnvs
    simpa using all_eq_true.mp hcareful s hs
  | packet mdpSock header payload now env => exact processPacket_fine hw hcareful

/-- Every step of a run is taken with care. -/
def carefulRun (w : Sockets) : List SocketsOp → Bool
  | [] => true
  | op :: ops => op.careful w &&
    match w.step op with
    | .ok w => carefulRun w ops
    | .error _ => true

theorem runOps_fine {ops : List SocketsOp} (hw : w.Sane) (hcareful : carefulRun w ops = true) :
    Fine (w.runOps ops) := by
  induction ops generalizing w with
  | nil => exact hw
  | cons op ops ih =>
    rw [carefulRun, Bool.and_eq_true] at hcareful
    obtain ⟨hop, hops⟩ := hcareful
    have hstep := step_fine hw hop
    rw [Sockets.runOps, foldlM_cons]
    cases hw' : w.step op with
    | error e => rwa [hw'] at hstep
    | ok w' =>
      rw [hw'] at hstep hops
      exact ih hstep hops

/-- In a run whose steps are taken with care the flow control assertions never fail, and no
other abort than those for which the socket is not to blame is possible. Every socket is left
listening, unused or with flow control in order. -/
theorem runOps_flowControlled {ops : List SocketsOp} (hcareful : carefulRun .initial ops = true) :
    match Sockets.initial.runOps ops with
    | .ok w => ∀ s ∈ w.root, s.state.listening = true ∨ s.unused = true ∨
        (s.tx.packetCount = s.tx.packets.length ∧
          (s.state.dataOut = true ↔ s.tx.packetCount < maxWindowSize ∧ s.state.closed = false ∧
            s.state.shutdownLocal = false))
    | .error e => e ≠ .flowControl ∧ e ≠ .offset ∧ e ≠ .endless := by
  have hfine := runOps_fine (w := .initial) (fun _ h => (nomatch h)) hcareful
  rcases hrun : Sockets.initial.runOps ops with e | w <;> rw [hrun] at hfine
  · rcases hfine with rfl | rfl | rfl | rfl <;> simp
  · intro s hs
    rcases (hfine s hs).ready with h | ⟨hstate, -, htx⟩ | h
    · exact .inl h
    · simp only [MspSock.core, core] at hstate htx
      exact .inr (.inl (by simp [MspSock.unused, hstate, htx, empty]))
    · exact .inr (.inr h)

end Sockets

section Examples

/-- Calls that find the given time, a handler that consumes nothing and a free network. -/
def Env.at (now : ℕ) : Env := ⟨List.replicate 8 now, [], []⟩

def sampleAddr (port : ℕ) : MdpSockaddr := ⟨Sid.uniform 0x1a#8, port⟩

/-- A socket listens, and a packet with `payload` arrives for it from elsewhere. -/
def listenAndReceive (payload : List Byte) : List SocketsOp :=
  [.socket 0 0, .setLocal 1 (sampleAddr 7), .listen 1 (.at 0),
    .packet 0 ⟨sampleAddr 7, sampleAddr 9, 0#8⟩ payload 1 (.at 1), .processing [.at 2, .at 2] []]

theorem runOps_flowControlled_connected :
    carefulRun .initial (listenAndReceive [4#8, 0#8, 0#8]) = true ∧
    match Sockets.initial.runOps (listenAndReceive [4#8, 0#8, 0#8]) with
    | .ok w => ∀ s ∈ w.root, s.state.listening = true ∨ s.unused = true ∨
        (s.tx.packetCount = s.tx.packets.length ∧
          (s.state.dataOut = true ↔ s.tx.packetCount < maxWindowSize ∧ s.state.closed = false ∧
            s.state.shutdownLocal = false))
    | .error e => e ≠ .flowControl ∧ e ≠ .offset ∧ e ≠ .endless :=
  have h : carefulRun .initial (listenAndReceive [4#8, 0#8, 0#8]) = true := by decide +kernel
  ⟨h, runOps_flowControlled h⟩

/-- A packet of one byte makes a socket for which the assertion fails; so does processing a
socket that is not connected yet, and connecting one again when its window is full. -/
theorem runOps_flowControl_abort :
    Sockets.initial.runOps (listenAndReceive [4#8]) = .error .flowControl ∧
    Sockets.initial.runOps [.socket 0 0, .processing [.at 1] []] = .error .flowControl ∧
    Sockets.initial.runOps ([.socket 0 0, .connect 1 (sampleAddr 7) (.at 0)]
      ++ List.replicate 4 (.send 1 [0#8] (.at 0))
      ++ [.connect 1 (sampleAddr 7) (.at 0), .processing [.at 1] []]) = .error .flowControl := by
  decide +kernel

end Examples

end ServalMesh.Msp
