import ServalMesh.Msp.Socket

/-!
# What a socket can do

The functions on a socket are sequences of a few effects on its windows, its state and its
log. An invariant that each effect keeps holds after every call, also after one that aborts.
-/

namespace ServalMesh.Msp

open Lib Overlay List Triple

/-- What the effects are about. -/
structure Core where
  tx : MspWindow
  rx : MspWindow
  state : MspState
  remotePort : ℕ
  log : Log

def Machine.core (m : Machine) : Core :=
  ⟨m.sock.tx, m.sock.rx, m.sock.state, m.sock.header.remoteAddr.port, m.log⟩

/-- What a call of the interface can do. -/
inductive Called : Core → Core → Prop
  | send {c : Core} {payload : List Byte} {tx : MspWindow} {outcome : Added}
      (hport : c.remotePort ≠ 0) (hopen : c.state.shutdownLocal = false)
      (hclosed : c.state.closed = false) (hcount : c.tx.packetCount ≤ maxWindowSize)
      (hadd : addPacket c.tx c.tx.nextSeq 0#8 payload = (tx, outcome))
      (houtcome : outcome ≠ .ambiguous) :
      Called c { c with
        tx := tx.advance
        state := { c.state with
          dataOut := c.state.dataOut && decide (tx.packetCount < maxWindowSize) }
        log := { c.log with queued := c.log.queued ++ [payload] } }
  /-- the last packet, not yet sent, becomes the one that says that nothing follows -/
  | shutLast {c : Core} (hopen : c.state.shutdownLocal = false)
      (hlast : c.tx.packets.getLast?.map MspPacket.sent = some timeMsNeverHas) :
      Called c { c with
        tx := c.tx.shutLast
        state := { c.state with
          shutdownLocal := true
          dataOut := false }
        log := { c.log with shut := some (c.log.queued.length - 1) } }
  | shut {c : Core} {tx : MspWindow} {outcome : Added} (hopen : c.state.shutdownLocal = false)
      (hadd : addPacket c.tx c.tx.nextSeq (flag flagShutdown true) [] = (tx, outcome))
      (houtcome : outcome ≠ .ambiguous) :
      Called c { c with
        tx := tx.advance
        state := { c.state with
          shutdownLocal := true
          dataOut := false }
        log := { c.log with
          queued := c.log.queued ++ [[]]
          shut := some c.log.queued.length } }
  | stop {c : Core} :
      Called c { c with
        state := { c.state with
          stopped := true
          closed := true
          dataOut := false } }
  | sendStop {c : Core} :
      Called c { c with log := { c.log with wire := c.log.wire ++ [[flag flagStop true]] } }

/-- What `process_sock` can do to a socket that has not timed out. -/
inductive Effect : Core → Core → Prop
  | call {c d : Core} (h : Called c d) : Effect c d
  | flagRemote {c : Core} {i : ℕ} {p : MspPacket} (hp : c.rx.packets[i]? = some p)
      (hseq : p.seq = c.rx.nextSeq) :
      Effect c { c with
        state := { c.state with
          shutdownRemote := c.state.shutdownRemote || p.flags.getLsbD flagShutdown } }
  | consume {c : Core} {i count : ℕ} {p : MspPacket} (hp : c.rx.packets[i]? = some p)
      (hseq : p.seq = c.rx.nextSeq) (hcount : p.offset + count ≤ p.payload.length) :
      Effect c { c with
        rx := c.rx.consume i count
        log := { c.log with
          consumed := c.log.consumed ++ (p.payload.drop p.offset).take count } }
  | complete {c : Core} {i : ℕ} {p : MspPacket} (hp : c.rx.packets[i]? = some p)
      (hseq : p.seq = c.rx.nextSeq) (hoffset : p.offset = p.payload.length) :
      Effect c { c with
        rx := c.rx.advance
        log := { c.log with completed := c.log.completed + 1 } }
  | freeDelivered {c : Core} :
      Effect c { c with rx := freeAckedPackets c.rx (c.rx.nextSeq - 1) }
  | stamp {c : Core} (i now : ℕ) :
      Effect c { c with tx := c.tx.stamp i now }
  | transmit {c : Core} {p : MspPacket} {i : ℕ} (hp : c.tx.packets[i]? = some p)
      (hsent : p.sent ≠ timeMsNeverHas) :
      Effect c { c with
        log := { c.log with wire := c.log.wire ++ [mspMessage c.state c.rx p] } }
  | acknowledge {c : Core} :
      Effect c { c with
        log := { c.log with wire := c.log.wire ++ [mspHeader c.state c.rx 0#8] } }
  | close {c : Core} (hshut : c.state.shutdownLocal = true) :
      Effect c { c with state := { c.state with closed := true } }

/-- What a message can do, and a timeout: other bits of the state change, packets of the window
are released, and a packet is kept. -/
inductive Received (message : List Byte) : Core → Core → Prop
  | bits {c : Core} {state : MspState} (hlocal : state.shutdownLocal = c.state.shutdownLocal)
      (hremote : state.shutdownRemote = c.state.shutdownRemote) :
      Received message c { c with state }
  | release {c : Core} (hlen : 3 ≤ message.length) :
      Received message c { c with
        tx := freeAckedPackets c.tx (readUint16 message 1)
        log := { c.log with
          released := c.log.released + (c.tx.packets.length -
            (freeAckedPackets c.tx (readUint16 message 1)).packets.length) } }
  | keep {c : Core} (hlen : mspPayloadPreambleSize ≤ message.length) :
      Received message c { c with
        rx := (addPacket c.rx (readUint16 message 3) (message.headD 0#8)
          (message.drop mspPayloadPreambleSize)).1
        state := { c.state with receivedData := true } }

/-- What holds in a state also holds after each of the effects. -/
def Kept (effect : Core → Core → Prop) (I : Core → Prop) : Prop :=
  ∀ ⦃c d⦄, effect c d → I c → I d

theorem Kept.called {I : Core → Prop} (hI : Kept Effect I) : Kept Called I :=
  fun _ _ h => hI (.call h)

theorem mem_modify {α : Type} {l : List α} {i : ℕ} {f : α → α} {b : α} (h : b ∈ l.modify i f) :
    b ∈ l ∨ ∃ a, l[i]? = some a ∧ b = f a := by
  obtain ⟨j, hj⟩ := mem_iff_getElem?.mp h
  rw [getElem?_modify] at hj
  obtain ⟨a, ha, hb⟩ := Option.map_eq_some_iff.mp hj
  by_cases hij : i = j
  · rw [if_pos hij] at hb
    exact .inr ⟨a, hij ▸ ha, hb.symm⟩
  · rw [if_neg hij] at hb
    exact .inl (hb ▸ mem_of_getElem? ha)

section Calls

variable {I : Core → Prop} {fails : MspAbort → Prop} {E : MspAbort → Machine → Prop}

/-- How a call may abort: in one of the given ways, and the invariant still holds. -/
def FailsWith (fails : MspAbort → Prop) (I : Core → Prop) (e : MspAbort) (m : Machine) : Prop :=
  fails e ∧ I m.core

/-- A call keeps an invariant, also where it aborts. -/
abbrev Keeps {α : Type} (fails : MspAbort → Prop) (I : Core → Prop) (run : MspRun α) : Prop :=
  Triple (fun m => I m.core) run (fun _ m => I m.core) (FailsWith fails I)

theorem gettimeMs_keeps : Triple (fun m => I m.core) gettimeMs (fun _ m => I m.core) E :=
  fun _ hm => hm

/-- A change that is none of the effects. -/
theorem quiet_bind {α : Type} {J : Machine → Prop} {g : Machine → Machine} {f : Unit → MspRun α}
    {Q : α → Machine → Prop} (hg : ∀ m, J m → J (g m)) (h : Triple J (f ()) Q E) :
    Triple J (Run.modify g >>= f) Q E :=
  modify_bind hg h

theorem mspSend_keeps (hI : Kept Called I) (hmisuse : fails .misuse) (payload : List Byte) :
    Keeps fails I (mspSend payload) := by
  apply get_bind
  intro m hm
  by_cases hmis : m.sock.state.listening = true ∨ m.sock.header.remoteAddr.port = 0 ∨
      m.sock.state.shutdownLocal = true
  · rw [if_pos hmis]
    exact abort fun n hn => ⟨hmisuse, hn ▸ hm⟩
  rw [if_neg hmis]
  simp only [not_or, Bool.not_eq_true] at hmis
  by_cases hfull : m.sock.state.closed = true ∨ maxWindowSize < m.sock.tx.packetCount
  · rw [if_pos hfull]
    exact .stay hm
  rw [if_neg hfull]
  simp only [not_or, Bool.not_eq_true, not_lt] at hfull
  rcases hadd : addPacket m.sock.tx m.sock.tx.nextSeq 0#8 payload with ⟨tx, outcome⟩
  have hsend : outcome ≠ .ambiguous → Triple (· = m) (finishSend tx payload)
      (fun _ m => I m.core) (FailsWith fails I) := by
    rintro houtcome n rfl
    exact hI (.send hmis.2.1 hmis.2.2 hfull.1 hfull.2 hadd houtcome) hm
  cases outcome with
  | added | duplicate => exact hsend (by simp)
  | ambiguous => exact .stay hm

theorem mspShutdown_keeps (hI : Kept Called I) (hmisuse : fails .misuse) :
    Keeps fails I mspShutdown := by
  apply get_bind
  intro m hm
  by_cases hmis : m.sock.state.listening = true ∨ m.sock.state.shutdownLocal = true
  · rw [if_pos hmis]
    exact abort fun n hn => ⟨hmisuse, hn ▸ hm⟩
  rw [if_neg hmis]
  simp only [not_or, Bool.not_eq_true] at hmis
  by_cases hlast : m.sock.tx.packets.getLast?.map MspPacket.sent = some timeMsNeverHas
  · rw [if_pos hlast]
    rintro n rfl
    exact hI (.shutLast hmis.2 hlast) hm
  rw [if_neg hlast]
  rcases hadd : addPacket m.sock.tx m.sock.tx.nextSeq (flag flagShutdown true) []
    with ⟨tx, outcome⟩
  have hshut : outcome ≠ .ambiguous → Triple (· = m)
      (finishShutdown tx.advance (m.log.queued ++ [[]]))
      (fun _ m => I m.core) (FailsWith fails I) := by
    rintro houtcome n rfl
    have h := hI (.shut hmis.2 hadd houtcome) hm
    have hlen : (n.log.queued ++ [[]]).length - 1 = n.core.log.queued.length := by
      simp [Machine.core]
    rwa [← hlen] at h
  cases outcome with
  | added | duplicate => exact hshut (by simp)
  | ambiguous => exact .stay hm

/-- A message is on the wire, or it could not be sent. -/
theorem sendMessage_keeps {J : Core → Prop} {message : List Byte}
    (hI : ∀ c, J c → I c ∧ I { c with log := { c.log with wire := c.log.wire ++ [message] } }) :
    Triple (fun m => J m.core) (sendMessage message) (fun _ m => I m.core) E := by
  apply get_bind
  rintro m hm n rfl
  by_cases hsent : n.env.sends.headD .sent = .sent
  · simp only [hsent, if_true]
    exact (hI _ hm).2
  · simp only [hsent, if_false]
    exact (hI _ hm).1

section

variable (hI : Kept Called I)
include hI

theorem mspStop_keeps : Keeps fails I mspStop := by
  apply get_bind_inv
  intro m hm
  cases m.sock.state.stopped with
  | true => exact .skip
  | false =>
    apply modify_bind (I := fun m => I m.core)
    · exact fun n hn => hI .stop hn
    · split
      · apply bind (sendMessage_keeps fun n hn => ⟨hn, hI .sendStop hn⟩)
        exact fun _ => .skip
      · exact .skip

theorem Call.run_keeps (hmisuse : fails .misuse) (call : Call) :
    Keeps fails I call.run := by
  cases call with
  | send payload =>
    apply bind (mspSend_keeps hI hmisuse payload)
    exact fun _ => .skip
  | shutdown =>
    apply bind (mspShutdown_keeps hI hmisuse)
    exact fun _ => .skip
  | stop => exact mspStop_keeps hI

theorem runCalls_keeps (hmisuse : fails .misuse) (calls : List Call) :
    Keeps fails I (runCalls calls) := by
  induction calls with
  | nil => exact .skip
  | cons call rest ih => exact bind (call.run_keeps hI hmisuse) fun _ => ih

/-- The handler consumes no more than it is given. -/
theorem callHandler_keeps (hmisuse : fails .misuse)
    (hconsumed : fails .consumed) (payload : List Byte) :
    Triple (fun m => I m.core) (callHandler payload)
      (fun count m => I m.core ∧ count ≤ payload.length) (FailsWith fails I) := by
  apply bind gettimeMs_keeps
  intro now
  apply get_bind_inv
  intro m _
  split
  · refine quiet_bind (fun _ h => h) (quiet_bind (fun _ h => h) ?_)
    apply bind (runCalls_keeps hI hmisuse _)
    intro _
    split
    · exact abort fun _ h => ⟨hconsumed, h⟩
    · exact pure fun _ h => ⟨h, by omega⟩
  · exact pure fun _ h => ⟨h, le_rfl⟩

end

end Calls

section Processing

variable {I : Core → Prop} {fails : MspAbort → Prop} {packets : List MspPacket} {i : ℕ}

theorem Called.rx_eq {c d : Core} (h : Called c d) : d.rx = c.rx := by
  cases h <;> rfl

/-- The bytes and packets still to be delivered, from the `i`-th packet on. -/
def remaining (packets : List MspPacket) (i : ℕ) : ℕ :=
  ((packets.drop i).map fun p => p.payload.length - p.offset + 1).sum

theorem remaining_of_getElem? {p : MspPacket} (hp : packets[i]? = some p) :
    remaining packets i = p.payload.length - p.offset + 1 + remaining packets (i + 1) := by
  obtain ⟨hi, rfl⟩ := List.getElem?_eq_some_iff.mp hp
  rw [remaining, List.drop_eq_getElem_cons hi, List.map_cons, List.sum_cons, remaining]

theorem remaining_modify {g : MspPacket → MspPacket} :
    remaining (packets.modify i g) (i + 1) = remaining packets (i + 1) := by
  rw [remaining, drop_modify_of_lt _ _ _ _ (by omega), remaining]

theorem remaining_le (packets : List MspPacket) :
    remaining packets 0 ≤ (packets.map fun p => p.payload.length + 1).sum := by
  apply sum_le_sum
  intro p _
  omega

/-- What the assertions between receiving and sending say. -/
def FlowControlled (c : Core) : Prop :=
  c.tx.packetCount = c.tx.packets.length ∧
    (c.state.dataOut = true ↔ c.tx.packetCount < maxWindowSize ∧ c.state.closed = false ∧
      c.state.shutdownLocal = false)

/-- The effects keep the invariant, and an assertion that it does not guarantee is among
the ways to fail. -/
structure Covers (fails : MspAbort → Prop) (I : Core → Prop) : Prop where
  kept : Kept Effect I
  misuse : fails .misuse
  consumed : fails .consumed
  remotePort : fails .remotePort
  freed : fails .freed
  offset : fails .offset ∨ ∀ c, I c → ∀ p ∈ c.rx.packets, p.offset ≤ p.payload.length
  flowControl : fails .flowControl ∨ ∀ c, I c → FlowControlled c

section

variable (hI : Covers fails I)

include hI

/-- Delivering ends, since each round consumes a byte or completes a packet. -/
theorem deliver_keeps (fuel : ℕ) :
    ∀ (i : ℕ) (rx : MspWindow), remaining rx.packets i < fuel →
      Triple (fun m => I m.core ∧ m.sock.rx = rx) (deliver fuel i) (fun _ m => I m.core)
        (FailsWith fails I) := by
  induction fuel with
  | zero => exact fun i rx h => absurd h (by omega)
  | succ fuel ih =>
    intro i rx hfuel
    apply Triple.get_bind
    rintro m ⟨hm, rfl⟩
    rcases hp : m.sock.rx.packets[i]? with _ | p
    · exact .stay hm
    dsimp only
    by_cases hseq : p.seq = m.sock.rx.nextSeq
    swap
    · rw [if_pos hseq]
      exact .stay hm
    rw [if_neg (not_not.mpr hseq)]
    apply Triple.modify_bind (I := fun n => I n.core ∧ n.core.rx = m.sock.rx)
    · rintro n rfl
      exact ⟨hI.kept (.flagRemote hp hseq) hm, rfl⟩
    by_cases hbeyond : p.payload.length < p.offset
    · rw [if_pos hbeyond]
      refine Triple.abort fun n hn => ⟨?_, hn.1⟩
      rcases hI.offset with hoffset | hoffset
      · exact hoffset
      · exact absurd (hoffset _ hm p (mem_of_getElem? hp)) (by omega)
    rw [if_neg hbeyond]
    -- the handler may send, but it leaves the receive window alone
    have hcalls : Kept Called fun c => I c ∧ c.rx = m.sock.rx := by
      intro c d h hc
      exact ⟨hI.kept.called h hc.1, h.rx_eq.trans hc.2⟩
    apply Triple.bind ((callHandler_keeps hcalls hI.misuse hI.consumed _).weaken_abort
      fun e n h => ⟨h.1, h.2.1⟩)
    intro count
    apply Triple.assume
    intro hcount
    rw [length_drop] at hcount
    split
    · exact Triple.pure fun n hn => hn.1
    rename_i hprogress
    have hp' : (m.sock.rx.consume i count).packets[i]? =
        some { p with offset := p.offset + count } := by
      simp [MspWindow.consume, hp]
    have hleft := remaining_of_getElem? hp
    have hleft' := remaining_of_getElem? hp'
    rw [MspWindow.consume, remaining_modify] at hleft'
    apply Triple.modify_bind (I := fun n => I n.core ∧ n.core.rx = m.sock.rx.consume i count)
    · rintro n ⟨hn, hrx⟩
      refine ⟨hI.kept (.consume (p := p) (hrx ▸ hp) (hrx ▸ hseq) (by omega)) hn, ?_⟩
      rw [← hrx]
      rfl
    by_cases hpart : p.offset + count < p.payload.length
    · rw [if_pos hpart]
      apply ih
      dsimp only [MspWindow.consume] at hleft' ⊢
      omega
    rw [if_neg hpart, if_neg (by omega)]
    apply Triple.modify_bind (I := fun n => I n.core ∧
      n.core.rx = (m.sock.rx.consume i count).advance)
    · rintro n ⟨hn, hrx⟩
      refine ⟨hI.kept (.complete (hrx ▸ hp') (by rw [hrx]; exact hseq) (by dsimp only; omega)) hn,
        ?_⟩
      rw [← hrx]
      rfl
    apply ih
    rw [MspWindow.advance, MspWindow.consume, remaining_modify]
    omega

theorem checkFlowControl_keeps : Keeps fails I checkFlowControl := by
  apply get_bind
  rintro m hm
  -- an assertion that fails contradicts the invariant
  have hfail : ¬ FlowControlled m.core →
      Triple (· = m) (Run.abort .flowControl : MspRun Unit) (fun _ m => I m.core)
        (FailsWith fails I) := by
    intro hflow
    apply abort
    rintro n rfl
    rcases hI.flowControl with h | h
    · exact ⟨h, hm⟩
    · exact absurd (h _ hm) hflow
  have hpass : Triple (· = m) (pure () : MspRun Unit) (fun _ m => I m.core)
      (FailsWith fails I) :=
    .stay hm
  by_cases hcount : m.sock.tx.packets.length = m.sock.tx.packetCount
  swap
  · rw [if_pos hcount]
    exact hfail fun h => hcount h.1.symm
  rw [if_neg (not_not.mpr hcount)]
  by_cases hstuck : maxWindowSize ≤ m.sock.tx.packets.length ∨ m.sock.state.closed = true ∨
      m.sock.state.shutdownLocal = true
  · rw [if_pos hstuck]
    cases hdata : m.sock.state.dataOut with
    | false => exact hpass
    | true =>
      refine hfail fun h => ?_
      obtain ⟨hlt, hclosed, hlocal⟩ := h.2.mp hdata
      simp only [Machine.core] at hlt hclosed hlocal
      simp only [hclosed, hlocal, Bool.false_eq_true, or_false] at hstuck
      omega
  · rw [if_neg hstuck]
    simp only [not_or, not_le, Bool.not_eq_true] at hstuck
    cases hdata : m.sock.state.dataOut with
    | true => exact hpass
    | false =>
      refine hfail fun h => ?_
      have := h.2.mpr ⟨hcount ▸ hstuck.1, hstuck.2.1, hstuck.2.2⟩
      rw [Machine.core, hdata] at this
      cases this

theorem processReceived_keeps : Keeps fails I processReceived := by
  apply get_bind
  intro m hm
  have hdeliver := deliver_keeps hI
    ((m.sock.rx.packets.map fun p => p.payload.length + 1).sum + 1) 0 m.sock.rx
    (Nat.lt_succ_of_le (remaining_le _))
  apply bind (Q := fun _ m => I m.core)
  · rintro n rfl
    exact hdeliver n ⟨hm, rfl⟩
  intro _
  apply quiet_bind (J := fun m => I m.core) fun n hn => hI.kept .freeDelivered hn
  apply bind (callHandler_keeps hI.kept.called hI.misuse hI.consumed _)
  intro _
  apply modify_bind (I := fun m => I m.core) ?_ (checkFlowControl_keeps hI)
  rintro n ⟨hn, -⟩
  dsimp only
  split <;> exact hn

theorem mspSendPacket_keeps (i : ℕ) (p : MspPacket) :
    Triple (fun m => I m.core ∧ m.sock.tx.packets[i]? = some p) (mspSendPacket i p)
      (fun _ m => I m.core) (FailsWith fails I) := by
  apply get_bind
  rintro m ⟨hm, hp⟩
  by_cases hport : m.sock.header.remoteAddr.port = 0
  · rw [if_pos hport]
    exact abort fun n hn => ⟨hI.remotePort, hn ▸ hm⟩
  rw [if_neg hport]
  cases m.env.sends.headD .sent with
  | noAddress | again =>
    rintro n rfl
    exact hm
  | failed => exact abort fun n hn => ⟨hI.freed, hn ▸ hm⟩
  | sent =>
    apply bind (Q := fun _ n => n.core = m.core)
    · rintro n rfl
      rfl
    intro now
    apply modify_bind (I := fun n => n.core = { m.core with tx := m.core.tx.stamp i now })
    · intro n hn
      rw [← hn]
      rfl
    apply bind (sendMessage_keeps (I := I)
      (J := (· = { m.core with tx := m.core.tx.stamp i now })) ?_) fun _ => .skip
    rintro c rfl
    have hstamp := hI.kept (.stamp i now) hm
    have hp' : (m.core.tx.stamp i now).packets[i]? = some { p with sent := now } := by
      simp [MspWindow.stamp, Machine.core, hp]
    refine ⟨hstamp, hI.kept (.transmit (p := { p with sent := (now : ℤ) }) hp' ?_) hstamp⟩
    dsimp only [timeMsNeverHas]
    omega

theorem sendAck_keeps : Keeps fails I sendAck := by
  apply get_bind
  intro m hm
  by_cases hport : m.sock.header.remoteAddr.port = 0
  · rw [if_pos hport]
    exact abort fun n hn => ⟨hI.remotePort, hn ▸ hm⟩
  rw [if_neg hport]
  apply bind (Q := fun _ m => I m.core)
  · rintro n rfl
    refine sendMessage_keeps (J := (· = n.core)) (E := FailsWith fails I) ?_ n rfl
    rintro c rfl
    exact ⟨hm, hI.kept .acknowledge hm⟩
  intro result
  cases result with
  | sent => exact fun n hn => hn
  | again | noAddress => exact .skip
  | failed => exact abort fun _ h => ⟨hI.freed, h⟩

theorem transmitOne_keeps (now : ℕ) (pending : Bool) (i : ℕ) (p : MspPacket) :
    Triple (fun m => I m.core ∧ m.sock.tx.packets[i]? = some p) (transmitOne now pending i p)
      (fun _ m => I m.core) (FailsWith fails I) := by
  have hsend : Triple (fun m => I m.core ∧ m.sock.tx.packets[i]? = some p) (sendDue i p)
      (fun _ m => I m.core) (FailsWith fails I) :=
    bind (mspSendPacket_keeps hI i p) fun _ => .skip
  apply get_bind_inv
  intro m _
  split
  · split
    · split
      · exact pure fun _ h => h.1
      · exact quiet_bind (fun _ h => h) hsend
    · exact hsend
  · exact pure fun _ h => h.1

theorem transmit_keeps (now : ℕ) (pending : Bool) (count : ℕ) :
    ∀ i, Keeps fails I (transmit now pending count i) := by
  induction count with
  | zero => exact fun i => .skip
  | succ count ih =>
    intro i
    apply get_bind
    intro m hm
    rcases hp : m.sock.tx.packets[i]? with _ | p
    · exact .stay hm
    apply bind (Q := fun _ m => I m.core)
    · rintro n rfl
      exact transmitOne_keeps hI now pending i p n ⟨hm, hp⟩
    intro flow
    cases flow with
    | goOn => exact quiet_bind (fun _ h => h) (ih (i + 1))
    | leave | fail => exact .skip

theorem finishProcessing_keeps : Keeps fails I finishProcessing := by
  refine quiet_bind (fun _ h => h) ?_
  apply get_bind
  intro m hm
  cases hfin : m.sock.finished with
  | false => exact .stay hm
  | true =>
    rintro n rfl
    have hlocal : n.sock.state.shutdownLocal = true := by
      simp only [MspSock.finished, Bool.and_eq_true] at hfin
      exact hfin.1.1.1.1
    exact hI.kept (.close hlocal) hm

theorem acknowledgeDue_keeps (now : ℕ) : Keeps fails I (acknowledgeDue now) := by
  have hack : Keeps fails I acknowledge := by
    apply bind (sendAck_keeps hI)
    intro r
    split
    · exact .skip
    · exact finishProcessing_keeps hI
  apply get_bind_inv
  intro m _
  split
  · split
    · split
      · exact .skip
      · exact quiet_bind (fun _ h => h) hack
    · exact hack
  · exact finishProcessing_keeps hI

/-- Processing a socket that has not timed out keeps what its effects keep. -/
theorem processLive_keeps (now : ℕ) (pending : Bool) : Keeps fails I (processLive now pending) := by
  apply get_bind_inv
  intro m _
  refine quiet_bind (fun _ h => h) ?_
  split
  · exact .skip
  apply bind (processReceived_keeps hI)
  intro _
  apply get_bind_inv
  intro n _
  apply bind (transmit_keeps hI now pending _ 0)
  intro failed
  split
  · exact .skip
  · exact acknowledgeDue_keeps hI now

/-- Processing keeps what the effects and a timeout keep. -/
theorem processSock_keeps {message : List Byte} (hbits : Kept (Received message) I)
    (pending : Bool) :
    Keeps fails I (processSock pending) := by
  apply bind gettimeMs_keeps
  intro now
  apply get_bind_inv
  intro m _
  split
  · exact fun n hn => hbits (.bits (c := n.core) rfl rfl) hn
  · exact processLive_keeps hI now pending

end

/-- Receiving a message keeps what its effects and stopping keep. -/
theorem receive_keeps {message : List Byte} (hI : Kept Called I)
    (hmessage : Kept (Received message) I) : Keeps fails I (receive message) := by
  apply bind gettimeMs_keeps
  intro now
  refine quiet_bind (fun m hm => hmessage (.bits (c := m.core) ?_ ?_) hm) ?_
  · rfl
  · rfl
  dsimp only
  split
  · exact bind (mspStop_keeps hI) fun _ => .skip
  split
  · exact .skip
  rename_i hlen
  apply bind (Q := fun _ m => I m.core)
  · rw [Run.when]
    split
    · exact fun m hm => hmessage (.release (by omega)) hm
    · exact .skip
  intro _
  apply bind gettimeMs_keeps
  intro later
  refine quiet_bind (fun m hm => hmessage (.bits (c := m.core) ?_ ?_) hm) ?_
  · rfl
  · rfl
  split
  · exact .skip
  · exact fun m hm => hmessage (.keep (by omega)) hm

end Processing

end ServalMesh.Msp
