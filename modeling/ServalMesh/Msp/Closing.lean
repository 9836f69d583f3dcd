import ServalMesh.Msp.Delivery

/-!
# Closing a connection

A socket closes when everything has been delivered and acknowledged, unless the number of the next
packet has wrapped around to zero.
-/

namespace ServalMesh.Msp

open Lib Overlay Triple

/-- A socket before it delivers what has arrived. -/
def Machine.begun (m : Machine) : Machine :=
  { m with
    sock := { m.sock with nextAction := m.sock.timeout }
    env := { m.env with times := m.env.times.tail } }

/-- An acknowledgement can be sent. -/
def Machine.CanAck (m : Machine) : Prop :=
  ¬ (m.sock.header.localAddr.port = 0 ∧ m.sock.header.flags.getLsbD mdpFlagBind = true) ∧
    m.env.sends.headD .sent = .sent

instance (m : Machine) : Decidable m.CanAck := inferInstanceAs (Decidable (_ ∧ _))

/-- Everything has been delivered in both directions, and the last packet or acknowledgement was
sent after that, or is sent now. -/
structure Machine.Settled (m : Machine) (now : ℕ) : Prop where
  shutdownLocal : m.sock.state.shutdownLocal = true
  shutdownRemote : m.sock.state.shutdownRemote = true
  tx : m.sock.tx.packets = [] ∧ m.sock.tx.packetCount = 0
  rx : m.sock.rx.packetCount = 0
  acked : m.sock.previousAck = m.sock.rx.nextSeq - 1 ∨ m.sock.nextAck < now ∧ m.CanAck

variable {m m' : Machine} {now : ℕ} {pending : Bool} {s : MspSock}

/-- From `m`, the run changes the state of the socket to this one, also if it aborts. -/
abbrev Leaves {α : Type} (m : Machine) (f : MspRun α) (state : MspState) : Prop :=
  Triple (· = m) f (fun _ n => n.sock.state = state) (fun _ n => n.sock.state = state)

/-- The state in which the socket is closed if the condition is met. -/
def MspState.closeIf (state : MspState) (c : Prop) [Decidable c] : MspState :=
  { state with closed := state.closed || decide c }

theorem MspState.closeIf_neg {state : MspState} {c : Prop} [Decidable c] (h : ¬ c) :
    state.closeIf c = state := by
  rw [closeIf, decide_eq_false h, Bool.or_false]

open MspState

/-- Whatever is changed by an acknowledgement. -/
theorem finishProcessing_leaves (h : m.Settled now) {previousAck : BitVec 16} {nextAck : ℤ}
    {header : MdpHeader} {env : Env} {log : Log} (hack : previousAck = m.sock.rx.nextSeq - 1) :
    Leaves ⟨{ m.sock with previousAck, nextAck, header }, env, log⟩ finishProcessing
      (m.sock.state.closeIf (m.sock.rx.nextSeq ≠ 0#16)) := by
  have hfinished {nextAction : ℤ} : MspSock.finished { m.sock with
      previousAck, nextAction, nextAck, header } = true ↔ m.sock.rx.nextSeq ≠ 0#16 := by
    simp only [MspSock.finished, h.shutdownLocal, h.shutdownRemote, h.tx.2, h.rx, hack,
      beq_self_eq_true, Bool.true_and, beq_iff_eq]
    bv_omega
  refine bind_ok rfl (get_bind ?_)
  rintro _ rfl
  split
  case isTrue hfin =>
    rintro _ rfl
    simp [closeIf, modifySock, hfinished.mp hfin]
  case isFalse hfin => exact .stay (closeIf_neg (hfin ∘ hfinished.mpr)).symm

section

variable (h : m.Settled now) (hport : m.sock.header.remoteAddr.port ≠ 0)
include h hport

theorem acknowledge_leaves
    {header : MdpHeader} (hremote : header.remoteAddr = m.sock.header.remoteAddr) :
    Leaves { m with sock := { m.sock with header } } acknowledge (m.sock.state.closeIf
      (m.sock.rx.nextSeq ≠ 0#16 ∧ m.env.sends.headD .sent = .sent)) := by
  refine bind (Q := fun r n => Leaves n (if r = -1 then pure (-1) else finishProcessing) _)
    (get_bind ?_) fun r n hn => hn n rfl
  rintro _ rfl
  rw [if_neg (hremote ▸ hport)]
  refine bind_ok rfl ?_
  dsimp only
  cases m.env.sends.headD .sent with
  | sent =>
    rintro _ rfl
    simp only [and_true]
    exact finishProcessing_leaves h rfl
  | again | noAddress =>
    rintro _ rfl
    exact .stay (closeIf_neg (nofun ∘ And.right)).symm
  | failed =>
    rintro _ rfl
    exact (closeIf_neg (nofun ∘ And.right)).symm

theorem acknowledgeDue_leaves :
    Leaves m (acknowledgeDue now) (m.sock.state.closeIf
        (m.sock.rx.nextSeq ≠ 0#16 ∧ (m.sock.nextAck < now → m.CanAck))) := by
  refine get_bind ?_
  rintro m rfl
  by_cases hdue : m.sock.nextAck < now
  · rw [if_pos hdue]
    simp only [hdue, forall_const]
    by_cases hbind : m.sock.header.localAddr.port = 0 ∧
        m.sock.header.flags.getLsbD mdpFlagBind = true
    · rw [if_pos hbind.1, if_pos hbind.2]
      exact .stay (closeIf_neg fun h => h.2.1 hbind).symm
    · simp only [Machine.CanAck, hbind, not_false_eq_true, true_and]
      split
      · rw [if_neg (by simp_all)]
        exact bind_ok rfl (acknowledge_leaves h hport rfl)
      · exact acknowledge_leaves h hport rfl
  · rw [if_neg hdue]
    simpa [hdue] using finishProcessing_leaves h (h.acked.resolve_right fun h => hdue h.1)

end

theorem processSock_leaves (htime : m.env.times.headD 0 ≤ m.sock.timeout)
    (hlisten : m.sock.state.listening = false)
    (hreceived : processReceived.run m.begun = (.ok (), m')) (h : m'.Settled (m.env.times.headD 0))
    (hport : m'.sock.header.remoteAddr.port ≠ 0) :
    Leaves m (processSock pending) (m'.sock.state.closeIf (m'.sock.rx.nextSeq ≠ 0#16 ∧
        (m'.sock.nextAck < m.env.times.headD 0 → m'.CanAck))) := by
  refine bind_ok rfl (get_bind ?_)
  rintro _ rfl
  rw [if_neg (not_lt.mpr htime)]
  refine get_bind ?_
  rintro _ rfl
  refine bind_ok rfl ?_
  rw [if_neg (by simp [hlisten])]
  refine bind_ok hreceived (get_bind ?_)
  rintro _ rfl
  rw [h.tx.1]
  exact bind_ok rfl (acknowledgeDue_leaves h hport)

theorem processSock_late (htime : m.sock.timeout < m.env.times.headD 0) :
    ((processSock pending).run m).2.sock.state =
      { m.sock.state with
        closed := true
        error := true } := by
  refine (bind_ok rfl (get_bind ?_) : Leaves m (processSock pending) _).final rfl
  rintro _ rfl
  rw [if_pos htime]
  exact bind_ok rfl (.stay rfl)

/-- Packets are counted modulo 2^16. -/
def Counted (c : Core) : Prop := c.rx.nextSeq = BitVec.ofNat 16 c.log.completed

theorem effect_counted : Kept Effect Counted := by
  intro c d he h
  cases he with
  | call he => cases he <;> exact h
  | complete => exact (congrArg (· + 1) h).trans (BitVec.ofNat_add _ 1).symm
  | _ => exact h

theorem received_counted (message : List Byte) : Kept (Received message) Counted := by
  intro c d hd h
  cases hd with
  | keep => exact (addPacket_nextSeq ..).trans h
  | _ => exact h

theorem effect_error {error : Bool} : Kept Effect fun c => c.state.error = error := by
  intro c d he h
  cases he with
  | call he => cases he <;> exact h
  | _ => exact h

theorem Conn.run_counted {s : Conn} (ha : Counted s.a.core) (hb : Counted s.b.core)
    (ops : List ConnOp) : Counted (s.run ops).a.core ∧ Counted (s.run ops).b.core := by
  induction ops generalizing s with
  | nil => exact ⟨ha, hb⟩
  | cons o ops ih =>
    have hstep {e y : End} (he : Counted e.core) : Counted (y.step e o.env o.op).core :=
      End.step_keeps effect_counted (fun _ _ => received_counted _) (received_counted _) he o.op
    refine ih ?_ ?_ <;> rw [step] <;> split
    · exact hstep ha
    · exact ha
    · exact hb
    · exact hstep hb

/-- At each end of a connection, when everything has been delivered in time, the socket is closed
without an error exactly if the number of packets is not a multiple of 2^16 and an acknowledgement
that is due can be sent. One that is not closed then ends by its timeout. -/
theorem processSock_closes (a b : MspSock) (ha : a.rx = .empty) (hb : b.rx = .empty)
    (ops : List ConnOp) (m m' : Machine) (pending : Bool) {e : End}
    (he : e = ((Conn.new a b).run ops).a ∨ e = ((Conn.new a b).run ops).b)
    {env : Env} (hm : m = { e.machine with env }) (htime : m.env.times.headD 0 ≤ m.sock.timeout)
    (hlisten : m.sock.state.listening = false)
    (hreceived : processReceived.run m.begun = (.ok (), m')) (h : m'.Settled (m.env.times.headD 0))
    (hport : m'.sock.header.remoteAddr.port ≠ 0) :
    ((processSock pending).run m).2.sock.state = m'.sock.state.closeIf
        (m'.log.completed % 2 ^ 16 ≠ 0 ∧ (m'.sock.nextAck < m.env.times.headD 0 → m'.CanAck)) ∧
      m'.sock.state.error = m.sock.state.error ∧
      ∀ pending' env', ((processSock pending).run m).2.sock.timeout < env'.times.headD 0 →
        ((processSock pending').run
          { ((processSock pending).run m).2 with env := env' }).2.sock.state =
          { ((processSock pending).run m).2.sock.state with
            closed := true
            error := true } := by
  have hcovers {I : Core → Prop} (hI : Kept Effect I) : Covers (fun _ => True) I :=
    ⟨hI, trivial, trivial, trivial, trivial, .inl trivial, .inl trivial⟩
  have hnew {s : MspSock} (h : s.rx = .empty) :
      Counted (⟨s, ⟨[], [], []⟩, .empty⟩ : Machine).core := by
    rw [Counted, Machine.core, h]
    rfl
  have hrun := Conn.run_counted (s := Conn.new a b) (hnew ha) (hnew hb) ops
  have hcounted : Counted m.begun.core := by
    subst hm
    rcases he with rfl | rfl
    · exact hrun.1
    · exact hrun.2
  have hcounted' := processReceived_keeps (hcovers effect_counted) _ hcounted
  have herror := processReceived_keeps (hcovers effect_error) m.begun rfl
  rw [hreceived] at hcounted' herror
  refine ⟨?_, herror, fun pending' env' hlate => processSock_late hlate⟩
  have hzero : m'.sock.rx.nextSeq ≠ 0#16 ↔ m'.log.completed % 2 ^ 16 ≠ 0 := by
    rw [show m'.sock.rx.nextSeq = _ from hcounted', ne_eq, ← BitVec.toNat_inj, BitVec.toNat_ofNat]
    rfl
  rw [(processSock_leaves htime hlisten hreceived h hport).final rfl]
  simp only [hzero]

/-- Both ends have shut down, and the second one has not yet received the packet that says so. -/
def shutdownRun : List ConnOp :=
  let env : Env := ⟨List.replicate 20 5, [], []⟩
  [⟨false, env, .call .shutdown⟩, ⟨false, env, .process false⟩, ⟨true, env, .deliver 0⟩,
    ⟨true, env, .call .shutdown⟩, ⟨true, env, .process false⟩, ⟨false, env, .deliver 0⟩]

def shutdownEnd : Machine :=
  { ((Conn.new (sampleEnd 7 9) (sampleEnd 9 7)).run shutdownRun).b.machine with
    env := ⟨List.replicate 20 6, [], []⟩ }

theorem processSock_closes_shutdown :
    ((processSock false).run shutdownEnd).2.sock.state.closed = true := by
  have hsettled : (processReceived.run shutdownEnd.begun).2.Settled 6 := by
    refine ⟨?_, ?_, ?_, ?_, ?_⟩ <;> decide +kernel
  have h := processSock_closes (sampleEnd 7 9) (sampleEnd 9 7) rfl rfl shutdownRun shutdownEnd _
    false (.inr rfl) rfl (by decide +kernel) (by decide +kernel) (by decide +kernel) hsettled
    (by decide +kernel)
  rw [h.1]
  decide +kernel

/-- A socket that has received 2^16 packets. -/
def wrappedEnd : Machine :=
  { shutdownEnd with
    sock := { sampleEnd 9 7 with
      state := { MspState.uninitialised with
        receivedData := true
        receivedPacket := true
        shutdownLocal := true
        shutdownRemote := true }
      previousAck := 0xFFFF#16
      nextAck := 1000 }
    log := { Log.empty with completed := 2 ^ 16 } }

/-- It is not closed, and ends with an error when its time has passed. -/
theorem processSock_wrapped :
    let m := ((processSock false).run wrappedEnd).2
    (processReceived.run wrappedEnd.begun).2.Settled 6 ∧ m.sock.state.closed = false ∧
      ((processSock false).run { m with env := ⟨[20000], [], []⟩ }).2.sock.state.error = true := by
  refine ⟨⟨?_, ?_, ?_, ?_, ?_⟩, ?_, ?_⟩ <;> decide +kernel

end ServalMesh.Msp
