import ServalMesh.Msp.Stream
import ServalMesh.Msp.Sockets
import ServalMesh.Overlay.Daemon

/-!
# Delivery over a lossy network

Two sockets are connected by a network that delivers any message that was ever sent, as often
and as late as it likes. As long as sequence numbers do not wrap around, each end's handler gets
the bytes that were queued at the other one, in order and once.
-/

namespace ServalMesh.Msp

open Lib Overlay List

section Calls

variable {x c d : Core} {l : Log}

/-- What holds of one end in the course of a call, if the other one is `x` and the log was `l`
when the call began. -/
structure Joined (x : Core) (l : Log) (c : Core) : Prop where
  sender : Sender c
  receiver : Receiver x c
  released : c.log.released ≤ x.log.completed
  completed : x.log.completed ≤ c.log.queued.length
  grows : Grows l c.log

def Held (x : Core) (l : Log) (c : Core) : Prop :=
  l.queued.length ≤ c.log.queued.length ∧
    (c.log.queued.length < maxSequenced → Joined x l c)

theorem effect_queued (he : Effect c d) : c.log.queued.length ≤ d.log.queued.length := by
  cases he with
  | call he => cases he <;> simp
  | _ => exact le_rfl

theorem effect_released (he : Effect c d) : d.log.released = c.log.released := by
  cases he with
  | call he => cases he <;> rfl
  | _ => rfl

variable (hx : Sender x) (hbound : x.log.queued.length < maxSequenced)

include hx hbound

theorem effect_held : Kept Effect (Held x l) := by
  intro c d he h
  refine ⟨h.1.trans (effect_queued he), fun hd => ?_⟩
  have hc := h.2 ((effect_queued he).trans_lt hd)
  exact ⟨effect_sender he hc.sender hd, effect_receiver hx hbound he hc.sender hc.receiver,
    effect_released he ▸ hc.released, hc.completed.trans (effect_queued he),
    hc.grows.trans (effect_grows he hc.sender)⟩

theorem received_held {message : List Byte} (hmem : 3 ≤ message.length → message ∈ x.log.wire) :
    Kept (Received message) (Held x l) := by
  rintro c d hd h
  cases hd with
  | bits hlocal hremote =>
    refine ⟨h.1, fun hqueued => ?_⟩
    have hc := h.2 hqueued
    exact ⟨hc.sender.receive c.log.consumed hlocal le_rfl hc.sender.expected,
      hc.receiver.congr rfl hremote rfl rfl, hc.released, hc.completed, hc.grows⟩
  | release hlen =>
    refine ⟨h.1, fun hqueued => ?_⟩
    have hc := h.2 hqueued
    obtain ⟨k, hk, hread⟩ := hx.acks message (hmem hlen) hlen
    have hlength := hc.sender.length
    have hcompleted := hc.completed
    have hreleased := hc.released
    dsimp only at hqueued
    obtain ⟨n, hn, hdrop, hacked⟩ := freeAckedPackets_numbered (w := c.tx) (k := k)
      hc.sender.numbered (by omega) (by omega)
    rw [← hread] at hdrop
    have hcount : c.tx.packets.length -
        (freeAckedPackets c.tx (readUint16 message 1)).packets.length = n := by
      rw [hdrop, length_drop]
      exact Nat.sub_sub_self hn
    rw [hcount]
    exact ⟨hc.sender.release hn hdrop rfl, hc.receiver.congr rfl rfl rfl rfl,
      by dsimp only; omega, hc.completed, { hc.grows with }⟩
  | keep hlen =>
    refine ⟨h.1, fun hqueued => ?_⟩
    have hc := h.2 hqueued
    have hwire := hmem (le_trans (by decide) hlen)
    refine ⟨?_, hc.receiver.keep hx hbound hwire hlen rfl, hc.released, hc.completed, hc.grows⟩
    refine hc.sender.receive c.log.consumed rfl le_rfl ?_
    rw [addPacket_nextSeq]
    exact hc.sender.expected

end Calls

section Connection

/-- One end of a connection; an end that aborts does nothing any more. -/
structure End where
  machine : Machine
  aborted : Bool
deriving DecidableEq

def End.core (e : End) : Core := e.machine.core

def End.run {α : Type} (e : End) (env : Env) (f : MspRun α) : End :=
  if e.aborted then e
  else
    match f.run { e.machine with env } with
    | (.ok _, m) => ⟨m, false⟩
    | (.error _, m) => ⟨m, true⟩

/-- What can happen at one end. -/
inductive EndOp where
  | call (call : Call)
  | process (pending : Bool)
  | setHandler
  | bind (header : MdpHeader)
  /-- the network delivers the `i`-th of the messages the other end has sent -/
  | deliver (i : ℕ)
deriving DecidableEq

def End.step (x e : End) (env : Env) : EndOp → End
  | .call call => e.run env call.run
  | .process pending => e.run env (processSock pending)
  | .setHandler => e.run env mspSetHandler
  | .bind header => e.run env (bindResponse header)
  | .deliver i =>
    match x.machine.log.wire[i]? with
    | some message => e.run env (receive message)
    | none => e

/-- What happens next, and at which end. -/
structure ConnOp where
  atA : Bool
  env : Env
  op : EndOp
deriving DecidableEq

structure Conn where
  a : End
  b : End
deriving DecidableEq

def Conn.step (s : Conn) (o : ConnOp) : Conn :=
  if o.atA then { s with a := s.b.step s.a o.env o.op } else { s with b := s.a.step s.b o.env o.op }

def Conn.run (s : Conn) (ops : List ConnOp) : Conn := ops.foldl Conn.step s

variable {x c : Core} {e y : End} {l : Log} {env : Env} {a b : Core} {I : Core → Prop} {s : MspSock}

theorem End.run_keeps {α : Type} {f : MspRun α}
    (hf : Triple (fun m => I m.core) f (fun _ m => I m.core) (FailsWith (fun _ => True) I))
    (he : I e.core) : I (e.run env f).core := by
  rw [End.run]
  split
  · exact he
  have h := hf { e.machine with env } he
  rcases hm : f.run { e.machine with env } with ⟨_ | _, m⟩
  · rw [hm] at h
    exact h.2
  · rwa [hm] at h

/-- A step at one end keeps what its effects keep, given the messages of the other end. -/
theorem End.step_keeps (hI : Kept Effect I)
    (hreceived : ∀ message ∈ y.machine.log.wire, Kept (Received message) I)
    (hbits : Kept (Received []) I) (he : I e.core) (op : EndOp) : I (y.step e env op).core := by
  have hcovers : Covers (fun _ => True) I :=
    ⟨hI, trivial, trivial, trivial, trivial, .inl trivial, .inl trivial⟩
  cases op with
  | call call => exact End.run_keeps (call.run_keeps hI.called trivial) he
  | process pending => exact End.run_keeps (processSock_keeps hcovers hbits pending) he
  | setHandler => exact End.run_keeps (f := mspSetHandler) (fun _ h => h) he
  | bind header =>
    refine End.run_keeps (Triple.get_bind_inv fun m _ => quiet_bind (fun _ h => h) ?_) he
    split <;> exact fun _ h => h
  | deliver i =>
    rw [End.step]
    cases hmessage : y.machine.log.wire[i]? with
    | none => exact he
    | some message =>
      exact End.run_keeps (receive_keeps hI.called
        (hreceived message (mem_of_getElem? hmessage))) he

theorem received_queued {message : List Byte} {d : Core} (h : Received message c d) :
    c.log.queued.length ≤ d.log.queued.length := by
  cases h <;> exact le_rfl

theorem End.step_queued (op : EndOp) :
    e.core.log.queued.length ≤ (y.step e env op).core.log.queued.length :=
  step_keeps (I := fun c => e.core.log.queued.length ≤ c.log.queued.length)
    (fun _ _ he h => h.trans (effect_queued he)) (fun _ _ _ _ hr h => h.trans (received_queued hr))
    (fun _ _ hr h => h.trans (received_queued hr)) le_rfl op

/-- Both ends are in order, each with regard to the other. -/
structure Connected (a b : Core) : Prop where
  senderA : Sender a
  senderB : Sender b
  receiverA : Receiver b a
  receiverB : Receiver a b
  releasedA : a.log.released ≤ b.log.completed
  releasedB : b.log.released ≤ a.log.completed

theorem Connected.symm (h : Connected a b) : Connected b a :=
  ⟨h.senderB, h.senderA, h.receiverB, h.receiverA, h.releasedB, h.releasedA⟩

/-- Both ends are in order while their sequence numbers have not wrapped around. -/
def InOrder (a b : Core) : Prop :=
  a.log.queued.length < maxSequenced → b.log.queued.length < maxSequenced → Connected a b

theorem InOrder.symm (h : InOrder a b) : InOrder b a := fun hb ha => (h ha hb).symm

theorem End.step_inOrder (h : InOrder e.core y.core) (op : EndOp) :
    InOrder (y.step e env op).core y.core := by
  intro he hy
  have hconn := h (lt_of_le_of_lt (End.step_queued op) he) hy
  have hheld : Held y.core e.core.log (y.step e env op).core := by
    refine End.step_keeps (effect_held hconn.senderB hy)
      (fun message hmem => received_held hconn.senderB hy fun _ => hmem)
      (received_held hconn.senderB hy fun hlen => absurd hlen (by decide)) ⟨le_rfl, fun _ => ?_⟩ op
    exact ⟨hconn.senderA, hconn.receiverA, hconn.releasedA, hconn.receiverB.completed_le, .refl _⟩
  have hjoined := hheld.2 he
  exact ⟨hjoined.sender, hconn.senderB, hjoined.receiver, hconn.receiverB.mono hjoined.grows,
    hjoined.released, hconn.releasedB.trans hjoined.grows.completed⟩

theorem Conn.run_inOrder {s : Conn} (h : InOrder s.a.core s.b.core) (ops : List ConnOp) :
    InOrder (s.run ops).a.core (s.run ops).b.core := by
  induction ops generalizing s with
  | nil => exact h
  | cons o ops ih =>
    apply ih
    rw [step]
    split
    · exact End.step_inOrder h o.op
    · exact (End.step_inOrder h.symm o.op).symm

/-- A socket that has neither sent nor received anything. -/
structure MspSock.Untouched (s : MspSock) : Prop where
  tx : s.tx = .empty
  rx : s.rx = .empty
  shutdownLocal : s.state.shutdownLocal = false
  shutdownRemote : s.state.shutdownRemote = false

/-- The ends of a new connection. -/
def Conn.new (a b : MspSock) : Conn :=
  ⟨⟨⟨a, ⟨[], [], []⟩, .empty⟩, false⟩, ⟨⟨b, ⟨[], [], []⟩, .empty⟩, false⟩⟩

theorem Untouched.sender (h : s.Untouched) (env : Env) :
    Sender (⟨s, env, .empty⟩ : Machine).core where
  length := by simp [Machine.core, h.tx, Log.empty, MspWindow.empty]
  window := fun j p hp => by simp [Machine.core, h.tx, MspWindow.empty] at hp
  nextSeq := by simp [Machine.core, h.tx, Log.empty, MspWindow.empty]
  shutdownLocal := by simpa [Machine.core, Log.empty] using h.shutdownLocal
  last := nofun
  expected := by simp [Machine.core, h.rx, Log.empty, MspWindow.empty]
  wire := nofun
  acks := nofun

theorem Untouched.receiver (h : s.Untouched) (env : Env) (x : Core) :
    Receiver x (⟨s, env, .empty⟩ : Machine).core := by
  have hpackets : (⟨s, env, .empty⟩ : Machine).core.rx.packets = [] := by
    simp [Machine.core, h.rx, MspWindow.empty]
  have hnone : ∀ p, p ∉ (⟨s, env, .empty⟩ : Machine).core.rx.packets := by
    rw [hpackets]
    exact fun _ => not_mem_nil
  refine ⟨Nat.zero_le _, ?_, fun p hp => absurd hp (hnone p), fun p hp => absurd hp (hnone p),
    ⟨[], by simp [Machine.core, Log.empty], fun p hp => absurd hp (hnone p), fun _ => rfl⟩, ?_⟩
  · rw [hpackets]
    exact ⟨.nil, by simp⟩
  · intro hremote
    cases h.shutdownRemote.symm.trans hremote

/-- What the end `c` has received of what the end `x` has sent: the bytes consumed are a prefix of
those queued; the shutdown flag is only set when all packets before the one that carries it have
been consumed; and each packet is still in the window of the sender unless it has been consumed. -/
structure Delivered (x c : Core) : Prop where
  consumed : c.log.consumed <+: x.log.queued.flatten
  shutdownRemote : c.state.shutdownRemote = true → ∃ k, x.log.shut = some k ∧
    k ≤ c.log.completed ∧ (x.log.queued.take k).flatten <+: c.log.consumed
  kept : ∀ i payload, x.log.queued[i]? = some payload →
    (∃ p ∈ x.tx.packets, p.seq = BitVec.ofNat 16 i ∧ p.payload = payload) ∨
    i < c.log.completed ∧ (x.log.queued.take (i + 1)).flatten <+: c.log.consumed

theorem flatten_mono {l l' : List (List Byte)} (h : l <+: l') : l.flatten <+: l'.flatten := by
  obtain ⟨rest, rfl⟩ := h
  rw [flatten_append]
  exact prefix_append _ _

theorem Connected.delivered (h : Connected a b) (hbound : a.log.queued.length < maxSequenced) :
    Delivered a b := by
  obtain ⟨part, hpart, hhead, hnone⟩ := h.receiverB.consumed
  have hstart : ∀ k ≤ b.log.completed, (a.log.queued.take k).flatten <+: b.log.consumed := by
    intro k hk
    rw [hpart]
    exact (flatten_mono (take_prefix_take_left hk)).trans (prefix_append _ _)
  constructor
  · by_cases hnext : ∃ p ∈ b.rx.packets, p.seq = b.rx.nextSeq
    · obtain ⟨p, hp, hseq⟩ := hnext
      have hholds := (h.receiverB.came p hp).holds_next h.senderA hbound h.senderB
        h.receiverB.completed_le hseq
      have hmore : (a.log.queued.take (b.log.completed + 1)).flatten =
          (a.log.queued.take b.log.completed).flatten ++ p.payload := by
        rw [take_add_one, hholds.payload, flatten_append]
        simp
      rw [hpart, ← hhead p hp hseq]
      refine List.IsPrefix.trans ?_ (flatten_mono ( take_prefix (b.log.completed + 1) _))
      rw [hmore]
      exact (prefix_append_right_inj _).mpr ( take_prefix _ _)
    · rw [hpart, hnone fun p hp hseq => hnext ⟨p, hp, hseq⟩, append_nil]
      exact flatten_mono ( take_prefix _ _)
  · intro hremote
    obtain ⟨k, hk, hle⟩ := h.receiverB.shutdownRemote hremote
    exact ⟨k, hk, hle, hstart k hle⟩
  · intro i payload hi
    obtain ⟨hlt, -⟩ := List.getElem?_eq_some_iff.mp hi
    rcases Nat.lt_or_ge i a.log.released with hrel | hge
    · have := h.releasedA
      exact .inr ⟨by omega, hstart _ (by omega)⟩
    have hlength := h.senderA.length
    have hp := getElem?_eq_getElem (l := a.tx.packets) (i := i - a.log.released) (by omega)
    have hholds := h.senderA.window _ _ hp
    rw [Nat.add_sub_cancel' hge] at hholds
    refine .inl ⟨_, mem_of_getElem? hp, hholds.seq, ?_⟩
    exact Option.some_inj.mp (hholds.payload.symm.trans hi)

/-- In every run of two connected sockets over any network, while fewer than 2^15 packets have
been sequenced in each direction, each end has delivered what the other one has queued. -/
theorem Conn.run_delivers {a b : MspSock} (ha : a.Untouched) (hb : b.Untouched) (ops : List ConnOp)
    (hboundA : ((Conn.new a b).run ops).a.core.log.queued.length < maxSequenced)
    (hboundB : ((Conn.new a b).run ops).b.core.log.queued.length < maxSequenced) :
    Delivered ((Conn.new a b).run ops).a.core ((Conn.new a b).run ops).b.core ∧
    Delivered ((Conn.new a b).run ops).b.core ((Conn.new a b).run ops).a.core := by
  have hnew : InOrder (Conn.new a b).a.core (Conn.new a b).b.core := fun _ _ =>
    ⟨Untouched.sender ha _, Untouched.sender hb _, Untouched.receiver ha _ _,
      Untouched.receiver hb _ _, le_rfl, le_rfl⟩
  have hconn := Conn.run_inOrder hnew ops hboundA hboundB
  exact ⟨hconn.delivered hboundA, hconn.symm.delivered hboundB⟩

end Connection

section Examples

/-- A socket as it is after `msp_connect`, with a handler. -/
def sampleEnd (local_ remote : ℕ) : MspSock :=
  { MspSock.fresh 1 0 0 with
    state := { MspState.uninitialised with dataOut := true }
    handler := true
    header := ⟨⟨Sid.uniform 0x1a#8, local_⟩, ⟨Sid.uniform 0x1a#8, remote⟩, 0#8⟩ }

/-- Two packets arrive in the wrong order and one of them twice; the handler consumes one byte of
the first, and the rest later. -/
def sampleRun : List ConnOp :=
  let env : Env := ⟨List.replicate 20 5, [], []⟩
  let replies (counts : List ℕ) : Env :=
    ⟨List.replicate 20 5, counts.map fun n => ⟨[], n⟩, []⟩
  [⟨true, env, .call (.send [1#8, 2#8])⟩, ⟨true, env, .call (.send [3#8])⟩,
    ⟨true, env, .call .shutdown⟩, ⟨true, env, .process false⟩,
    ⟨false, env, .deliver 1⟩, ⟨false, replies [0], .process false⟩, ⟨false, env, .deliver 0⟩,
    ⟨false, env, .deliver 1⟩, ⟨false, replies [1, 0, 0], .process false⟩,
    ⟨false, replies [1, 1, 0], .process false⟩]

theorem Conn.run_delivers_reordered :
    ((Conn.new (sampleEnd 7 9) (sampleEnd 9 7)).run sampleRun).b.core.log.consumed =
      [1#8, 2#8, 3#8] ∧
    Delivered ((Conn.new (sampleEnd 7 9) (sampleEnd 9 7)).run sampleRun).a.core
      ((Conn.new (sampleEnd 7 9) (sampleEnd 9 7)).run sampleRun).b.core ∧
    Delivered ((Conn.new (sampleEnd 7 9) (sampleEnd 9 7)).run sampleRun).b.core
      ((Conn.new (sampleEnd 7 9) (sampleEnd 9 7)).run sampleRun).a.core :=
  ⟨by decide +kernel, Conn.run_delivers ⟨rfl, rfl, rfl, rfl⟩ ⟨rfl, rfl, rfl, rfl⟩ sampleRun
    (by decide +kernel) (by decide +kernel)⟩

end Examples

end ServalMesh.Msp
