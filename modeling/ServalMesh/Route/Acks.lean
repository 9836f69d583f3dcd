import ServalMesh.Route.Duplicate

/-!
# Link acknowledgements

`link_received_packet` tracks, for every incoming link, the newest packet
sequence byte and a mask of the packets before it. `send_neighbour_link` reports
the low 32 bits of that mask to the sender.
-/

namespace ServalMesh.Route

open Lib List

def ackWindow : ℤ := 16

/-- What `link_received_packet` reads from outside the neighbour table. -/
structure RxEnv where
  now : ℤ
  preferUnicast : ℕ → Bool
  tickMs : ℕ → ℤ
  interfaceTypePriority : ℕ → ℤ

def RxEnv.overlayInterfaceCompare (env : RxEnv) (one two : ℕ) : ℤ :=
  if one = two then 0
  else if env.interfaceTypePriority one < env.interfaceTypePriority two then -1
  else if env.interfaceTypePriority two < env.interfaceTypePriority one then 1
  else 0

/-- The key under which `get_neighbour_link` files a packet. -/
def RxEnv.linkKey (env : RxEnv) (interface : ℕ) (senderInterface : ℤ) (unicast : Bool) : LinkKey :=
  (interface, senderInterface,
    if unicast then (if env.preferUnicast interface then 1 else -1) else 0)

def findLinkIn (links : List LinkIn) (key : LinkKey) : Option LinkIn :=
  links.find? (·.key = key)

/-- Store through a `struct link_in *`. -/
def setLinkIn : List LinkIn → LinkIn → List LinkIn
  | [], _ => []
  | m :: rest, l => if m.key = l.key then l :: rest else m :: setLinkIn rest l

section

variable {σ : Type}

def Neighbour.getNeighbourLink (n : Neighbour σ) (key : LinkKey) : Neighbour σ × LinkIn :=
  match findLinkIn n.links key with
  | some l => (n, l)
  | none =>
    let l : LinkIn := { interface := key.1, neighbourInterface := key.2.1, unicast := key.2.2 }
    ({ n with links := l :: n.links }, l)

def Neighbour.neighbourFindBestLink (env : RxEnv) (n : Neighbour σ) : Neighbour σ :=
  let pick (best link : LinkIn) : LinkIn :=
    let c := env.overlayInterfaceCompare best.interface link.interface
    if c = -1 then best
    else if c = 0 ∧ link.unicast < best.unicast then best
    else link
  let best := match n.links with
    | [] => none
    | first :: rest => some (rest.foldl pick first).key
  if n.bestLink ≠ best then { n with bestLink := best, nextNeighbourUpdate := env.now + 5 } else n

/-- `send_neighbour_link`, less the frame it queues. -/
def Neighbour.sendNeighbourLink (env : RxEnv) (n : Neighbour σ) : Neighbour σ :=
  match n.bestLink.bind (findLinkIn n.links) with
  | none => n
  | some best =>
    let n := if n.legacyProtocol then n
      else { n with links := setLinkIn n.links { best with ackCounter := ackWindow } }
    { n with lastUpdate := env.now, nextNeighbourUpdate := env.now + env.tickMs best.interface }

/-- The `while(1)` loop of `link_received_packet`: count up to the received
sequence, shifting in a zero for every packet in between. The flag tells whether
one was missed. -/
def LinkIn.countMissed (senderSeq : ℤ) : ℕ → LinkIn → Bool → LinkIn × Bool
  | 0, l, missed => (l, missed)
  | fuel + 1, l, missed =>
    let l := { l with ackSequence := (l.ackSequence + 1) % 256 }
    if l.ackSequence = senderSeq then (l, missed)
    else LinkIn.countMissed senderSeq fuel
      { l with ackMask := l.ackMask <<< 1, ackCounter := l.ackCounter - 1 } true

/-- The sequence bookkeeping of one packet. -/
def LinkIn.received (u : UndefinedShifts) (l : LinkIn) (senderSeq : ℤ) : LinkIn × Bool :=
  if senderSeq ≥ 0 then
    if l.ackSequence ≠ -1 then
      let offset := seqByte (l.ackSequence - 1 - senderSeq)
      if offset < 64 then ({ l with ackMask := l.ackMask ||| oneShl u offset }, false)
      else LinkIn.countMissed senderSeq 256 { l with ackMask := (l.ackMask <<< 1) ||| 1#64 } false
    else ({ l with ackSequence := senderSeq }, false)
  else (l, false)

/-- `link_received_packet` once the neighbour has been found or created. -/
def Neighbour.receivedPacket (env : RxEnv) (u : UndefinedShifts) (n : Neighbour σ) (key : LinkKey)
    (senderSeq : ℤ) : Neighbour σ :=
  let (n, l) := n.getNeighbourLink key
  let (l, missed) := LinkIn.received u { l with ackCounter := l.ackCounter - 1 } senderSeq
  let n := if missed ∧ n.usingUs ∧ n.bestLink = some key then
    { n with nextNeighbourUpdate := env.now + 5 } else n
  let n := if l.linkTimeout < env.now ∧ n.nextNeighbourUpdate > env.now + 10 then
    { n with nextNeighbourUpdate := env.now + 10 } else n
  let l := { l with linkTimeout := env.now + env.tickMs key.1 * 5 }
  let n := { n with links := setLinkIn n.links l }
  if n.usingUs ∧ l.ackCounter ≤ 0 then
    let n := n.neighbourFindBestLink env
    if n.bestLink = some key then n.sendNeighbourLink env else n
  else n

variable [DecidableEq σ]

/-- `get_neighbour(subscriber, 1)`. -/
def getOrCreateNeighbour (now : ℤ) (ns : List (Neighbour σ)) (s : σ) :
    List (Neighbour σ) × Neighbour σ :=
  match getNeighbour ns s with
  | some n => (ns, n)
  | none =>
    let n : Neighbour σ := { subscriber := s, nextNeighbourUpdate := now + 10 }
    (n :: ns, n)

def linkReceivedPacket (env : RxEnv) (u : UndefinedShifts) (ns : List (Neighbour σ))
    (sender : Option σ) (interface : ℕ) (senderInterface senderSeq : ℤ) (unicast : Bool) :
    List (Neighbour σ) :=
  match sender with
  | none => ns
  | some s =>
    let (ns, n) := getOrCreateNeighbour env.now ns s
    setNeighbour ns
      (n.receivedPacket env u (env.linkKey interface senderInterface unicast) senderSeq)

/-- The acknowledgement that would be reported for a link, if it exists. -/
def linkAck (ns : List (Neighbour σ)) (s : σ) (key : LinkKey) : Option (ℤ × BitVec 64) :=
  (getNeighbour ns s).bind fun n =>
    (findLinkIn n.links key).map fun l => (l.ackSequence, l.ackMask)

/-- Packets with these numbers arrive on one link, each in its own environment. -/
def receivePackets (u : UndefinedShifts) (s : σ) (interface : ℕ) (senderInterface : ℤ)
    (unicast : Bool) (ns : List (Neighbour σ)) (calls : List (RxEnv × ℕ)) : List (Neighbour σ) :=
  calls.foldl (fun ns c =>
    linkReceivedPacket c.1 u ns (some s) interface senderInterface ((c.2 % 256 : ℕ) : ℤ) unicast) ns

end

/-- The packet is late by less than 64, or it is newer than all before it. -/
def LateWindow (high k : ℕ) : Prop := high < k + 64

/-- The packet is not the newest one again, is late by at most 31, and follows
the loss of at most 190 packets. -/
def AckInOrder (high k : ℕ) : Prop := k ≠ high ∧ high ≤ k + 31 ∧ k ≤ high + 191

instance (high k : ℕ) : Decidable (LateWindow high k) := inferInstanceAs (Decidable (_ < _))

instance (high k : ℕ) : Decidable (AckInOrder high k) := inferInstanceAs (Decidable (_ ∧ _))

section

variable {links : List LinkIn} {l : LinkIn} {key : LinkKey}

theorem findLinkIn_key (h : findLinkIn links key = some l) : l.key = key := by
  simpa using find?_some h

theorem findLinkIn_setLinkIn (h : findLinkIn links l.key ≠ none) :
    findLinkIn (setLinkIn links l) key = if key = l.key then some l else findLinkIn links key := by
  induction links with
  | nil => simp [findLinkIn] at h
  | cons m rest ih =>
    simp only [setLinkIn, findLinkIn, find?_cons] at *
    grind

/-- The two acknowledgement fields of a link. -/
def LinkIn.ack (l : LinkIn) : ℤ × BitVec 64 := (l.ackSequence, l.ackMask)

def acks (links : List LinkIn) (key : LinkKey) : Option (ℤ × BitVec 64) :=
  (findLinkIn links key).map LinkIn.ack

theorem acks_setLinkIn (h : findLinkIn links l.key ≠ none) :
    acks (setLinkIn links l) key = if key = l.key then some l.ack else acks links key := by
  rw [acks, findLinkIn_setLinkIn h]
  split_ifs <;> rfl

variable {σ : Type} {n : Neighbour σ} {env : RxEnv}

open Neighbour

theorem acks_neighbourFindBestLink : acks (n.neighbourFindBestLink env).links = acks n.links := by
  unfold neighbourFindBestLink
  dsimp only
  split_ifs <;> rfl

/-- Sending an acknowledgement resets a counter, never the acknowledgement. -/
theorem acks_sendNeighbourLink : acks (n.sendNeighbourLink env).links = acks n.links := by
  unfold sendNeighbourLink
  split
  · rfl
  rename_i best hbest
  obtain ⟨key, -, hfind⟩ := Option.bind_eq_some_iff.mp hbest
  have hkey := findLinkIn_key hfind
  split_ifs
  · rfl
  funext k
  have hne : findLinkIn n.links (LinkIn.key { best with ackCounter := ackWindow }) ≠ none := by
    change findLinkIn n.links best.key ≠ none
    rw [hkey, hfind]
    exact Option.some_ne_none _
  rw [acks_setLinkIn hne]
  split_ifs with hk
  · rw [show k = key from hk.trans hkey, acks, hfind]
    rfl
  · rfl

theorem getNeighbourLink_find (n : Neighbour σ) (key : LinkKey) :
    findLinkIn (n.getNeighbourLink key).1.links key = some (n.getNeighbourLink key).2 := by
  unfold getNeighbourLink
  split
  · assumption
  · simp [findLinkIn, LinkIn.key]

theorem received_key (u : UndefinedShifts) (l : LinkIn) (seq : ℤ) :
    (LinkIn.received u l seq).1.key = l.key := by
  have hloop : ∀ fuel (m : LinkIn) b, (LinkIn.countMissed seq fuel m b).1.key = m.key := by
    intro fuel
    induction fuel with
    | zero => intro m b; rfl
    | succ fuel ih =>
      intro m b
      rw [LinkIn.countMissed]
      split_ifs
      · rfl
      · exact ih _ _
  unfold LinkIn.received
  dsimp only
  split_ifs
  · rfl
  · exact hloop _ _ _
  · rfl
  · rfl

theorem receivedPacket_subscriber (env : RxEnv) (u : UndefinedShifts) (n : Neighbour σ)
    (key : LinkKey) (seq : ℤ) :
    (n.receivedPacket env u key seq).subscriber = n.subscriber := by
  have hlink : (n.getNeighbourLink key).1.subscriber = n.subscriber := by
    unfold getNeighbourLink
    split <;> rfl
  have hbest : ∀ m : Neighbour σ, (m.neighbourFindBestLink env).subscriber = m.subscriber := by
    intro m
    unfold neighbourFindBestLink
    dsimp only
    split_ifs <;> rfl
  have hsend : ∀ m : Neighbour σ, (m.sendNeighbourLink env).subscriber = m.subscriber := by
    intro m
    unfold sendNeighbourLink
    split
    · rfl
    · split_ifs <;> rfl
  unfold receivedPacket
  dsimp only
  split_ifs <;> simp only [hsend, hbest, hlink]

/-- A packet changes the acknowledgement of its own link only by `received`. -/
theorem receivedPacket_acks (env : RxEnv) (u : UndefinedShifts) (n : Neighbour σ) (key : LinkKey)
    (seq : ℤ) :
    ∃ c, acks (n.receivedPacket env u key seq).links key =
      some (LinkIn.received u { (n.getNeighbourLink key).2 with ackCounter := c } seq).1.ack := by
  have hfind := getNeighbourLink_find n key
  refine ⟨(n.getNeighbourLink key).2.ackCounter - 1, ?_⟩
  unfold receivedPacket
  generalize n.getNeighbourLink key = p at hfind ⊢
  obtain ⟨n', l⟩ := p
  dsimp only at hfind ⊢
  have hlkey := received_key u { l with ackCounter := l.ackCounter - 1 } seq
  generalize LinkIn.received u { l with ackCounter := l.ackCounter - 1 } seq = r at hlkey ⊢
  obtain ⟨l', missed⟩ := r
  have hl' : l'.key = key := hlkey.trans (findLinkIn_key hfind : l.key = key)
  have hset : ∀ m : Neighbour σ, m.links = n'.links →
      acks (setLinkIn m.links { l' with linkTimeout := env.now + env.tickMs key.1 * 5 }) key =
        some l'.ack := by
    intro m hm
    rw [hm, acks_setLinkIn]
    · exact if_pos hl'.symm
    · change findLinkIn n'.links l'.key ≠ none
      rw [hl', hfind]
      exact Option.some_ne_none _
  split_ifs <;>
    simp only [acks_sendNeighbourLink, acks_neighbourFindBestLink] <;>
    exact hset _ rfl

end

section

variable {u : UndefinedShifts} {l : LinkIn} {seen : List ℕ} {k high : ℕ}

/-- The loop runs once for every packet between the old and the new sequence. -/
theorem countMissed_ack {seq : ℤ} (hseq : 0 ≤ seq ∧ seq < 256) {d fuel : ℕ} {missed : Bool}
    (hl : 0 ≤ l.ackSequence) (hd : seqByte (seq - l.ackSequence - 1) = d) (hf : d < fuel) :
    (LinkIn.countMissed seq fuel l missed).1.ack = (seq, l.ackMask <<< d) := by
  induction fuel generalizing d l missed with
  | zero => omega
  | succ fuel ih =>
    unfold seqByte at hd
    rw [LinkIn.countMissed]
    dsimp only
    split_ifs with he
    · have hz : d = 0 := by omega
      simp [LinkIn.ack, he, hz]
    · obtain ⟨d', rfl⟩ : ∃ d', d = d' + 1 := ⟨d - 1, by omega⟩
      rw [ih (d := d') (by dsimp only; omega) (by unfold seqByte; dsimp only; omega) (by omega)]
      rw [Nat.add_comm, BitVec.shiftLeft_add]

/-- A link's acknowledgement represents exactly the packets received on it. -/
def Acked (ack : ℤ × BitVec 64) (seen : List ℕ) : Prop :=
  match seen.max? with
  | none => ack = (-1, 0#64)
  | some high => ack.1 = ((high % 256 : ℕ) : ℤ) ∧ Tracks 32 ack.2 (· ∈ seen) high

theorem acked_first (h : Acked l.ack []) :
    Acked (LinkIn.received u l ((k % 256 : ℕ) : ℤ)).1.ack [k] := by
  obtain ⟨hseq, hmask⟩ := Prod.mk.inj (show l.ack = (-1, 0#64) from h)
  have hk : ((k % 256 : ℕ) : ℤ) ≥ 0 := by omega
  simp only [LinkIn.received, hk, if_true, hseq, ne_eq, not_true_eq_false, if_false]
  refine ⟨rfl, ?_⟩
  change Tracks 32 l.ackMask (· ∈ [k]) k
  rw [hmask]
  apply tracks_zero
  intro m hm hmem
  have := mem_singleton.mp hmem
  omega

section

variable (h : Acked l.ack seen) (hm : seen.max? = some high) (hw : AckInOrder high k)

include h hm hw

theorem received_late (hlate : k < high) :
    (LinkIn.received u l ((k % 256 : ℕ) : ℤ)).1.ack =
      (l.ackSequence, l.ackMask ||| oneShl u (high - 1 - k)) := by
  rw [Acked, hm] at h
  have hseq : l.ackSequence = ((high % 256 : ℕ) : ℤ) := h.1
  obtain ⟨_, hlow, _⟩ := hw
  have hk : ((k % 256 : ℕ) : ℤ) ≥ 0 := by omega
  have hneg1 : ((high % 256 : ℕ) : ℤ) ≠ -1 := by omega
  have hoff : high - 1 - k < 64 := by omega
  simp only [LinkIn.received, hk, if_true, hseq, hneg1, ne_eq, not_false_eq_true,
    seqByte_late hlate (by omega), hoff]
  rfl

theorem acked_late (hlate : k < high) :
    Acked (LinkIn.received u l ((k % 256 : ℕ) : ℤ)).1.ack (k :: seen) := by
  rw [received_late h hm hw hlate]
  have hmax : (k :: seen).max? = some high := by
    rw [max?_cons_some hm, Nat.max_eq_right (by omega)]
  rw [Acked, hm] at h
  rw [Acked, hmax]
  obtain ⟨_, hlow, _⟩ := hw
  refine ⟨h.1, tracks_congr (tracks_mark h.2 hlate ?_) ?_⟩
  · intro i hi
    exact oneShl_low (by omega) hi
  · intro m _
    simp only [mem_cons]
    exact or_comm

theorem acked_ahead (hnew : high < k) :
    Acked (LinkIn.received u l ((k % 256 : ℕ) : ℤ)).1.ack (k :: seen) := by
  have hmax : (k :: seen).max? = some k := by
    rw [max?_cons_some hm, Nat.max_eq_left (by omega)]
  rw [Acked, hm] at h
  obtain ⟨hseq, htr⟩ := h
  change l.ackSequence = ((high % 256 : ℕ) : ℤ) at hseq
  obtain ⟨_, _, hgap⟩ := hw
  have hk : ((k % 256 : ℕ) : ℤ) ≥ 0 := by omega
  have hneg1 : ((high % 256 : ℕ) : ℤ) ≠ -1 := by omega
  have hback : ¬ seqByte (((high % 256 : ℕ) : ℤ) - 1 - ((k % 256 : ℕ) : ℤ)) < 64 := by
    unfold seqByte
    omega
  simp only [LinkIn.received, hk, if_true, hseq, hneg1, ne_eq, not_false_eq_true, hback, if_false]
  rw [countMissed_ack (d := k - high - 1) ⟨by omega, by omega⟩ (by dsimp only; omega)
    (by dsimp only; exact seqByte_ahead hnew (by omega)) (by omega)]
  rw [Acked, hmax]
  exact ⟨rfl, tracks_ahead htr hm (by decide) hnew⟩

end

section

variable (h : Acked l.ack seen) (hw : ∀ high, seen.max? = some high → AckInOrder high k)
include h hw

theorem acked_step :
    Acked (LinkIn.received u l ((k % 256 : ℕ) : ℤ)).1.ack (k :: seen) := by
  cases hm : seen.max? with
  | none =>
    obtain rfl := max?_eq_none_iff.mp hm
    exact acked_first h
  | some high =>
    have hk := hw high hm
    rcases Nat.lt_or_gt_of_ne hk.1 with hlt | hgt
    · exact acked_late h hm hk hlt
    · exact acked_ahead h hm hk hgt

/-- A packet that was received before leaves the acknowledgement as it is. -/
theorem received_again (hk : k ∈ seen) :
    (LinkIn.received u l ((k % 256 : ℕ) : ℤ)).1.ack = l.ack := by
  cases hm : seen.max? with
  | none =>
    obtain rfl := max?_eq_none_iff.mp hm
    cases hk
  | some high =>
    have hin := hw high hm
    have hle := le_of_max? hm hk
    have hlate : k < high := Nat.lt_of_le_of_ne hle hin.1
    rw [received_late h hm hin hlate]
    rw [Acked, hm] at h
    have hlow := hin.2.1
    have htr : Tracks 32 l.ackMask (· ∈ seen) high := h.2
    rw [tracks_mark_again htr hlate (by omega) (fun i hi => oneShl_exact (by omega) hi) hk]
    rfl

end

end

section

variable {σ : Type} [DecidableEq σ] {u : UndefinedShifts} {s : σ} {interface : ℕ}
  {senderInterface : ℤ} {unicast : Bool} {ns : List (Neighbour σ)} {env : RxEnv}

/-- A link that does not exist yet reports like a link that has heard nothing. -/
def currentAck (ns : List (Neighbour σ)) (s : σ) (key : LinkKey) : ℤ × BitVec 64 :=
  (linkAck ns s key).getD (-1, 0#64)

theorem getOrCreateNeighbour_get (now : ℤ) (ns : List (Neighbour σ)) (s : σ) :
    getNeighbour (getOrCreateNeighbour now ns s).1 s = some (getOrCreateNeighbour now ns s).2 := by
  unfold getOrCreateNeighbour
  cases h : getNeighbour ns s with
  | some n => exact h
  | none => simp [getNeighbour]

theorem getNeighbourLink_ack (now : ℤ) (ns : List (Neighbour σ)) (s : σ) (key : LinkKey) :
    ((getOrCreateNeighbour now ns s).2.getNeighbourLink key).2.ack = currentAck ns s key := by
  unfold getOrCreateNeighbour currentAck linkAck Neighbour.getNeighbourLink
  cases hn : getNeighbour ns s with
  | none => rfl
  | some n =>
    dsimp only [Option.bind_some]
    cases hl : findLinkIn n.links key <;> rfl

theorem linkReceivedPacket_ack (env : RxEnv) (u : UndefinedShifts) (ns : List (Neighbour σ)) (s : σ)
    (interface : ℕ) (senderInterface seq : ℤ) (unicast : Bool) :
    ∃ l : LinkIn, l.ack = currentAck ns s (env.linkKey interface senderInterface unicast) ∧
      linkAck (linkReceivedPacket env u ns (some s) interface senderInterface seq unicast) s
        (env.linkKey interface senderInterface unicast) = some (LinkIn.received u l seq).1.ack := by
  have hget := getOrCreateNeighbour_get env.now ns s
  have hack := getNeighbourLink_ack env.now ns s (env.linkKey interface senderInterface unicast)
  unfold linkReceivedPacket
  dsimp only
  generalize env.linkKey interface senderInterface unicast = key at hack ⊢
  generalize getOrCreateNeighbour env.now ns s = p at hget hack ⊢
  obtain ⟨ns', n⟩ := p
  obtain ⟨c, hc⟩ := receivedPacket_acks env u n key seq
  have hsub := (receivedPacket_subscriber env u n key seq).trans (getNeighbour_subscriber hget)
  have hset : getNeighbour (setNeighbour ns' (n.receivedPacket env u key seq)) s =
      some (n.receivedPacket env u key seq) := by
    rw [← hsub] at hget ⊢
    exact getNeighbour_setNeighbour_self hget
  refine ⟨{ (n.getNeighbourLink key).2 with ackCounter := c }, hack, ?_⟩
  rwa [linkAck, hset]

theorem receivePackets_concat (calls : List (RxEnv × ℕ)) (c : RxEnv × ℕ) :
    receivePackets u s interface senderInterface unicast ns (calls ++ [c]) =
      linkReceivedPacket c.1 u (receivePackets u s interface senderInterface unicast ns calls)
        (some s) interface senderInterface ((c.2 % 256 : ℕ) : ℤ) unicast := by
  simp [receivePackets]

/-- Whatever a run of packets on one link leaves behind represents them all. -/
theorem receivePackets_acked {key : LinkKey} {calls : List (RxEnv × ℕ)} {seen : List ℕ}
    (hkey : ∀ c ∈ calls, c.1.linkKey interface senderInterface unicast = key)
    (hw : Arrivals AckInOrder seen (calls.map Prod.snd)) (h : Acked (currentAck ns s key) seen) :
    Acked (currentAck (receivePackets u s interface senderInterface unicast ns calls) s key)
      ((calls.map Prod.snd).reverse ++ seen) := by
  induction calls generalizing ns seen with
  | nil => exact h
  | cons c calls ih =>
    obtain ⟨hc, hcs⟩ := hw
    have hck := hkey c mem_cons_self
    obtain ⟨l, hl, hstep⟩ := linkReceivedPacket_ack c.1 u ns s interface senderInterface
      ((c.2 % 256 : ℕ) : ℤ) unicast
    rw [hck] at hl hstep
    have hnext := acked_step (u := u) (l := l) (k := c.2) (by rw [hl]; exact h) hc
    have hcur : Acked (currentAck (linkReceivedPacket c.1 u ns (some s) interface senderInterface
        ((c.2 % 256 : ℕ) : ℤ) unicast) s key) (c.2 :: seen) := by
      rwa [currentAck, hstep]
    have := ih (forall_mem_cons.mp hkey).2 hcs hcur
    simpa [receivePackets] using this

theorem max?_reverse {ks : List ℕ} {high : ℕ} :
    ks.reverse.max? = some high ↔ ks.max? = some high := by
  simp only [max?_eq_some_iff, mem_reverse]

theorem linkReceivedPacket_isSome (seq : ℤ) :
    (linkAck (linkReceivedPacket env u ns (some s) interface senderInterface seq unicast) s
      (env.linkKey interface senderInterface unicast)).isSome := by
  obtain ⟨l, -, hl⟩ := linkReceivedPacket_ack env u ns s interface senderInterface seq unicast
  rw [hl]
  rfl

/-- While every packet meets `AckInOrder`, the reported sequence is the newest
one received, the 32 reported bits are exact, and repeats change nothing. -/
theorem linkReceivedPacket_truthful (u : UndefinedShifts) (s : σ) (interface : ℕ)
    (senderInterface : ℤ) (unicast : Bool) (key : LinkKey) (ns : List (Neighbour σ))
    (hfresh : currentAck ns s key = (-1, 0#64)) (calls : List (RxEnv × ℕ)) (hne : calls ≠ [])
    (hkey : ∀ c ∈ calls, c.1.linkKey interface senderInterface unicast = key)
    (hw : Arrivals (fun high k => LateWindow high k ∧ AckInOrder high k) [] (calls.map Prod.snd)) :
    ∃ high mask, (calls.map Prod.snd).max? = some high ∧
      linkAck (receivePackets u s interface senderInterface unicast ns calls) s key =
        some (((high % 256 : ℕ) : ℤ), mask) ∧
      (∀ i, i < 32 → (mask.getLsbD i = true ↔ i < high ∧ high - 1 - i ∈ calls.map Prod.snd)) ∧
      ∀ c : RxEnv × ℕ, c.1.linkKey interface senderInterface unicast = key →
        AckInOrder high c.2 → c.2 ∈ calls.map Prod.snd →
        linkAck (receivePackets u s interface senderInterface unicast ns (calls ++ [c])) s key =
          linkAck (receivePackets u s interface senderInterface unicast ns calls) s key := by
  have hacked := receivePackets_acked (u := u) hkey (arrivals_mono (fun _ _ h => h.2) hw)
    (show Acked (currentAck ns s key) [] from hfresh)
  rw [append_nil] at hacked
  obtain ⟨high, hmax⟩ := Option.ne_none_iff_exists'.mp fun hm : (calls.map Prod.snd).max? = none =>
    hne (map_eq_nil_iff.mp (max?_eq_none_iff.mp hm))
  have hsome : (linkAck (receivePackets u s interface senderInterface unicast ns calls) s
      key).isSome := by
    obtain ⟨init, c, rfl⟩ := eq_nil_or_concat calls |>.resolve_left hne
    rw [concat_eq_append, receivePackets_concat, ← hkey c (by simp)]
    exact linkReceivedPacket_isSome _
  obtain ⟨⟨seq, mask⟩, hack⟩ := Option.isSome_iff_exists.mp hsome
  have hcur : currentAck (receivePackets u s interface senderInterface unicast ns calls) s key =
      (seq, mask) := by
    rw [currentAck, hack]
    rfl
  have hacked' := hacked
  rw [hcur, Acked, max?_reverse.mpr hmax] at hacked'
  obtain ⟨hseq, htr⟩ := hacked'
  refine ⟨high, mask, hmax, ?_, ?_, ?_⟩
  · rw [hack]
    exact congrArg (fun q => some (q, mask)) hseq
  · intro i hi
    simpa using htr i hi
  intro c hc hin hmem
  obtain ⟨l, hl, hstep⟩ := linkReceivedPacket_ack c.1 u
    (receivePackets u s interface senderInterface unicast ns calls) s interface senderInterface
    ((c.2 % 256 : ℕ) : ℤ) unicast
  rw [hc] at hl hstep
  have hagain := received_again (u := u) (l := l) (k := c.2) (by rw [hl]; exact hacked)
    (fun h' hm' => by
      rw [max?_reverse.mpr hmax] at hm'
      cases hm'
      exact hin) (mem_reverse.mpr hmem)
  rw [receivePackets_concat, hstep, hagain, hl, hcur, hack]

end

/-- One interface with a 500 ms tick. -/
def steadyEnv (now : ℤ) : RxEnv := ⟨now, fun _ => false, fun _ => 500, fun _ => 1⟩

theorem linkReceivedPacket_truthful_loss :
    ∃ high mask, (List.map Prod.snd [(steadyEnv 1, 3), (steadyEnv 2, 6), (steadyEnv 3, 4)]).max? =
        some high ∧
      linkAck (receivePackets .arm 7 0 1 false ([] : List (Neighbour ℕ))
        [(steadyEnv 1, 3), (steadyEnv 2, 6), (steadyEnv 3, 4)]) 7 (0, 1, 0) =
          some (((high % 256 : ℕ) : ℤ), mask) ∧
      (∀ i, i < 32 → (mask.getLsbD i = true ↔ i < high ∧ high - 1 - i ∈
        List.map Prod.snd [(steadyEnv 1, 3), (steadyEnv 2, 6), (steadyEnv 3, 4)])) :=
  have ⟨high, mask, hmax, hack, hbits, _⟩ := linkReceivedPacket_truthful .arm 7 0 1 false (0, 1, 0)
    ([] : List (Neighbour ℕ)) rfl [(steadyEnv 1, 3), (steadyEnv 2, 6), (steadyEnv 3, 4)]
    (by simp) (by simp [RxEnv.linkKey]) (by decide)
  ⟨high, mask, hmax, hack, hbits⟩

/-- The packet that is already the newest one counts all the way around the
sequence byte, and every earlier packet is reported as lost. -/
theorem linkReceivedPacket_repeat_clears :
    Arrivals LateWindow [] [4, 5, 5] ∧
      linkAck (receivePackets .arm 7 0 1 false ([] : List (Neighbour ℕ))
        [(steadyEnv 1, 4), (steadyEnv 2, 5)]) 7 (0, 1, 0) = some (5, 1#64) ∧
      linkAck (receivePackets .arm 7 0 1 false ([] : List (Neighbour ℕ))
        [(steadyEnv 1, 4), (steadyEnv 2, 5), (steadyEnv 3, 5)]) 7 (0, 1, 0) = some (5, 0#64) := by
  decide +kernel

end ServalMesh.Route
