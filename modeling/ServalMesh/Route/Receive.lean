import ServalMesh.Route.Acks
import ServalMesh.Route.Round

/-!
# Receiving link records

`link_receive` applies the records of a neighbour's link state message to the
neighbour's table. Any change makes every path score of the table dirty, by a new
path version.
-/

namespace ServalMesh.Route

/-- One record whose addresses have been resolved. -/
structure LinkRecord (σ : Type) where
  receiver : σ
  transmitter : Option σ
  version : ℕ
  interfaceId : Option ℕ
  unicast : Bool
  ack : Option (ℕ × BitVec 32)
  dropRateByte : Option ℕ

/-- `NumberOfSetBits`. -/
def numberOfSetBits (i : BitVec 32) : ℕ :=
  let i := i - ((i >>> 1) &&& 0x55555555#32)
  let i := (i &&& 0x33333333#32) + ((i >>> 2) &&& 0x33333333#32)
  ((((i + (i >>> 4)) &&& 0x0F0F0F0F#32) * 0x01010101#32) >>> 24).toNat

/-- An explicit drop rate overrides the one estimated from the acknowledgements,
of which a few losses are ignored. -/
def LinkRecord.dropRate {σ : Type} (r : LinkRecord σ) : ℤ :=
  match r.dropRateByte, r.ack with
  | some d, _ => d
  | none, some (_, mask) =>
    let d : ℤ := 15 - numberOfSetBits (mask &&& 0x7FFF#32)
    if d ≤ 3 then 0 else d
  | none, none => 0

/-- What `link_receive` reads from outside the routing tables. -/
structure LinkEnv where
  now : ℤ
  charSigned : Bool
  interfaceUp : ℕ → Bool
  interfaceDestination : ℕ → Destination
  tickMs : Destination → ℤ
  reachableTimeoutMs : ℕ → ℤ

/-- The variables of `link_receive` that live across records. -/
structure Receiving (σ : Type) where
  neighbour : Neighbour σ
  subscribers : σ → Subscriber σ
  changed : Bool := false

/-- Store through a `struct link_out *`. -/
def setLinkOut : List LinkOut → LinkOut → List LinkOut
  | [], _ => []
  | m :: rest, o => if m.destination = o.destination then o :: rest else m :: setLinkOut rest o

section

variable {σ : Type}

/-- The outgoing link that a neighbour claims to hear; only broadcast links are
created here. -/
def Neighbour.heardLink (env : LinkEnv) (nb : Neighbour σ) (interface : ℕ) (unicast : Bool) :
    Option (Neighbour σ × Destination) :=
  match nb.outLinks.find? fun o =>
      o.destination.interface = interface ∧ o.destination.unicast = unicast with
  | some o =>
    let out := { o with timeout := env.now + env.tickMs o.destination * 5 }
    some ({ nb with outLinks := setLinkOut nb.outLinks out }, o.destination)
  | none =>
    if unicast then none
    else
      let d := env.interfaceDestination interface
      let out : LinkOut := { timeout := env.now + env.tickMs d * 5, destination := d }
      some ({ nb with outLinks := out :: nb.outLinks }, d)

/-- Did they miss our last acknowledgement? -/
def Neighbour.checkLastUpdate (env : LinkEnv) (nb : Neighbour σ) (ackSeq : ℕ)
    (ackMask : BitVec 32) : Neighbour σ :=
  if nb.lastUpdateSeq = -1 then nb
  else
    let seqDelta := seqByte (ackSeq - nb.lastUpdateSeq)
    if seqDelta ≤ 32 ∧ (seqDelta = 0 ∨ ackMask.getLsbD (seqDelta - 1) = true) then
      { nb with lastUpdateSeq := -1 }
    else if seqDelta < 128 then { nb with nextNeighbourUpdate := env.now + 5 }
    else nb

variable [LinearOrder σ]

def Receiving.sendFull (acc : Receiving σ) (s : σ) : Receiving σ :=
  { acc with subscribers :=
      Function.update acc.subscribers s { acc.subscribers s with sendFull := true } }

/-- The checks before `find_link`. Either the record is finished, or it goes on
with this transmitter and, for the link from us to the neighbour, the network
destination that they hear us from. -/
def admitRecord (env : LinkEnv) (me source : σ) (acc : Receiving σ) (r : LinkRecord σ) :
    Receiving σ × Option (Option σ × Option (ℕ × Destination)) :=
  match r.transmitter.filter fun t => t ≠ me ∧ (acc.subscribers t).reachable = .self with
  | some t => (acc.sendFull t, none)
  | none =>
    if r.receiver = me then
      ({ acc with neighbour := { acc.neighbour with usingUs := r.transmitter = some source } },
        none)
    else if (acc.subscribers r.receiver).reachable = .self ∧ r.transmitter ≠ none ∧
        r.transmitter ≠ some me then
      (acc.sendFull r.receiver, none)
    else if r.receiver = source then
      match r.interfaceId with
      | none => (acc, none)
      | some i =>
        if r.transmitter ≠ some me ∨ env.interfaceUp i = false then (acc, none)
        else
          match acc.neighbour.heardLink env i r.unicast with
          | none => (acc, none)
          | some (nb, d) => ({ acc with neighbour := nb }, some (r.transmitter, some (i, d)))
    else if r.transmitter = some me then
      -- they use us to reach this receiver, so for us the link just died
      if (acc.subscribers r.receiver).reachable = .self then (acc, some (none, none))
      else
        ({ acc with neighbour := { acc.neighbour with routingThroughUs := env.now + 2500 } },
          some (none, none))
    else (acc, some (r.transmitter, none))

/-- The link to the neighbour itself: its version counts our own observations. -/
def Receiving.hearsUs (env : LinkEnv) (acc : Receiving σ) (r : LinkRecord σ)
    (transmitter : Option σ) (link : Link σ) (i : ℕ) (d : Destination) :
    Receiving σ × Link σ × ℤ :=
  let nb := acc.neighbour
  let moved := link.destination ≠ some d
  let version := link.linkVersion + (if moved then 1 else 0)
  let up := nb.linkInTimeout < env.now ∨ version < 0
  let version := version + (if up then 1 else 0)
  let version := version +
    (if r.dropRate ≠ link.dropRate ∨ transmitter ≠ link.transmitter then 1 else 0)
  let nb := { nb with linkInTimeout := env.now + env.reachableTimeoutMs i }
  let nb := match r.ack with
    | none => nb
    | some (seq, mask) => nb.checkLastUpdate env seq mask
  ({ acc with neighbour := nb, changed := acc.changed || decide (moved ∨ up) },
    { link with
      destination := some d
      lastAckSeq := match r.ack with | some (seq, _) => (seq : ℤ) | none => -1 }, version)

/-- The last assignments for a record. -/
def Receiving.storeLink (env : LinkEnv) (acc : Receiving σ) (r : LinkRecord σ)
    (transmitter : Option σ) (link : Link σ) (version : ℤ) : Receiving σ :=
  if link.transmitter ≠ transmitter ∨ link.linkVersion ≠ version then
    let link := { link with
      transmitter := transmitter
      linkVersion := toChar env.charSigned (version % 256)
      dropRate := toChar env.charSigned r.dropRate }
    { acc with
      neighbour := { acc.neighbour with root := acc.neighbour.root.set link }
      changed := true }
  else { acc with neighbour := { acc.neighbour with root := acc.neighbour.root.set link } }

/-- `find_link`, which creates the link only for a known transmitter. -/
def Neighbour.linkFor (env : LinkEnv) (nb : Neighbour σ) (receiver : σ) (create : Bool) :
    Option (Link σ) :=
  match nb.root.find receiver with
  | some link => some link
  | none =>
    if create then
      some { receiver := receiver
             pathVersion := nb.pathVersion - 1
             linkVersion := toChar env.charSigned (-1) }
    else none

def receiveRecord (env : LinkEnv) (me source : σ) (acc : Receiving σ) (r : LinkRecord σ) :
    Receiving σ :=
  match admitRecord env me source acc r with
  | (acc, none) => acc
  | (acc, some (transmitter, heard)) =>
    match acc.neighbour.linkFor env r.receiver transmitter.isSome with
    | none => acc
    | some link =>
      match heard with
      | some (i, d) =>
        let (acc, link, version) := acc.hearsUs env r transmitter link i d
        acc.storeLink env r transmitter link version
      | none => acc.storeLink env r transmitter { link with destination := none } r.version

/-- `link_receive`, from the records that could be decoded. -/
def linkReceive (env : LinkEnv) (source : σ) (records : List (LinkRecord σ)) (st : Routes σ) :
    Routes σ :=
  if source = st.mySubscriber then st
  else
    let (ns, nb) := getOrCreateNeighbour env.now st.neighbours source
    let acc := records.foldl (receiveRecord env st.mySubscriber source)
      { neighbour := nb, subscribers := st.subscribers }
    let st := { st with subscribers := acc.subscribers }
    if acc.changed then
      let nb := { acc.neighbour with pathVersion := acc.neighbour.pathVersion + 1 }
      { st with routeVersion := st.routeVersion + 1, neighbours := setNeighbour ns nb }
    else { st with neighbours := setNeighbour ns acc.neighbour }

/-- The fields of a link that only path scoring writes. -/
def Link.memo (l : Link σ) : Option σ × BitVec 8 × ℤ × ℤ × Bool :=
  (l.parent, l.pathVersion, l.hopCount, l.pathDropRate, l.calculating)

section Records

variable {env : LinkEnv} {me source : σ} {acc acc' : Receiving σ} {r : LinkRecord σ}
  {transmitter : Option σ} {heard : Option (ℕ × Destination)} {link : Link σ}
  {nb nb₀ : Neighbour σ} {t : LinkTree σ}

/-- The parts of a neighbour that scoring reads. -/
def Neighbour.table (nb : Neighbour σ) : σ × BitVec 8 × LinkTree σ :=
  (nb.subscriber, nb.pathVersion, nb.root)

omit [LinearOrder σ] in
theorem heardLink_table {i : ℕ} {unicast : Bool} {d : Destination}
    (h : nb₀.heardLink env i unicast = some (nb, d)) : nb.table = nb₀.table := by
  unfold Neighbour.heardLink at h
  split at h
  case h_1 => cases h; rfl
  case h_2 =>
    split_ifs at h
    cases h
    rfl

theorem admitRecord_spec (env : LinkEnv) (me source : σ) (acc : Receiving σ) (r : LinkRecord σ) :
    (admitRecord env me source acc r).1.neighbour.table = acc.neighbour.table ∧
      (admitRecord env me source acc r).1.changed = acc.changed ∧
      ((admitRecord env me source acc r).2 ≠ none → r.receiver ≠ me) := by
  unfold admitRecord
  split
  · exact ⟨rfl, rfl, by simp⟩
  split_ifs with hme hself hsrc htr hreach
  · exact ⟨rfl, rfl, by simp⟩
  · exact ⟨rfl, rfl, by simp⟩
  · cases r.interfaceId with
    | none => exact ⟨rfl, rfl, by simp⟩
    | some i =>
      dsimp only
      split_ifs with hdown
      · exact ⟨rfl, rfl, by simp⟩
      · cases hheard : acc.neighbour.heardLink env i r.unicast with
        | none => exact ⟨rfl, rfl, by simp⟩
        | some p => exact ⟨heardLink_table hheard, rfl, fun _ => hme⟩
  · exact ⟨rfl, rfl, fun _ => hme⟩
  · exact ⟨rfl, rfl, fun _ => hme⟩
  · exact ⟨rfl, rfl, fun _ => hme⟩

omit [LinearOrder σ] in
theorem checkLastUpdate_table (nb : Neighbour σ) (seq : ℕ) (mask : BitVec 32) :
    (nb.checkLastUpdate env seq mask).table = nb.table := by
  unfold Neighbour.checkLastUpdate
  dsimp only
  split_ifs <;> rfl

section

variable (env : LinkEnv) (acc : Receiving σ) (r : LinkRecord σ) (transmitter : Option σ)
  (link : Link σ)

theorem hearsUs_spec (i : ℕ) (d : Destination) :
    (acc.hearsUs env r transmitter link i d).1.neighbour.table = acc.neighbour.table ∧
      ((acc.hearsUs env r transmitter link i d).1.changed = false → acc.changed = false) ∧
      (acc.hearsUs env r transmitter link i d).2.1.memo = link.memo ∧
      (acc.hearsUs env r transmitter link i d).2.1.advert = link.advert := by
  unfold Receiving.hearsUs
  refine ⟨?_, fun h => ?_, rfl, rfl⟩
  · cases r.ack with
    | none => rfl
    | some a => exact checkLastUpdate_table _ _ _
  · exact (Bool.or_eq_false_iff.mp h).1

/-- The effect of a record on the table: one link is stored, with its scoring
fields kept; unless the table is marked as changed, its advertisement too. -/
structure Stored (nb nb' : Neighbour σ) (link : Link σ) (transmitter : Option σ)
    (changed changed' : Bool) (link' : Link σ) : Prop where
  table : nb'.table = (nb.subscriber, nb.pathVersion, nb.root.set link')
  receiver : link'.receiver = link.receiver
  memo : link'.memo = link.memo
  transmitter : link'.transmitter = transmitter
  unchanged : changed' = false → changed = false ∧ link'.advert = link.advert

theorem storeLink_spec (version : ℤ) :
    ∃ link', Stored acc.neighbour (acc.storeLink env r transmitter link version).neighbour link
      transmitter acc.changed (acc.storeLink env r transmitter link version).changed link' := by
  unfold Receiving.storeLink
  split_ifs with h
  · exact ⟨_, rfl, rfl, rfl, rfl, by simp⟩
  · rw [not_or, not_not] at h
    exact ⟨link, rfl, rfl, rfl, h.1, fun hc => ⟨hc, rfl⟩⟩

end

theorem receiveRecord_cases (env : LinkEnv) (me source : σ) (acc : Receiving σ) (r : LinkRecord σ) :
    ((receiveRecord env me source acc r).neighbour.table = acc.neighbour.table ∧
      (receiveRecord env me source acc r).changed = acc.changed) ∨
    ∃ transmitter heard link link', r.receiver ≠ me ∧
      (admitRecord env me source acc r).2 = some (transmitter, heard) ∧
      acc.neighbour.linkFor env r.receiver transmitter.isSome = some link ∧
      Stored acc.neighbour (receiveRecord env me source acc r).neighbour link transmitter
        acc.changed (receiveRecord env me source acc r).changed link' := by
  obtain ⟨htab, hch, hme⟩ := admitRecord_spec env me source acc r
  unfold receiveRecord
  generalize admitRecord env me source acc r = p at htab hch hme ⊢
  obtain ⟨acc₁, outcome⟩ := p
  cases outcome with
  | none => exact .inl ⟨htab, hch⟩
  | some out =>
    obtain ⟨transmitter, heard⟩ := out
    simp only [Neighbour.table, Prod.mk.injEq] at htab
    obtain ⟨hsub, hver, hroot⟩ := htab
    have hlink : acc₁.neighbour.linkFor env r.receiver transmitter.isSome =
        acc.neighbour.linkFor env r.receiver transmitter.isSome := by
      rw [Neighbour.linkFor, Neighbour.linkFor, hroot, hver]
    dsimp only
    rw [hlink]
    cases hl : acc.neighbour.linkFor env r.receiver transmitter.isSome with
    | none => exact .inl ⟨by rw [Neighbour.table, hsub, hver, hroot]; rfl, hch⟩
    | some link =>
      refine .inr ⟨transmitter, heard, link, ?_⟩
      cases heard with
      | none =>
        obtain ⟨link', hst⟩ := storeLink_spec env acc₁ r transmitter
          { link with destination := none } r.version
        refine ⟨link', hme (by simp), rfl, hl, ⟨?_, hst.receiver, hst.memo, hst.transmitter, ?_⟩⟩
        · rw [← hsub, ← hver, ← hroot]
          exact hst.table
        · rw [← hch]
          exact hst.unchanged
      | some id =>
        obtain ⟨i, d⟩ := id
        obtain ⟨htab₂, hch₂, hmemo, hadv⟩ := hearsUs_spec env acc₁ r transmitter link i d
        dsimp only
        generalize acc₁.hearsUs env r transmitter link i d = q at htab₂ hch₂ hmemo hadv ⊢
        obtain ⟨acc₂, link₂, version⟩ := q
        simp only [Neighbour.table, Prod.mk.injEq] at htab₂
        obtain ⟨link', hst⟩ := storeLink_spec env acc₂ r transmitter link₂ version
        refine ⟨link', hme (by simp), rfl, hl, ⟨?_, hst.receiver.trans (advert_eq hadv).1,
          hst.memo.trans hmemo, hst.transmitter, fun hc => ?_⟩⟩
        · rw [← hsub, ← hver, ← hroot, ← htab₂.1, ← htab₂.2.1, ← htab₂.2.2]
          exact hst.table
        · obtain ⟨hc₂, ha₂⟩ := hst.unchanged hc
          exact ⟨hch ▸ hch₂ hc₂, ha₂.trans hadv⟩

/-- The condition on one record: a link whose parent is cached is never given a
transmitter other than that parent. -/
def RecordOk (env : LinkEnv) (me source : σ) (acc : Receiving σ) (r : LinkRecord σ) : Prop :=
  ∀ out ∈ (admitRecord env me source acc r).2,
    ∀ p ∈ (acc.neighbour.root.find r.receiver).bind Link.parent,
      out.1 = none ∨ out.1 = some me ∨ out.1 = some p

instance : Decidable (RecordOk env me source acc r) := inferInstanceAs (Decidable (∀ _ ∈ _, _))

/-- The records received so far have turned the table of `nb₀` into this one. -/
structure Received (me : σ) (nb₀ : Neighbour σ) (acc : Receiving σ) : Prop where
  subscriber : acc.neighbour.subscriber = nb₀.subscriber
  pathVersion : acc.neighbour.pathVersion = nb₀.pathVersion
  memo : ∀ x l, acc.neighbour.root.find x = some l →
    (∃ l₀, nb₀.root.find x = some l₀ ∧ l.memo = l₀.memo) ∨
      (l.pathVersion = nb₀.pathVersion - 1 ∧ l.calculating = false)
  notUs : acc.neighbour.root.find me = none
  parents : ParentsOk me acc.neighbour.root
  unchanged : acc.changed = false → SameAdverts nb₀.root acc.neighbour.root

omit [LinearOrder σ] in
theorem table_eq (h : nb.table = (nb₀.subscriber, nb₀.pathVersion, t)) :
    nb.subscriber = nb₀.subscriber ∧ nb.pathVersion = nb₀.pathVersion ∧ nb.root = t := by
  simpa [Neighbour.table] using h

omit [LinearOrder σ] in
theorem memo_eq {l l' : Link σ} (h : l'.memo = l.memo) :
    l'.parent = l.parent ∧ l'.pathVersion = l.pathVersion ∧ l'.hopCount = l.hopCount ∧
      l'.pathDropRate = l.pathDropRate ∧ l'.calculating = l.calculating := by
  simpa [Link.memo] using h

/-- A link that `find_link` returns is the one of the table, or a new one. -/
theorem linkFor_cases {create : Bool} {x : σ} (h : nb.linkFor env x create = some link) :
    nb.root.find x = some link ∨ nb.root.find x = none ∧ create = true ∧ link.receiver = x ∧
      link.transmitter = none ∧ link.parent = none ∧ link.pathVersion = nb.pathVersion - 1 ∧
      link.calculating = false := by
  unfold Neighbour.linkFor at h
  cases hx : nb.root.find x with
  | some l => exact .inl (by simpa [hx] using h)
  | none =>
    rw [hx] at h
    split_ifs at h with hc
    cases h
    exact .inr ⟨rfl, hc, rfl, rfl, rfl, rfl, rfl⟩

open LinkTree

theorem Received.step (h : Received me nb₀ acc) (hok : RecordOk env me source acc r) :
    Received me nb₀ (receiveRecord env me source acc r) := by
  obtain ⟨htab, hch⟩ | ⟨tr, heard, link, link', hme, hout, hlink, hst⟩ :=
    receiveRecord_cases env me source acc r
  · obtain ⟨hsub, hver, hroot⟩ := table_eq htab
    exact ⟨hsub.trans h.subscriber, hver.trans h.pathVersion, hroot ▸ h.memo, hroot ▸ h.notUs,
      hroot ▸ h.parents, by rw [hroot, hch]; exact h.unchanged⟩
  obtain ⟨hsub, hver, hroot⟩ := table_eq hst.table
  obtain ⟨hpar, hpv, -, -, hcalc⟩ := memo_eq hst.memo
  have hrec : link'.receiver = r.receiver := by
    rw [hst.receiver]
    exact (linkFor_cases hlink).elim find_receiver fun hl => hl.2.2.1
  have hfind : ∀ x, acc.neighbour.root.find x ≠ none →
      (acc.neighbour.root.set link').find x ≠ none := by
    intro x hx
    rw [find_set]
    split_ifs <;> simp [hx]
  refine ⟨hsub.trans h.subscriber, hver.trans h.pathVersion, ?_, ?_, ?_, ?_⟩
  · intro x l hx
    rw [hroot, find_set] at hx
    split_ifs at hx with he
    · cases hx
      rcases linkFor_cases hlink with hl | ⟨-, -, -, -, -, hnew, hidle⟩
      · rcases h.memo _ _ hl with ⟨l₀, hl₀, hm⟩ | ⟨hv, hc⟩
        · exact .inl ⟨l₀, by rw [he, hrec, hl₀], hst.memo.trans hm⟩
        · exact .inr ⟨hpv.trans hv, hcalc.trans hc⟩
      · exact .inr ⟨by rw [hpv, hnew, h.pathVersion], hcalc.trans hidle⟩
    · exact h.memo x l hx
  · rw [hroot, find_set, if_neg (by rw [hrec]; exact Ne.symm hme)]
    exact h.notUs
  · rw [hroot]
    intro x l p hx hp
    rw [find_set] at hx
    split_ifs at hx with he
    · cases hx
      rw [hpar] at hp
      rcases linkFor_cases hlink with hl | ⟨-, -, -, -, hnone, -, -⟩
      · refine ⟨hfind p (h.parents _ _ p hl hp).1, ?_⟩
        rw [hst.transmitter]
        exact hok (tr, heard) hout p (by rw [hl]; exact hp)
      · cases hnone.symm.trans hp
    · exact (h.parents x l p hx hp).imp_left (hfind p)
  · intro hc
    obtain ⟨hc₀, hadv⟩ := hst.unchanged hc
    rw [hroot]
    rcases linkFor_cases hlink with hl | ⟨-, hcreate, -, hnone, -, -, -⟩
    · exact (h.unchanged hc₀).trans (sameAdverts_set hl hadv)
    · have := (advert_eq hadv).2.1
      rw [hst.transmitter, hnone] at this
      simp [this] at hcreate

/-- Every record of a message meets its condition when its turn comes. -/
def RecordsOk (env : LinkEnv) (me source : σ) : Receiving σ → List (LinkRecord σ) → Prop
  | _, [] => True
  | acc, r :: rs =>
    RecordOk env me source acc r ∧ RecordsOk env me source (receiveRecord env me source acc r) rs

instance instDecidableRecordsOk : ∀ acc (records : List (LinkRecord σ)),
    Decidable (RecordsOk env me source acc records)
  | _, [] => isTrue trivial
  | acc, r :: rs =>
    have := instDecidableRecordsOk (receiveRecord env me source acc r) rs
    inferInstanceAs (Decidable (RecordOk env me source acc r ∧ _))

theorem Received.foldl {records : List (LinkRecord σ)} (h : Received me nb₀ acc)
    (hok : RecordsOk env me source acc records) :
    Received me nb₀ (records.foldl (receiveRecord env me source) acc) := by
  induction records generalizing acc with
  | nil => exact h
  | cons r rs ih => exact ih (h.step hok.1) hok.2

/-- A sound table that has not changed stays sound under its path version. -/
theorem Received.sound_unchanged (h : Received me nb₀ acc) (hs : nb₀.Sound me)
    (hc : acc.changed = false) : acc.neighbour.Sound me := by
  have hadv := h.unchanged hc
  refine ⟨⟨h.parents, fun x l hx hv => ?_, h.notUs⟩, fun x l hx => ?_⟩
  · rw [h.subscriber]
    rw [h.pathVersion] at hv
    rcases h.memo x l hx with ⟨l₀, hl₀, hm⟩ | ⟨hpv, -⟩
    · obtain ⟨-, hpv, hhop, hdrop, -⟩ := memo_eq hm
      have hscored := hadv.scored (hs.scorable.memo x l₀ hl₀ (hpv.symm.trans hv))
      unfold Scored at hscored ⊢
      rwa [hhop, hdrop]
    · exact absurd hv (by bv_omega)
  · rcases h.memo x l hx with ⟨l₀, hl₀, hm⟩ | ⟨-, hidle⟩
    · rw [(memo_eq hm).2.2.2.2, hs.idle x l₀ hl₀]
    · exact hidle

/-- No link was last scored under the path version that comes next. -/
def Neighbour.NoWrap (nb : Neighbour σ) : Prop :=
  ∀ x ∈ nb.root.receivers, ∀ l ∈ nb.root.find x, l.pathVersion ≠ nb.pathVersion + 1

instance : Decidable nb.NoWrap := inferInstanceAs (Decidable (∀ _ ∈ _, ∀ _ ∈ _, _))

/-- A sound table that has changed is sound under the next path version, unless
some link still carries that version from long ago. -/
theorem Received.sound_changed (h : Received me nb₀ acc) (hs : nb₀.Sound me) (hv : nb₀.NoWrap) :
    ({ acc.neighbour with pathVersion := acc.neighbour.pathVersion + 1 } : Neighbour σ).Sound
      me := by
  refine ⟨⟨h.parents, fun x l hx hpv => ?_, h.notUs⟩, fun x l hx => ?_⟩
  · rw [h.pathVersion] at hpv
    rcases h.memo x l hx with ⟨l₀, hl₀, hm⟩ | ⟨hnew, -⟩
    · exact absurd ((memo_eq hm).2.1.symm.trans hpv) (hv x (mem_receivers hl₀) l₀ hl₀)
    · exact absurd hpv (by bv_omega)
  · rcases h.memo x l hx with ⟨l₀, hl₀, hm⟩ | ⟨-, hidle⟩
    · rw [(memo_eq hm).2.2.2.2, hs.idle x l₀ hl₀]
    · exact hidle

end Records

end

end ServalMesh.Route
