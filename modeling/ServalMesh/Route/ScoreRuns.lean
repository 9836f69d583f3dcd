import ServalMesh.Route.Receive

/-!
# Path scores over whole runs

A cached parent is never dropped when a record changes the transmitter, and the
path version is a single byte, so the runs in which scores stay true are those
that avoid both.
-/

namespace ServalMesh.Route

variable {σ : Type} [LinearOrder σ]

inductive RouteEvent (σ : Type) where
  | linkReceive (env : LinkEnv) (source : σ) (records : List (LinkRecord σ))
  | findBestLink (s : σ)
  | updatePathScore (n r : σ)

def Routes.step (clock : ℕ → ℤ) (st : Routes σ) : RouteEvent σ → Routes σ
  | .linkReceive env source records => linkReceive env source records st
  | .findBestLink s => (st.findBestLink clock s).1
  | .updatePathScore n r => st.updatePathScore n r

/-- The neighbour to which `link_receive` applies the records, before them. -/
def Routes.receiving (st : Routes σ) (env : LinkEnv) (source : σ) : Receiving σ :=
  { neighbour := (getOrCreateNeighbour env.now st.neighbours source).2
    subscribers := st.subscribers }

/-- The condition on one event, in the state before it: records leave the
transmitter of a link with a cached parent alone, and a table that changes holds
no link from 255 versions ago. -/
def EventOk (st : Routes σ) : RouteEvent σ → Prop
  | .linkReceive env source records =>
    source = st.mySubscriber ∨
      RecordsOk env st.mySubscriber source (st.receiving env source) records ∧
        ((records.foldl (receiveRecord env st.mySubscriber source)
          (st.receiving env source)).changed = true → (st.receiving env source).neighbour.NoWrap)
  | _ => True

def EventsOk (clock : ℕ → ℤ) : Routes σ → List (RouteEvent σ) → Prop
  | _, [] => True
  | st, ev :: evs => EventOk st ev ∧ EventsOk clock (st.step clock ev) evs

instance (st : Routes σ) : ∀ ev, Decidable (EventOk st ev)
  | .linkReceive _ _ _ => inferInstanceAs (Decidable (_ = _ ∨ _ ∧ (_ = true → _)))
  | .findBestLink _ => isTrue trivial
  | .updatePathScore _ _ => isTrue trivial

instance instDecidableEventsOk (clock : ℕ → ℤ) :
    ∀ (st : Routes σ) evs, Decidable (EventsOk clock st evs)
  | _, [] => isTrue trivial
  | st, ev :: evs =>
    have := instDecidableEventsOk clock (st.step clock ev) evs
    inferInstanceAs (Decidable (EventOk st ev ∧ _))

section

variable {clock : ℕ → ℤ} {st st' : Routes σ} {ev : RouteEvent σ} {n r : σ} {nb : Neighbour σ}
  {l : Link σ}

/-- Every table is sound between two events. -/
def SoundTables (st : Routes σ) : Prop := ∀ nb ∈ st.neighbours, nb.Sound st.mySubscriber

theorem SameTables.sound (h : SameTables st st') (hs : SoundTables st) : SoundTables st' := by
  have hn := h.neighbours
  rw [SoundTables, h.mySubscriber]
  unfold SoundTables at hs
  generalize st.neighbours = ns at hn hs
  generalize st'.neighbours = ns' at hn ⊢
  induction hn with
  | nil => exact hs
  | cons hr _ ih =>
    obtain ⟨hfirst, hrest⟩ := List.forall_mem_cons.mp hs
    exact List.forall_mem_cons.mpr ⟨hr.sound hfirst, ih hrest⟩

/-- A neighbour that has just been heard of knows no links. -/
theorem sound_new (me s : σ) (next : ℤ) :
    ({ subscriber := s, nextNeighbourUpdate := next } : Neighbour σ).Sound me :=
  ⟨⟨nofun, nofun, rfl⟩, nofun⟩

theorem getOrCreateNeighbour_sound {me : σ} {ns : List (Neighbour σ)} (now : ℤ) (s : σ)
    (h : ∀ nb ∈ ns, nb.Sound me) :
    (∀ nb ∈ (getOrCreateNeighbour now ns s).1, nb.Sound me) ∧
      (getOrCreateNeighbour now ns s).2.Sound me := by
  unfold getOrCreateNeighbour
  cases hn : getNeighbour ns s with
  | some nb => exact ⟨h, h nb (getNeighbour_mem hn)⟩
  | none =>
    exact ⟨List.forall_mem_cons.mpr ⟨sound_new me s _, h⟩, sound_new me s _⟩

theorem linkReceive_sound {env : LinkEnv} {source : σ} {records : List (LinkRecord σ)}
    (hs : SoundTables st) (hok : EventOk st (.linkReceive env source records)) :
    SoundTables (linkReceive env source records st) := by
  unfold linkReceive
  split_ifs with hme
  · exact hs
  obtain hsrc | ⟨hrecords, hwrap⟩ := hok
  · exact absurd hsrc hme
  obtain ⟨hns, hnb⟩ := getOrCreateNeighbour_sound env.now source hs
  unfold Routes.receiving at hrecords hwrap
  generalize getOrCreateNeighbour env.now st.neighbours source = p at hns hnb hrecords hwrap ⊢
  obtain ⟨ns, nb⟩ := p
  dsimp only at hns hnb hrecords hwrap ⊢
  have hstart : Received st.mySubscriber nb { neighbour := nb, subscribers := st.subscribers } :=
    ⟨rfl, rfl, fun x l hx => Or.inl ⟨l, hx, rfl⟩, hnb.scorable.notUs, hnb.scorable.parents,
      fun _ _ => rfl⟩
  have hrec := hstart.foldl hrecords
  have hset : ∀ nb', nb'.Sound st.mySubscriber →
      ∀ m ∈ setNeighbour ns nb', m.Sound st.mySubscriber := by
    intro nb' hnb' m hm
    exact (mem_setNeighbour hm).elim (hns m) fun heq => heq ▸ hnb'
  split_ifs with hc
  · exact hset _ (hrec.sound_changed hnb (hwrap hc))
  · exact hset _ (hrec.sound_unchanged hnb (Bool.eq_false_of_not_eq_true hc))

theorem soundTables_step (hs : SoundTables st) (hok : EventOk st ev) :
    SoundTables (st.step clock ev) := by
  cases ev with
  | linkReceive env source records => exact linkReceive_sound hs hok
  | findBestLink s => exact (findBestLink_answer clock st st s).tables.sound hs
  | updatePathScore n r => exact (updatePathScore_sameTables st n r).sound hs

theorem soundTables_run {events : List (RouteEvent σ)} (hs : SoundTables st)
    (hok : EventsOk clock st events) : SoundTables (events.foldl (Routes.step clock) st) := by
  induction events generalizing st with
  | nil => exact hs
  | cons ev evs ih => exact ih (soundTables_step hs hok.1) hok.2

/-- In every state of a run that meets the condition, `update_path_score` leaves
in the link the length and the cost of the chain of current transmitters, or -1
when there is no such chain. -/
theorem updatePathScore_true (clock : ℕ → ℤ) (me : σ) (subscribers : σ → Subscriber σ)
    (events : List (RouteEvent σ))
    (hok : EventsOk clock { mySubscriber := me, subscribers := subscribers } events) (n r : σ)
    (st : Routes σ)
    (hst : st = events.foldl (Routes.step clock) { mySubscriber := me, subscribers := subscribers })
    (nb : Neighbour σ) (hn : getNeighbour st.neighbours n = some nb) (l : Link σ)
    (hl : nb.root.find r = some l) :
    ∃ nb' l', getNeighbour (st.updatePathScore n r).neighbours n = some nb' ∧
      SameAdverts nb.root nb'.root ∧ nb'.root.find r = some l' ∧
      (l'.hopCount > 0 ↔ ∃ k d, Reaches st.mySubscriber n nb'.root r k d) ∧
      (∀ k d, Reaches st.mySubscriber n nb'.root r k d →
        l'.hopCount = k ∧ l'.pathDropRate = d) ∧
      ((∀ k d, ¬ Reaches st.mySubscriber n nb'.root r k d) → l'.hopCount = -1) := by
  have hsound : SoundTables st := by
    rw [hst]
    exact soundTables_run nofun hok
  obtain ⟨hsound', l', hl', hv⟩ := (hsound nb (getNeighbour_mem hn)).updatePathScore hl
  have hframe := updatePathScore_neighbourFrame st.mySubscriber r nb
  have hsub := getNeighbour_subscriber hn
  have hget : getNeighbour (st.updatePathScore n r).neighbours n =
      some (nb.updatePathScore st.mySubscriber r) := by
    rw [Routes.updatePathScore, hn]
    rw [← hsub] at hn ⊢
    exact getNeighbour_setNeighbour_self hn
  have hscored := hsound'.scorable.memo r l' hl' (hv.trans hframe.pathVersion.symm)
  rw [hframe.subscriber, hsub] at hscored
  refine ⟨_, l', hget, hframe.root.adverts, hl', ?_⟩
  obtain ⟨k, d, hr, hk, hd⟩ | ⟨hnone, hhop⟩ := hscored
  · have hpos := reaches_pos hr
    refine ⟨⟨fun _ => ⟨k, d, hr⟩, fun _ => by omega⟩, fun k' d' hr' => ?_, fun h => ?_⟩
    · obtain ⟨rfl, rfl⟩ := reaches_unique hr hr'
      exact ⟨hk, hd⟩
    · exact absurd hr (h k d)
  · refine ⟨⟨fun h => by omega, ?_⟩, fun k d hr => absurd hr (hnone k d), fun _ => hhop⟩
    rintro ⟨k, d, hr⟩
    exact absurd hr (hnone k d)

end

/-- One interface that is up. -/
def quietEnv (now : ℤ) : LinkEnv :=
  { now := now
    charSigned := false
    interfaceUp := fun _ => true
    interfaceDestination := fun i => ⟨i, i, false⟩
    tickMs := fun _ => 500
    reachableTimeoutMs := fun _ => 2500 }

/-- A record without acknowledgement; interface 0 is named for links from us. -/
def hears (receiver transmitter version dropRate : ℕ) : LinkRecord ℕ :=
  { receiver := receiver
    transmitter := some transmitter
    version := version
    interfaceId := if transmitter = 0 then some 0 else none
    unicast := false
    ack := none
    dropRateByte := some dropRate }

/-- We are 0. Neighbour 1 advertises a chain 0, 1, 2, 3, and its end is scored. -/
def chainEvents : List (RouteEvent ℕ) :=
  [.linkReceive (quietEnv 10) 1 [hears 1 0 0 0, hears 2 1 0 0, hears 3 2 0 0],
    .findBestLink 3, .updatePathScore 1 3]

/-- The state after these events, from an empty neighbour list. -/
def afterEvents (events : List (RouteEvent ℕ)) : Routes ℕ :=
  events.foldl (Routes.step fun _ => 10) { mySubscriber := 0, subscribers := fun _ => {} }

/-- Then the link from 1 to 2 starts to lose packets. -/
def lossyEvents : List (RouteEvent ℕ) :=
  chainEvents ++ [.linkReceive (quietEnv 20) 1 [hears 2 1 1 7]]

theorem updatePathScore_true_chain :
    ∃ nb l nb' l', getNeighbour (afterEvents lossyEvents).neighbours 1 = some nb ∧
      nb.root.find 3 = some l ∧
      getNeighbour ((afterEvents lossyEvents).updatePathScore 1 3).neighbours 1 = some nb' ∧
      nb'.root.find 3 = some l' ∧
      (l'.hopCount > 0 ↔
        ∃ k d, Reaches (afterEvents lossyEvents).mySubscriber 1 nb'.root 3 k d) := by
  have hsome : ((getNeighbour (afterEvents lossyEvents).neighbours 1).bind
      fun nb => nb.root.find 3).isSome := by
    decide +kernel
  obtain ⟨l, hbind⟩ := Option.isSome_iff_exists.mp hsome
  obtain ⟨nb, hn, hl⟩ := Option.bind_eq_some_iff.mp hbind
  have hok : EventsOk (fun _ => 10) { mySubscriber := 0, subscribers := fun _ => {} }
      lossyEvents := by
    decide +kernel
  obtain ⟨nb', l', hn', -, hl', hiff, -⟩ := updatePathScore_true (fun _ => 10) 0 (fun _ => {})
    lossyEvents hok 1 3 (afterEvents lossyEvents) (by rw [afterEvents]) nb hn l hl
  exact ⟨nb, l, nb', l', hn, hl, hn', hl', hiff⟩

/-- Then 3 starts to hear 1 directly. The chain has two links now, but the score
still follows the cached parent 2. -/
theorem updatePathScore_stale_parent :
    ∃ nb, getNeighbour ((afterEvents (chainEvents ++
        [.linkReceive (quietEnv 20) 1 [hears 3 1 1 0]])).updatePathScore 1 3).neighbours 1 =
          some nb ∧ Reaches 0 1 nb.root 3 2 0 ∧ (nb.root.find 3).map Link.hopCount = some 3 := by
  have htable : (getNeighbour ((afterEvents (chainEvents ++
      [.linkReceive (quietEnv 20) 1 [hears 3 1 1 0]])).updatePathScore 1 3).neighbours 1).map
        (fun nb => ((nb.root.find 3).map (fun l => (l.transmitter, l.cost, l.hopCount)),
          (nb.root.find 1).map (fun l => (l.transmitter, l.cost)))) =
      some (some (some 1, 0, 3), some (some 0, 0)) := by
    decide +kernel
  obtain ⟨nb, hn, heq⟩ := Option.map_eq_some_iff.mp htable
  obtain ⟨h₃, h₁⟩ := Prod.mk.inj heq
  obtain ⟨l₃, hl₃, heq₃⟩ := Option.map_eq_some_iff.mp h₃
  obtain ⟨l₁, hl₁, heq₁⟩ := Option.map_eq_some_iff.mp h₁
  simp only [Prod.mk.injEq] at heq₃ heq₁
  refine ⟨nb, hn, ?_, by rw [hl₃, Option.map_some, heq₃.2.2]⟩
  have hdirect : Reaches 0 1 nb.root 1 1 l₁.cost := .direct hl₁ heq₁.1
  have hvia := Reaches.via (by decide) hl₃ heq₃.1 hdirect
  rwa [heq₁.2, heq₃.2.1] at hvia

end ServalMesh.Route
