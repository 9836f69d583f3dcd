import ServalMesh.Route.PathScore

/-!
# Choosing a route

`find_best_link` picks, for one subscriber, the neighbour with the cheapest path.
A neighbour only counts when the transmitter of its link is itself routed through
that neighbour, so the function calls itself for the transmitter first.
-/

namespace ServalMesh.Route

/-- The values that `subscriber->reachable` takes. -/
inductive Reachable where
  | none
  | self
  | broadcast
  | unicast
  | indirect
deriving DecidableEq

/-- A `struct link *`: the neighbour whose table holds the link, and its receiver. -/
abbrev LinkPtr (σ : Type) := σ × σ

/-- `struct link_state`. -/
structure LinkState (σ : Type) where
  nextHop : Option σ := none
  transmitter : Option σ := none
  hopCount : ℤ := 0
  routeVersion : ℤ
  link : Option (LinkPtr σ) := none
  calculating : Bool := false
  nextUpdate : ℤ := 0

/-- The routing fields of `struct subscriber`. -/
structure Subscriber (σ : Type) where
  reachable : Reachable := .none
  nextHop : Option σ := none
  destination : Option Destination := none
  identity : Bool := false
  sendFull : Bool := false
  linkState : Option (LinkState σ) := none

/-- The globals of route_link.c, with the number of clock readings so far. -/
structure Routes (σ : Type) where
  mySubscriber : σ
  neighbours : List (Neighbour σ) := []
  subscribers : σ → Subscriber σ := fun _ => {}
  routeVersion : ℤ := 0
  readings : ℕ := 0

/-- The local variables in which `find_best_link` remembers the best neighbour. -/
structure Best (σ : Type) where
  nextHop : Option σ := none
  transmitter : Option σ := none
  hopCount : ℤ := 99
  dropRate : ℤ := 99
  destination : Option Destination := none
  link : Option (LinkPtr σ) := none

variable {σ : Type} [LinearOrder σ]

/-- The link state of a subscriber as `get_link_state` will return it. -/
def Routes.linkState (st : Routes σ) (s : σ) : LinkState σ :=
  (st.subscribers s).linkState.getD { routeVersion := st.routeVersion - 1 }

def Routes.setSubscriber (st : Routes σ) (s : σ) (sub : Subscriber σ) : Routes σ :=
  { st with subscribers := Function.update st.subscribers s sub }

def Routes.setLinkState (st : Routes σ) (s : σ) (state : LinkState σ) : Routes σ :=
  st.setSubscriber s { st.subscribers s with linkState := some state }

/-- `get_link_state` allocates the state on first use. -/
def Routes.getLinkState (st : Routes σ) (s : σ) : Routes σ := st.setLinkState s (st.linkState s)

def Routes.findLink (st : Routes σ) (n s : σ) : Option (Link σ) :=
  (getNeighbour st.neighbours n).bind fun nb => nb.root.find s

/-- `update_path_score` for the link to `r`, with enough fuel for any table. -/
def Neighbour.updatePathScore (me : σ) (n : Neighbour σ) (r : σ) : Neighbour σ :=
  { n with root := (Route.updatePathScore me n.subscriber n.pathVersion
      (n.root.receivers.length + 1) n.root r).getD n.root }

def Routes.updatePathScore (st : Routes σ) (n r : σ) : Routes σ :=
  match getNeighbour st.neighbours n with
  | none => st
  | some nb =>
    { st with neighbours := setNeighbour st.neighbours (nb.updatePathScore st.mySubscriber r) }

/-- A strictly lower drop rate wins, then a strictly lower hop count. -/
def Best.consider (best : Best σ) (n : σ) (link : Link σ) : Best σ :=
  if link.hopCount > 0 ∧ (link.pathDropRate < best.dropRate ∨
      (link.pathDropRate = best.dropRate ∧ link.hopCount < best.hopCount)) then
    { nextHop := some n
      hopCount := link.hopCount
      dropRate := link.pathDropRate
      transmitter := link.transmitter
      destination := link.destination
      link := some (n, link.receiver) }
  else best

def Routes.scoreNeighbour (st : Routes σ) (best : Best σ) (n s : σ) : Routes σ × Best σ :=
  let st := st.updatePathScore n s
  match st.findLink n s with
  | none => (st, best)
  | some link => (st, best.consider n link)

/-- One turn of the loop over the neighbours; `call` is the recursive call. -/
def tryNeighbour (call : Routes σ → σ → Option (Routes σ × Option (LinkPtr σ))) (now : ℤ) (s : σ)
    (acc : Routes σ × Best σ) (n : σ) : Option (Routes σ × Best σ) :=
  match getNeighbour acc.1.neighbours n with
  | none => some acc
  | some nb =>
    if nb.linkInTimeout < now then some acc
    else
      match (nb.root.find s).bind Link.transmitter with
      | none => some acc
      | some tr =>
        if tr = acc.1.mySubscriber then some (acc.1.scoreNeighbour acc.2 n s)
        else
          match call (acc.1.getLinkState tr) tr with
          | none => none
          | some (st, _) =>
            if (st.linkState tr).nextHop = some n then some (st.scoreNeighbour acc.2 n s)
            else some (st, acc.2)

/-- `set_reachable`, and whether it changed anything. -/
def Routes.setReachable (st : Routes σ) (s : σ) (destination : Option Destination)
    (nextHop : Option σ) : Routes σ × Bool :=
  let reachable : Reachable :=
    match destination, nextHop with
    | some d, _ => if d.unicast then .unicast else .broadcast
    | none, some _ => .indirect
    | none, none => .none
  let sub := st.subscribers s
  if sub.reachable = reachable ∧ sub.nextHop = nextHop ∧ sub.destination = destination then
    (st, false)
  else
    (st.setSubscriber s
      { sub with reachable := reachable, destination := destination, nextHop := nextHop }, true)

/-- The rest of `find_best_link`, after the loop. -/
def Routes.storeBest (st : Routes σ) (now : ℤ) (s : σ) (best : Best σ) :
    Routes σ × Option (LinkPtr σ) :=
  let state := st.linkState s
  let changed := state.transmitter ≠ best.transmitter ∨ state.link ≠ best.link
  let st := st.setLinkState s { state with
    nextHop := best.nextHop
    transmitter := best.transmitter
    hopCount := best.hopCount
    routeVersion := st.routeVersion
    calculating := false
    link := best.link }
  let (st, moved) := st.setReachable s best.destination
    (if best.nextHop = some s then none else best.nextHop)
  let sub := st.subscribers s
  let self := sub.identity = true ∧ sub.reachable = .none
  let st := if self then st.setSubscriber s { sub with reachable := .self } else st
  let st := if changed ∨ moved = true ∨ self then
    st.setLinkState s { st.linkState s with nextUpdate := now + 5 } else st
  (st, if self then none else best.link)

/-- Mark the state of `s`, then read the clock. -/
def Routes.startCalculating (st : Routes σ) (s : σ) : Routes σ :=
  { st.setLinkState s { st.linkState s with calculating := true } with
    readings := st.readings + 1 }

/-- `find_best_link`; `none` when the recursion is cut off. -/
def findBestLink (clock : ℕ → ℤ) : ℕ → Routes σ → σ → Option (Routes σ × Option (LinkPtr σ))
  | 0 => fun _ _ => none
  | fuel + 1 => fun st s =>
    if (st.subscribers s).reachable = .self then some (st, none)
    else
      let st := st.getLinkState s
      let state := st.linkState s
      if state.routeVersion = st.routeVersion then some (st, state.link)
      else if state.calculating then some (st, none)
      else
        let now := clock st.readings
        let st := st.startCalculating s
        match (st.neighbours.map Neighbour.subscriber).foldlM
            (tryNeighbour (findBestLink clock fuel) now s) (st, {}) with
        | none => none
        | some (st, best) => some (st.storeBest now s best)

def Routes.transmitters (st : Routes σ) : List σ := st.neighbours.flatMap (·.root.transmitters)

/-- `find_best_link` from outside the recursion, with enough fuel for any state. -/
def Routes.findBestLink (clock : ℕ → ℤ) (st : Routes σ) (s : σ) :
    Routes σ × Option (LinkPtr σ) :=
  (Route.findBestLink clock (st.transmitters.length + 2) st s).getD (st, none)

section Frames

variable {st st' st'' : Routes σ} {me n s x : σ} {nb nb' : Neighbour σ}

/-- Between two recursions no link of the table is under calculation, and every
score that is not dirty is true. -/
structure Neighbour.Sound (me : σ) (nb : Neighbour σ) : Prop where
  scorable : Scorable me nb.subscriber nb.pathVersion nb.root
  idle : ∀ r l, nb.root.find r = some l → l.calculating = false

/-- What routing may do to a neighbour. -/
structure NeighbourFrame (me : σ) (nb nb' : Neighbour σ) : Prop where
  subscriber : nb'.subscriber = nb.subscriber
  linkInTimeout : nb'.linkInTimeout = nb.linkInTimeout
  pathVersion : nb'.pathVersion = nb.pathVersion
  root : Frame nb.root nb'.root
  sound : nb.Sound me → nb'.Sound me

theorem NeighbourFrame.refl (me : σ) (nb : Neighbour σ) : NeighbourFrame me nb nb :=
  ⟨rfl, rfl, rfl, .refl _, id⟩

instance : Std.Refl (NeighbourFrame me) := ⟨NeighbourFrame.refl me⟩

theorem NeighbourFrame.trans {nb'' : Neighbour σ} (h : NeighbourFrame me nb nb')
    (h' : NeighbourFrame me nb' nb'') : NeighbourFrame me nb nb'' :=
  ⟨h'.subscriber.trans h.subscriber, h'.linkInTimeout.trans h.linkInTimeout,
    h'.pathVersion.trans h.pathVersion, h.root.trans h'.root, fun hs => h'.sound (h.sound hs)⟩

/-- Scoring one link of a sound table. -/
theorem Neighbour.Sound.updatePathScore (h : nb.Sound me) {l : Link σ}
    (hl : nb.root.find x = some l) :
    (nb.updatePathScore me x).Sound me ∧ ∃ l', (nb.updatePathScore me x).root.find x = some l' ∧
      l'.pathVersion = nb.pathVersion := by
  have hstack : CallStack nb.subscriber nb.root x := by
    intro c lc hc hcalc
    rw [h.idle c lc hc] at hcalc
    cases hcalc
  obtain ⟨t', hrun, hres, l', hl', hv⟩ := updatePathScore_spec h.scorable hl (h.idle x l hl) hstack
    (Nat.lt_succ_of_le (idle_card_le nb.root))
  have hroot : (nb.updatePathScore me x).root = t' := by
    rw [Neighbour.updatePathScore, hrun]
    rfl
  refine ⟨⟨hroot ▸ hres.scorable, fun r lr hr => ?_⟩, l', by rw [hroot, hl'], hv⟩
  have hflag := hres.flags r
  rw [hroot] at hr
  rw [hr, Option.map_some] at hflag
  obtain ⟨l₀, hl₀, hc₀⟩ := Option.map_eq_some_iff.mp hflag.symm
  rw [← hc₀, h.idle r l₀ hl₀]

theorem updatePathScore_neighbourFrame (me x : σ) (nb : Neighbour σ) :
    NeighbourFrame me nb (nb.updatePathScore me x) := by
  obtain ⟨t', hrun, hframe⟩ := updatePathScore_frame me nb.subscriber nb.pathVersion x
    (Nat.lt_succ_of_le (idle_card_le nb.root))
  have heq : nb.updatePathScore me x = { nb with root := t' } := by
    rw [Neighbour.updatePathScore, hrun]
    rfl
  refine ⟨by rw [heq], by rw [heq], by rw [heq], by rw [heq]; exact hframe, fun hs => ?_⟩
  cases hl : nb.root.find x with
  | some l => exact (hs.updatePathScore hl).1
  | none =>
    have hsame : nb.updatePathScore me x = nb := by
      rw [Neighbour.updatePathScore, Route.updatePathScore, hl]
      rfl
    rwa [hsame]

/-- The globals that stay fixed while routes are calculated. -/
structure SameTables (st st' : Routes σ) : Prop where
  mySubscriber : st'.mySubscriber = st.mySubscriber
  routeVersion : st'.routeVersion = st.routeVersion
  neighbours : List.Forall₂ (NeighbourFrame st.mySubscriber) st.neighbours st'.neighbours

theorem sameTables_of_eq (hm : st'.mySubscriber = st.mySubscriber)
    (hv : st'.routeVersion = st.routeVersion) (hn : st'.neighbours = st.neighbours) :
    SameTables st st' :=
  ⟨hm, hv, hn ▸ List.forall₂_refl _⟩

theorem forall₂_neighbourFrame_trans {ns ns' ns'' : List (Neighbour σ)}
    (h : List.Forall₂ (NeighbourFrame me) ns ns') (h' : List.Forall₂ (NeighbourFrame me) ns' ns'') :
    List.Forall₂ (NeighbourFrame me) ns ns'' := by
  induction h generalizing ns'' with
  | nil => exact h'
  | cons hr _ ih =>
    cases h' with
    | cons hr' hs' => exact .cons (hr.trans hr') (ih hs')

theorem SameTables.trans (h : SameTables st st') (h' : SameTables st' st'') :
    SameTables st st'' := by
  refine ⟨h'.mySubscriber.trans h.mySubscriber, h'.routeVersion.trans h.routeVersion, ?_⟩
  have hn := h'.neighbours
  rw [h.mySubscriber] at hn
  exact forall₂_neighbourFrame_trans h.neighbours hn

theorem forall₂_getNeighbour {ns ns' : List (Neighbour σ)}
    (h : List.Forall₂ (NeighbourFrame me) ns ns') (n : σ) :
    Option.Rel (NeighbourFrame me) (getNeighbour ns n) (getNeighbour ns' n) := by
  induction h with
  | nil => exact .none
  | cons hr _ ih =>
    simp only [getNeighbour, hr.subscriber]
    split_ifs
    · exact .some hr
    · exact ih

theorem forall₂_setNeighbour {ns : List (Neighbour σ)} (hn : getNeighbour ns n = some nb)
    (h : NeighbourFrame me nb nb') :
    List.Forall₂ (NeighbourFrame me) ns (setNeighbour ns nb') := by
  have hsub := h.subscriber.trans (getNeighbour_subscriber hn)
  induction ns with
  | nil => exact .nil
  | cons m rest ih =>
    rw [getNeighbour] at hn
    rw [setNeighbour, hsub]
    split_ifs at hn ⊢ with he
    · cases hn
      exact .cons h (List.forall₂_refl _)
    · exact .cons (.refl _ _) (ih hn)

theorem updatePathScore_sameTables (st : Routes σ) (n x : σ) :
    SameTables st (st.updatePathScore n x) := by
  unfold Routes.updatePathScore
  cases hn : getNeighbour st.neighbours n with
  | none => exact sameTables_of_eq rfl rfl rfl
  | some nb =>
    exact ⟨rfl, rfl, forall₂_setNeighbour hn (updatePathScore_neighbourFrame st.mySubscriber x nb)⟩

end Frames

end ServalMesh.Route
