import ServalMesh.Route.BestLink

/-!
# A round of route calculation

`find_best_link` recalculates the link state of every subscriber. While a state is
under calculation its next hop is still the one of the previous round, and the
recursion may read it.
-/

namespace ServalMesh.Route

open List Option Function

variable {σ : Type} [LinearOrder σ]

section States

variable {st st' st'' : Routes σ} {s x n t : σ} {state : LinkState σ} {k : ℕ}

open Routes

@[simp] theorem linkState_setLinkState :
    (st.setLinkState s state).linkState x = if x = s then state else st.linkState x := by
  unfold linkState setLinkState setSubscriber
  dsimp only
  split_ifs with hx
  · rw [hx, update_self]
    rfl
  · rw [update_of_ne hx]

@[simp] theorem linkState_getLinkState : (st.getLinkState s).linkState x = st.linkState x := by
  rw [getLinkState, linkState_setLinkState]
  split_ifs with hx
  · rw [hx]
  · rfl

@[simp] theorem reachable_setLinkState :
    ((st.setLinkState s state).subscribers x).reachable = (st.subscribers x).reachable := by
  unfold setLinkState setSubscriber
  dsimp only
  by_cases hx : x = s
  · rw [hx, update_self]
  · rw [update_of_ne hx]

/-- Everything but the named subscriber's record is left alone. -/
structure OnlySubscriber (s : σ) (st st' : Routes σ) : Prop where
  mySubscriber : st'.mySubscriber = st.mySubscriber
  routeVersion : st'.routeVersion = st.routeVersion
  neighbours : st'.neighbours = st.neighbours
  others : ∀ x, x ≠ s → st'.subscribers x = st.subscribers x

omit [LinearOrder σ] in
theorem OnlySubscriber.trans (h : OnlySubscriber s st st') (h' : OnlySubscriber s st' st'') :
    OnlySubscriber s st st'' :=
  ⟨h'.mySubscriber.trans h.mySubscriber, h'.routeVersion.trans h.routeVersion,
    h'.neighbours.trans h.neighbours, fun x hx => (h'.others x hx).trans (h.others x hx)⟩

omit [LinearOrder σ] in
theorem onlySubscriber_refl (s : σ) (st : Routes σ) : OnlySubscriber s st st :=
  ⟨rfl, rfl, rfl, fun _ _ => rfl⟩

theorem onlySubscriber_set (s : σ) (st : Routes σ) (sub : Subscriber σ) :
    OnlySubscriber s st (st.setSubscriber s sub) :=
  ⟨rfl, rfl, rfl, fun _ hx => update_of_ne hx _ _⟩

theorem OnlySubscriber.sameTables (h : OnlySubscriber s st st') : SameTables st st' :=
  sameTables_of_eq h.mySubscriber h.routeVersion h.neighbours

omit [LinearOrder σ] in
theorem OnlySubscriber.linkState (h : OnlySubscriber s st st') (hx : x ≠ s) :
    st'.linkState x = st.linkState x := by
  rw [Routes.linkState, Routes.linkState, h.others x hx, h.routeVersion]

/-- `set_reachable` touches no link state. -/
theorem setReachable_spec (st : Routes σ) (s : σ) (d : Option Destination) (h : Option σ) :
    OnlySubscriber s st (st.setReachable s d h).1 ∧
      (st.setReachable s d h).1.linkState s = st.linkState s := by
  unfold setReachable
  dsimp only
  split_ifs
  · exact ⟨onlySubscriber_refl s st, rfl⟩
  · refine ⟨onlySubscriber_set s st _, ?_⟩
    simp [linkState, setSubscriber]

/-- What `find_best_link` leaves in the link state after its loop. -/
theorem storeBest_spec (st : Routes σ) (now : ℤ) (s : σ) (best : Best σ) :
    OnlySubscriber s st (st.storeBest now s best).1 ∧
      ((st.storeBest now s best).1.linkState s).nextHop = best.nextHop ∧
      ((st.storeBest now s best).1.linkState s).transmitter = best.transmitter ∧
      ((st.storeBest now s best).1.linkState s).routeVersion = st.routeVersion ∧
      ((st.storeBest now s best).1.linkState s).calculating = false := by
  unfold storeBest
  dsimp only
  generalize hst₁ : st.setLinkState s _ = st₁
  have h₁ : OnlySubscriber s st st₁ := hst₁ ▸ onlySubscriber_set s st _
  have hs₁ : (st₁.linkState s).nextHop = best.nextHop ∧
      (st₁.linkState s).transmitter = best.transmitter ∧
      (st₁.linkState s).routeVersion = st.routeVersion ∧
      (st₁.linkState s).calculating = false := by
    rw [← hst₁, linkState_setLinkState, if_pos rfl]
    exact ⟨rfl, rfl, rfl, rfl⟩
  obtain ⟨h₂, hs₂⟩ := setReachable_spec st₁ s best.destination
    (if best.nextHop = some s then none else best.nextHop)
  generalize st₁.setReachable s best.destination _ = p at h₂ hs₂ ⊢
  obtain ⟨st₂, moved⟩ := p
  generalize hst₃ : (if (st₂.subscribers s).identity = true ∧
    (st₂.subscribers s).reachable = Reachable.none then
      st₂.setSubscriber s { st₂.subscribers s with reachable := .self } else st₂) = st₃
  have h₃ : OnlySubscriber s st₂ st₃ ∧ st₃.linkState s = st₂.linkState s := by
    rw [← hst₃]
    split_ifs
    · refine ⟨onlySubscriber_set s st₂ _, ?_⟩
      simp [linkState, setSubscriber]
    · exact ⟨onlySubscriber_refl s st₂, rfl⟩
  have h₁₃ := (h₁.trans h₂).trans h₃.1
  have hs₃ : st₃.linkState s = st₁.linkState s := h₃.2.trans hs₂
  split_ifs
  · refine ⟨h₁₃.trans (onlySubscriber_set s st₃ _), ?_⟩
    rwa [linkState_setLinkState, if_pos rfl, hs₃]
  · rw [hs₃]
    exact ⟨h₁₃, hs₁⟩

/-- The link state belongs to the current round. -/
def Routes.Current (st : Routes σ) (s : σ) : Prop :=
  (st.linkState s).routeVersion = st.routeVersion

/-- Neighbour `n` advertises that `s` hears `t`. -/
def Routes.Edge (st : Routes σ) (n s t : σ) : Prop :=
  (st.findLink n s).bind Link.transmitter = some t

theorem SameTables.edge_iff (h : SameTables st st') : st'.Edge n s t ↔ st.Edge n s t := by
  unfold Edge findLink
  have hrel := forall₂_getNeighbour h.neighbours n
  generalize getNeighbour st.neighbours n = nb, getNeighbour st'.neighbours n = nb' at hrel
  cases hrel with
  | none => rfl
  | some hframe => rw [bind_some, bind_some, hframe.root.adverts.transmitter]

theorem SameTables.edge (h : SameTables st st') (he : st.Edge n s t) : st'.Edge n s t :=
  h.edge_iff.mpr he

/-- A path through the table of neighbour `n`: this many subscribers, each routed
through `n` in the current round, hear one another, and the last hears us. -/
inductive Routed (st : Routes σ) (n : σ) : σ → ℕ → Prop
  | direct {s : σ} : st.Current s → (st.linkState s).nextHop = some n →
      (st.linkState s).transmitter = some st.mySubscriber → st.Edge n s st.mySubscriber →
      Routed st n s 1
  | via {s t : σ} {k : ℕ} : st.Current s → (st.linkState s).nextHop = some n →
      (st.linkState s).transmitter = some t → t ≠ st.mySubscriber → st.Edge n s t →
      Routed st n t k → Routed st n s (k + 1)

/-- What a calculation never undoes. -/
structure Keeps (st st' : Routes σ) : Prop where
  tables : SameTables st st'
  current : ∀ x, st.Current x → st'.Current x ∧
    (st'.linkState x).nextHop = (st.linkState x).nextHop ∧
    (st'.linkState x).transmitter = (st.linkState x).transmitter

/-- What a finished call of `find_best_link` does to the states of others. -/
structure Extends (st st' : Routes σ) : Prop extends Keeps st st' where
  flags : ∀ x, (st'.linkState x).calculating = (st.linkState x).calculating
  versions : ∀ x, st'.Current x ∨ (st'.linkState x).routeVersion = (st.linkState x).routeVersion

theorem Keeps.trans (h : Keeps st st') (h' : Keeps st' st'') : Keeps st st'' := by
  refine ⟨h.tables.trans h'.tables, fun x hx => ?_⟩
  obtain ⟨hc, hn, ht⟩ := h.current x hx
  obtain ⟨hc', hn', ht'⟩ := h'.current x hc
  exact ⟨hc', hn'.trans hn, ht'.trans ht⟩

theorem Extends.trans (h : Extends st st') (h' : Extends st' st'') : Extends st st'' := by
  refine ⟨h.toKeeps.trans h'.toKeeps, fun x => (h'.flags x).trans (h.flags x), fun x => ?_⟩
  rcases h'.versions x with hc | hv'
  · exact .inl hc
  · exact (h.versions x).imp (fun hc => (h'.current x hc).1) hv'.trans

/-- States that agree on tables and link states. -/
theorem extends_of_linkState (h : SameTables st st')
    (hl : ∀ x, st'.linkState x = st.linkState x) : Extends st st' := by
  refine ⟨⟨h, fun x hx => ⟨?_, by rw [hl], by rw [hl]⟩⟩, fun x => by rw [hl], fun x => ?_⟩
  · rwa [Current, hl, h.routeVersion]
  · exact .inr (by rw [hl])

theorem Extends.refl (st : Routes σ) : Extends st st :=
  extends_of_linkState (sameTables_of_eq rfl rfl rfl) fun _ => rfl

theorem getLinkState_extends (st : Routes σ) (s : σ) : Extends st (st.getLinkState s) :=
  extends_of_linkState (sameTables_of_eq rfl rfl rfl) fun _ => linkState_getLinkState

/-- Rewriting the state of a subscriber that is not current. -/
theorem OnlySubscriber.keeps (h : OnlySubscriber s st st') (hs : ¬ st.Current s) :
    Keeps st st' := by
  refine ⟨h.sameTables, fun x hx => ?_⟩
  have hne : x ≠ s := fun he => hs (he ▸ hx)
  have hl := h.linkState hne
  refine ⟨?_, by rw [hl], by rw [hl]⟩
  rwa [Current, hl, h.routeVersion]

theorem Keeps.routed (h : Keeps st st') (hr : Routed st n s k) : Routed st' n s k := by
  induction hr with
  | direct hc hn ht he =>
    obtain ⟨hc', hn', ht'⟩ := h.current _ hc
    rw [← h.tables.mySubscriber] at ht he
    exact .direct hc' (hn'.trans hn) (ht'.trans ht) (h.tables.edge he)
  | via hc hn ht hne he _ ih =>
    obtain ⟨hc', hn', ht'⟩ := h.current _ hc
    rw [← h.tables.mySubscriber] at hne
    exact .via hc' (hn'.trans hn) (ht'.trans ht) hne (h.tables.edge he) ih

theorem routed_spec (h : Routed st n s k) :
    st.Current s ∧
    (st.linkState s).nextHop = some n ∧ ∃ t, (st.linkState s).transmitter = some t := by
  cases h with
  | direct hc hn ht _ => exact ⟨hc, hn, _, ht⟩
  | via hc hn ht _ _ _ => exact ⟨hc, hn, _, ht⟩

end States

/-- The calculation of a round, which started in state `st₀`, so far. -/
structure Consistent (st₀ st : Routes σ) : Prop where
  tables : SameTables st₀ st
  stale : ∀ x, ¬ st.Current x → (st.linkState x).nextHop = (st₀.linkState x).nextHop ∧
    (st.subscribers x).reachable = (st₀.subscribers x).reachable
  flags : ∀ x, (st.linkState x).calculating = true → ¬ st.Current x
  routed : ∀ x n, st.Current x → (st.linkState x).nextHop = some n → ∃ k, Routed st n x k

/-- An advertisement of a neighbour that some clock reading finds alive. -/
def LiveEdge (clock : ℕ → ℤ) (st : Routes σ) (n s t : σ) : Prop :=
  st.Edge n s t ∧ ∃ nb k, getNeighbour st.neighbours n = some nb ∧ clock k ≤ nb.linkInTimeout

/-- One recursive call of `find_best_link`. -/
def Calls (clock : ℕ → ℤ) (st : Routes σ) (s t : σ) : Prop :=
  t ≠ st.mySubscriber ∧ ∃ n, LiveEdge clock st n s t

/-- The condition under which no next hop of the previous round is mistaken for
one of this round: our own subscribers have none, and where the recursion can
come back to `t`, the neighbour that advertises the link is not the old next hop. -/
structure NoStaleHops (clock : ℕ → ℤ) (st : Routes σ) : Prop where
  self : ∀ x, (st.subscribers x).reachable = .self → (st.linkState x).nextHop = none
  cycle : ∀ n s t, LiveEdge clock st n s t → t ≠ st.mySubscriber →
    Relation.ReflTransGen (Calls clock st) t s → (st.linkState t).nextHop ≠ some n


section Calculation

variable {clock : ℕ → ℤ} {st₀ st st' : Routes σ} {U : Finset σ} {s n : σ} {best : Best σ}
  {fuel : ℕ} {now : ℤ} {call : Routes σ → σ → Option (Routes σ × Option (LinkPtr σ))} {t : σ}
  {k : ℕ}

theorem Consistent.of_linkState (h : Consistent st₀ st) (ht : SameTables st st')
    (hl : ∀ x, st'.linkState x = st.linkState x)
    (hr : ∀ x, (st'.subscribers x).reachable = (st.subscribers x).reachable) :
    Consistent st₀ st' := by
  have hext := extends_of_linkState ht hl
  have hcur : ∀ x, st'.Current x ↔ st.Current x := by
    intro x
    rw [Routes.Current, Routes.Current, hl, ht.routeVersion]
  refine ⟨h.tables.trans ht, fun x hx => ?_, fun x hx => ?_, fun x n hx hn => ?_⟩
  · rw [hl, hr]
    exact h.stale x (fun hc => hx ((hcur x).mpr hc))
  · rw [hl] at hx
    exact fun hc => h.flags x hx ((hcur x).mp hc)
  · rw [hl] at hn
    obtain ⟨k, hk⟩ := h.routed x n ((hcur x).mp hx) hn
    exact ⟨k, hext.routed hk⟩

theorem Consistent.getLinkState (h : Consistent st₀ st) (s : σ) :
    Consistent st₀ (st.getLinkState s) :=
  h.of_linkState (getLinkState_extends st s).tables (fun _ => linkState_getLinkState)
    fun _ => reachable_setLinkState

/-- Every state under calculation belongs to a call that led to the one for `s`. -/
def Stack (clock : ℕ → ℤ) (st₀ st : Routes σ) (s : σ) : Prop :=
  ∀ c, (st.linkState c).calculating = true → Relation.TransGen (Calls clock st₀) c s

/-- The same from inside the call for `s`. -/
def InCall (clock : ℕ → ℤ) (st₀ st : Routes σ) (s : σ) : Prop :=
  ∀ c, (st.linkState c).calculating = true → Relation.ReflTransGen (Calls clock st₀) c s

/-- The best neighbour so far is one through which the transmitter is routed. -/
def BestOk (st : Routes σ) (s : σ) (best : Best σ) : Prop :=
  ∀ n, best.nextHop = some n → ∃ t, best.transmitter = some t ∧ st.Edge n s t ∧
    (t = st.mySubscriber ∨ t ≠ st.mySubscriber ∧ ∃ k, Routed st n t k)

theorem BestOk.mono (h : BestOk st s best) (hk : Keeps st st') : BestOk st' s best := by
  intro n hn
  obtain ⟨t, ht, he, hr⟩ := h n hn
  rw [← hk.tables.mySubscriber] at hr
  exact ⟨t, ht, hk.tables.edge he, hr.imp_right (.imp_right (.imp fun _ => hk.routed))⟩

/-- The guarantee of one call of `find_best_link` for `s`. -/
structure Answer (clock : ℕ → ℤ) (st₀ st st' : Routes σ) (s : σ) : Prop extends
    Extends st st' where
  round : NoStaleHops clock st₀ → Consistent st₀ st → Stack clock st₀ st s →
    Consistent st₀ st' ∧ (st'.Current s ∨
      (st'.linkState s).nextHop = (st₀.linkState s).nextHop ∧
        ((st₀.subscribers s).reachable = .self ∨ (st.linkState s).calculating = true))

/-- The subscribers whose state is not under calculation. -/
def free (U : Finset σ) (st : Routes σ) : Finset σ :=
  U.filter fun x => (st.linkState x).calculating = false

/-- Enough fuel for the calls that the advertisements lead to, all for subscribers in `U`. -/
structure Fuelled (U : Finset σ) (fuel : ℕ) (st : Routes σ) : Prop where
  edges : ∀ n a b, st.Edge n a b → b ∈ U
  free : (free U st).card < fuel

theorem Fuelled.mono (h : Fuelled U fuel st) (hext : Extends st st') : Fuelled U fuel st' := by
  refine ⟨fun n a b hab => h.edges n a b (hext.tables.edge_iff.mp hab), ?_⟩
  simpa only [Route.free, hext.flags] using h.free

theorem updatePathScore_linkState (st : Routes σ) (n s x : σ) :
    (st.updatePathScore n s).linkState x = st.linkState x ∧
      (st.updatePathScore n s).subscribers x = st.subscribers x := by
  unfold Routes.updatePathScore
  cases getNeighbour st.neighbours n <;> exact ⟨rfl, rfl⟩

/-- The part of the loop body that is reached when neighbour `n` qualifies. -/
theorem scoreNeighbour_spec (st₀ : Routes σ) (best : Best σ) (he : st.Edge n s t) :
    Extends st (st.scoreNeighbour best n s).1 ∧
      (Consistent st₀ st → (t = st.mySubscriber ∨ t ≠ st.mySubscriber ∧ ∃ k, Routed st n t k) →
        BestOk st s best → Consistent st₀ (st.scoreNeighbour best n s).1 ∧
          BestOk (st.scoreNeighbour best n s).1 s (st.scoreNeighbour best n s).2) := by
  have htab := updatePathScore_sameTables st n s
  have hls := updatePathScore_linkState st n s
  have hext := extends_of_linkState htab fun x => (hls x).1
  have he' := htab.edge he
  obtain ⟨l, hl, htr⟩ := bind_eq_some_iff.mp he'
  unfold Routes.scoreNeighbour
  dsimp only
  rw [hl]
  refine ⟨hext, fun hc ht hb => ⟨?_, ?_⟩⟩
  · exact hc.of_linkState htab (fun x => (hls x).1) fun x => by rw [(hls x).2]
  have hb' : BestOk (st.updatePathScore n s) s best := hb.mono hext.toKeeps
  dsimp only [Best.consider]
  split_ifs
  · rintro m ⟨rfl⟩
    rw [← htab.mySubscriber] at ht
    exact ⟨t, htr, he', ht.imp_right (.imp_right (.imp fun _ => hext.routed))⟩
  · exact hb'

/-- A neighbour that counts routes the transmitter in this round, not in the last. -/
theorem routed_of_answer (hstale : NoStaleHops clock st₀) (hlive : LiveEdge clock st₀ n s t)
    (hne : t ≠ st₀.mySubscriber) (hin : InCall clock st₀ st s) (hc : Consistent st₀ st')
    (hsettled : st'.Current t ∨ (st'.linkState t).nextHop = (st₀.linkState t).nextHop ∧
      ((st₀.subscribers t).reachable = .self ∨ (st.linkState t).calculating = true))
    (hn : (st'.linkState t).nextHop = some n) : ∃ k, Routed st' n t k := by
  obtain hcur | ⟨hold, hself | hcalc⟩ := hsettled
  · exact hc.routed t n hcur hn
  · exact nomatch (hstale.self t hself).symm.trans (hold.symm.trans hn)
  · exact absurd (hold.symm.trans hn) (hstale.cycle n s t hlive hne (hin t hcalc))

/-- What a part of the loop over the neighbours, which returned `result`, does to the round. -/
def Looped (clock : ℕ → ℤ) (st₀ st : Routes σ) (s : σ) (best : Best σ)
    (result : Option (Routes σ × Best σ)) : Prop :=
  ∃ st' best', result = some (st', best') ∧ Extends st st' ∧
    (NoStaleHops clock st₀ → Consistent st₀ st → InCall clock st₀ st s → BestOk st s best →
      Consistent st₀ st' ∧ BestOk st' s best')

theorem looped_refl (s : σ) (best : Best σ) : Looped clock st₀ st s best (some (st, best)) :=
  ⟨st, best, rfl, .refl st, fun _ hc _ hb => ⟨hc, hb⟩⟩

section

variable (hnow : now = clock k) (hcall : ∀ st t, t ∈ U → Fuelled U fuel st →
  ∃ st' p, call st t = some (st', p) ∧ Answer clock st₀ st st' t)
include hnow hcall

theorem tryNeighbour_spec (s n : σ) (best : Best σ) (hU : Fuelled U fuel st) :
    Looped clock st₀ st s best (tryNeighbour call now s (st, best) n) := by
  unfold tryNeighbour
  cases hn : getNeighbour st.neighbours n with
  | none => exact looped_refl s best
  | some nb =>
    dsimp only
    split_ifs with halive
    · exact looped_refl s best
    cases htr : (nb.root.find s).bind Link.transmitter with
    | none => exact looped_refl s best
    | some t =>
      have he : st.Edge n s t := by
        rwa [Routes.Edge, Routes.findLink, hn]
      dsimp only
      split_ifs with hme
      · obtain ⟨hext, hspec⟩ := scoreNeighbour_spec st₀ best he
        exact ⟨_, _, rfl, hext, fun _ hc _ hb => hspec hc (Or.inl hme) hb⟩
      have hext₁ := getLinkState_extends st t
      obtain ⟨st₂, p, hrun, hans⟩ := hcall _ t (hU.edges n s t he) (hU.mono hext₁)
      rw [hrun]
      dsimp only
      have hext₂ := hext₁.trans hans.toExtends
      have hround : NoStaleHops clock st₀ → Consistent st₀ st → InCall clock st₀ st s →
          Consistent st₀ st₂ ∧ ((st₂.linkState t).nextHop = some n → ∃ k, Routed st₂ n t k) := by
        intro hstale hc hin
        have hlive : LiveEdge clock st₀ n s t := by
          refine ⟨hc.tables.edge_iff.mp he, ?_⟩
          have hrel := forall₂_getNeighbour hc.tables.neighbours n
          rw [hn] at hrel
          generalize getNeighbour st₀.neighbours n = nb₀ at hrel
          cases hrel with
          | some hframe =>
            have := hframe.linkInTimeout
            exact ⟨_, k, rfl, by omega⟩
        have hne₀ : t ≠ st₀.mySubscriber := by
          rwa [hc.tables.mySubscriber] at hme
        have hstack : Stack clock st₀ (st.getLinkState t) t := by
          intro c hcalc
          rw [linkState_getLinkState] at hcalc
          exact Relation.TransGen.tail' (hin c hcalc) ⟨hne₀, n, hlive⟩
        obtain ⟨hc₂, hsettled⟩ := hans.round hstale (hc.getLinkState t) hstack
        refine ⟨hc₂, routed_of_answer hstale hlive hne₀ hin hc₂ ?_⟩
        rwa [linkState_getLinkState] at hsettled
      split_ifs with hhop
      · obtain ⟨hext₃, hspec⟩ := scoreNeighbour_spec st₀ best
          (hext₂.tables.edge he)
        refine ⟨_, _, rfl, hext₂.trans hext₃, fun hstale hc hin hb => ?_⟩
        obtain ⟨hc₂, hrouted⟩ := hround hstale hc hin
        refine hspec hc₂ (.inr ⟨?_, hrouted hhop⟩) (hb.mono hext₂.toKeeps)
        rwa [hext₂.tables.mySubscriber]
      · exact ⟨_, _, rfl, hext₂, fun hstale hc hin hb =>
          ⟨(hround hstale hc hin).1, hb.mono hext₂.toKeeps⟩⟩

/-- The loop over the neighbours. -/
theorem foldlM_tryNeighbour_spec (ns : List σ) (hU : Fuelled U fuel st) :
    Looped clock st₀ st s best (ns.foldlM (tryNeighbour call now s) (st, best)) := by
  induction ns generalizing st best with
  | nil => exact looped_refl s best
  | cons n ns ih =>
    obtain ⟨st₁, best₁, hrun₁, hext₁, hspec₁⟩ := tryNeighbour_spec hnow hcall s n best hU
    obtain ⟨st₂, best₂, hrun₂, hext₂, hspec₂⟩ := @ih st₁ best₁ (hU.mono hext₁)
    refine ⟨st₂, best₂, ?_, hext₁.trans hext₂, fun hstale hc hin hb => ?_⟩
    · rwa [foldlM_cons, hrun₁]
    · obtain ⟨hc₁, hb₁⟩ := hspec₁ hstale hc hin hb
      exact hspec₂ hstale hc₁ (fun c hcalc => hin c (hext₁.flags c ▸ hcalc)) hb₁

end

omit [LinearOrder σ] in
/-- Marking `s` as under calculation. -/
theorem free_mark_lt (hs : s ∈ U) (hcalc : (st.linkState s).calculating = false)
    (hs' : (st'.linkState s).calculating = true) (ho : OnlySubscriber s st st') :
    (free U st').card < (free U st).card := by
  apply Finset.card_lt_card
  refine ⟨fun x hx => ?_, fun hsub => ?_⟩
  · rw [free, Finset.mem_filter] at hx ⊢
    have hne : x ≠ s := by
      rintro rfl
      exact nomatch hs'.symm.trans hx.2
    rwa [← ho.linkState hne]
  · have hmem := hsub (Finset.mem_filter.mpr ⟨hs, hcalc⟩)
    rw [free, Finset.mem_filter] at hmem
    exact nomatch hs'.symm.trans hmem.2

theorem Fuelled.mark (h : Fuelled U (fuel + 1) st) (hs : s ∈ U)
    (hcalc : (st.linkState s).calculating = false) (hs' : (st'.linkState s).calculating = true)
    (ho : OnlySubscriber s st st') : Fuelled U fuel st' :=
  ⟨fun n a b hab => h.edges n a b (ho.sameTables.edge_iff.mp hab),
    (free_mark_lt hs hcalc hs' ho).trans_le (Nat.le_of_lt_succ h.free)⟩

section

variable (h : Consistent st₀ st) (hs : ¬ st.Current s) (ho : OnlySubscriber s st st')
include h hs ho

/-- Rewriting the state of `s`, which is not current, keeps the round consistent if the new state of
`s` is. -/
theorem Consistent.only
    (hstale : ¬ st'.Current s → (st'.linkState s).nextHop = (st₀.linkState s).nextHop ∧
      (st'.subscribers s).reachable = (st₀.subscribers s).reachable)
    (hflag : (st'.linkState s).calculating = true → ¬ st'.Current s)
    (hrouted : ∀ n, st'.Current s → (st'.linkState s).nextHop = some n → ∃ k, Routed st' n s k) :
    Consistent st₀ st' := by
  have hother : ∀ x, x ≠ s → (st'.Current x ↔ st.Current x) := by
    intro x hx
    rw [Routes.Current, Routes.Current, ho.linkState hx, ho.routeVersion]
  refine ⟨h.tables.trans ho.sameTables, fun x => ?_, fun x => ?_, fun x n => ?_⟩ <;>
    obtain rfl | hne := eq_or_ne x s
  · exact hstale
  · rw [hother x hne, ho.linkState hne, ho.others x hne]
    exact h.stale x
  · exact hflag
  · rw [hother x hne, ho.linkState hne]
    exact h.flags x
  · exact hrouted n
  · rw [hother x hne, ho.linkState hne]
    exact fun hx hn => (h.routed x n hx hn).imp fun _ => (ho.keeps hs).routed

/-- Entering the calculation of `s` keeps the round consistent. -/
theorem Consistent.mark (hn : (st'.linkState s).nextHop = (st.linkState s).nextHop)
    (hv : (st'.linkState s).routeVersion = (st.linkState s).routeVersion)
    (hr : (st'.subscribers s).reachable = (st.subscribers s).reachable) : Consistent st₀ st' := by
  have hs' : ¬ st'.Current s := by
    rwa [Routes.Current, hv, ho.routeVersion]
  refine h.only hs ho (fun _ => ?_) (fun _ => hs') fun _ hc => absurd hc hs'
  rw [hn, hr]
  exact h.stale s hs

end

/-- Storing the best neighbour makes `s` current. -/
theorem Consistent.store (h : Consistent st₀ st) (hcalc : (st.linkState s).calculating = true)
    (hb : BestOk st s best) (now : ℤ) : Consistent st₀ (st.storeBest now s best).1 := by
  obtain ⟨ho, hn, ht, hv, hc⟩ := storeBest_spec st now s best
  generalize (st.storeBest now s best).1 = st' at ho hn ht hv hc ⊢
  have hs : ¬ st.Current s := h.flags s hcalc
  have hs' : st'.Current s := hv.trans ho.routeVersion.symm
  refine h.only hs ho (absurd hs') (fun hx => ?_) fun n _ hnx => ?_
  · cases hc.symm.trans hx
  rw [hn] at hnx
  obtain ⟨t, htb, hedge, hr⟩ := hb n hnx
  rw [← ho.mySubscriber] at hr
  have hedge' := ho.sameTables.edge hedge
  obtain rfl | ⟨hne, k, hk⟩ := hr
  · exact ⟨1, .direct hs' (hn.trans hnx) (ht.trans htb) hedge'⟩
  · exact ⟨k + 1, .via hs' (hn.trans hnx) (ht.trans htb) hne hedge' ((ho.keeps hs).routed hk)⟩

theorem startCalculating_spec (st : Routes σ) (s : σ) :
    OnlySubscriber s st (st.startCalculating s) ∧
      (st.startCalculating s).linkState s = { st.linkState s with calculating := true } ∧
      ((st.startCalculating s).subscribers s).reachable = (st.subscribers s).reachable := by
  have ho := onlySubscriber_set s st { st.subscribers s with
    linkState := some { st.linkState s with calculating := true } }
  refine ⟨⟨rfl, rfl, rfl, ho.others⟩, ?_, reachable_setLinkState⟩
  exact linkState_setLinkState.trans (if_pos rfl)

/-- `find_best_link` returns, and does to the round what it should. -/
theorem findBestLink_spec (clock : ℕ → ℤ) (st₀ : Routes σ) (hs : s ∈ U) (hU : Fuelled U fuel st) :
    ∃ st' p, findBestLink clock fuel st s = some (st', p) ∧ Answer clock st₀ st st' s := by
  induction fuel generalizing st s with
  | zero => exact absurd hU.free (Nat.not_lt_zero _)
  | succ fuel ih =>
    rw [findBestLink]
    dsimp only
    split_ifs with hself hcur hcalc
    -- our own subscriber keeps what it has
    · refine ⟨st, none, rfl, ⟨.refl st, fun _ hc _ => ⟨hc, ?_⟩⟩⟩
      by_cases hcs : st.Current s
      · exact .inl hcs
      · obtain ⟨hn, hr⟩ := hc.stale s hcs
        exact .inr ⟨hn, .inl (hr.symm.trans hself)⟩
    · exact ⟨_, _, rfl, ⟨getLinkState_extends st s, fun _ hc _ => ⟨hc.getLinkState s, Or.inl hcur⟩⟩⟩
    -- the recursion came back to a state under calculation
    · refine ⟨_, _, rfl, ⟨getLinkState_extends st s, fun _ hc _ => ⟨hc.getLinkState s, ?_⟩⟩⟩
      refine .inr ⟨((hc.getLinkState s).stale s hcur).1, .inr ?_⟩
      rwa [linkState_getLinkState] at hcalc
    rw [linkState_getLinkState] at hcalc
    have hcalc' := Bool.eq_false_of_not_eq_true hcalc
    have hnot : ¬ st.Current s := by
      rwa [linkState_getLinkState] at hcur
    have ho₁ : OnlySubscriber s st (st.getLinkState s) := onlySubscriber_set s st _
    obtain ⟨ho₂, hls, hreach⟩ := startCalculating_spec (st.getLinkState s) s
    generalize (st.getLinkState s).startCalculating s = st₂ at ho₂ hls hreach ⊢
    rw [linkState_getLinkState] at hls
    have ho := ho₁.trans ho₂
    have hmark : (st₂.linkState s).calculating = true := by rw [hls]
    obtain ⟨st₃, best, hrun, hext, hspec⟩ := foldlM_tryNeighbour_spec (s := s) rfl
      (fun _ _ ht hU => ih ht hU) (st₂.neighbours.map Neighbour.subscriber)
      (hU.mark hs hcalc' hmark ho)
    rw [hrun]
    obtain ⟨ho₃, -, -, hv₃, hc₃⟩ := storeBest_spec st₃ (clock (st.getLinkState s).readings) s best
    refine ⟨(st₃.storeBest (clock (st.getLinkState s).readings) s best).1,
      (st₃.storeBest (clock (st.getLinkState s).readings) s best).2, rfl, ⟨⟨⟨?_, ?_⟩, ?_, ?_⟩, ?_⟩⟩
    · exact (ho.sameTables.trans hext.tables).trans ho₃.sameTables
    · intro x hx
      have hne : x ≠ s := fun he => hnot (he ▸ hx)
      obtain ⟨hx₂, hn₂, ht₂⟩ := (ho.keeps hnot).current x hx
      obtain ⟨hx₃, hn₃, ht₃⟩ := hext.current x hx₂
      rw [Routes.Current, ho₃.linkState hne, ho₃.routeVersion]
      exact ⟨hx₃, hn₃.trans hn₂, ht₃.trans ht₂⟩
    · intro x
      by_cases hne : x = s
      · rw [hne, hc₃, hcalc']
      · rw [ho₃.linkState hne, hext.flags, ho.linkState hne]
    · intro x
      by_cases hne : x = s
      · exact .inl (hne ▸ hv₃.trans ho₃.routeVersion.symm)
      · rw [Routes.Current, ho₃.linkState hne, ho₃.routeVersion, ← ho.linkState hne]
        exact hext.versions x
    · intro hstale hc hstack
      have hc₂ : Consistent st₀ st₂ := by
        refine hc.mark hnot ho (by rw [hls]) (by rw [hls]) ?_
        exact hreach.trans reachable_setLinkState
      have hin : InCall clock st₀ st₂ s := by
        intro c hcc
        by_cases hne : c = s
        · rw [hne]
        · rw [ho.linkState hne] at hcc
          exact (hstack c hcc).to_reflTransGen
      obtain ⟨hc₃', hb⟩ := hspec hstale hc₂ hin (by rintro n ⟨⟩)
      have hmark₃ : (st₃.linkState s).calculating = true := (hext.flags s).trans hmark
      exact ⟨hc₃'.store hmark₃ hb _, .inl (hv₃.trans ho₃.routeVersion.symm)⟩

theorem mem_transmitters (h : st.Edge n s t) : t ∈ st.transmitters := by
  obtain ⟨l, hl, htr⟩ := bind_eq_some_iff.mp h
  obtain ⟨nb, hnb, hfind⟩ := bind_eq_some_iff.mp hl
  exact mem_flatMap.mpr ⟨nb, getNeighbour_mem hnb, LinkTree.mem_transmitters hfind htr⟩

/-- The recursion can only go to the transmitters. -/
theorem transmitters_enough (st : Routes σ) (s : σ) :
    s ∈ (s :: st.transmitters).toFinset ∧
      Fuelled (s :: st.transmitters).toFinset (st.transmitters.length + 2) st := by
  refine ⟨by simp, fun n a b hab => by simp [mem_transmitters hab], ?_⟩
  have hcard := (Finset.card_filter_le (s :: st.transmitters).toFinset
    fun x => (st.linkState x).calculating = false).trans (toFinset_card_le _)
  exact Nat.lt_succ_of_le hcard

theorem findBestLink_answer (clock : ℕ → ℤ) (st₀ st : Routes σ) (s : σ) :
    Answer clock st₀ st (st.findBestLink clock s).1 s := by
  obtain ⟨hs, hU⟩ := transmitters_enough st s
  obtain ⟨st', p, hrun, hans⟩ := findBestLink_spec clock st₀ hs hU
  rwa [Routes.findBestLink, hrun]

end Calculation

section Rounds

variable {clock : ℕ → ℤ} {st₀ st st' : Routes σ} {s n : σ} {k k' : ℕ}

def Routes.bumpRouteVersion (st : Routes σ) : Routes σ :=
  { st with routeVersion := st.routeVersion + 1 }

/-- `find_best_link` is called on one subscriber after another. -/
def Routes.findBestLinks (clock : ℕ → ℤ) (st : Routes σ) (calls : List σ) : Routes σ :=
  calls.foldl (fun st s => (st.findBestLink clock s).1) st

/-- Between the calls of a round nothing is under calculation. -/
theorem findBestLinks_spec (hstale : NoStaleHops clock st₀) (calls : List σ)
    (hc : Consistent st₀ st) (hidle : ∀ x, (st.linkState x).calculating = false) :
    Keeps st (st.findBestLinks clock calls) ∧ Consistent st₀ (st.findBestLinks clock calls) ∧
      ∀ x ∈ calls, (st.findBestLinks clock calls).Current x ∨
        ((st.findBestLinks clock calls).linkState x).nextHop = none := by
  induction calls generalizing st with
  | nil => exact ⟨(Extends.refl st).toKeeps, hc, by simp⟩
  | cons s calls ih =>
    have hans := findBestLink_answer clock st₀ st s
    obtain ⟨hc₁, hsettled⟩ := hans.round hstale hc fun c hcalc =>
      nomatch (hidle c).symm.trans hcalc
    obtain ⟨hkeep, hc₂, hcalls⟩ := ih hc₁ fun x => (hans.flags x).trans (hidle x)
    refine ⟨hans.toKeeps.trans hkeep, hc₂, fun x hx => ?_⟩
    rcases mem_cons.mp hx with rfl | hx
    · obtain hcur | ⟨-, hself | hcalc⟩ := hsettled
      · exact .inl (hkeep.current x hcur).1
      · by_cases hcur : ((st.findBestLink clock x).1.findBestLinks clock calls).Current x
        · exact .inl hcur
        · exact .inr ((hc₂.stale x hcur).1.trans (hstale.self x hself))
      · exact nomatch (hidle x).symm.trans hcalc
    · exact hcalls x hx

theorem routed_unique (h : Routed st n s k) (h' : Routed st n s k') : k = k' := by
  induction h generalizing k' with
  | direct _ _ ht _ =>
    cases h' with
    | direct => rfl
    | via _ _ ht' hne => exact absurd (Option.some.inj (ht'.symm.trans ht)) hne
  | via _ _ ht hne _ _ ih =>
    cases h' with
    | direct _ _ ht' => exact absurd (Option.some.inj (ht.symm.trans ht')) hne
    | via _ _ ht' _ _ hr =>
      cases ht.symm.trans ht'
      rw [ih hr]

/-- Following the transmitters from `s` stays in the table of neighbour `n` and
ends at us, without meeting a subscriber twice. -/
structure TransmitterPath (st : Routes σ) (n s : σ) (path : List σ) : Prop where
  starts : path.head? = some s
  nodup : path.Nodup
  notUs : s ≠ st.mySubscriber → st.mySubscriber ∉ path
  hops : ∀ x ∈ path, (st.linkState x).nextHop = some n ∧
    ∃ t, (st.linkState x).transmitter = some t ∧ st.Edge n x t
  steps : path.IsChain fun a b => (st.linkState a).transmitter = some b
  ends : ∃ z, path.getLast? = some z ∧ (st.linkState z).transmitter = some st.mySubscriber

theorem routed_path (h : Routed st n s k) :
    ∃ path, TransmitterPath st n s path ∧ ∀ x ∈ path, ∃ j ≤ k, Routed st n x j := by
  induction h with
  | @direct s hc hn ht he =>
    refine ⟨[s], ⟨rfl, by simp, fun hne => ?_, ?_, by simp, s, rfl, ht⟩, ?_⟩
    · simpa using Ne.symm hne
    · exact forall_mem_singleton.mpr ⟨hn, _, ht, he⟩
    · exact forall_mem_singleton.mpr ⟨1, le_rfl, .direct hc hn ht he⟩
  | @via s t k hc hn ht hne he hr ih =>
    obtain ⟨path, hpath, hrank⟩ := ih
    have hs : Routed st n s (k + 1) := .via hc hn ht hne he hr
    have hnot : s ∉ path := by
      intro hmem
      obtain ⟨j, hj, hsj⟩ := hrank s hmem
      have := routed_unique hs hsj
      omega
    obtain ⟨rest, rfl⟩ : ∃ rest, path = t :: rest := by
      cases path with
      | nil => simpa using hpath.starts
      | cons a rest => exact ⟨rest, by simpa using hpath.starts⟩
    refine ⟨s :: t :: rest, ⟨rfl, nodup_cons.mpr ⟨hnot, hpath.nodup⟩, fun hsne => ?_,
      forall_mem_cons.mpr ⟨⟨hn, t, ht, he⟩, hpath.hops⟩,
      isChain_cons_cons.mpr ⟨ht, hpath.steps⟩, ?_⟩,
      forall_mem_cons.mpr ⟨⟨k + 1, le_rfl, hs⟩, fun x hx => ?_⟩⟩
    · exact not_mem_cons_of_ne_of_not_mem hsne.symm (hpath.notUs hne)
    · rw [getLast?_cons_cons]
      exact hpath.ends
    · obtain ⟨j, hj, hxj⟩ := hrank x hx
      exact ⟨j, by omega, hxj⟩

/-- Between two rounds no route is under calculation, or newer than the round. -/
structure Routes.Between (st : Routes σ) : Prop where
  versions : ∀ x, (st.linkState x).routeVersion ≤ st.routeVersion
  idle : ∀ x, (st.linkState x).calculating = false

theorem Extends.between (h : Extends st st') (hb : st.Between) : st'.Between := by
  refine ⟨fun x => ?_, fun x => (h.flags x).trans (hb.idle x)⟩
  rcases h.versions x with hc | hv
  · exact hc.le
  · rw [hv, h.tables.routeVersion]
    exact hb.versions x

omit [LinearOrder σ] in
theorem Routes.Between.bump (h : st.Between) : st.bumpRouteVersion.Between ∧
    ∀ x, ¬ st.bumpRouteVersion.Current x := by
  have hls : ∀ x,
      (st.bumpRouteVersion.linkState x).routeVersion < st.bumpRouteVersion.routeVersion ∧
      (st.bumpRouteVersion.linkState x).calculating = false := by
    intro x
    have hv := h.versions x
    have hi := h.idle x
    unfold Routes.linkState Routes.bumpRouteVersion at *
    dsimp only
    cases hx : (st.subscribers x).linkState with
    | none => exact ⟨by simp, rfl⟩
    | some state =>
      rw [hx, getD_some] at hv hi
      exact ⟨by rw [getD_some]; omega, hi⟩
  exact ⟨⟨fun x => (hls x).1.le, fun x => (hls x).2⟩, fun x => (hls x).1.ne⟩

/-- The start of a round is consistent. -/
theorem consistent_bump (h : st.Between) : Consistent st.bumpRouteVersion st.bumpRouteVersion :=
  ⟨sameTables_of_eq rfl rfl rfl, fun _ _ => ⟨rfl, rfl⟩, fun x _ => h.bump.2 x,
    fun x _ hx => absurd hx (h.bump.2 x)⟩

/-- A round that starts between two rounds ends between two rounds, whatever is calculated. -/
theorem Routes.Between.round (h : st.Between) (clock : ℕ → ℤ) (calls : List σ) :
    (st.bumpRouteVersion.findBestLinks clock calls).Between := by
  have hb := h.bump.1
  generalize st.bumpRouteVersion = st at hb ⊢
  induction calls generalizing st with
  | nil => exact hb
  | cons s calls ih => exact ih _ ((findBestLink_answer clock st st s).between hb)

/-- After a round without stale next hops, every route agrees with the route of
its transmitter, and leads back to us through the table of its next hop. -/
theorem findBestLinks_agree (clock : ℕ → ℤ) (st : Routes σ)
    (hversion : ∀ x, (st.linkState x).routeVersion ≤ st.routeVersion)
    (hidle : ∀ x, (st.linkState x).calculating = false)
    (hstale : NoStaleHops clock st.bumpRouteVersion) (calls : List σ) (s n : σ) (hs : s ∈ calls)
    (hn : ((st.bumpRouteVersion.findBestLinks clock calls).linkState s).nextHop = some n) :
    ∃ t, ((st.bumpRouteVersion.findBestLinks clock calls).linkState s).transmitter = some t ∧
      (t ≠ st.mySubscriber →
        ((st.bumpRouteVersion.findBestLinks clock calls).linkState t).nextHop = some n) ∧
      ∃ path, TransmitterPath (st.bumpRouteVersion.findBestLinks clock calls) n s path := by
  have hb : st.Between := ⟨hversion, hidle⟩
  obtain ⟨hkeep, hc', hcalls⟩ := findBestLinks_spec hstale calls (consistent_bump hb) hb.bump.1.idle
  have hme : (st.bumpRouteVersion.findBestLinks clock calls).mySubscriber = st.mySubscriber :=
    hkeep.tables.mySubscriber
  generalize st.bumpRouteVersion.findBestLinks clock calls = st' at hn hc' hcalls hme ⊢
  have hcur : st'.Current s := (hcalls s hs).resolve_right fun hnone =>
    nomatch hnone.symm.trans hn
  obtain ⟨k, hr⟩ := hc'.routed s n hcur hn
  obtain ⟨path, hpath, -⟩ := routed_path hr
  cases hr with
  | direct _ _ ht _ => exact ⟨_, ht, fun hne => absurd hme hne, path, hpath⟩
  | via _ _ ht _ _ hr => exact ⟨_, ht, fun _ => (routed_spec hr).2.1, path, hpath⟩

end Rounds

/-- A neighbour that stays up and advertises these receivers, transmitters and
drop rates. -/
def advertising (n : ℕ) (adverts : List (ℕ × ℕ × ℤ)) : Neighbour ℕ :=
  { subscriber := n
    pathVersion := 1#8
    linkInTimeout := 1000
    root := adverts.foldl (fun t a => t.set
      { receiver := a.1
        transmitter := some a.2.1
        dropRate := a.2.2
        pathVersion := 0#8
        linkVersion := 0 }) .nil }

/-- We are 0. Subscriber 4 hears 5 according to neighbour 1, and 5 hears 4
according to neighbour 2; the best path to 5 is through neighbour 3. -/
def crossedRoutes (five : Subscriber ℕ) : Routes ℕ where
  mySubscriber := 0
  neighbours :=
    [advertising 2 [(2, 0, 0), (4, 2, 20), (5, 4, 0)],
      advertising 1 [(1, 0, 0), (5, 1, 10), (4, 5, 0)],
      advertising 3 [(3, 0, 0), (5, 3, 0)]]
  subscribers := Function.update (Function.update (fun _ => {}) 5 five) 0 { reachable := .self }

theorem findBestLinks_agree_crossed :
    ∃ t, (((crossedRoutes {}).bumpRouteVersion.findBestLinks (fun _ => 0) [5, 4]).linkState
        4).transmitter = some t ∧
      (t ≠ 0 → (((crossedRoutes {}).bumpRouteVersion.findBestLinks (fun _ => 0) [5, 4]).linkState
        t).nextHop = some 2) ∧
      ∃ path, TransmitterPath
        ((crossedRoutes {}).bumpRouteVersion.findBestLinks (fun _ => 0) [5, 4]) 2 4 path := by
  have hnone : ∀ x, ((crossedRoutes {}).subscribers x).linkState = none := by
    intro x
    simp only [crossedRoutes, update_apply]
    split_ifs <;> rfl
  have hhop : ∀ x, ((crossedRoutes {}).bumpRouteVersion.linkState x).nextHop = none := by
    intro x
    simp [Routes.linkState, Routes.bumpRouteVersion, hnone]
  refine findBestLinks_agree (fun _ => 0) (crossedRoutes {}) (fun x => ?_) (fun x => ?_)
    ⟨fun x _ => hhop x, fun n s t _ _ _ => by simp [hhop]⟩ [5, 4] 4 2 (by simp) (by decide +kernel)
  · simp [Routes.linkState, hnone]
  · simp [Routes.linkState, hnone]

/-- Subscriber 5 was routed through neighbour 1 in the round before. The call for
5 asks for 4, which takes that old next hop for a new one; then 5 moves to
neighbour 3. -/
theorem findBestLinks_stale_hop :
    let five : LinkState ℕ :=
      { nextHop := some 1
        transmitter := some 1
        hopCount := 2
        routeVersion := 0
        link := some (1, 5) }
    let before := crossedRoutes
      { reachable := .indirect, nextHop := some 1, linkState := some five }
    let st := before.bumpRouteVersion.findBestLinks (fun _ => 0) [5, 4, 0, 1, 2, 3]
    (st.linkState 4).nextHop = some 1 ∧ (st.linkState 4).transmitter = some 5 ∧
      (st.linkState 5).nextHop = some 3 := by
  decide +kernel

end ServalMesh.Route
