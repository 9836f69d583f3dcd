import ServalMesh.Route.Round

/-!
# The calls of a calculation

`find_best_link` calls itself for the transmitters of links. Whatever the tables hold, it ends, and
it has calculated the routes of all subscribers it was called for.
-/

namespace ServalMesh.Route

open List Option

variable {σ : Type} [LinearOrder σ] {clock : ℕ → ℤ} {st st' st₁ : Routes σ} {U : Finset σ}
  {s x t n : σ} {fuel : ℕ} {now : ℤ} {best : Best σ} {link : Option (LinkPtr σ)}

/-- The transmitter that a turn of the loop calls `find_best_link` for. -/
def Routes.callee (st : Routes σ) (now : ℤ) (s n : σ) : Option σ :=
  (getNeighbour st.neighbours n).bind fun nb =>
    if nb.linkInTimeout < now then none
    else ((nb.root.find s).bind Link.transmitter).filter (· ≠ st.mySubscriber)

/-- While `find_best_link` runs for `s` in a state, it is called for `x` in another. -/
inductive Visits (clock : ℕ → ℤ) : ℕ → Routes σ → σ → Routes σ → σ → Prop
  | start (fuel : ℕ) (st : Routes σ) (s : σ) : Visits clock (fuel + 1) st s st s
  | call {fuel : ℕ} {st st₁ st₂ : Routes σ} {s t n x : σ} {before after : List σ} {best : Best σ}
      (hself : (st.subscribers s).reachable ≠ .self) (hcurrent : ¬st.Current s)
      (hidle : (st.linkState s).calculating = false)
      (hloop : st.neighbours.map Neighbour.subscriber = before ++ n :: after)
      (hbefore : before.foldlM (tryNeighbour (findBestLink clock fuel) (clock st.readings) s)
        ((st.getLinkState s).startCalculating s, {}) = some (st₁, best))
      (hcall : st₁.callee (clock st.readings) s n = some t)
      (hvisits : Visits clock fuel (st₁.getLinkState t) t st₂ x) :
      Visits clock (fuel + 1) st s st₂ x

theorem callee_edge (h : st.callee now s n = some t) : st.Edge n s t := by
  obtain ⟨nb, hnb, h⟩ := bind_eq_some_iff.mp h
  split at h
  · exact nomatch h
  · rw [Routes.Edge, Routes.findLink, hnb]
    exact (Option.filter_eq_some_iff.mp h).1

theorem scoreNeighbour_extends : Extends st (st.scoreNeighbour best n s).1 := by
  have hext := extends_of_linkState (updatePathScore_sameTables st n s) fun x =>
    (updatePathScore_linkState st n s x).1
  unfold Routes.scoreNeighbour
  dsimp only
  split <;> exact hext

/-- After the call, the turn only scores the neighbour. -/
theorem tryNeighbour_callee {call : Routes σ → σ → Option (Routes σ × Option (LinkPtr σ))}
    (h : st.callee now s n = some t) (hcall : call (st.getLinkState t) t = some (st₁, link))
    (best : Best σ) :
    ∃ st' best', tryNeighbour call now s (st, best) n = some (st', best') ∧ Extends st₁ st' := by
  obtain ⟨nb, hnb, h⟩ := bind_eq_some_iff.mp h
  split at h
  · exact nomatch h
  rename_i halive
  obtain ⟨htransmitter, hne⟩ := Option.filter_eq_some_iff.mp h
  rw [tryNeighbour, hnb]
  dsimp only
  rw [if_neg halive, htransmitter]
  dsimp only
  rw [if_neg (of_decide_eq_true hne), hcall]
  dsimp only
  split_ifs
  · exact ⟨_, _, rfl, scoreNeighbour_extends⟩
  · exact ⟨_, _, rfl, .refl _⟩

theorem map_storeBest {now : ℤ} (looped : Option (Routes σ × Best σ)) :
    (match looped with
      | none => none
      | some (st₁, best) => some (st₁.storeBest now s best)) =
        looped.map fun looped => looped.1.storeBest now s looped.2 := by
  rcases looped with _ | _ <;> rfl

theorem findBestLink_calculates (hself : (st.subscribers s).reachable ≠ .self)
    (hcurrent : ¬st.Current s) (hidle : (st.linkState s).calculating = false) :
    findBestLink clock (fuel + 1) st s = ((st.neighbours.map Neighbour.subscriber).foldlM
      (tryNeighbour (findBestLink clock fuel) (clock st.readings) s)
      ((st.getLinkState s).startCalculating s, {})).map fun looped =>
        looped.1.storeBest (clock st.readings) s looped.2 := by
  have hstate : (st.getLinkState s).linkState s = st.linkState s := linkState_getLinkState
  have hversion : ¬(st.linkState s).routeVersion = (st.getLinkState s).routeVersion := hcurrent
  rw [findBestLink]
  dsimp only
  rw [if_neg hself, hstate, if_neg hversion, hidle, if_neg Bool.false_ne_true]
  exact map_storeBest _

/-- A subscriber that was visited is current, if it is not our own and was not under calculation
before. -/
theorem Visits.settled {st₂ : Routes σ} (h : Visits clock fuel st s st₂ x) (hs : s ∈ U)
    (hU : Fuelled U fuel st) (hrun : findBestLink clock fuel st s = some (st', link)) :
    (st₂.subscribers x).reachable = .self ∨ (st.linkState x).calculating = true ∨
      st'.Current x := by
  induction h generalizing st' link with
  | start fuel st s =>
    by_cases hself : (st.subscribers s).reachable = .self
    · exact .inl hself
    by_cases hidle : (st.linkState s).calculating = true
    · exact .inr (.inl hidle)
    right
    right
    by_cases hcurrent : st.Current s
    · obtain ⟨_, _, hrun', hans⟩ := findBestLink_spec clock st hs hU
      cases hrun'.symm.trans hrun
      exact (hans.current s hcurrent).1
    rw [findBestLink_calculates hself hcurrent (Bool.eq_false_of_not_eq_true hidle)] at hrun
    obtain ⟨looped, -, hstore⟩ := map_eq_some_iff.mp hrun
    obtain ⟨honly, -, -, hversion, -⟩ := storeBest_spec looped.1 (clock st.readings) s looped.2
    rw [hstore] at honly hversion
    exact hversion.trans honly.routeVersion.symm
  | @call fuel st st₁ st₂ s t n x before after best hself hcurrent hidle hloop hbefore hcall _ ih =>
    obtain ⟨hstart, hstate, -⟩ := startCalculating_spec (st.getLinkState s) s
    rw [findBestLink_calculates hself hcurrent hidle, hloop] at hrun
    generalize (st.getLinkState s).startCalculating s = st₀ at hbefore hrun hstart hstate
    have honly : OnlySubscriber s st st₀ := (onlySubscriber_set s st _).trans hstart
    have hfuel : Fuelled U fuel st₀ := hU.mark hs hidle (by rw [hstate]) honly
    -- a part of the loop, and the call
    have hpart : ∀ {st₁ st₂ best best₂} {ns : List σ}, Extends st₀ st₁ → ns.foldlM
        (tryNeighbour (findBestLink clock fuel) (clock st.readings) s) (st₁, best) =
          some (st₂, best₂) → Extends st₁ st₂ := by
      intro st₁ st₂ best best₂ ns hext hrun
      obtain ⟨_, _, hrun', hext', -⟩ := foldlM_tryNeighbour_spec rfl
        (fun _ _ ht hU => findBestLink_spec clock st₀ ht hU) ns (hfuel.mono hext)
      cases hrun'.symm.trans hrun
      exact hext'
    have hext : Extends st₀ (st₁.getLinkState t) := (hpart (.refl _) hbefore).trans
      (getLinkState_extends st₁ t)
    have hfuel' := hfuel.mono hext
    have ht := hfuel'.edges n s t (callee_edge hcall)
    obtain ⟨st₃, _, hrun₃, hans⟩ := findBestLink_spec clock st₀ ht hfuel'
    obtain ⟨st₄, best₄, hturn, hext₄⟩ := tryNeighbour_callee hcall hrun₃ best
    obtain ⟨⟨st₅, best₅⟩, hlooped, hstore⟩ := map_eq_some_iff.mp hrun
    rw [foldlM_append, hbefore] at hlooped
    change (tryNeighbour _ _ s (st₁, best) n).bind _ = _ at hlooped
    rw [hturn] at hlooped
    have hext₅ := hpart ((hext.trans hans.toExtends).trans hext₄) hlooped
    obtain ⟨hlast, -, -, hversion, -⟩ := storeBest_spec st₅ (clock st.readings) s best₅
    rw [hstore] at hlast hversion
    by_cases hx : x = s
    · rw [hx]
      exact .inr (.inr (hversion.trans hlast.routeVersion.symm))
    rcases ih ht hfuel' hrun₃ with hown | hcalculating | hcurrent
    · exact .inl hown
    · rw [hext.flags, honly.linkState hx] at hcalculating
      exact .inr (.inl hcalculating)
    · have hcurrent₅ := (hext₅.current x (hext₄.current x hcurrent).1).1
      rw [Routes.Current, ← hlast.linkState hx, ← hlast.routeVersion] at hcurrent₅
      exact .inr (.inr hcurrent₅)

/-- In any table at all, `update_path_score` and `find_best_link` end. The flags of states and links
are as before, and the subscribers that were visited are current, unless they are our own or were
under calculation already. -/
theorem findBestLink_ends (clock : ℕ → ℤ) (st : Routes σ) (s : σ) :
    (∀ nb ∈ st.neighbours, ∀ r, (updatePathScore st.mySubscriber nb.subscriber nb.pathVersion
      (nb.root.receivers.length + 1) nb.root r).isSome) ∧
    ∃ st' link, findBestLink clock (st.transmitters.length + 2) st s = some (st', link) ∧
      (∀ x, (st'.linkState x).calculating = (st.linkState x).calculating) ∧
      Forall₂ (fun nb nb' => ∀ r, (nb'.root.find r).map Link.calculating =
        (nb.root.find r).map Link.calculating) st.neighbours st'.neighbours ∧
      ∀ st₁ x, Visits clock (st.transmitters.length + 2) st s st₁ x →
        (st₁.subscribers x).reachable = .self ∨ (st.linkState x).calculating = true ∨
          st'.Current x := by
  constructor
  · intro nb _ r
    obtain ⟨_, hscore, -⟩ := updatePathScore_frame st.mySubscriber nb.subscriber nb.pathVersion r
      (Nat.lt_succ_of_le (idle_card_le nb.root))
    rw [hscore]
    rfl
  · obtain ⟨hs, hU⟩ := transmitters_enough st s
    obtain ⟨st', link, hrun, hans⟩ := findBestLink_spec clock st hs hU
    exact ⟨st', link, hrun, hans.flags, hans.tables.neighbours.imp fun _ _ h => h.root.flags,
      fun _ _ hvisits => hvisits.settled hs hU hrun⟩

/-- Subscriber 1 hears our own subscriber 2, which has no route. -/
theorem findBestLink_own :
    let st : Routes ℕ :=
      { mySubscriber := 0
        neighbours := [advertising 3 [(1, 2, 0)]]
        subscribers := Function.update (fun _ => {}) 2 { reachable := .self } }
    (∃ st₁, Visits (fun _ => 0) (st.transmitters.length + 2) st 1 st₁ 2) ∧
      (findBestLink (fun _ => 0) (st.transmitters.length + 2) st 1).map
        (fun ended => ((ended.1.linkState 2).routeVersion, ended.1.routeVersion)) =
          some (-1, 0) := by
  intro st
  have hloop : st.neighbours.map Neighbour.subscriber = [] ++ 3 :: [] := rfl
  have hcall : ((st.getLinkState 1).startCalculating 1).callee 0 1 3 = some 2 := by decide
  refine ⟨⟨_, .call (by decide) (show ¬(-1 : ℤ) = 0 by decide) rfl hloop rfl hcall (.start ..)⟩, ?_⟩
  decide +kernel

end ServalMesh.Route
