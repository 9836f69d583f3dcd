import ServalMesh.Vomp.Calls

/-!
# The call table over whole runs

The states of a call only go up, and a call that was not initiated here is answered by `vomp_pickup`
alone. A state above 7 is taken for a smaller one and for the next local state at the same time.
-/

namespace ServalMesh.Vomp

open Lib Overlay List

variable {α : Type} {c c' : Call α} {calls l l' : List (Call α)} {p q : Phone α}
  {ok : VompHeader → Prop} {f : VompFrame α} {h : VompHeader} {i : ℕ} {draws : List ℕ}
  {room : List ℕ → Prop}

section Moves

/-- One thing that can happen to a call. -/
inductive Moves (ok : VompHeader → Prop) (c : Call α) : Call α → Prop where
  | recorded (session : ℕ) : Moves ok c { c with remoteSession := session }
  | received (f : VompFrame α) (h : VompHeader) (hok : ok h) : Moves ok c (c.received f h).1
  | ringing : Moves ok c (vompRinging c)
  | pickup (now : ℕ) : Moves ok c (vompPickup now c)
  | hangup : Moves ok c (vompUpdateLocalState c vompStateCallended)
  | tick (config : VompConfig) (now : ℕ) : Moves ok c (c.tick config now)
  | schedule : Moves ok c { c with scheduled := true }

/-- A call that is created by a frame or by a command. -/
inductive Created (calls : List (Call α)) (draws : List ℕ) : Call α → Prop where
  | network (remote localSubscriber : α) (session now : ℕ) :
      Created calls draws (vompCreateCall calls remote localSubscriber session now draws)
  | dialled (remote localSubscriber : α) (session now : ℕ) :
      Created calls draws { vompCreateCall calls remote localSubscriber session now draws with
        localState := vompStateCallprep, initiatedCall := true }

theorem transition_spec : ∀ initiated, ∀ r < 7, ∀ s < 16,
    (transition initiated r (r <<< 3 ||| s)).all fun t =>
      r ≤ t.state ∧ t.state ≤ 6 ∧ (s < 8 → s ≤ 6) ∧
        (t.audio = true → t.state = 5 ∨ r = 4 ∧ s = 13) ∧
        (r ≠ 2 → r ≠ 3 → t.state = r ∨ t.state = 6) := by
  decide

/-- What a frame leaves of a call, and to which states it goes. -/
structure Answered (c : Call α) (s : ℕ) (c' : Call α) (audio : Bool) : Prop where
  session : c'.localSession = c.localSession
  scheduled : c'.scheduled = c.scheduled
  initiated : c'.initiatedCall = c.initiatedCall
  pickedUp : c'.pickedUp = c.pickedUp
  states : c'.localState = c.localState ∧ c'.remoteState = c.remoteState ∧ audio = false ∨
    ∃ r t, (r = c.localState ∨ r = 6) ∧
      transition c.initiatedCall r (r <<< 3 ||| s) = some t ∧
      c'.localState = max c.localState t.state ∧ c'.remoteState = s ∧
      (audio = true → t.audio = true)

theorem Call.received_answered (c : Call α) (f : VompFrame α) (h : VompHeader) :
    Answered c (max h.senderState c.remoteState) (c.received f h).1 (c.received f h).2 := by
  unfold received
  extract_lets s r₀ preparing codecs rejected r
  have hr : r = c.localState ∨ r = 6 := by
    simp only [r, r₀]
    split_ifs <;> simp [vompStateCallended]
  cases ht : transition c.initiatedCall r (r <<< 3 ||| s) with
  | none => exact ⟨rfl, rfl, rfl, rfl, .inl ⟨rfl, rfl, rfl⟩⟩
  | some t =>
    refine ⟨?_, ?_, ?_, ?_, .inr ⟨r, t, hr, ht, ?_, ?_, ?_⟩⟩
    all_goals grind

theorem Moves.mono (hc : Moves ok c c') : c'.localSession = c.localSession ∧
    c.localState ≤ c'.localState ∧ c.remoteState ≤ c'.remoteState := by
  cases hc with
  | received f h =>
    obtain ⟨session, -, -, -, states⟩ := c.received_answered f h
    rcases states with ⟨same, same', -⟩ | ⟨r, t, -, -, up, remote, -⟩
    · exact ⟨session, same.ge, same'.ge⟩
    · exact ⟨session, by omega, by omega⟩
  | _ => grind

/-- Both states are states. -/
@[grind =] def Call.Valid (c : Call α) : Prop :=
  1 ≤ c.localState ∧ c.localState ≤ 6 ∧ 1 ≤ c.remoteState ∧ c.remoteState ≤ 6

/-- A call that was not initiated here and is in progress was picked up. -/
@[grind =] def Call.Consented (c : Call α) : Prop :=
  c.localState ≤ 6 ∧ c.remoteState ≤ 15 ∧ (c.initiatedCall = false →
    c.localState ≠ 2 ∧ c.localState ≠ 3 ∧ (c.localState = 5 → c.pickedUp = true))

theorem Moves.valid (hc : Moves (·.senderState < 8) c c') (valid : c.Valid) : c'.Valid := by
  cases hc with
  | received f h hs =>
    obtain ⟨-, -, -, -, states⟩ := c.received_answered f h
    unfold Call.Valid at *
    rcases states with ⟨same, same', -⟩ | ⟨r, t, hr, ht, up, remote, -⟩
    · omega
    · have := transition_spec c.initiatedCall r (by omega) (max h.senderState c.remoteState)
        (by omega)
      grind
  | _ => grind

theorem Moves.consented (hc : Moves (·.senderState < 16) c c') (consent : c.Consented) :
    c'.Consented := by
  cases hc with
  | received f h hs =>
    obtain ⟨-, -, initiated, pickedUp, states⟩ := c.received_answered f h
    unfold Call.Consented at *
    rw [initiated, pickedUp]
    rcases states with ⟨same, same', -⟩ | ⟨r, t, hr, ht, up, remote, -⟩
    · rwa [same, same']
    · have := transition_spec c.initiatedCall r (by omega) (max h.senderState c.remoteState)
        (by omega)
      grind
  | _ => grind

theorem Created.fresh (hc : Created calls draws c) : c.Valid ∧ c.Consented := by
  cases hc <;> simp [Call.Valid, Call.Consented, vompCreateCall, vompStateNocall, vompStateCallprep]

end Moves

section Steps

/-- Calls that keep their places. -/
def Evolves (ok : VompHeader → Prop) (l l' : List (Call α)) : Prop :=
  l'.length = l.length ∧ ∀ (i : ℕ) c', l'[i]? = some c' → ∃ c, l[i]? = some c ∧
    Relation.ReflTransGen (Moves ok) c c'

theorem Evolves.refl (l : List (Call α)) : Evolves ok l l :=
  ⟨rfl, fun _ c hc => ⟨c, hc, .refl⟩⟩

variable {g : Call α → Call α}

theorem Evolves.modify (evolves : Evolves ok l l') (i : ℕ) (hg : ∀ c, g c = c ∨ Moves ok c (g c)) :
    Evolves ok l (l'.modify i g) := by
  refine ⟨by rw [length_modify, evolves.1], fun j c' hc => ?_⟩
  rw [getElem?_modify] at hc
  obtain ⟨x, hx, rfl⟩ := Option.map_eq_some_iff.mp hc
  obtain ⟨c, hc, moved⟩ := evolves.2 j x hx
  refine ⟨c, hc, ?_⟩
  split_ifs
  · rcases hg x with same | move
    · rwa [same]
    · exact moved.tail move
  · exact moved

theorem Evolves.mem (evolves : Evolves ok l l') (hc : c' ∈ l') :
    ∃ c ∈ l, Relation.ReflTransGen (Moves ok) c c' := by
  obtain ⟨i, hi⟩ := mem_iff_getElem?.mp hc
  obtain ⟨c, old, moved⟩ := evolves.2 i c' hi
  exact ⟨c, mem_of_getElem? old, moved⟩

theorem moved_mono (moved : Relation.ReflTransGen (Moves ok) c c') :
    c'.localSession = c.localSession ∧ c.localState ≤ c'.localState ∧
      c.remoteState ≤ c'.remoteState := by
  induction moved with
  | refl => exact ⟨rfl, le_rfl, le_rfl⟩
  | tail _ move ih =>
    have := move.mono
    exact ⟨this.1.trans ih.1, ih.2.1.trans this.2.1, ih.2.2.trans this.2.2⟩

/-- The calls that an event begins with: with a new one, or without one that ended. -/
inductive Starts (room : List ℕ → Prop) (calls : List (Call α)) : List (Call α) → Prop where
  | same : Starts room calls calls
  | created (draws : List ℕ) (hroom : room draws) (c : Call α) (hc : Created calls draws c) :
      Starts room calls (calls ++ [c])
  | destroyed (i : ℕ) (c : Call α) (hc : calls[i]? = some c) :
      Starts room calls (swapRemove calls i)

/-- Every alarm is scheduled, except while its own tick runs. -/
def Phone.Scheduled (p : Phone α) : Prop :=
  ∀ (i : ℕ) c, p.calls[i]? = some c → c.scheduled = true ∨ ∃ checked, p.ticking = some (i, checked)

/-- What an event can do. -/
structure Steps (ok : VompHeader → Prop) (room : List ℕ → Prop) (p q : Phone α) : Prop where
  evolves : ∃ l, Starts room p.calls l ∧ Evolves ok l q.calls
  scheduled : p.Scheduled → q.Scheduled

theorem Phone.Scheduled.concat (scheduled : p.Scheduled) (hc : c.scheduled = true) :
    Scheduled { p with calls := p.calls ++ [c] } := by
  intro j x hx
  rw [getElem?_append] at hx
  split_ifs at hx
  · exact scheduled j x hx
  · exact .inl (mem_singleton.mp (mem_of_getElem? hx) ▸ hc)

theorem scheduled_modify {ticking : Option (ℕ × Bool)}
    (others : ∀ (j : ℕ) c, i ≠ j → l[j]? = some c →
      c.scheduled = true ∨ ∃ checked, ticking = some (j, checked))
    (place : ∀ c, l[i]? = some c →
      (g c).scheduled = true ∨ ∃ checked, ticking = some (i, checked)) :
    Phone.Scheduled ⟨l.modify i g, ticking⟩ := by
  intro j c hc
  rw [getElem?_modify] at hc
  obtain ⟨x, hx, rfl⟩ := Option.map_eq_some_iff.mp hc
  split_ifs with same
  · subst same
    exact place x hx
  · exact others j x same hx

theorem Phone.Scheduled.modify (scheduled : p.Scheduled)
    (hg : ∀ c, c.scheduled = true → (g c).scheduled = true) :
    Scheduled { p with calls := p.calls.modify i g } :=
  scheduled_modify (fun j c _ => scheduled j c) fun c hc => (scheduled i c hc).imp_left (hg c)

theorem Phone.Scheduled.others {checked : Bool} (scheduled : p.Scheduled)
    (ticking : p.ticking = some (i, checked)) (j : ℕ) (c : Call α) (other : i ≠ j)
    (hc : p.calls[j]? = some c) : c.scheduled = true := by
  rcases scheduled j c hc with hs | ⟨_, hj⟩
  · exact hs
  · cases ticking.symm.trans hj
    exact absurd rfl other

/-- A property that what happens to calls keeps, and that new calls have, holds of all calls. -/
theorem Starts.each {P : Call α → Prop} (starts : Starts room calls l) (evolves : Evolves ok l l')
    (created : ∀ {c draws}, Created calls draws c → P c)
    (moves : ∀ {c c'}, Moves ok c c' → P c → P c') (each : ∀ c ∈ calls, P c) : ∀ c ∈ l', P c := by
  have start : ∀ c ∈ l, P c := by
    intro c hc
    cases starts with
    | same => exact each c hc
    | created draws _ x hx =>
      rcases mem_append.mp hc with old | new
      · exact each c old
      · exact mem_singleton.mp new ▸ created hx
    | destroyed i x hx => exact each c ((perm_cons_swapRemove hx).mem_iff.mpr (.tail _ hc))
  intro c' hc
  obtain ⟨c, old, moved⟩ := evolves.mem hc
  clear hc
  induction moved with
  | refl => exact start c old
  | tail _ move ih => exact moves move ih

variable [DecidableEq α]

def VompEvent.header : VompEvent α → Option VompHeader
  | .received f => if f.authcrypted then vompHeader f.payload else none
  | _ => none

/-- The draws of an event that creates a call. -/
def Phone.creates (p : Phone α) : VompEvent α → Option (List ℕ)
  | .received f =>
    match (VompEvent.received f).header with
    | none => none
    | some h =>
      if p.calls.findIdx? (·.isFor f h) = none ∧ h.prepares then some f.draws else none
  | .dial _ _ _ draws =>
    if p.ticking = none ∧ p.calls.length < vompMaxCalls then some draws else none
  | _ => none

theorem vompFindOrCreateCall_starts (found : vompFindOrCreateCall p.calls f h = some (i, l))
    (hroom : p.calls.findIdx? (·.isFor f h) = none → h.prepares → room f.draws) :
    ∃ l₀, Starts room p.calls l₀ ∧ p.calls <+: l₀ ∧ Evolves ok l₀ l ∧
      (p.Scheduled → Phone.Scheduled { p with calls := l }) := by
  unfold vompFindOrCreateCall at found
  split at found
  · cases found
    refine ⟨p.calls, .same, prefix_rfl, .modify (.refl _) _ fun c => ?_,
      fun hp => hp.modify fun c hc => ?_⟩
    · split_ifs
      · exact .inr (.recorded _)
      · exact .inl rfl
    · split_ifs <;> exact hc
  next missing =>
    split_ifs at found with prepares
    cases found
    refine ⟨_, .created f.draws (hroom missing prepares) _ (.network ..), prefix_append ..,
      .refl _, fun hp => hp.concat rfl⟩

theorem vompMdpReceived_starts (hok : ∀ h, (VompEvent.received f).header = some h → ok h)
    (hroom : ∀ draws, p.creates (.received f) = some draws → room draws) :
    ∃ l₀, Starts room p.calls l₀ ∧ p.calls <+: l₀ ∧ Evolves ok l₀ (vompMdpReceived p.calls f).1 ∧
      (p.Scheduled → Phone.Scheduled { p with calls := (vompMdpReceived p.calls f).1 }) := by
  have same : ∃ l₀, Starts room p.calls l₀ ∧ p.calls <+: l₀ ∧ Evolves ok l₀ p.calls ∧
      (p.Scheduled → p.Scheduled) := ⟨p.calls, .same, prefix_rfl, .refl _, id⟩
  unfold vompMdpReceived
  split
  case h_1 => exact same
  rename_i h hh
  split
  case h_1 => exact same
  case h_2 i l found =>
    have header : (VompEvent.received f).header = some h := hh
    obtain ⟨l₀, starts, old, evolves, scheduled⟩ := vompFindOrCreateCall_starts found
      fun missing prepares => hroom _ (by simp [Phone.creates, header, missing, prepares])
    exact ⟨l₀, starts, old, evolves.modify _ fun c => .inr (.received f h (hok h header)),
      fun hp => (scheduled hp).modify fun c hc => (c.received_answered f h).scheduled.trans hc⟩

theorem step_spec (config : VompConfig) (p : Phone α) (event : VompEvent α)
    (hok : ∀ h, event.header = some h → ok h)
    (hroom : ∀ draws, p.creates event = some draws → room draws) :
    Steps ok room p (p.step config event).1 := by
  have same : Steps ok room p p := ⟨⟨p.calls, .same, .refl _⟩, id⟩
  have command : ∀ token g, (∀ c : Call α, Moves ok c (g c)) →
      (∀ c : Call α, c.scheduled = true → (g c).scheduled = true) →
      Steps ok room p (p.command token g) := by
    intro token g hg scheduled
    unfold Phone.command
    split
    · exact same
    · exact ⟨⟨_, .same, .modify (.refl _) _ fun c => .inr (hg c)⟩, fun hp => hp.modify scheduled⟩
  unfold Phone.step
  split
  case h_1 f =>
    obtain ⟨l₀, starts, -, evolves, scheduled⟩ := vompMdpReceived_starts hok hroom
    exact ⟨⟨l₀, starts, evolves⟩, scheduled⟩
  case h_2 =>
    split
    case h_1 i ticking =>
      split_ifs with ended
      · cases hc : p.calls[i]? with
        | none => simp [hc] at ended
        | some c =>
          exact ⟨⟨_, .destroyed i c hc, .modify (.refl _) _ fun c => .inr .schedule⟩,
            fun hp => scheduled_modify (fun j x other hx => .inl (hp.others ticking j x other
              (getElem?_of_swapRemove other hx))) fun _ _ => .inl rfl⟩
      · refine ⟨⟨_, .same, .refl _⟩, fun hp j c hc => ?_⟩
        by_cases same : i = j
        · exact .inr ⟨true, same ▸ rfl⟩
        · exact .inl (hp.others ticking j c same hc)
    case h_2 => exact same
  case h_3 =>
    split
    case h_1 i ticking =>
      exact ⟨⟨_, .same, .modify (.refl _) _ fun c => .inr .schedule⟩,
        fun hp => scheduled_modify (fun j x other hx => .inl (hp.others ticking j x other hx))
          fun _ _ => .inl rfl⟩
    case h_2 => exact same
  case h_4 =>
    split_ifs with busy
    · exact same
    have idle := Option.not_isSome_iff_eq_none.mp busy
    split
    · unfold vompDial
      split_ifs with full
      · exact same
      · exact ⟨⟨_, .created _ (hroom _ (if_pos ⟨idle, not_le.mp full⟩)) _ (.dialled ..), .refl _⟩,
          fun hp => hp.concat rfl⟩
    · exact command _ _ (fun c => .ringing) fun c => by grind
    · exact command _ _ (fun c => .pickup _) fun c => by grind
    · exact command _ _ (fun c => .hangup) fun c => by grind
    · exact same
    · split_ifs
      · exact ⟨⟨_, .same, .modify (.refl _) _ fun c => .inr (.tick ..)⟩,
          fun hp => scheduled_modify (fun j c _ hc => .inl ((hp j c hc).resolve_right
            (by simp [idle]))) fun _ _ => .inr ⟨false, rfl⟩⟩
      · exact same
    · exact same

end Steps

section Consent

variable [DecidableEq α] {event : VompEvent α} {config : VompConfig}

theorem Phone.run_concat (config : VompConfig) (events : List (VompEvent α)) (event : VompEvent α) :
    run config (events ++ [event]) = ((run config events).step config event).1 :=
  foldl_concat ..

omit [DecidableEq α] in
theorem VompEvent.header_senderState (hh : event.header = some h) : h.senderState < 16 := by
  cases event <;> grind [header, vompHeader]

theorem run_consented (config : VompConfig) (events : List (VompEvent α)) :
    ∀ c ∈ (Phone.run config events).calls, c.Consented := by
  induction events using List.reverseRecOn with
  | nil => exact nofun
  | append_singleton events event ih =>
    rw [Phone.run_concat]
    obtain ⟨⟨l, starts, evolves⟩, -⟩ := step_spec config (Phone.run config events) event
      (fun h => event.header_senderState) fun _ _ => trivial
    exact starts.each evolves (fun hc => hc.fresh.2) (fun move => move.consented) ih

/-- Calls are answered by `vomp_pickup`, and audio passes only in a call. -/
structure Phone.Consents (p q : Phone α) (output : VompOutput) : Prop where
  answered : ∀ c ∈ q.calls, c.initiatedCall = false → c.localState = vompStateIncall →
    c.pickedUp = true
  sent : ∀ i, output = .sent i → ∃ c, p.calls[i]? = some c ∧ c.localState = vompStateIncall
  heard : ∀ i, output = .heard i → ∃ c, q.calls[i]? = some c ∧ c.localState = vompStateIncall

/-- The state 13 of a peer is taken for INCALL in both halves while the call rings. -/
def Call.hearsEarly (c : Call α) (f : VompFrame α) (h : VompHeader) : Bool :=
  c.localState = vompStateRingingin ∧ max h.senderState c.remoteState = 13 ∧
    (f.interested && !h.rest.isEmpty && !f.seen)

def Phone.hearsEarly (p : Phone α) : VompEvent α → Bool
  | .received f =>
    match if f.authcrypted then vompHeader f.payload else none with
    | none => false
    | some h =>
      match vompFindOrCreateCall p.calls f h with
      | none => false
      | some (i, calls) => calls[i]?.any (·.hearsEarly f h)
  | _ => false

omit [DecidableEq α] in
theorem Call.received_early (ringing : c.localState = 4)
    (early : max h.senderState c.remoteState = 13) : (c.received f h).1.localState = 4 ∧
      (c.received f h).2 = (f.interested && !h.rest.isEmpty && !f.seen) := by
  cases hi : f.interested with
  | false =>
    simp [received, transition, ringing, early, hi, vompStateCallended, vompStateRingingout]
  | true =>
    have up : (vompUpdateLocalState (vompUpdateRemoteState c 13) 4).localState = 4 := by
      grind
    simp [received, transition, ringing, early, hi, up, vompStateCallended,
      vompStateRingingout]

omit [DecidableEq α] in
/-- Audio is heard in a call, or too early. -/
theorem Call.received_heard (consented : c.Consented) (hs : h.senderState < 16) :
    ((c.received f h).2 = true → (c.received f h).1.localState = 5) ↔ c.hearsEarly f h = false := by
  by_cases early : c.localState = 4 ∧ max h.senderState c.remoteState = 13
  · have := received_early (f := f) early.1 early.2
    simp [hearsEarly, vompStateRingingin, early.1, early.2, this]
  have none : c.hearsEarly f h = false := by
    simp only [hearsEarly, vompStateRingingin]
    grind
  refine iff_of_true (fun heard => ?_) none
  obtain ⟨-, -, -, -, states⟩ := c.received_answered f h
  rcases states with ⟨-, -, silent⟩ | ⟨r, t, hr, ht, up, -, audio⟩
  · grind
  · have := transition_spec c.initiatedCall r (by grind)
      (max h.senderState c.remoteState) (by grind)
    rw [ht] at this
    grind

theorem Phone.step_sent (hi : (p.step config event).2 = .sent i) :
    ∃ c, p.calls[i]? = some c ∧ c.localState = vompStateIncall := by
  unfold step at hi
  grind

theorem Phone.step_heard (before : ∀ c ∈ p.calls, c.Consented) :
    (∀ i, (p.step config event).2 = .heard i → ∃ c, (p.step config event).1.calls[i]? = some c ∧
      c.localState = vompStateIncall) ↔ p.hearsEarly event = false := by
  cases event with
  | received f =>
    cases hh : if f.authcrypted then vompHeader f.payload else none with
    | none => simp [step, vompMdpReceived, hearsEarly, hh]
    | some h =>
      have hs : h.senderState < 16 := @VompEvent.header_senderState _ _ (.received f) hh
      cases found : vompFindOrCreateCall p.calls f h with
      | none => simp [step, vompMdpReceived, hearsEarly, hh, found]
      | some place =>
        obtain ⟨i, l⟩ := place
        cases hc : l[i]? with
        | none => simp [step, vompMdpReceived, hearsEarly, hh, found, hc]
        | some c =>
          obtain ⟨l₀, starts, -, evolves, -⟩ :=
            @vompFindOrCreateCall_starts _ _ _ _ _ _ _ (fun _ => True) _ found fun _ _ => trivial
          have consented : c.Consented := starts.each evolves (fun hc => hc.fresh.2)
            (fun move => move.consented) before c (mem_of_getElem? hc)
          rw [hearsEarly, hh]
          dsimp only
          rw [found]
          dsimp only
          rw [hc, Option.any_some, ← Call.received_heard consented hs]
          cases heard : (c.received f h).2 <;>
            simp [step, vompMdpReceived, hh, found, hc, heard, vompStateIncall]
  | _ =>
    refine iff_of_true (fun i hi => ?_) rfl
    unfold step at hi
    grind

/-- A step keeps the consent unless audio is heard while the call still rings. -/
theorem Phone.run_consents_iff (config : VompConfig) (events : List (VompEvent α))
    (event : VompEvent α) : Phone.Consents (Phone.run config events)
      ((Phone.run config events).step config event).1
      ((Phone.run config events).step config event).2 ↔
        (Phone.run config events).hearsEarly event = false := by
  have after := run_consented config (events ++ [event])
  rw [Phone.run_concat] at after
  rw [← Phone.step_heard (run_consented config events)]
  exact ⟨fun h => h.heard,
    fun h => ⟨fun c hc fresh => ((after c hc).2.2 fresh).2.2, fun i => Phone.step_sent, h⟩⟩

/-- A frame of a peer. -/
def peerFrame (source : ℕ) (state : Byte) (rest : List Byte) : VompFrame ℕ :=
  ⟨true, source, 0, [2, 0, 1, 0, 0, state] ++ rest, 0, true, [8], [source], false⟩

/-- The peer rings, and is heard before the call is answered. -/
theorem Phone.run_rings_heard :
    let p := Phone.run ⟨0, 0, 0⟩
      [.received (peerFrame 7 0x12 [8, 0]), .received (peerFrame 7 3 []), .ringing 7]
    (p.step ⟨0, 0, 0⟩ (.received (peerFrame 7 13 [1]))).2 = .heard 0 ∧
      (p.step ⟨0, 0, 0⟩ (.received (peerFrame 7 13 [1]))).1.calls.map (·.localState) =
        [vompStateRingingin] := by
  decide

end Consent

section Table

/-- The used entries of the table. -/
structure Phone.Kept (p : Phone α) : Prop where
  count : p.calls.length ≤ vompMaxCalls
  sessions : ∀ c ∈ p.calls, c.localSession ≠ 0
  distinct : (p.calls.map (·.localSession)).Nodup
  states : ∀ c ∈ p.calls, c.Valid
  scheduled : p.Scheduled

/-- The states of a call do not decrease. -/
def Phone.Grows (p q : Phone α) : Prop :=
  ∀ c ∈ p.calls, ∀ c' ∈ q.calls, c'.localSession = c.localSession →
    c.localState ≤ c'.localState ∧ c.remoteState ≤ c'.remoteState

/-- There is room for a call, and a number to draw. -/
def Room (calls : List (Call α)) (draws : List ℕ) : Prop :=
  calls.length < vompMaxCalls ∧ (vompGenerateSessionId calls draws).isSome

theorem Created.session (hc : Created calls draws c) (room : Room calls draws) :
    c.localSession ≠ 0 ∧ c.localSession ∉ calls.map (·.localSession) := by
  obtain ⟨session, drawn⟩ := Option.isSome_iff_exists.mp room.2
  have := find?_some drawn
  have same : c.localSession = session := by
    cases hc <;> simp [vompCreateCall, drawn]
  grind

theorem Starts.sessions (starts : Starts (Room calls) calls l) (count : calls.length ≤ vompMaxCalls)
    (sessions : ∀ c ∈ calls, c.localSession ≠ 0) (distinct : (calls.map (·.localSession)).Nodup) :
    l.length ≤ vompMaxCalls ∧ (∀ c ∈ l, c.localSession ≠ 0) ∧
      (l.map (·.localSession)).Nodup ∧
        ∀ c ∈ calls, ∀ x ∈ l, x.localSession = c.localSession → x = c := by
  have inj : ∀ c ∈ calls, ∀ x ∈ calls, x.localSession = c.localSession → x = c :=
    fun c hc x hx => inj_on_of_nodup_map distinct hx hc
  cases starts with
  | same => exact ⟨count, sessions, distinct, inj⟩
  | created draws room c hc =>
    have := hc.session room
    refine ⟨?_, ?_, ?_, ?_⟩
    · rw [length_append, length_singleton]
      exact room.1
    · grind
    · grind
    · grind
  | destroyed i c hc =>
    have perm := perm_cons_swapRemove hc
    have old : ∀ x ∈ swapRemove calls i, x ∈ calls := fun x hx => perm.mem_iff.mpr (.tail _ hx)
    refine ⟨?_, fun x hx => sessions x (old x hx), ?_, fun x hx y hy => inj x hx y (old y hy)⟩
    · have := perm.length_eq
      rw [length_cons] at this
      omega
    · exact (nodup_cons.mp ((perm.map _).nodup_iff.mp distinct)).2

theorem Evolves.sessions (evolves : Evolves ok l l') :
    l'.map (·.localSession) = l.map (·.localSession) := by
  refine List.ext_getElem (by simpa using evolves.1) fun i h h' => ?_
  obtain ⟨c, hc, moved⟩ := evolves.2 i _ (List.getElem?_eq_getElem (by simpa using h))
  have := (List.getElem?_eq_some_iff.mp hc).2
  simp [this, (moved_mono moved).1]

theorem Steps.kept (steps : Steps (·.senderState < 8) (Room p.calls) p q) (kept : p.Kept) :
    q.Kept ∧ p.Grows q := by
  obtain ⟨⟨l, starts, evolves⟩, scheduled⟩ := steps
  obtain ⟨count, sessions, distinct, inj⟩ := starts.sessions kept.count kept.sessions kept.distinct
  refine ⟨⟨evolves.1.trans_le count, fun c' hc => ?_, evolves.sessions ▸ distinct,
    starts.each evolves (fun hc => hc.fresh.1) (fun move => move.valid) kept.states,
    scheduled kept.scheduled⟩, fun c hc c' hc' same => ?_⟩
  · obtain ⟨c, old, moved⟩ := evolves.mem hc
    rw [(moved_mono moved).1]
    exact sessions c old
  · obtain ⟨x, old, moved⟩ := evolves.mem hc'
    have := moved_mono moved
    rw [inj c hc x old (this.1.symm.trans same)] at this
    exact this.2

variable [DecidableEq α]

/-- What a peer and the entropy must do: no state above 7, and room when a call is created. -/
def Phone.expects (p : Phone α) (event : VompEvent α) : Prop :=
  (∀ h, event.header = some h → h.senderState < 8) ∧
    ∀ draws, p.creates event = some draws → Room p.calls draws

variable {config : VompConfig} {events : List (VompEvent α)} {session : ℕ}

theorem Phone.run_kept
    (expected : ∀ before event, before ++ [event] <+: events → (run config before).expects event) :
    (run config events).Kept := by
  induction events using List.reverseRecOn with
  | nil => constructor <;> simp [run, Scheduled]
  | append_singleton events event ih =>
    have before := ih fun b e hb => expected b e (hb.trans (prefix_append ..))
    have now := expected events event prefix_rfl
    rw [run_concat]
    exact ((step_spec config _ event now.1 now.2).kept before).1

/-- The tick of a call that ended runs, and has not checked it. -/
def Phone.Ending (p : Phone α) (i session : ℕ) : Prop :=
  p.ticking = some (i, false) ∧ ∃ c, p.calls[i]? = some c ∧ c.localSession = session ∧
    c.localState = vompStateCallended ∧ c.remoteState = vompStateCallended

theorem Phone.Ending.step {event : VompEvent α} (ending : p.Ending i session)
    (other : event ≠ .tickCheck) (expected : p.expects event)
    (kept : (p.step config event).1.Kept) : (p.step config event).1.Ending i session := by
  obtain ⟨ticking, c, hc, same, ended, ended'⟩ := ending
  have stays : p.Ending i session := ⟨ticking, c, hc, same, ended, ended'⟩
  cases event with
  | received f =>
    obtain ⟨l₀, starts, old, evolves, -⟩ := vompMdpReceived_starts expected.1 expected.2
    have inside := (List.getElem?_eq_some_iff.mp hc).1
    have bound : i < (vompMdpReceived p.calls f).1.length :=
      evolves.1 ▸ inside.trans_le old.length_le
    obtain ⟨x, hx, moved⟩ := evolves.2 i _ (List.getElem?_eq_getElem bound)
    obtain ⟨_, rfl⟩ := old
    rw [getElem?_append_left inside, hc] at hx
    cases hx
    obtain ⟨session, up, up'⟩ := moved_mono moved
    obtain ⟨-, top, -, top'⟩ := kept.states _ (getElem_mem bound)
    exact ⟨ticking, _, getElem?_eq_getElem bound, session.trans same,
      top.antisymm (ended.symm.trans_le up), top'.antisymm (ended'.symm.trans_le up')⟩
  | tickCheck => exact absurd rfl other
  | _ => simpa [Phone.step, ticking] using stays

theorem Phone.step_tick_ending {now : ℕ} (idle : p.ticking = none) (hc : p.calls[i]? = some c)
    (valid : c.Valid) (timedOut : c.timedOut config now = true) :
    (p.step config (.tick i now)).1.Ending i c.localSession := by
  have inside := (List.getElem?_eq_some_iff.mp hc).1
  refine ⟨by simp [step, idle, inside], c.tick config now, ?_, ?_⟩
  · simp [step, idle, inside, (List.getElem?_eq_some_iff.mp hc).2]
  · have : ({ c with scheduled := false }).timedOut config now = true := timedOut
    grind

/-- Whatever the frames between its beginning and its check, a tick removes a call that ended. -/
theorem Phone.Ending.check (ending : p.Ending i session) (kept : p.Kept) :
    ∀ c ∈ (p.step config .tickCheck).1.calls, c.localSession ≠ session := by
  obtain ⟨ticking, c, hc, rfl, ended, ended'⟩ := ending
  intro x hx same
  have destroyed : (p.step config .tickCheck).1.calls = vompCallDestroy p.calls i := by
    simp [Phone.step, ticking, hc, ended, ended']
  rw [destroyed] at hx
  have evolves : Evolves (fun _ => True) (swapRemove p.calls i) (vompCallDestroy p.calls i) :=
    .modify (.refl _) i fun c => .inr .schedule
  have left := mem_map_of_mem hx (f := (·.localSession))
  rw [evolves.sessions, same] at left
  exact (nodup_cons.mp (((perm_cons_swapRemove hc).map _).nodup_iff.mp kept.distinct)).1 left

/-- In a run whose events are all expected the table is kept, the states of a call never go back,
and the check of its tick removes a call that has timed out, whatever comes between the two. -/
theorem Phone.run_table
    (expected : ∀ before event, before ++ [event] <+: events → (run config before).expects event) :
    (run config events).Kept ∧
      (∀ before event, before ++ [event] <+: events →
        (run config before).Grows (run config (before ++ [event]))) ∧
      ∀ before i now between c, before ++ .tick i now :: (between ++ [.tickCheck]) <+: events →
        (∀ event ∈ between, event ≠ .tickCheck) → (run config before).ticking = none →
        (run config before).calls[i]? = some c → c.timedOut config now = true →
        ∀ c' ∈ (run config (before ++ .tick i now :: (between ++ [.tickCheck]))).calls,
          c'.localSession ≠ c.localSession := by
  have kept : ∀ before, before <+: events → (run config before).Kept := fun before hb =>
    run_kept fun b e he => expected b e (he.trans hb)
  refine ⟨kept events prefix_rfl, fun before event hb => ?_, ?_⟩
  · have now := expected before event hb
    rw [run_concat]
    exact ((step_spec config _ event now.1 now.2).kept
      (kept before ((prefix_append ..).trans hb))).2
  intro before i now between c hb other idle hc timedOut
  have ending : ∀ l, before ++ .tick i now :: l <+: events → (∀ event ∈ l, event ≠ .tickCheck) →
      (run config (before ++ .tick i now :: l)).Ending i c.localSession := by
    intro l hl other
    induction l using List.reverseRecOn with
    | nil =>
      have valid := (kept before ((prefix_append ..).trans hl)).states c (mem_of_getElem? hc)
      rw [run_concat]
      exact step_tick_ending idle hc valid timedOut
    | append_singleton l event ih =>
      rw [← cons_append, ← append_assoc] at hl ⊢
      rw [run_concat]
      have before := ih ((prefix_append ..).trans hl) fun e he => other e (by simp [he])
      have after := kept _ hl
      rw [run_concat] at after
      exact before.step (other event (by simp)) (expected _ _ hl) after
  rw [← cons_append, ← append_assoc] at hb ⊢
  rw [run_concat]
  have start := (prefix_append ..).trans hb
  exact (ending between start other).check (kept _ start)

/-- A peer calls, a call is dialled, and the tick of the first one is interrupted by a frame. -/
theorem Phone.run_table_removes :
    let dialled : List (VompEvent ℕ) := [.received (peerFrame 7 0x12 [8, 0]), .dial 0 5 0 [9]]
    let checked := dialled ++ .tick 0 5 :: ([.received (peerFrame 7 1 [])] ++ [.tickCheck])
    (run ⟨1, 1, 1⟩ dialled).calls.map (·.localSession) = [7, 9] ∧ (run ⟨1, 1, 1⟩ checked).Kept ∧
      (run ⟨1, 1, 1⟩ dialled).Grows (run ⟨1, 1, 1⟩ (dialled ++ [.tick 0 5])) ∧
      (∀ c ∈ (run ⟨1, 1, 1⟩ checked).calls, c.localSession ≠ 7) ∧
      (run ⟨1, 1, 1⟩ checked).calls.map (·.localSession) = [9] := by
  intro dialled checked
  have each : ∀ k < 5, (checked[k]?).all fun event => event.header.all (·.senderState < 8) &&
      ((run ⟨1, 1, 1⟩ (checked.take k)).creates event).all fun draws =>
        (run ⟨1, 1, 1⟩ (checked.take k)).calls.length < vompMaxCalls &&
          (vompGenerateSessionId (run ⟨1, 1, 1⟩ (checked.take k)).calls draws).isSome := by
    decide +kernel
  have expected : ∀ before event, before ++ [event] <+: checked →
      (run ⟨1, 1, 1⟩ before).expects event := by
    intro before event hb
    have here : checked.take before.length = before ∧ checked[before.length]? = some event := by
      obtain ⟨rest, hrest⟩ := hb
      simp [← hrest]
    have := each before.length (by simpa [checked, dialled] using hb.length_le)
    simpa [here, expects, Room, Option.all_eq_true] using this
  obtain ⟨kept, grows, removed⟩ := run_table expected
  refine ⟨by decide +kernel, kept, grows _ _ ⟨_, append_assoc ..⟩, ?_, by decide +kernel⟩
  exact removed dialled 0 5 [.received (peerFrame 7 1 [])] _ prefix_rfl (by simp)
    (by decide +kernel)
    rfl (by decide +kernel)

/-- Seventeen peers prepare a call, and one sends a state above 7. -/
theorem Phone.run_overflows :
    (run ⟨1, 1, 1⟩ ((List.range 17).map fun k =>
      .received (peerFrame (k + 1) 0x12 [8, 0]))).calls.length = 17 ∧
    (run ⟨1, 1, 1⟩ [.received (peerFrame 7 0x12 [8, 0]), .received (peerFrame 7 11 [])]).calls.map
      (·.remoteState) = [11] := by
  decide +kernel

end Table

end ServalMesh.Vomp
