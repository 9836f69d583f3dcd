import ServalMesh.Route.Tables

/-!
# Path scores

`update_path_score` walks a neighbour's table from a link towards the neighbour,
remembering the score of every link it passes. A link is dirty while its path
version differs from the neighbour's.
-/

namespace ServalMesh.Route

open Option

variable {σ : Type} [LinearOrder σ]

/-- Occasional drops are ignored. -/
def Link.cost (l : Link σ) : ℤ := if l.dropRate > 2 then l.dropRate else 0

def LinkTree.getParent (sub : σ) (t : LinkTree σ) (link : Link σ) :
    LinkTree σ × Option (Link σ) :=
  if link.receiver = sub ∨ link.transmitter = none then (t, none)
  else
    match link.parent with
    | some p => (t, t.find p)
    | none =>
      match link.transmitter.bind t.find with
      | none => (t, none)
      | some parent => (t.set { link with parent := some parent.receiver }, some parent)

/-- The last assignments of `update_path_score`. -/
def Link.withScore (l : Link σ) (version : BitVec 8) (score : ℤ × ℤ) : Link σ :=
  { l with
    hopCount := score.1
    pathVersion := version
    pathDropRate := score.2 + l.cost
    calculating := false }

def LinkTree.storeScore (t : LinkTree σ) (r : σ) (version : BitVec 8) (score : ℤ × ℤ) :
    LinkTree σ :=
  match t.find r with
  | none => t
  | some link => t.set (link.withScore version score)

/-- The hop count and drop rate that a link takes over from its parent. -/
def parentScore : Option (Link σ) → ℤ × ℤ
  | some p => if p.hopCount > 0 then (p.hopCount + 1, p.pathDropRate) else (-1, 0)
  | none => (-1, 0)

/-- `update_path_score` in the table of neighbour `sub`, whose path version is
given; `none` when the recursion is cut off. -/
def updatePathScore (me sub : σ) (version : BitVec 8) :
    ℕ → LinkTree σ → σ → Option (LinkTree σ)
  | 0, _, _ => none
  | fuel + 1, t, r =>
    match t.find r with
    | none => some t
    | some link =>
      if link.pathVersion = version then some t
      else if link.calculating then some t
      else
        let link := { link with calculating := true }
        let t := t.set link
        if link.transmitter = some me then
          some (t.storeScore r version (if r = sub then (1, 0) else (-1, 0)))
        else
          let (t, parent) := t.getParent sub link
          match parent with
          | none => some (t.storeScore r version (-1, 0))
          | some p =>
            if p.calculating then some (t.storeScore r version (-1, 0))
            else
              match updatePathScore me sub version fuel t p.receiver with
              | none => none
              | some t => some (t.storeScore r version (parentScore (t.find p.receiver)))

/-- Following the transmitters of the table from `r` ends at the link from us to
the neighbour, after this many links and at this cost. -/
inductive Reaches (me sub : σ) (t : LinkTree σ) : σ → ℕ → ℤ → Prop
  | direct {l : Link σ} : t.find sub = some l → l.transmitter = some me →
      Reaches me sub t sub 1 l.cost
  | via {r p : σ} {l : Link σ} {k : ℕ} {d : ℤ} : r ≠ sub → t.find r = some l →
      l.transmitter = some p → Reaches me sub t p k d → Reaches me sub t r (k + 1) (d + l.cost)

/-- The score stored in a link is the one of its chain of transmitters. -/
def Scored (me sub : σ) (t : LinkTree σ) (r : σ) (l : Link σ) : Prop :=
  (∃ k d, Reaches me sub t r k d ∧ l.hopCount = k ∧ l.pathDropRate = d) ∨
    ((∀ k d, ¬ Reaches me sub t r k d) ∧ l.hopCount = -1)

/-- One link of the chain of transmitters. -/
def Follows (sub : σ) (t : LinkTree σ) (a b : σ) : Prop :=
  ∃ l, t.find a = some l ∧ a ≠ sub ∧ l.transmitter = some b

/-- The part of a link that neighbours advertise; scores are computed from it. -/
def Link.advert (l : Link σ) : σ × Option σ × ℤ := (l.receiver, l.transmitter, l.dropRate)

def SameAdverts (t t' : LinkTree σ) : Prop :=
  ∀ r, (t'.find r).map Link.advert = (t.find r).map Link.advert

section Chains

variable {me sub a b r : σ} {t t' : LinkTree σ} {k k' : ℕ} {d d' : ℤ} {l : Link σ}

section

variable (h : Reaches me sub t r k d)
include h

theorem reaches_pos : 0 < k := by
  cases h <;> omega

theorem reaches_find : ∃ l, t.find r = some l := by
  cases h with
  | direct hl _ => exact ⟨_, hl⟩
  | via _ hl _ _ => exact ⟨_, hl⟩

theorem reaches_unique (h' : Reaches me sub t r k' d') :
    k = k' ∧ d = d' := by
  induction h generalizing k' d' with
  | direct hl _ =>
    cases h' with
    | direct hl' _ =>
      cases hl.symm.trans hl'
      exact ⟨rfl, rfl⟩
    | via hne _ _ _ => exact absurd rfl hne
  | via hne hl htr _ ih =>
    cases h' with
    | direct _ _ => exact absurd rfl hne
    | via _ hl' htr' hp =>
      cases hl.symm.trans hl'
      cases htr.symm.trans htr'
      obtain ⟨rfl, rfl⟩ := ih hp
      exact ⟨rfl, rfl⟩

end

theorem reaches_follow (h : Reaches me sub t a k d) (hf : Follows sub t a b) :
    ∃ k' d', k' < k ∧ Reaches me sub t b k' d' := by
  obtain ⟨l, hl, hne, htr⟩ := hf
  cases h with
  | direct _ _ => exact absurd rfl hne
  | via _ hl' htr' hp =>
    cases hl.symm.trans hl'
    cases htr.symm.trans htr'
    exact ⟨_, _, Nat.lt_succ_self _, hp⟩

theorem reaches_transGen (h : Reaches me sub t a k d)
    (hf : Relation.TransGen (Follows sub t) a b) : ∃ k' d', k' < k ∧ Reaches me sub t b k' d' := by
  induction hf with
  | single hf => exact reaches_follow h hf
  | tail _ hf ih =>
    obtain ⟨k₁, d₁, hlt, h₁⟩ := ih
    obtain ⟨k₂, d₂, hlt₂, h₂⟩ := reaches_follow h₁ hf
    exact ⟨k₂, d₂, by omega, h₂⟩

/-- No link of a cycle ever reaches the neighbour. -/
theorem not_reaches_cycle (hf : Relation.TransGen (Follows sub t) a a) :
    ¬ Reaches me sub t a k d := by
  intro h
  obtain ⟨k', d', hlt, h'⟩ := reaches_transGen h hf
  have := (reaches_unique h h').1
  omega

section

variable (h : SameAdverts t t')
include h

theorem SameAdverts.find (hl : t.find r = some l) :
    ∃ l', t'.find r = some l' ∧ l'.advert = l.advert := by
  have hr := h r
  rw [hl] at hr
  exact map_eq_some_iff.mp hr

theorem SameAdverts.symm : SameAdverts t' t := fun r => (h r).symm

theorem SameAdverts.trans {t'' : LinkTree σ} (h' : SameAdverts t' t'') :
    SameAdverts t t'' := fun r => (h' r).trans (h r)

theorem SameAdverts.find_none (hn : t.find r = none) :
    t'.find r = none := by
  have hr := h r
  rw [hn] at hr
  exact map_eq_none_iff.mp hr

theorem SameAdverts.transmitter (r : σ) :
    (t'.find r).bind Link.transmitter = (t.find r).bind Link.transmitter := by
  have hbind := congrArg (Option.bind · (·.2.1)) (h r)
  simp only [bind_map] at hbind
  exact hbind

end

omit [LinearOrder σ] in
theorem advert_eq {l l' : Link σ} (h : l'.advert = l.advert) :
    l'.receiver = l.receiver ∧ l'.transmitter = l.transmitter ∧ l'.dropRate = l.dropRate := by
  simpa [Link.advert] using h

omit [LinearOrder σ] in
theorem cost_eq {l l' : Link σ} (h : l'.advert = l.advert) : l'.cost = l.cost := by
  rw [Link.cost, Link.cost, (advert_eq h).2.2]

theorem SameAdverts.follows (h : SameAdverts t t') (hf : Follows sub t a b) :
    Follows sub t' a b := by
  obtain ⟨l, hl, hne, htr⟩ := hf
  obtain ⟨l', hl', hadv⟩ := h.find hl
  exact ⟨l', hl', hne, (advert_eq hadv).2.1.trans htr⟩

theorem SameAdverts.reaches (h : SameAdverts t t') (hr : Reaches me sub t r k d) :
    Reaches me sub t' r k d := by
  induction hr with
  | direct hl htr =>
    obtain ⟨l', hl', hadv⟩ := h.find hl
    rw [← cost_eq hadv]
    exact .direct hl' ((advert_eq hadv).2.1.trans htr)
  | via hne hl htr _ ih =>
    obtain ⟨l', hl', hadv⟩ := h.find hl
    rw [← cost_eq hadv]
    exact .via hne hl' ((advert_eq hadv).2.1.trans htr) ih

theorem SameAdverts.scored (h : SameAdverts t t') (hs : Scored me sub t r l) :
    Scored me sub t' r l := by
  obtain ⟨k, d, hr, hk, hd⟩ | ⟨hn, hk⟩ := hs
  · exact .inl ⟨k, d, h.reaches hr, hk, hd⟩
  · exact Or.inr ⟨fun k d hr => hn k d (h.symm.reaches hr), hk⟩

/-- Storing a link with the same advertisement. -/
theorem sameAdverts_set {l' : Link σ} (hl : t.find r = some l) (ha : l'.advert = l.advert) :
    SameAdverts t (t.set l') := by
  have hrec : l'.receiver = r := (advert_eq ha).1.trans (LinkTree.find_receiver hl)
  intro x
  rw [LinkTree.find_set]
  split_ifs with hx
  · rw [hx, hrec, hl]
    simp [ha]
  · rfl

end Chains

section Scoring

variable {me sub r : σ} {v : BitVec 8} {t t' : LinkTree σ} {l l' : Link σ} {fuel : ℕ}
  {t'' : LinkTree σ} {p : σ}

/-- A cached parent is the link of the transmitter that the link has now. -/
def ParentsOk (me : σ) (t : LinkTree σ) : Prop :=
  ∀ r l p, t.find r = some l → l.parent = some p → t.find p ≠ none ∧
    (l.transmitter = none ∨ l.transmitter = some me ∨ l.transmitter = some p)

/-- Every link that is not dirty carries its true score. -/
def MemoOk (me sub : σ) (v : BitVec 8) (t : LinkTree σ) : Prop :=
  ∀ r l, t.find r = some l → l.pathVersion = v → Scored me sub t r l

/-- What `update_path_score` relies on, and keeps. -/
structure Scorable (me sub : σ) (v : BitVec 8) (t : LinkTree σ) : Prop where
  parents : ParentsOk me t
  memo : MemoOk me sub v t
  notUs : t.find me = none

/-- Links whose score is not being calculated further up the recursion. -/
noncomputable def idle (t : LinkTree σ) : Finset σ :=
  open Classical in
  t.receivers.toFinset.filter fun x => ∃ l, t.find x = some l ∧ l.calculating = false

/-- Scores, versions and cached parents apart, a table is as before. -/
structure Frame (t t' : LinkTree σ) : Prop where
  adverts : SameAdverts t t'
  receivers : t'.receivers = t.receivers
  flags : ∀ x, (t'.find x).map Link.calculating = (t.find x).map Link.calculating

/-- The effect of scoring a sound table. -/
structure Rescored (me sub : σ) (v : BitVec 8) (t t' : LinkTree σ) : Prop extends Frame t t' where
  scorable : Scorable me sub v t'

/-- Storing a link with the same advertisement and a sound parent and score. -/
theorem Scorable.set (h : Scorable me sub v t) (hl : t.find r = some l) (ha : l'.advert = l.advert)
    (hp : ∀ p, l'.parent = some p → t.find p ≠ none ∧
      (l'.transmitter = none ∨ l'.transmitter = some me ∨ l'.transmitter = some p))
    (hm : l'.pathVersion = v → Scored me sub t r l') : Scorable me sub v (t.set l') := by
  have hadv := sameAdverts_set hl ha
  have hrec : l'.receiver = r := (advert_eq ha).1.trans (LinkTree.find_receiver hl)
  have hfind : ∀ p, t.find p ≠ none → (t.set l').find p ≠ none := by
    intro p hp hn
    exact hp (hadv.symm.find_none hn)
  refine ⟨?_, ?_, hadv.find_none h.notUs⟩
  · intro x lx p hx hpar
    rw [LinkTree.find_set] at hx
    split_ifs at hx with he
    · cases hx
      exact ⟨hfind p (hp p hpar).1, (hp p hpar).2⟩
    · exact ⟨hfind p (h.parents x lx p hx hpar).1, (h.parents x lx p hx hpar).2⟩
  · intro x lx hx hv
    rw [LinkTree.find_set] at hx
    split_ifs at hx with he
    · cases hx
      rw [he, hrec]
      exact hadv.scored (hm hv)
    · exact hadv.scored (h.memo x lx hx hv)

theorem receivers_set_of_advert (hl : t.find r = some l) (ha : l'.advert = l.advert) :
    (t.set l').receivers = t.receivers := by
  apply LinkTree.receivers_set
  rw [(advert_eq ha).1, LinkTree.find_receiver hl, hl]
  exact some_ne_none _

theorem frame_set (hl : t.find r = some l) (ha : l'.advert = l.advert)
    (hc : l'.calculating = l.calculating) : Frame t (t.set l') := by
  refine ⟨sameAdverts_set hl ha, receivers_set_of_advert hl ha, fun x => ?_⟩
  rw [LinkTree.find_set]
  split_ifs with hx
  · rw [hx, (advert_eq ha).1, LinkTree.find_receiver hl, hl]
    simp [hc]
  · rfl

theorem Frame.refl (t : LinkTree σ) : Frame t t := ⟨fun _ => rfl, rfl, fun _ => rfl⟩

theorem Frame.trans (h : Frame t t') (h' : Frame t' t'') : Frame t t'' :=
  ⟨h.adverts.trans h'.adverts, h'.receivers.trans h.receivers,
    fun x => (h'.flags x).trans (h.flags x)⟩

theorem getParent_frame (hl : t.find r = some l) (sub : σ) :
    ∃ t' parent, t.getParent sub l = (t', parent) ∧ Frame t t' := by
  unfold LinkTree.getParent
  split_ifs with hstop
  · exact ⟨t, none, rfl, .refl t⟩
  cases l.parent with
  | some p => exact ⟨t, t.find p, rfl, .refl t⟩
  | none =>
    cases l.transmitter.bind t.find with
    | none => exact ⟨t, none, rfl, .refl t⟩
    | some parent => exact ⟨_, some parent, rfl, frame_set hl rfl rfl⟩

/-- `get_parent` finds the link of the current transmitter, and only caches. -/
theorem getParent_spec (h : Scorable me sub v t) (hl : t.find r = some l)
    (hv : l.pathVersion ≠ v) (hme : l.transmitter ≠ some me) :
    ∃ t' parent, t.getParent sub l = (t', parent) ∧ Rescored me sub v t t' ∧
      (∀ p, parent = some p → Follows sub t r p.receiver ∧ t.find p.receiver = some p) ∧
      (parent = none → ∀ k d, ¬ Reaches me sub t r k d) := by
  have hrec := LinkTree.find_receiver hl
  have hrefl : Rescored me sub v t t := ⟨.refl t, h⟩
  unfold LinkTree.getParent
  split_ifs with hstop
  · refine ⟨t, none, rfl, hrefl, by simp, ?_⟩
    intro _ k d hr
    cases hr with
    | direct hl' htr =>
      cases hl.symm.trans hl'
      exact hme htr
    | via hne hl' htr _ =>
      cases hl.symm.trans hl'
      rcases hstop with hs | hs
      · exact hne (hrec.symm.trans hs)
      · cases hs.symm.trans htr
  · rw [not_or, hrec] at hstop
    obtain ⟨hsub, hnone⟩ := hstop
    obtain ⟨tr, htr⟩ := ne_none_iff_exists'.mp hnone
    have hfollow : Follows sub t r tr := ⟨l, hl, hsub, htr⟩
    cases hpar : l.parent with
    | some p =>
      obtain ⟨hp, hcase⟩ := h.parents r l p hl hpar
      have hptr : tr = p := by
        rcases hcase with hc | hc | hc
        · exact absurd hc hnone
        · exact absurd hc hme
        · rw [htr] at hc
          exact Option.some.inj hc
      subst hptr
      obtain ⟨pl, hpl⟩ := ne_none_iff_exists'.mp hp
      refine ⟨t, some pl, by simp [hpl], hrefl, ?_, by simp⟩
      rintro q ⟨rfl⟩
      rw [LinkTree.find_receiver hpl]
      exact ⟨hfollow, hpl⟩
    | none =>
      have hbind : l.transmitter.bind t.find = t.find tr := by rw [htr]; rfl
      rw [hbind]
      cases hpl : t.find tr with
      | none =>
        refine ⟨t, none, rfl, hrefl, by simp, ?_⟩
        intro _ k d hr
        obtain ⟨k', d', _, hr'⟩ := reaches_follow hr hfollow
        obtain ⟨l', hl'⟩ := reaches_find hr'
        cases hpl.symm.trans hl'
      | some pl =>
        have hprec := LinkTree.find_receiver hpl
        have hadv : ({ l with parent := some pl.receiver } : Link σ).advert = l.advert := rfl
        refine ⟨_, some pl, rfl, ⟨frame_set hl hadv rfl, ?_⟩, ?_, by simp⟩
        · apply h.set hl hadv
          · rintro p ⟨rfl⟩
            rw [hprec]
            exact ⟨by simp [hpl], .inr (.inr htr)⟩
          · intro hc
            exact absurd hc hv
        · rintro q ⟨rfl⟩
          rw [hprec]
          exact ⟨hfollow, hpl⟩

/-- While `r` is calculated, one link fewer is idle. -/
theorem idle_set_lt (hl : t.find r = some l) (hc : l.calculating = false)
    (ha : l'.advert = l.advert) (hc' : l'.calculating = true) :
    (idle (t.set l')).card < (idle t).card := by
  classical
  have hrec : l'.receiver = r := (advert_eq ha).1.trans (LinkTree.find_receiver hl)
  apply Finset.card_lt_card
  refine ⟨?_, ?_⟩
  · intro x hx
    simp only [idle, Finset.mem_filter, List.mem_toFinset] at hx ⊢
    obtain ⟨hmem, lx, hfind, hcalc⟩ := hx
    rw [receivers_set_of_advert hl ha] at hmem
    rw [LinkTree.find_set] at hfind
    split_ifs at hfind with he
    · cases hfind
      cases hc'.symm.trans hcalc
    · exact ⟨hmem, lx, hfind, hcalc⟩
  · intro hsub
    have hr : r ∈ idle t := by
      simp only [idle, Finset.mem_filter, List.mem_toFinset]
      exact ⟨LinkTree.mem_receivers hl, l, hl, hc⟩
    have hr' := hsub hr
    simp only [idle, Finset.mem_filter, List.mem_toFinset] at hr'
    obtain ⟨_, lx, hfind, hcalc⟩ := hr'
    rw [LinkTree.find_set, if_pos hrec.symm] at hfind
    cases hfind
    cases hc'.symm.trans hcalc

theorem Frame.idle_eq (h : Frame t t') : idle t' = idle t := by
  classical
  ext x
  simp only [idle, Finset.mem_filter, List.mem_toFinset, h.receivers]
  have hx := h.flags x
  cases ht : t.find x <;> cases ht' : t'.find x <;> simp_all

/-- Leaving the calculation that `r` entered in table `t`. -/
theorem storeScore_frame (hl : t.find r = some l) (hc : l.calculating = false)
    (h : Frame (t.set { l with calculating := true }) t') (v : BitVec 8) (score : ℤ × ℤ) :
    Frame t (t'.storeScore r v score) ∧ ∃ l', t'.find r = some l' ∧ l'.advert = l.advert ∧
      t'.storeScore r v score = t'.set (l'.withScore v score) := by
  have hmark : ({ l with calculating := true } : Link σ).advert = l.advert := rfl
  have hadv := (sameAdverts_set hl hmark).trans h.adverts
  obtain ⟨l', hl', ha'⟩ := hadv.find hl
  have heq : t'.storeScore r v score = t'.set (l'.withScore v score) := by
    rw [LinkTree.storeScore, hl']
  have hscore : (l'.withScore v score).advert = l'.advert := rfl
  refine ⟨⟨?_, ?_, fun x => ?_⟩, l', hl', ha', heq⟩
  · rw [heq]
    exact hadv.trans (sameAdverts_set hl' hscore)
  · rw [heq, receivers_set_of_advert hl' hscore, h.receivers, receivers_set_of_advert hl hmark]
  rw [heq, LinkTree.find_set]
  split_ifs with hx
  · rw [hx, (advert_eq hscore).1, LinkTree.find_receiver hl', hl, map_some,
      map_some, hc]
    rfl
  · rw [(advert_eq hscore).1, LinkTree.find_receiver hl'] at hx
    rw [h.flags, LinkTree.find_set_ne]
    rwa [← LinkTree.find_receiver hl] at hx

/-- In any table at all, `update_path_score` returns and only rescores. -/
theorem updatePathScore_frame (me sub : σ) (v : BitVec 8) (r : σ) (hfuel : (idle t).card < fuel) :
    ∃ t', updatePathScore me sub v fuel t r = some t' ∧ Frame t t' := by
  induction fuel generalizing t r with
  | zero => omega
  | succ fuel ih =>
    rw [updatePathScore]
    cases hl : t.find r with
    | none => exact ⟨t, rfl, .refl t⟩
    | some l =>
      dsimp only
      split_ifs with hv hc hme hsub
      · exact ⟨t, rfl, .refl t⟩
      · exact ⟨t, rfl, .refl t⟩
      · have hc' := Bool.eq_false_of_not_eq_true hc
        exact ⟨_, rfl, (storeScore_frame hl hc' (.refl _) v _).1⟩
      · have hc' := Bool.eq_false_of_not_eq_true hc
        exact ⟨_, rfl, (storeScore_frame hl hc' (.refl _) v _).1⟩
      have hc' := Bool.eq_false_of_not_eq_true hc
      have hl₁ : (t.set { l with calculating := true }).find r =
          some { l with calculating := true } := by
        rw [LinkTree.find_set, if_pos (LinkTree.find_receiver hl).symm]
      obtain ⟨t₂, parent, hget, hf₂⟩ := getParent_frame hl₁ sub
      rw [hget]
      cases parent with
      | none => exact ⟨_, rfl, (storeScore_frame hl hc' hf₂ v _).1⟩
      | some p =>
        dsimp only
        split_ifs with hcalc
        · exact ⟨_, rfl, (storeScore_frame hl hc' hf₂ v _).1⟩
        have hmark : ({ l with calculating := true } : Link σ).advert = l.advert := rfl
        have hlt : (idle t₂).card < fuel := by
          have := idle_set_lt hl hc' hmark rfl
          rw [hf₂.idle_eq]
          omega
        obtain ⟨t₃, hrun, hf₃⟩ := ih p.receiver hlt
        rw [hrun]
        exact ⟨_, rfl, (storeScore_frame hl hc' (hf₂.trans hf₃) v _).1⟩

theorem Rescored.refl (h : Scorable me sub v t) : Rescored me sub v t t := ⟨.refl t, h⟩

theorem Rescored.trans (h : Rescored me sub v t t') (h' : Rescored me sub v t' t'') :
    Rescored me sub v t t'' :=
  ⟨h.toFrame.trans h'.toFrame, h'.scorable⟩

/-- Entering the calculation of a dirty link. -/
theorem Scorable.mark (h : Scorable me sub v t) (hl : t.find r = some l) (hv : l.pathVersion ≠ v) :
    Scorable me sub v (t.set { l with calculating := true }) :=
  h.set hl rfl (fun p hp => h.parents r l p hl hp) (fun hc => absurd hc hv)

/-- Leaving the calculation with a true score. -/
theorem storeScore_rescored (hl : t.find r = some l) (hc : l.calculating = false)
    (h : Rescored me sub v (t.set { l with calculating := true }) t') (score : ℤ × ℤ)
    (hs : ∀ l', t'.find r = some l' → l'.advert = l.advert →
      Scored me sub t' r (l'.withScore v score)) :
    Rescored me sub v t (t'.storeScore r v score) ∧
      ∃ l', (t'.storeScore r v score).find r = some l' ∧ l'.pathVersion = v := by
  obtain ⟨hframe, l', hl', ha', heq⟩ := storeScore_frame hl hc h.toFrame v score
  have hscore : (l'.withScore v score).advert = l'.advert := rfl
  refine ⟨⟨hframe, ?_⟩, l'.withScore v score, ?_, rfl⟩
  · rw [heq]
    exact h.scorable.set hl' hscore (fun p hp => h.scorable.parents r l' p hl' hp)
      (fun _ => hs l' hl' ha')
  · rw [heq, LinkTree.find_set, if_pos]
    exact (LinkTree.find_receiver hl').symm

/-- The score written for a link that does not reach the neighbour. -/
theorem scored_none (hn : ∀ k d, ¬ Reaches me sub t r k d) :
    Scored me sub t r (l.withScore v (-1, 0)) :=
  .inr ⟨hn, rfl⟩

/-- The score written for a link whose parent carries its true score. -/
theorem scored_parentScore {lp : Link σ} (hl : t.find r = some l) (hf : Follows sub t r p)
    (hp : Scored me sub t p lp) : Scored me sub t r (l.withScore v (parentScore (some lp))) := by
  obtain ⟨l₀, hl₀, hne, htr⟩ := hf
  cases hl.symm.trans hl₀
  obtain ⟨k, d, hr, hk, hd⟩ | ⟨hn, hk⟩ := hp
  · have hpos : lp.hopCount > 0 := by
      have := reaches_pos hr
      omega
    rw [parentScore, if_pos hpos]
    refine .inl ⟨k + 1, d + l.cost, .via hne hl htr hr, ?_, ?_⟩
    · rw [Link.withScore, hk, Nat.cast_add, Nat.cast_one]
    · rw [Link.withScore, hd]
  · rw [parentScore, if_neg (by omega)]
    refine scored_none fun k d hr => ?_
    obtain ⟨k', d', _, hr'⟩ := reaches_follow hr ⟨l, hl, hne, htr⟩
    exact hn k' d' hr'

/-- Every link under calculation leads to `r`, the link to be calculated next. -/
def CallStack (sub : σ) (t : LinkTree σ) (r : σ) : Prop :=
  ∀ c l, t.find c = some l → l.calculating = true → Relation.TransGen (Follows sub t) c r

/-- Following the parent of `r` into its own calculation. -/
theorem CallStack.push (h : CallStack sub t r) (hadv : SameAdverts t t')
    (hflags : ∀ x, x ≠ r → (t'.find x).map Link.calculating = (t.find x).map Link.calculating)
    (hf : Follows sub t r p) : CallStack sub t' p := by
  have hrp : Follows sub t' r p := hadv.follows hf
  intro c lc hlc hcalc
  by_cases hcr : c = r
  · rw [hcr]
    exact .single hrp
  have hfl := hflags c hcr
  rw [hlc, map_some, hcalc] at hfl
  obtain ⟨lc', hlc', hcalc'⟩ := map_eq_some_iff.mp hfl.symm
  have hcr' : Relation.TransGen (Follows sub t') c r :=
    (h c lc' hlc' hcalc').lift id fun _ _ => hadv.follows
  exact hcr'.tail hrp

/-- `update_path_score` terminates, changes no advertisement, and leaves the true
score in the link that it was called for. -/
theorem updatePathScore_spec (h : Scorable me sub v t) (hl : t.find r = some l)
    (hc : l.calculating = false) (hstack : CallStack sub t r) (hfuel : (idle t).card < fuel) :
    ∃ t', updatePathScore me sub v fuel t r = some t' ∧ Rescored me sub v t t' ∧
      ∃ l', t'.find r = some l' ∧ l'.pathVersion = v := by
  induction fuel generalizing t r l with
  | zero => omega
  | succ fuel ih =>
    rw [updatePathScore, hl]
    dsimp only
    by_cases hv : l.pathVersion = v
    · rw [if_pos hv]
      exact ⟨t, rfl, .refl h, l, hl, hv⟩
    rw [if_neg hv, hc, if_neg Bool.false_ne_true]
    have hrec := LinkTree.find_receiver hl
    have hmark : ({ l with calculating := true } : Link σ).advert = l.advert := rfl
    have h₁ := h.mark hl hv
    have hadv₁ := sameAdverts_set hl hmark
    have hl₁ : (t.set { l with calculating := true }).find r =
        some { l with calculating := true } := by
      rw [LinkTree.find_set, if_pos hrec.symm]
    split_ifs with hme hsub
    -- the link from us to the neighbour itself
    · refine ⟨_, rfl, storeScore_rescored hl hc (.refl h₁) _ ?_⟩
      intro l' hl' ha'
      have htr := (advert_eq ha').2.1.trans hme
      subst hsub
      refine .inl ⟨1, l'.cost, .direct hl' htr, rfl, ?_⟩
      exact zero_add _
    -- a link that claims to start at us cannot be continued
    · refine ⟨_, rfl, storeScore_rescored hl hc (.refl h₁) _ fun l' hl' ha' => scored_none ?_⟩
      intro k d hr
      obtain ⟨k', d', _, hr'⟩ := reaches_follow hr
        ⟨l', hl', hsub, (advert_eq ha').2.1.trans hme⟩
      obtain ⟨lm, hlm⟩ := reaches_find hr'
      cases h₁.notUs.symm.trans hlm
    · obtain ⟨t₂, parent, hget, hres, hsome, hnone⟩ := getParent_spec h₁ hl₁ hv hme
      rw [hget]
      have hres' : ∀ x, x ≠ r →
          (t₂.find x).map Link.calculating = (t.find x).map Link.calculating := by
        intro x hx
        rw [hres.flags, LinkTree.find_set_ne]
        rwa [← hrec] at hx
      cases parent with
      | none =>
        refine ⟨_, rfl, storeScore_rescored hl hc hres _ fun l' _ _ => scored_none ?_⟩
        exact fun k d hr => hnone rfl k d (hres.adverts.symm.reaches hr)
      | some p =>
        obtain ⟨hf, hp⟩ := hsome p rfl
        have hft : Follows sub t r p.receiver := hadv₁.symm.follows hf
        have hstack₂ := hstack.push (hadv₁.trans hres.adverts) hres' hft
        have hf₂ : Follows sub t₂ r p.receiver := hres.adverts.follows hf
        have hflag := hres.flags p.receiver
        rw [hp, map_some] at hflag
        obtain ⟨p₂, hp₂, hpc⟩ := map_eq_some_iff.mp hflag
        dsimp only
        split_ifs with hcalc
        -- the parent is further up the recursion, so the chain is a cycle
        · refine ⟨_, rfl, storeScore_rescored hl hc hres _ fun l' _ _ => scored_none ?_⟩
          have hback := hstack₂ p.receiver p₂ hp₂ (hpc.trans hcalc)
          intro k d hr
          obtain ⟨k', d', _, hr'⟩ := reaches_follow hr hf₂
          exact not_reaches_cycle hback hr'
        · have hlt : (idle t₂).card < fuel := by
            have := idle_set_lt hl hc hmark rfl
            rw [hres.idle_eq]
            omega
          have hpc' : p₂.calculating = false := hpc.trans (Bool.eq_false_of_not_eq_true hcalc)
          obtain ⟨t₃, hrun, hres₃, p₃, hp₃, hpv⟩ := ih hres.scorable hp₂ hpc' hstack₂ hlt
          rw [hrun]
          dsimp only
          rw [hp₃]
          refine ⟨_, rfl, storeScore_rescored hl hc (hres.trans hres₃) _ fun l' hl' _ => ?_⟩
          exact scored_parentScore hl' (hres₃.adverts.follows hf₂)
            (hres₃.scorable.memo p.receiver p₃ hp₃ hpv)

theorem idle_card_le (t : LinkTree σ) : (idle t).card ≤ t.receivers.length :=
  (Finset.card_filter_le _ _).trans (List.toFinset_card_le _)

end Scoring

end ServalMesh.Route
