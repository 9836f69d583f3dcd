import ServalMesh.Rhizome.SyncLists

/-!
# The window that is synced

The BARs of a list that are outside the window are cached outwards from it, on each side until
there is no more space. So the window has no holes.
-/

namespace ServalMesh.Rhizome

open Lib Overlay List

section Cached

variable {interesting : Bar → Bool} {now : ℕ} {s s' s₁ s₂ : Syncing} {entry : ℕ × Option Bar}

/-- A BAR has been checked. The lower bound is not one. -/
def Checked (s : Syncing) (entry : ℕ × Option Bar) : Prop :=
  entry.1 ≠ 0 → ∃ bar answer, entry.2 = some bar ∧ (entry.1, bar, answer) ∈ s.checked

/-- What was found interesting was put into the list. -/
def Remembered (s : Syncing) : Prop :=
  ∀ token bar, (token, bar, true) ∈ s.checked → (token, bar) ∈ s.cached

/-- What was checked stays so, and the rest is remembered. -/
structure Grown (s s' : Syncing) : Prop where
  checked : ∀ c ∈ s.checked, c ∈ s'.checked
  remembered : Remembered s → Remembered s'
  highestSeen : s'.state.highestSeen = s.state.highestSeen

theorem Grown.refl (s : Syncing) : Grown s s := ⟨fun _ hc => hc, id, rfl⟩

theorem Grown.trans (h₁ : Grown s s₁) (h₂ : Grown s₁ s₂) : Grown s s₂ :=
  ⟨fun c hc => h₂.checked c (h₁.checked c hc), fun h => h₂.remembered (h₁.remembered h),
    h₂.highestSeen.trans h₁.highestSeen⟩

theorem Checked.grown (h : Checked s entry) (hgrown : Grown s s') : Checked s' entry := by
  intro hne
  obtain ⟨bar, answer, hbar, hmem⟩ := h hne
  exact ⟨bar, answer, hbar, hgrown.checked _ hmem⟩

/-- One BAR is checked and the window is extended to it. -/
structure Caches (s : Syncing) (entry : ℕ × Option Bar) (s' : Syncing) : Prop where
  grown : Grown s s'
  checked : Checked s' entry
  syncStart : s'.state.syncStart = min s.state.syncStart entry.1
  syncEnd : s'.state.syncEnd = max s.state.syncEnd entry.1
  bars : entry.1 = 0 → s'.state.bars = s.state.bars

theorem extendWindow_spec (state : RhizomeSync) (token : ℕ) :
    (extendWindow state token).syncStart = min state.syncStart token ∧
      (extendWindow state token).syncEnd = max state.syncEnd token ∧
      (extendWindow state token).highestSeen = state.highestSeen ∧
      (extendWindow state token).bars = state.bars := by
  rw [extendWindow]
  split <;> split <;> exact ⟨by grind, by grind, rfl, rfl⟩

theorem checkBar_spec (interesting : Bar → Bool) (now : ℕ) (s : Syncing) (bar : Bar) (token : ℕ) :
    Grown s (checkBar interesting now s bar token) ∧
      (token, bar, interesting bar) ∈ (checkBar interesting now s bar token).checked ∧
      (checkBar interesting now s bar token).state.syncStart = s.state.syncStart ∧
      (checkBar interesting now s bar token).state.syncEnd = s.state.syncEnd := by
  rw [checkBar]
  split
  all_goals
    refine ⟨⟨fun c hc => mem_append_left _ hc, fun h t b hmem => ?_, rfl⟩,
      mem_append_right _ (mem_singleton_self _), rfl, rfl⟩
    simp only [mem_append, mem_singleton, Prod.mk.injEq] at hmem ⊢
  case isTrue => exact hmem.imp (h t b) fun hnew => ⟨hnew.1, hnew.2.1⟩
  case isFalse hint => exact h t b (hmem.resolve_right fun hnew => hint hnew.2.2.symm)

/-- A BAR is cached unless there is no more space. -/
theorem syncCacheBar_spec {bar : Option Bar} {token : ℕ} {added : Bool}
    (h : syncCacheBar interesting now s bar token = .ok (s', added)) :
    (cacheBars ≤ s.state.bars.length ∧ s' = s) ∨
      (s.state.bars.length < cacheBars ∧ Caches s (token, bar) s') := by
  unfold syncCacheBar at h
  split at h
  case isTrue hfull => exact .inl ⟨hfull, (congrArg Prod.fst (Except.ok.inj h)).symm⟩
  rename_i hspace
  refine .inr ⟨not_le.mp hspace, ?_⟩
  split at h
  case isTrue hzero =>
    cases h
    obtain ⟨hstart, hend, hhighest, hbars⟩ := extendWindow_spec s.state token
    exact ⟨⟨fun _ hc => hc, id, hhighest⟩, fun hne => absurd hzero hne, hstart, hend,
      fun _ => hbars⟩
  case isFalse hne =>
    split at h
    case h_1 => exact nomatch h
    rename_i bar
    cases h
    obtain ⟨hgrown, hmem, hs, he⟩ := checkBar_spec interesting now s bar token
    obtain ⟨hstart, hend, hhighest, -⟩ :=
      extendWindow_spec (checkBar interesting now s bar token).state token
    rw [hs] at hstart
    rw [he] at hend
    exact ⟨⟨hgrown.checked, hgrown.remembered, hhighest.trans hgrown.highestSeen⟩,
      fun _ => ⟨bar, _, rfl, hmem⟩, hstart, hend, fun hzero => absurd hzero hne⟩

/-- BARs are cached in order, until there is no more space. -/
inductive CachesSome : Syncing → List (ℕ × Option Bar) → Syncing → Prop
  | stop (s : Syncing) (entries : List (ℕ × Option Bar)) : CachesSome s entries s
  | cache {s s₁ s' : Syncing} {entry : ℕ × Option Bar} {entries : List (ℕ × Option Bar)} :
      Caches s entry s₁ → CachesSome s₁ entries s' → CachesSome s (entry :: entries) s'

variable {entries : List (ℕ × Option Bar)} {added added' : Bool}

theorem cacheLoop_full (hfull : cacheBars ≤ s.state.bars.length)
    (h : cacheLoop interesting now s added entries = .ok (s', added')) : s' = s := by
  induction entries generalizing s added with
  | nil => exact (congrArg Prod.fst (Except.ok.inj h)).symm
  | cons entry entries ih =>
    rw [cacheLoop] at h
    split at h
    case h_1 => exact nomatch h
    case h_2 s₁ r hcache =>
      rcases syncCacheBar_spec hcache with ⟨-, rfl⟩ | ⟨hspace, -⟩
      · exact ih hfull h
      · exact absurd hfull (not_le.mpr hspace)

theorem cacheLoop_cons (hspace : s.state.bars.length < cacheBars)
    (h : cacheLoop interesting now s added (entry :: entries) = .ok (s', added')) :
    ∃ s₁ r, Caches s entry s₁ ∧ cacheLoop interesting now s₁ r entries = .ok (s', added') := by
  rw [cacheLoop] at h
  split at h
  case h_1 => exact nomatch h
  case h_2 s₁ r hcache =>
    rcases syncCacheBar_spec hcache with ⟨hfull, -⟩ | ⟨-, hcaches⟩
    · exact absurd hfull (not_le.mpr hspace)
    · exact ⟨s₁, _, hcaches, h⟩

section

variable (h : cacheLoop interesting now s added entries = .ok (s', added'))
include h

/-- The first loop goes on, and then the second one, as long as there is space. -/
theorem cacheLoop_append {s'' : Syncing} {later : List (ℕ × Option Bar)}
    (hlater : CachesSome s' later s'') (hfull : cacheBars ≤ s'.state.bars.length → s'' = s') :
    CachesSome s (entries ++ later) s'' := by
  induction entries generalizing s added with
  | nil =>
    cases h
    exact hlater
  | cons entry entries ih =>
    by_cases hspace : s.state.bars.length < cacheBars
    · obtain ⟨s₁, r, hcache, hrest⟩ := cacheLoop_cons hspace h
      exact .cache hcache (ih hrest)
    · obtain rfl := cacheLoop_full (not_lt.mp hspace) h
      rw [hfull (not_lt.mp hspace)]
      exact .stop ..

theorem cacheLoop_spec :
    CachesSome s entries s' := by
  have happend := cacheLoop_append h (.stop s' []) fun _ => rfl
  rwa [append_nil] at happend

end

/-- The second loop stops earlier than the first one. -/
theorem cacheOldLoop_spec (h : cacheOldLoop interesting now s added entries = .ok (s', added')) :
    CachesSome s entries s' ∧ (cacheBars ≤ s.state.bars.length → s' = s) := by
  induction entries generalizing s added with
  | nil =>
    cases h
    exact ⟨.stop .., fun _ => rfl⟩
  | cons entry entries ih =>
    rw [cacheOldLoop] at h
    split at h
    case isTrue =>
      cases h
      exact ⟨.stop .., fun _ => rfl⟩
    rename_i hold
    have hspace : ¬cacheBars ≤ s.state.bars.length :=
      fun hfull => hold ((by decide : maxOldBars ≤ cacheBars).trans hfull)
    refine ⟨?_, fun hfull => absurd hfull hspace⟩
    split at h
    case h_1 => exact nomatch h
    case h_2 s₁ r hcache =>
      rcases syncCacheBar_spec hcache with ⟨hfull, -⟩ | ⟨-, hcaches⟩
      · exact absurd hfull hspace
      · exact .cache hcaches (ih h).1

/-- The BARs are cached from the mid point in both directions, one after the other. -/
theorem cacheFrom_spec {bars : List (ℕ × Option Bar)} {mid : ℕ}
    (h : cacheFrom interesting now s bars mid = .ok s') :
    ∃ s₁ s₂ added, cacheLoop interesting now s false (bars.drop mid) = .ok (s₁, added) ∧
      CachesSome s₁ (bars.take mid).reverse s₂ ∧
      CachesSome s (bars.drop mid ++ (bars.take mid).reverse) s₂ ∧
      s' = { s₂ with state := { s₂.state with nextRequest := s'.state.nextRequest } } := by
  rw [cacheFrom] at h
  split at h
  case h_1 => exact nomatch h
  case h_2 s₁ added hloop =>
    split at h
    case h_1 => exact nomatch h
    case h_2 s₂ added' hold =>
      obtain ⟨hsome, hfull⟩ := cacheOldLoop_spec hold
      refine ⟨s₁, s₂, added, hloop, hsome, cacheLoop_append hloop hsome hfull, ?_⟩
      cases h
      split <;> rfl

end Cached

section Outwards

variable {s s' : Syncing} {state state' : RhizomeSync} {entries : List (ℕ × Option Bar)}

/-- The window has been extended over some entries, and those inside it are checked. -/
structure Extended (s s' : Syncing) (entries : List (ℕ × Option Bar)) : Prop where
  grown : Grown s s'
  start_le : s'.state.syncStart ≤ s.state.syncStart
  le_end : s.state.syncEnd ≤ s'.state.syncEnd
  syncStart : s'.state.syncStart = s.state.syncStart ∨
    ∃ entry ∈ entries, s'.state.syncStart = entry.1
  syncEnd : s'.state.syncEnd = s.state.syncEnd ∨ ∃ entry ∈ entries, s'.state.syncEnd = entry.1
  checked : ∀ entry ∈ entries, s'.state.syncStart ≤ entry.1 → entry.1 ≤ s'.state.syncEnd →
    Checked s' entry

/-- All entries are outside the window, and of those on the same side the nearer ones come first. -/
structure Outwards (state : RhizomeSync) (entries : List (ℕ × Option Bar)) : Prop where
  outside : ∀ entry ∈ entries, entry.1 < state.syncStart ∨ state.syncEnd < entry.1
  nearer : entries.Pairwise fun a b =>
    (state.syncEnd < a.1 → state.syncEnd < b.1 → a.1 < b.1) ∧
      (a.1 < state.syncStart → b.1 < state.syncStart → b.1 < a.1)

theorem Outwards.congr (h : Outwards state entries) (hstart : state'.syncStart = state.syncStart)
    (hend : state'.syncEnd = state.syncEnd) : Outwards state' entries := by
  constructor <;> rw [hstart, hend]
  exacts [h.outside, h.nearer]

/-- The other entries are outside the window that has been extended to the first one. -/
theorem Outwards.tail {entry : ℕ × Option Bar} (h : Outwards state (entry :: entries))
    (hstart : state'.syncStart = min state.syncStart entry.1)
    (hend : state'.syncEnd = max state.syncEnd entry.1) : Outwards state' entries := by
  obtain ⟨hnearer, hrest⟩ := pairwise_cons.mp h.nearer
  constructor
  · intro e he
    have houtside := h.outside e (mem_cons_of_mem _ he)
    have := hnearer e he
    omega
  · exact hrest.imp fun hab => by omega

/-- Entries are cached outwards, on both sides of the window, until there is no more space. -/
theorem CachesSome.outwards (h : CachesSome s entries s') (hout : Outwards s.state entries) :
    Extended s s' entries := by
  induction h with
  | stop s entries =>
    refine ⟨.refl s, le_rfl, le_rfl, .inl rfl, .inl rfl, fun entry hentry hge hle => ?_⟩
    have := hout.outside entry hentry
    omega
  | @cache s s₁ s' entry entries hcache _ ih =>
    have hstart := hcache.syncStart
    have hend := hcache.syncEnd
    have hext := ih (hout.tail hstart hend)
    have hstart_le := hext.start_le
    have hle_end := hext.le_end
    refine ⟨hcache.grown.trans hext.grown, by omega, by omega, ?_, ?_, ?_⟩
    · rcases hext.syncStart with heq | ⟨e, he, heq⟩
      · rw [heq, hstart]
        exact (min_choice _ _).imp_right fun h => ⟨entry, mem_cons_self, h⟩
      · exact .inr ⟨e, mem_cons_of_mem _ he, heq⟩
    · rcases hext.syncEnd with heq | ⟨e, he, heq⟩
      · rw [heq, hend]
        exact (max_choice _ _).imp_right fun h => ⟨entry, mem_cons_self, h⟩
      · exact .inr ⟨e, mem_cons_of_mem _ he, heq⟩
    · exact forall_mem_cons.mpr ⟨fun _ _ => hcache.checked.grown hext.grown, hext.checked⟩

end Outwards

section Reading

variable {r : Reading} {entries first inside last : List (ℕ × Option Bar)} {state : RhizomeSync}
  {below : Bool} {t : Manifests}

/-- An entry as the receiver reads it. -/
def received (entry : ℕ × Option Bar) : ℕ × Option Bar :=
  (entry.1, if rhizomeIsBarNone (wireBar entry.2) then none else some (wireBar entry.2))

def readEntry (r : Reading) (entry : ℕ × Option Bar) : Reading :=
  readBar r entry.1 (wireBar entry.2)

theorem length_readBar_le (r : Reading) (token : ℕ) (bar : Bar) :
    (readBar r token bar).bars.length ≤ r.bars.length + 1 := by
  rw [readBar]
  dsimp only
  split
  · simp
  · split <;> simp

/-- A response is short enough to be read as a whole. -/
theorem readBars_eq_foldl {bars : List (ℕ × Bar)}
    (h : r.bars.length + bars.length ≤ barsPerResponse) :
    readBars r bars = bars.foldl (fun r entry => readBar r entry.1 entry.2) r := by
  induction bars generalizing r with
  | nil => rfl
  | cons entry bars ih =>
    have hle := length_readBar_le r entry.1 entry.2
    rw [length_cons] at h
    rw [readBars, if_neg (by omega), foldl_cons, ih (by omega)]

/-- What is read from a list. -/
def readList (state : RhizomeSync) (entries : List (ℕ × Option Bar)) : Reading :=
  entries.foldl readEntry ⟨state, [], false, false, none⟩

theorem decodeBars_response (h : Listed t entries) (hlargest : t.largest < 2 ^ 31) :
    decodeBars (responsePayload entries) = entries.map fun entry => (entry.1, wireBar entry.2) :=
  decodeBars_responsePayload fun entry hentry => (h.le_largest entry hentry).trans_lt hlargest

theorem reading_response {s : Syncing} (h : Listed t entries)
    (hlargest : t.largest < 2 ^ 31) :
    reading s (decodeBars (responsePayload entries)) = readList s.state entries := by
  rw [reading, decodeBars_response h hlargest, readBars_eq_foldl, foldl_map]
  · rfl
  · simpa using h.length_le

/-- Reading only changes the highest token that was seen. -/
structure HighestSeen (state state' : RhizomeSync) (tokens : List ℕ) : Prop where
  syncStart : state'.syncStart = state.syncStart
  syncEnd : state'.syncEnd = state.syncEnd
  bars : state'.bars = state.bars
  le_highest : state.highestSeen ≤ state'.highestSeen
  seen : ∀ token ∈ tokens, token ≤ state'.highestSeen
  highest_le : ∀ bound, state.highestSeen ≤ bound → (∀ token ∈ tokens, token ≤ bound) →
    state'.highestSeen ≤ bound

theorem trackHighest_highestSeen (state : RhizomeSync) (token : ℕ) :
    HighestSeen state (trackHighest state token) [token] := by
  rw [trackHighest]
  split
  case isTrue hlt => exact ⟨rfl, rfl, rfl, hlt.le, by simp, by simp⟩
  case isFalse hge =>
    exact ⟨rfl, rfl, rfl, le_rfl, by simpa using hge, fun bound hbound _ => hbound⟩

theorem HighestSeen.trans {a b c : RhizomeSync} {tokens tokens' : List ℕ}
    (h₁ : HighestSeen a b tokens) (h₂ : HighestSeen b c tokens') :
    HighestSeen a c (tokens ++ tokens') := by
  refine ⟨h₂.syncStart.trans h₁.syncStart, h₂.syncEnd.trans h₁.syncEnd, h₂.bars.trans h₁.bars,
    h₁.le_highest.trans h₂.le_highest, forall_mem_append.mpr
      ⟨fun token h => (h₁.seen token h).trans h₂.le_highest, h₂.seen⟩, ?_⟩
  intro bound hbound htokens
  obtain ⟨htokens₁, htokens₂⟩ := forall_mem_append.mp htokens
  exact h₂.highest_le bound (h₁.highest_le bound hbound htokens₁) htokens₂

theorem readBar_state (r : Reading) (token : ℕ) (bar : Bar) :
    (readBar r token bar).state = trackHighest r.state token := by
  rw [readBar]
  dsimp only
  split
  · rfl
  · split <;> rfl

theorem readEntry_highestSeen (r : Reading) (entry : ℕ × Option Bar) :
    HighestSeen r.state (readEntry r entry).state [entry.1] := by
  rw [readEntry, readBar_state]
  exact trackHighest_highestSeen r.state entry.1

theorem foldl_readEntry_highestSeen (r : Reading) (entries : List (ℕ × Option Bar)) :
    HighestSeen r.state (entries.foldl readEntry r).state (entries.map Prod.fst) := by
  induction entries generalizing r with
  | nil => exact ⟨rfl, rfl, rfl, le_rfl, by simp, by simp⟩
  | cons entry entries ih => exact (readEntry_highestSeen r entry).trans (ih _)

theorem readList_highestSeen (state : RhizomeSync) (entries : List (ℕ × Option Bar)) :
    HighestSeen state (readList state entries).state (entries.map Prod.fst) :=
  foldl_readEntry_highestSeen ⟨state, [], false, false, none⟩ entries

/-- Before there is a window all entries are kept. -/
theorem foldl_readEntry_start (entries : List (ℕ × Option Bar)) (hend : r.state.syncEnd = 0) :
    (entries.foldl readEntry r).bars = r.bars ++ entries.map received ∧
      (entries.foldl readEntry r).hasBefore = r.hasBefore ∧
      (entries.foldl readEntry r).hasAfter = r.hasAfter ∧
      (entries.foldl readEntry r).midPoint = r.midPoint := by
  induction entries generalizing r with
  | nil => exact ⟨(append_nil _).symm, rfl, rfl, rfl⟩
  | cons entry entries ih =>
    have hkept : (trackHighest r.state entry.1).syncEnd = 0 :=
      (trackHighest_highestSeen r.state entry.1).syncEnd.trans hend
    obtain ⟨hbars, hbefore, hafter, hmid⟩ := ih ((readEntry_highestSeen r entry).syncEnd.trans hend)
    rw [foldl_cons, hbars, hbefore, hafter, hmid]
    simp [readEntry, readBar, hkept, received]

/-- An entry is kept unless it is inside the window. It is the mid point if it, or what came before
it, reaches the window from both sides, but nothing was kept after that. -/
theorem readEntry_window (before after : Bool) (hend : r.state.syncEnd ≠ 0)
    {entry : ℕ × Option Bar} (hle : entry.1 ≤ r.state.syncEnd ↔ before = true)
    (hge : r.state.syncStart ≤ entry.1 ↔ after = true) :
    (readEntry r entry).bars = r.bars ++ (if before && after then [] else [received entry]) ∧
      (readEntry r entry).hasBefore = (r.hasBefore || before) ∧
      (readEntry r entry).hasAfter = (r.hasAfter || after) ∧
      (readEntry r entry).midPoint =
        if !(before && after) && (r.hasBefore || before) && (r.hasAfter || after) &&
          r.midPoint.isNone then some r.bars.length else r.midPoint := by
  have htracked := trackHighest_highestSeen r.state entry.1
  cases before <;> cases after <;>
    simp [readEntry, readBar, htracked.syncEnd, htracked.syncStart, hend, hle, hge, received]

theorem foldl_readEntry_window (before after : Bool) (hend : r.state.syncEnd ≠ 0)
    (h : ∀ entry ∈ entries, (entry.1 ≤ r.state.syncEnd ↔ before = true) ∧
      (r.state.syncStart ≤ entry.1 ↔ after = true)) :
    (entries.foldl readEntry r).bars =
        r.bars ++ (if before && after then [] else entries.map received) ∧
      (entries.foldl readEntry r).hasBefore = (r.hasBefore || (before && !entries.isEmpty)) ∧
      (entries.foldl readEntry r).hasAfter = (r.hasAfter || (after && !entries.isEmpty)) ∧
      (entries.foldl readEntry r).midPoint =
        if !(before && after) && (r.hasBefore || before) && (r.hasAfter || after) &&
          r.midPoint.isNone && !entries.isEmpty then some r.bars.length else r.midPoint := by
  induction entries generalizing r with
  | nil => simp
  | cons entry entries ih =>
    obtain ⟨hle, hge⟩ := h entry mem_cons_self
    obtain ⟨hbars₁, hbefore₁, hafter₁, hmid₁⟩ := readEntry_window before after hend hle hge
    have hread := readEntry_highestSeen r entry
    obtain ⟨hbars, hbefore, hafter, hmid⟩ :=
      ih (r := readEntry r entry) (by rwa [hread.syncEnd]) (by
      rw [hread.syncEnd, hread.syncStart]
      exact (forall_mem_cons.mp h).2)
    rw [foldl_cons, hbars, hbefore, hafter, hmid, hbars₁, hbefore₁, hafter₁, hmid₁]
    cases before <;> cases after <;> cases hb : r.hasBefore <;> cases ha : r.hasAfter <;>
      cases hm : r.midPoint <;> cases entries <;> simp

/-- A list that is cut at the window: what comes first is on one side of it, what comes last on
the other. -/
structure Sides (state : RhizomeSync) (below : Bool)
    (first inside last : List (ℕ × Option Bar)) : Prop where
  first : ∀ entry ∈ first, (entry.1 ≤ state.syncEnd ↔ below = true) ∧
    (state.syncStart ≤ entry.1 ↔ below = false)
  inside : ∀ entry ∈ inside, entry.1 ≤ state.syncEnd ∧ state.syncStart ≤ entry.1
  last : ∀ entry ∈ last, (entry.1 ≤ state.syncEnd ↔ below = false) ∧
    (state.syncStart ≤ entry.1 ↔ below = true)

/-- The mid point is where the other side starts, or the last entry that is kept. -/
theorem midPoint_sides (hend : state.syncEnd ≠ 0) (h : Sides state below first inside last)
    {mid : ℕ} (hmid : midPoint (readList state (first ++ inside ++ last)) = some mid) :
    (readList state (first ++ inside ++ last)).bars = first.map received ++ last.map received ∧
      ((last ≠ [] ∧ first ≠ []) ∨ inside ≠ []) ∧
      (mid = first.length ∨ (last = [] ∧ mid + 1 = first.length)) := by
  rw [readList, foldl_append, foldl_append] at *
  obtain ⟨hbars₁, hbefore₁, hafter₁, hmid₁⟩ := foldl_readEntry_window
    (r := ⟨state, [], false, false, none⟩) below (!below) hend (by simpa using h.first)
  have htrack₁ := readList_highestSeen state first
  rw [readList] at htrack₁
  generalize first.foldl readEntry _ = r₁ at *
  obtain ⟨hbars₂, hbefore₂, hafter₂, hmid₂⟩ := foldl_readEntry_window (r := r₁) true true
    (by rwa [htrack₁.syncEnd]) (by
      rw [htrack₁.syncEnd, htrack₁.syncStart]
      simpa using h.inside)
  have htrack₂ := foldl_readEntry_highestSeen r₁ inside
  generalize inside.foldl readEntry r₁ = r₂ at *
  obtain ⟨hbars₃, hbefore₃, hafter₃, hmid₃⟩ := foldl_readEntry_window (r := r₂) (!below) below
    (by rwa [htrack₂.syncEnd, htrack₁.syncEnd]) (by
      rw [htrack₂.syncEnd, htrack₁.syncEnd, htrack₂.syncStart, htrack₁.syncStart]
      simpa using h.last)
  rw [midPoint] at hmid
  rw [hbars₃, hbars₂, hbars₁]
  refine ⟨by cases below <;> simp, ?_⟩
  cases below <;> cases first <;> cases inside <;> cases last <;> simp_all

theorem not_of_mem_dropWhile {α : Type*} {R : α → α → Prop} {p : α → Bool} {l : List α}
    (hclosed : ∀ a b, R a b → p b → p a) (hordered : l.Pairwise R) :
    ∀ x ∈ l.dropWhile p, p x = false := by
  induction l with
  | nil => exact nofun
  | cons a l ih =>
    rw [dropWhile_cons]
    split
    case isTrue => exact ih hordered.of_cons
    case isFalse ha =>
      exact forall_mem_cons.mpr ⟨Bool.eq_false_iff.mpr ha, fun x hx => Bool.eq_false_iff.mpr
        fun hpx => ha (hclosed a x (rel_of_pairwise_cons hordered hx) hpx)⟩

/-- A list in order is cut where one condition stops to hold, and then another. -/
theorem exists_cut {α : Type*} {R : α → α → Prop} {l : List α} (p q : α → Bool)
    (hp : ∀ a b, R a b → p b → p a) (hq : ∀ a b, R a b → q b → q a) (hordered : l.Pairwise R) :
    ∃ first inside last, l = first ++ inside ++ last ∧ (∀ x ∈ first, p x = true) ∧
      (∀ x ∈ inside, p x = false ∧ q x = true) ∧ (∀ x ∈ last, p x = false ∧ q x = false) ∧
      first.Pairwise R ∧ last.Pairwise R := by
  have hrest : (l.dropWhile p).Pairwise R := hordered.sublist (dropWhile_sublist _)
  have hnot := not_of_mem_dropWhile hp hordered
  refine ⟨l.takeWhile p, (l.dropWhile p).takeWhile q, (l.dropWhile p).dropWhile q, ?_,
    fun x hx => mem_takeWhile_imp hx, ?_, ?_, hordered.sublist (takeWhile_sublist _),
    hrest.sublist (dropWhile_sublist _)⟩
  · rw [append_assoc, takeWhile_append_dropWhile, takeWhile_append_dropWhile]
  · intro x hx
    exact ⟨hnot x ((takeWhile_sublist _).mem hx), mem_takeWhile_imp hx⟩
  · intro x hx
    exact ⟨hnot x ((dropWhile_sublist _).mem hx), not_of_mem_dropWhile hq hrest x hx⟩

theorem Outwards.received (h : Outwards state entries) : Outwards state (entries.map received) := by
  refine ⟨fun entry hentry => ?_, pairwise_map.mpr h.nearer⟩
  obtain ⟨e, he, rfl⟩ := mem_map.mp hentry
  exact h.outside e he

/-- In a list that is ordered and cut at the window, what comes last goes away from it, and what
comes first comes towards it. -/
theorem Sides.outwards (h : Sides state below first inside last)
    (hfirst : first.Pairwise fun a b => if below then a.1 < b.1 else b.1 < a.1)
    (hlast : last.Pairwise fun a b => if below then a.1 < b.1 else b.1 < a.1) :
    Outwards state (last ++ first.reverse) := by
  refine ⟨fun e he => ?_, pairwise_append.mpr ⟨hlast.imp_of_mem fun ha hb hab => ?_,
    pairwise_reverse.mpr (hfirst.imp_of_mem fun ha hb hab => ?_), fun a ha b hb => ?_⟩⟩
  · rcases mem_append.mp he with he | he
    · have := h.last e he
      cases below <;> simp at this <;> omega
    · have := h.first e (mem_reverse.mp he)
      cases below <;> simp at this <;> omega
  · have := h.last _ ha
    cases below <;> simp at this hab <;> omega
  · have := h.first _ ha
    cases below <;> simp at this hab <;> omega
  · have := h.last a ha
    have := h.first b (mem_reverse.mp hb)
    cases below <;> simp at * <;> omega

/-- A list of BARs is cut where it enters the window and where it leaves it. -/
theorem exists_sides (hwindow : state.syncStart ≤ state.syncEnd)
    (hordered : entries.Pairwise (fun a b => a.1 < b.1) ∨ entries.Pairwise (fun a b => b.1 < a.1)) :
    ∃ below first inside last, entries = first ++ inside ++ last ∧
      Sides state below first inside last ∧ Outwards state (last ++ first.reverse) := by
  obtain ⟨below, hordered⟩ : ∃ below : Bool,
      entries.Pairwise fun a b => if below then a.1 < b.1 else b.1 < a.1 := by
    rcases hordered with hordered | hordered
    · exact ⟨true, hordered⟩
    · exact ⟨false, hordered⟩
  obtain ⟨first, inside, last, hcut, hfirst, hinside, hlast, hfirstOrd, hlastOrd⟩ :=
    exists_cut
      (fun e => if below then decide (e.1 < state.syncStart) else decide (state.syncEnd < e.1))
      (fun e => if below then decide (e.1 ≤ state.syncEnd) else decide (state.syncStart ≤ e.1))
      (fun a b hab hb => by cases below <;> simp at * <;> omega)
      (fun a b hab hb => by cases below <;> simp at * <;> omega) hordered
  have hsides : Sides state below first inside last := by
    constructor
    · intro e he
      have := hfirst e he
      cases below <;> simp at * <;> omega
    · intro e he
      have := hinside e he
      cases below <;> simp at * <;> omega
    · intro e he
      have := hlast e he
      cases below <;> simp at * <;> omega
  exact ⟨below, first, inside, last, hcut, hsides, hsides.outwards hfirstOrd hlastOrd⟩

end Reading

section Window

variable {t : Manifests} {s s' : Syncing} {entries : List (ℕ × Option Bar)}
  {interesting : Bar → Bool} {now : ℕ} {r : Reading} {rest : List (ℕ × Option Bar)}
  {entry : ℕ × Option Bar} {mid : ℕ} {state : RhizomeSync}

/-- What holds of the state of a peer: every row in the window has been checked since the last
restart, and what was interesting has been remembered. -/
structure Window (t : Manifests) (s : Syncing) : Prop where
  start_le : s.state.syncStart ≤ s.state.syncEnd
  end_le : s.state.syncEnd ≤ t.largest
  highest_le : s.state.highestSeen ≤ t.largest
  bars : s.state.syncEnd = 0 → s.state.bars = []
  checked : ∀ row ∈ t.rows, s.state.syncStart ≤ row.rowid → row.rowid ≤ s.state.syncEnd →
    ∃ answer, (row.rowid, row.bar, answer) ∈ s.checked
  remembered : Remembered s

theorem Window.new (t : Manifests) (now : ℕ) : Window t (.new now) where
  start_le := le_rfl
  end_le := Nat.zero_le _
  highest_le := Nat.zero_le _
  bars := fun _ => rfl
  checked := fun row _ _ hle => absurd hle (not_le.mpr row.pos)
  remembered := nofun

theorem Window.restart (h : Window t s) (now : ℕ) : Window t (restart now s) := by
  rw [Rhizome.restart]
  split
  · exact .new t now
  · exact h

/-- A row that was received and checked was checked with its own BAR. -/
theorem Checked.row {row : Row} (h : Checked s (received (rowEntry row))) :
    ∃ answer, (row.rowid, row.bar, answer) ∈ s.checked := by
  obtain ⟨bar, answer, hbar, hmem⟩ := h row.pos.ne'
  have heq : row.bar = bar := by
    have hbar' : (if rhizomeIsBarNone row.bar then none else some row.bar) = some bar := hbar
    split at hbar'
    · exact nomatch hbar'
    · exact Option.some.inj hbar'
  exact ⟨answer, heq ▸ hmem⟩

/-- A window that is extended over a list that overlaps it has no holes. -/
theorem Window.extended (h : Window t s) (hlisted : Listed t entries) (hend : s.state.syncEnd ≠ 0)
    {kept : List (ℕ × Option Bar)} (hext : Extended s s' kept)
    (hkept : ∀ entry ∈ entries, s.state.syncEnd < entry.1 ∨ entry.1 < s.state.syncStart →
      received entry ∈ kept) (hentries : ∀ entry ∈ kept, ∃ e ∈ entries, entry.1 = e.1)
    (hbefore : ∃ entry ∈ entries, entry.1 ≤ s.state.syncEnd)
    (hafter : ∃ entry ∈ entries, s.state.syncStart ≤ entry.1) : Window t s' := by
  have hpos : s'.state.syncEnd ≠ 0 := ((Nat.pos_of_ne_zero hend).trans_le hext.le_end).ne'
  have hmem : ∀ {n : ℕ}, (∃ entry ∈ kept, n = entry.1) → ∃ entry ∈ entries, n = entry.1 := by
    rintro n ⟨entry, hentry, rfl⟩
    exact hentries entry hentry
  have hend' := hext.syncEnd.imp_right hmem
  have hstart' := hext.syncStart.imp_right hmem
  refine ⟨(hext.start_le.trans h.start_le).trans hext.le_end, ?_, ?_,
    fun hzero => absurd hzero hpos, ?_, hext.grown.remembered h.remembered⟩
  · rcases hend' with hend' | ⟨entry, hentry, hend'⟩
    · exact hend' ▸ h.end_le
    · exact hend' ▸ hlisted.le_largest entry hentry
  · rw [hext.grown.highestSeen]
    exact h.highest_le
  intro row hrow hge hle
  obtain ⟨a, ha, hale⟩ := hbefore
  obtain ⟨b, hb, hbge⟩ := hafter
  by_cases habove : s.state.syncEnd < row.rowid
  · obtain ⟨e, he, heq⟩ := hend'.resolve_left fun hsame => by omega
    have hlist := hlisted.complete row hrow a ha e he (hale.trans habove.le) (heq ▸ hle)
    exact (hext.checked _ (hkept _ hlist (.inl habove)) hge hle).row
  by_cases hbelow : row.rowid < s.state.syncStart
  · obtain ⟨e, he, heq⟩ := hstart'.resolve_left fun hsame => by omega
    have hlist := hlisted.complete row hrow e he b hb (heq ▸ hge) (hbelow.le.trans hbge)
    exact (hext.checked _ (hkept _ hlist (.inr hbelow)) hge hle).row
  · obtain ⟨answer, hmem⟩ := h.checked row hrow (not_lt.mp hbelow) (not_lt.mp habove)
    exact ⟨answer, hext.grown.checked _ hmem⟩

/-- Only the window, the list of BARs and the highest token matter. -/
theorem Window.congr (h : Window t s) (hchecked : s'.checked = s.checked)
    (hcached : s'.cached = s.cached) (hstart : s'.state.syncStart = s.state.syncStart)
    (hend : s'.state.syncEnd = s.state.syncEnd) (hhighest : s'.state.highestSeen ≤ t.largest)
    (hbars : s.state.bars = [] → s'.state.bars = []) : Window t s' := by
  refine ⟨?_, ?_, hhighest, ?_, ?_, ?_⟩
  all_goals simp only [Remembered, hstart, hend, hchecked, hcached]
  exacts [h.start_le, h.end_le, fun hzero => hbars (h.bars hzero), h.checked, h.remembered]

/-- Reading a list leaves the window as it is. -/
theorem Window.tracked (h : Window t s) (hlisted : Listed t entries)
    (htracked : HighestSeen s.state state (entries.map Prod.fst)) : Window t { s with state } :=
  h.congr rfl rfl htracked.syncStart htracked.syncEnd
    (htracked.highest_le _ h.highest_le (forall_mem_map.mpr hlisted.le_largest))
    fun hnil => htracked.bars.trans hnil

theorem drop_append_reverse_take {α : Type*} {l : List α} {n : ℕ} (h : n + 1 = l.length) :
    l.drop n ++ (l.take n).reverse = l.reverse := by
  obtain ⟨x, hx⟩ := length_eq_one_iff.mp (show (l.drop n).length = 1 by
    rw [length_drop]
    omega)
  conv_rhs => rw [← take_append_drop n l, reverse_append, hx, reverse_singleton]
  rw [hx]

/-- From the mid point the window is extended over all that is outside. -/
theorem cacheFrom_extended {first last : List (ℕ × Option Bar)}
    (hout : Outwards s.state (last ++ first.reverse))
    (hmid : mid = first.length ∨ (last = [] ∧ mid + 1 = first.length))
    (hrun : cacheFrom interesting now s (first ++ last) mid = .ok s') :
    ∃ s₂, Extended s s₂ (last ++ first.reverse) ∧
      s' = { s₂ with state := { s₂.state with nextRequest := s'.state.nextRequest } } := by
  obtain ⟨s₁, s₂, added, -, -, hall, heq⟩ := cacheFrom_spec hrun
  have horder : (first ++ last).drop mid ++ ((first ++ last).take mid).reverse =
      last ++ first.reverse := by
    rcases hmid with rfl | ⟨rfl, hmid⟩
    · rw [drop_left, take_left]
    · rw [append_nil, nil_append, drop_append_reverse_take hmid]
  rw [horder] at hall
  exact ⟨s₂, hall.outwards hout, heq⟩

/-- A list that overlaps the window reaches it from both sides, or from inside. -/
theorem Sides.overlaps {below : Bool}
    {first inside last : List (ℕ × Option Bar)} (h : Sides state below first inside last)
    (hoverlap : (last ≠ [] ∧ first ≠ []) ∨ inside ≠ []) :
    (∃ entry ∈ first ++ inside ++ last, entry.1 ≤ state.syncEnd) ∧
      ∃ entry ∈ first ++ inside ++ last, state.syncStart ≤ entry.1 := by
  rcases hoverlap with ⟨hlast, hfirst⟩ | hinside
  · obtain ⟨a, ha⟩ := exists_mem_of_ne_nil _ hfirst
    obtain ⟨b, hb⟩ := exists_mem_of_ne_nil _ hlast
    have ha' := mem_append_left last (mem_append_left inside ha)
    have hb' := mem_append_right (first ++ inside) hb
    cases below with
    | true => exact ⟨⟨a, ha', (h.first a ha).1.mpr rfl⟩, ⟨b, hb', (h.last b hb).2.mpr rfl⟩⟩
    | false => exact ⟨⟨b, hb', (h.last b hb).1.mpr rfl⟩, ⟨a, ha', (h.first a ha).2.mpr rfl⟩⟩
  · obtain ⟨a, ha⟩ := exists_mem_of_ne_nil _ hinside
    have ha' := mem_append_left last (mem_append_right first ha)
    exact ⟨⟨a, ha', (h.inside a ha).1⟩, ⟨a, ha', (h.inside a ha).2⟩⟩

/-- The case in which a list overlaps a window that there is already. -/
theorem Window.cacheFrom (h : Window t s) (hlisted : Listed t entries) (hend : s.state.syncEnd ≠ 0)
    (hr : r = readList s.state entries) (hmid : midPoint r = some mid)
    (hrun : cacheFrom interesting now { s with state := r.state } r.bars mid = .ok s') :
    Window t s' := by
  have htracked := readList_highestSeen s.state entries
  obtain ⟨below, first, inside, last, rfl, hsides, hout⟩ :=
    exists_sides h.start_le hlisted.ordered
  obtain ⟨hbars, hoverlap, hmid⟩ := midPoint_sides hend hsides (hr ▸ hmid)
  rw [← hr] at htracked hbars
  have hwindow := h.tracked hlisted htracked
  rw [hbars] at hrun
  have hout' := hout.received.congr htracked.syncStart htracked.syncEnd
  rw [map_append, map_reverse] at hout'
  obtain ⟨s₂, hext, heq⟩ := cacheFrom_extended hout' (by simpa using hmid) hrun
  obtain ⟨hbefore, hafter⟩ := hsides.overlaps hoverlap
  have hextended : Window t s₂ := by
    refine hwindow.extended hlisted (by rwa [htracked.syncEnd]) hext ?_ ?_
      (by rwa [htracked.syncEnd]) (by rwa [htracked.syncStart])
    · intro entry hentry hout
      rw [htracked.syncEnd, htracked.syncStart] at hout
      rcases mem_append.mp hentry with hentry | hentry
      · rcases mem_append.mp hentry with hentry | hentry
        · exact mem_append_right _ (mem_reverse.mpr (mem_map_of_mem hentry))
        · have hin := hsides.inside entry hentry
          omega
      · exact mem_append_left _ (mem_map_of_mem hentry)
    · intro entry hentry
      rcases mem_append.mp hentry with hentry | hentry
      · obtain ⟨e, he, rfl⟩ := mem_map.mp hentry
        exact ⟨e, mem_append_right _ he, rfl⟩
      · obtain ⟨e, he, rfl⟩ := mem_map.mp (mem_reverse.mp hentry)
        exact ⟨e, mem_append_left _ (mem_append_left _ he), rfl⟩
  rw [heq]
  exact hextended.congr rfl rfl rfl rfl hextended.highest_le id

theorem startsSync_readList (h : startsSync (readList state entries) = true) :
    state.syncEnd = 0 ∧ (readList state entries).bars = entries.map received ∧
      ∃ first last, entries.head? = some first ∧ entries.getLast? = some last ∧
        last.1 ≤ first.1 := by
  rw [startsSync] at h
  split at h
  case h_1 first last hfirst hlast =>
    simp only [Bool.and_eq_true, decide_eq_true_eq] at h
    have hzero := (readList_highestSeen state entries).syncEnd.symm.trans h.1
    have hbars : (readList state entries).bars = entries.map received :=
      (foldl_readEntry_start entries hzero).1
    rw [hbars, head?_map] at hfirst
    rw [hbars, getLast?_map] at hlast
    obtain ⟨e, he, rfl⟩ := Option.map_eq_some_iff.mp hfirst
    obtain ⟨e', he', rfl⟩ := Option.map_eq_some_iff.mp hlast
    exact ⟨hzero, hbars, e, e', he, he', h.2⟩
  case h_2 => exact nomatch h

/-- A list whose last token is not larger than its first one is in descending order. -/
theorem descending_of_last_le
    (hordered : (entry :: rest).Pairwise (fun a b => a.1 < b.1) ∨
      (entry :: rest).Pairwise (fun a b => b.1 < a.1)) {last : ℕ × Option Bar}
    (hlast : (entry :: rest).getLast? = some last) (hle : last.1 ≤ entry.1) :
    (entry :: rest).Pairwise (fun a b => b.1 < a.1) := by
  rcases hordered with hordered | hordered
  · cases rest with
    | nil => exact pairwise_singleton ..
    | cons next rest =>
      rw [getLast?_cons_cons] at hlast
      exact absurd hle (not_le.mpr (rel_of_pairwise_cons hordered (mem_of_getLast? hlast)))
  · exact hordered

/-- The window starts at the first token of a list, and is extended downwards over the others. -/
theorem cacheLoop_start {added added' : Bool}
    (hrun : cacheLoop interesting now s added ((entry :: rest).map received) = .ok (s', added'))
    (hlisted : Listed t (entry :: rest))
    (hordered : (entry :: rest).Pairwise (fun a b => b.1 < a.1))
    (hstart : s.state.syncStart = entry.1) (hend : s.state.syncEnd = entry.1)
    (hhighest : s.state.highestSeen = entry.1) (hbars : s.state.bars = [])
    (hremembered : Remembered s) : Window t s' := by
  obtain ⟨s₁, r, hcache, hloop⟩ := cacheLoop_cons (by rw [hbars]; decide) hrun
  have hstart₁ : s₁.state.syncStart = entry.1 := by
    rw [hcache.syncStart, hstart]
    exact min_self _
  have hend₁ : s₁.state.syncEnd = entry.1 := by
    rw [hcache.syncEnd, hend]
    exact max_self _
  have hbelow : ∀ e ∈ rest, e.1 < entry.1 := fun e he => rel_of_pairwise_cons hordered he
  have hout : Outwards s₁.state rest := by
    refine ⟨fun e he => .inl (by rw [hstart₁]; exact hbelow e he), ?_⟩
    refine hordered.of_cons.imp_of_mem fun ha _ hab => ⟨fun habove _ => ?_, fun _ _ => hab⟩
    have := hbelow _ ha
    omega
  have hext := (cacheLoop_spec hloop).outwards hout.received
  have hend' : s'.state.syncEnd = entry.1 := by
    rcases hext.syncEnd with hsame | ⟨e, he, heq⟩
    · exact hsame.trans hend₁
    · obtain ⟨e', he', rfl⟩ := mem_map.mp he
      have hlt : (received e').1 < entry.1 := hbelow e' he'
      have := hext.le_end
      omega
  have hle := hlisted.le_largest entry mem_cons_self
  refine ⟨?_, hend'.trans_le hle, ?_, ?_, ?_, ?_⟩
  · rw [hend', ← hstart₁]
    exact hext.start_le
  · rwa [hext.grown.highestSeen, hcache.grown.highestSeen, hhighest]
  · intro hzero
    rw [hend'] at hzero
    -- There is nothing below the lower bound.
    cases rest with
    | nil =>
      cases hloop
      exact (hcache.bars hzero).trans hbars
    | cons next rest =>
      have hlt : next.1 < entry.1 := rel_of_pairwise_cons hordered mem_cons_self
      omega
  · intro row hrow hge hrowle
    obtain ⟨e, he, heq⟩ : ∃ e ∈ entry :: rest, s'.state.syncStart = e.1 := by
      rcases hext.syncStart with hsame | ⟨e, he, heq⟩
      · exact ⟨entry, mem_cons_self, hsame.trans hstart₁⟩
      · obtain ⟨e', he', rfl⟩ := mem_map.mp he
        exact ⟨e', mem_cons_of_mem _ he', heq⟩
    have hlist := hlisted.complete row hrow e he entry mem_cons_self (heq ▸ hge)
      (hend' ▸ hrowle)
    rcases mem_cons.mp hlist with hfirst | hrest
    · rw [← hfirst] at hcache
      exact (hcache.checked.grown hext.grown).row
    · exact (hext.checked _ (mem_map_of_mem hrest) hge hrowle).row
  · exact hext.grown.remembered (hcache.grown.remembered hremembered)

/-- The case in which a list starts the window. -/
theorem Window.start (h : Window t s) (hlisted : Listed t entries)
    (hr : r = readList s.state entries) (hstarts : startsSync r = true)
    (hhighest : ∀ entry ∈ entries.head?, s.state.highestSeen ≤ entry.1)
    (hrun : Rhizome.cacheFrom interesting now
      { s with state := { r.state with
        syncStart := r.state.highestSeen, syncEnd := r.state.highestSeen } } r.bars 0 = .ok s') :
    Window t s' := by
  subst hr
  have htracked := readList_highestSeen s.state entries
  obtain ⟨hend, hbars, entry, last, hfirst, hlast, hle⟩ := startsSync_readList hstarts
  rw [hbars] at hrun
  obtain ⟨rest, rfl⟩ := head?_eq_some_iff.mp hfirst
  have hordered := descending_of_last_le hlisted.ordered hlast hle
  have hlargest : ∀ token ∈ (entry :: rest).map Prod.fst, token ≤ entry.1 :=
    forall_mem_map.mpr (forall_mem_cons.mpr
      ⟨le_rfl, fun e he => (rel_of_pairwise_cons hordered he).le⟩)
  have hseen : (readList s.state (entry :: rest)).state.highestSeen = entry.1 :=
    le_antisymm (htracked.highest_le _ (hhighest entry rfl) hlargest)
      (htracked.seen entry.1 mem_cons_self)
  obtain ⟨s₁, s₂, added, hloop, hsome, -, heq⟩ := cacheFrom_spec hrun
  obtain rfl : s₂ = s₁ := by
    cases hsome
    rfl
  have hwindow := cacheLoop_start hloop hlisted hordered hseen hseen hseen
    (htracked.bars.trans (h.bars hend)) h.remembered
  rw [heq]
  exact hwindow.congr rfl rfl rfl rfl hwindow.highest_le id

/-- A list that could start the window has the largest token that was seen as its first one. -/
def startsAtEnd (now : ℕ) (s : Syncing) (payload : List Byte) : Bool :=
  let s := Rhizome.restart now s
  match (decodeBars payload).head?, (decodeBars payload).getLast? with
  | some first, some last =>
    s.state.syncEnd ≠ 0 || first.1 < last.1 || s.state.highestSeen ≤ first.1
  | _, _ => true

theorem startsAtEnd_response (hlisted : Listed t entries) (hlargest : t.largest < 2 ^ 31)
    (hr : r = reading (Rhizome.restart now s) (decodeBars (responsePayload entries)))
    (hend : startsAtEnd now s (responsePayload entries) = true) (hstarts : startsSync r = true) :
    ∀ entry ∈ entries.head?, (Rhizome.restart now s).state.highestSeen ≤ entry.1 := by
  rw [hr, reading_response hlisted hlargest] at hstarts
  obtain ⟨hempty, -, e, e', he, he', hle⟩ := startsSync_readList hstarts
  rw [startsAtEnd, decodeBars_response hlisted hlargest] at hend
  intro entry hentry
  obtain rfl : e = entry := Option.some.inj (he.symm.trans hentry)
  have hcases : e.1 < e'.1 ∨ (Rhizome.restart now s).state.highestSeen ≤ e.1 := by
    simpa [head?_map, getLast?_map, he, he', hempty] using hend
  exact hcases.resolve_left (not_lt.mpr hle)

/-- Every list of BARs keeps the window. -/
theorem Window.syncProcessBarList (h : Window t s) (hlisted : Listed t entries)
    (hlargest : t.largest < 2 ^ 31) (hend : startsAtEnd now s (responsePayload entries) = true)
    (hrun : syncProcessBarList interesting now s (responsePayload entries) = .ok s') :
    Window t s' := by
  have hwindow := h.restart now
  have hstart := startsAtEnd_response hlisted hlargest rfl hend
  have hreading := reading_response (s := Rhizome.restart now s) hlisted hlargest
  rw [Rhizome.syncProcessBarList] at hrun
  generalize Rhizome.restart now s = s₀ at *
  generalize reading s₀ (decodeBars (responsePayload entries)) = r at *
  by_cases hstarts : startsSync r = true
  · simp only [hstarts, if_true] at hrun
    exact hwindow.start hlisted hreading hstarts (hstart hstarts) hrun
  have htracked := readList_highestSeen s₀.state entries
  rw [← hreading] at htracked
  simp only [hstarts] at hrun
  split at hrun
  case h_1 =>
    cases hrun
    exact hwindow.tracked hlisted htracked
  case h_2 mid hmid =>
    refine hwindow.cacheFrom hlisted ?_ hreading hmid hrun
    intro hzero
    obtain ⟨-, hbefore, -, hnone⟩ := foldl_readEntry_start entries
      (r := ⟨s₀.state, [], false, false, none⟩) hzero
    rw [← readList, ← hreading] at hbefore hnone
    rw [midPoint, hbefore, hnone] at hmid
    exact absurd hmid (by simp)

end Window

end ServalMesh.Rhizome
