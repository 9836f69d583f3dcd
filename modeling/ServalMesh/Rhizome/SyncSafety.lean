import ServalMesh.Rhizome.SyncWindow

/-!
# Lists of BARs from anybody

Whatever is received, the lists of BARs stay within their bounds. An entry whose BAR is all zero is
kept as a NULL pointer, and its BAR is looked at nevertheless if it has a token.
-/

namespace ServalMesh.Rhizome

open List Overlay

/-- `state->bar_count`. -/
def Syncing.barCount (s : Syncing) : ℕ := s.state.bars.length

/-- `state->bars` is not NULL after the call. A restart forgets it, and it is allocated for the
first BAR that is remembered. -/
def barsAllocated (now : ℕ) (allocated : Bool) (s s' : Syncing) : Bool :=
  allocated && now - s.state.startTime ≤ 60 * 60 * 1000 || (restart now s).barCount < s'.barCount

/-- The entry has a token but no BAR. -/
def Bare (entry : ℕ × Option Bar) : Prop := entry.1 ≠ 0 ∧ entry.2 = none

section Message

variable {bytes : List Byte} {entries read done before after : List (ℕ × Bar)} {entry : ℕ × Bar}
  {state : RhizomeSync} {r : Reading}

/-- The tokens and BARs of a payload, up to an entry that is not complete. -/
inductive Entries : List Byte → List (ℕ × Bar) → Prop
  | stop {bytes : List Byte} : (obGetPackedUi64 bytes).2.length < rhizomeBarBytes → Entries bytes []
  | entry {bytes rest : List Byte} {token : BitVec 64} {bar : Bar} {entries : List (ℕ × Bar)} :
      obGetPackedUi64 bytes = (token, bar.bytes ++ rest) → Entries rest entries →
        Entries bytes ((token.toNat, bar) :: entries)

theorem Entries.decodeBars (h : Entries bytes entries) : decodeBars bytes = entries := by
  induction h with
  | stop hshort => rw [Rhizome.decodeBars, dif_neg (by rw [length_take]; omega)]
  | @entry bytes rest token bar entries hfirst _ ih =>
    have htake : (bar.bytes ++ rest).take rhizomeBarBytes = bar.bytes := take_left' bar.size
    have hdrop : (bar.bytes ++ rest).drop rhizomeBarBytes = rest := drop_left' bar.size
    rw [Rhizome.decodeBars]
    simp only [hfirst, htake, hdrop, bar.size, dite_true, ih]

theorem entries_decodeBars (bytes : List Byte) : Entries bytes (decodeBars bytes) := by
  fun_induction decodeBars bytes with
  | case1 bytes hfull ih => exact .entry (Prod.ext rfl (take_append_drop _ _).symm) ih
  | case2 bytes hshort =>
    refine .stop ?_
    rw [length_take] at hshort
    omega

/-- Without a window, or not in it. -/
def outside (state : RhizomeSync) (entry : ℕ × Bar) : Bool :=
  state.syncEnd = 0 || entry.1 < state.syncStart || state.syncEnd < entry.1

/-- The entries until so many of them are kept. -/
def readUntil (kept : ℕ × Bar → Bool) : ℕ → List (ℕ × Bar) → List (ℕ × Bar)
  | 0, _ => []
  | _ + 1, [] => []
  | n + 1, entry :: entries => entry :: readUntil kept (if kept entry then n else n + 1) entries

/-- There is something up to the end of the window, and something from its start on. -/
def Touches (state : RhizomeSync) (entries : List (ℕ × Bar)) : Prop :=
  (∃ entry ∈ entries, entry.1 ≤ state.syncEnd) ∧ ∃ entry ∈ entries, state.syncStart ≤ entry.1

/-- An entry is looked up, if nothing before it is interesting. The first list starts the window if
its tokens do not ascend. Another one has to touch the window: what follows then has more space than
what came before. -/
def Reached (state : RhizomeSync) (before : List (ℕ × Bar)) (entry : ℕ × Bar)
    (after : List (ℕ × Bar)) : Prop :=
  if state.syncEnd = 0 then
    state.bars.length < cacheBars ∧ ∃ first ∈ (before ++ entry :: after).head?,
      ∃ last ∈ (before ++ entry :: after).getLast?, last.1 ≤ first.1
  else
    outside state entry ∧ Touches state (before ++ entry :: after) ∧
      (state.bars.length < maxOldBars ∨ state.bars.length < cacheBars ∧
        (Touches state (before ++ [entry]) ∨ ∀ later ∈ after, outside state later = false))

/-- No entry with a token but without a BAR is looked up. -/
def NoBareReached (now : ℕ) (s : Syncing) (payload : List Byte) : Prop :=
  ∀ entries before entry after, Entries payload entries →
    readUntil (outside (restart now s).state) barsPerResponse entries = before ++ entry :: after →
    entry.1 ≠ 0 → rhizomeIsBarNone entry.2 = true →
      ¬Reached (restart now s).state before entry after

/-- An entry as it is kept. -/
def keptEntry (entry : ℕ × Bar) : ℕ × Option Bar :=
  (entry.1, if rhizomeIsBarNone entry.2 then none else some entry.2)

theorem Touches.mono (h : Touches state before) (hsub : before ⊆ after) : Touches state after :=
  ⟨h.1.imp fun _ he => ⟨hsub he.1, he.2⟩, h.2.imp fun _ he => ⟨hsub he.1, he.2⟩⟩

/-- What is known after some entries were read, if there is a window. The mid point is the first one
that is kept where they touch the window. -/
structure Read (state : RhizomeSync) (done : List (ℕ × Bar)) (r : Reading) : Prop where
  syncStart : r.state.syncStart = state.syncStart
  syncEnd : r.state.syncEnd = state.syncEnd
  bars : r.bars = (done.filter (outside state)).map keptEntry
  hasBefore : r.hasBefore = true ↔ ∃ entry ∈ done, entry.1 ≤ state.syncEnd
  hasAfter : r.hasAfter = true ↔ ∃ entry ∈ done, state.syncStart ≤ entry.1
  found : ∀ mid, r.midPoint = some mid → Touches state done ∧ mid < r.bars.length
  midPoint : ∀ before entry after, done = before ++ entry :: after → outside state entry →
    (Touches state (before ++ [entry]) ↔
      ∃ mid, r.midPoint = some mid ∧ mid ≤ (before.filter (outside state)).length)

theorem readBar_window (hend : r.state.syncEnd ≠ 0) (entry : ℕ × Bar) :
    (readBar r entry.1 entry.2).bars =
        r.bars ++ (if outside r.state entry then [keptEntry entry] else []) ∧
      (readBar r entry.1 entry.2).hasBefore = (r.hasBefore || entry.1 ≤ r.state.syncEnd) ∧
      (readBar r entry.1 entry.2).hasAfter = (r.hasAfter || r.state.syncStart ≤ entry.1) ∧
      (readBar r entry.1 entry.2).midPoint =
        if outside r.state entry ∧ (readBar r entry.1 entry.2).hasBefore = true ∧
          (readBar r entry.1 entry.2).hasAfter = true ∧ r.midPoint = none then some r.bars.length
        else r.midPoint := by
  have htracked := trackHighest_highestSeen r.state entry.1
  rw [readBar]
  simp only [htracked.syncEnd, htracked.syncStart, hend, if_false, outside, keptEntry]
  split
  case isTrue hin => simp [hin]
  case isFalse hout =>
    have hout' : entry.1 < r.state.syncStart ∨ r.state.syncEnd < entry.1 := by omega
    simp [hout', Option.isNone_iff_eq_none, and_assoc]

theorem Read.readBar (h : Read state done r) (hend : state.syncEnd ≠ 0) (entry : ℕ × Bar) :
    Read state (done ++ [entry]) (readBar r entry.1 entry.2) := by
  have houtside : outside r.state = outside state := by
    funext e
    rw [outside, outside, h.syncStart, h.syncEnd]
  obtain ⟨hbars, hbefore, hafter, hmid⟩ := readBar_window (h.syncEnd.trans_ne hend) entry
  have htracked := trackHighest_highestSeen r.state entry.1
  rw [houtside] at hbars hmid
  rw [h.syncEnd] at hbefore
  rw [h.syncStart] at hafter
  have hbefore' : (Rhizome.readBar r entry.1 entry.2).hasBefore = true ↔
      ∃ e ∈ done ++ [entry], e.1 ≤ state.syncEnd := by
    simp [hbefore, h.hasBefore, or_and_right, exists_or]
  have hafter' : (Rhizome.readBar r entry.1 entry.2).hasAfter = true ↔
      ∃ e ∈ done ++ [entry], state.syncStart ≤ e.1 := by
    simp [hafter, h.hasAfter, or_and_right, exists_or]
  have hlength : r.bars.length = (done.filter (outside state)).length := by
    rw [h.bars, length_map]
  have htouches : _ ↔ Touches state (done ++ [entry]) := and_congr hbefore' hafter'
  have hkept : (Rhizome.readBar r entry.1 entry.2).bars =
      ((done ++ [entry]).filter (outside state)).map keptEntry := by
    rw [hbars, h.bars, filter_append, map_append]
    by_cases hout : outside state entry <;> simp [hout]
  refine ⟨?_, ?_, hkept, hbefore', hafter', fun mid hfound => ?_, ?_⟩
  · rw [readBar_state, htracked.syncStart, h.syncStart]
  · rw [readBar_state, htracked.syncEnd, h.syncEnd]
  · rw [hmid] at hfound
    split at hfound
    case isTrue hnew =>
      cases hfound
      rw [hbars, if_pos hnew.1, length_append]
      exact ⟨htouches.mp ⟨hnew.2.1, hnew.2.2.1⟩, Nat.lt_succ_self _⟩
    case isFalse =>
      obtain ⟨htouches, hlt⟩ := h.found mid hfound
      rw [hbars, length_append]
      exact ⟨htouches.mono (subset_append_left _ _), by omega⟩
  intro before e after hsplit hout
  rcases eq_nil_or_concat after with rfl | ⟨after', last, rfl⟩
  · obtain ⟨rfl, rfl⟩ : done = before ∧ entry = e := by simpa using hsplit
    rw [hmid, ← hlength]
    cases hnone : r.midPoint with
    | none => simp [← htouches, hout]
    | some mid =>
      obtain ⟨htouches, hlt⟩ := h.found mid hnone
      simpa [hlt.le] using htouches.mono (subset_append_left _ _)
  · obtain ⟨rfl, rfl⟩ : done = before ++ e :: after' ∧ entry = last := by
      have hconcat : done ++ [entry] = (before ++ e :: after') ++ [last] := by simpa using hsplit
      simpa using append_inj' hconcat rfl
    rw [h.midPoint before e after' rfl hout, hmid]
    have hlt : (before.filter (outside state)).length < r.bars.length := by
      rw [hlength, filter_append, filter_cons_of_pos hout, length_append, length_cons]
      omega
    cases hnone : r.midPoint with
    | none => simp [hlt.not_ge]
    | some mid => simp

theorem Read.nil (state : RhizomeSync) : Read state [] ⟨state, [], false, false, none⟩ :=
  ⟨rfl, rfl, rfl, by simp, by simp, by simp, by simp⟩

theorem Read.foldl (h : Read state done r) (hend : state.syncEnd ≠ 0) :
    Read state (done ++ entries)
      (entries.foldl (fun r entry => Rhizome.readBar r entry.1 entry.2) r) := by
  induction entries generalizing done r with
  | nil => rwa [append_nil]
  | cons entry entries ih =>
    rw [append_cons]
    exact ih (h.readBar hend entry)

/-- A bare entry is kept as one. -/
theorem bare_keptEntry :
    Bare (keptEntry entry) ↔ entry.1 ≠ 0 ∧ rhizomeIsBarNone entry.2 = true := by
  simp [Bare, keptEntry]

theorem readBar_bars (r : Reading) (entry : ℕ × Bar) :
    (readBar r entry.1 entry.2).bars =
      r.bars ++ if outside r.state entry then [keptEntry entry] else [] := by
  by_cases hend : r.state.syncEnd = 0
  · have htracked := (trackHighest_highestSeen r.state entry.1).syncEnd
    simp [readBar, htracked, hend, outside, keptEntry]
  · exact (readBar_window hend entry).1

theorem readBars_eq (r : Reading) (entries : List (ℕ × Bar)) : readBars r entries =
    (readUntil (outside r.state) (barsPerResponse - r.bars.length) entries).foldl
      (fun r entry => readBar r entry.1 entry.2) r := by
  induction entries generalizing r with
  | nil => cases barsPerResponse - r.bars.length <;> rfl
  | cons entry entries ih =>
    have htracked := trackHighest_highestSeen r.state entry.1
    have houtside : outside (readBar r entry.1 entry.2).state = outside r.state := by
      funext e
      rw [outside, outside, readBar_state, htracked.syncStart, htracked.syncEnd]
    have hbars := congrArg length (readBar_bars r entry)
    rw [readBars]
    split
    case isTrue hfull =>
      rw [Nat.sub_eq_zero_of_le hfull]
      rfl
    case isFalse hroom =>
      obtain ⟨n, hn⟩ : ∃ n, barsPerResponse - r.bars.length = n + 1 :=
        Nat.exists_eq_succ_of_ne_zero (by omega)
      rw [ih, houtside, hn, readUntil, foldl_cons, hbars, length_append]
      congr 2
      split <;> simp <;> omega

/-- An entry that is kept has as many before it in the list as there are kept before it. -/
theorem forall_kept {kept : ℕ × Bar → Bool} {P : ℕ → ℕ × Option Bar → Prop} :
    (∀ i x, ((read.filter kept).map keptEntry)[i]? = some x → P i x) ↔
      ∀ before entry after, read = before ++ entry :: after → kept entry →
        P (before.filter kept).length (keptEntry entry) := by
  constructor
  · rintro h before entry after rfl hkept
    exact h _ _ (by simp [hkept])
  · intro h i x hx
    obtain ⟨entry, hentry, rfl⟩ : ∃ entry, (read.filter kept)[i]? = some entry ∧
        keptEntry entry = x := by simpa using hx
    obtain ⟨hi, hget⟩ := List.getElem?_eq_some_iff.mp hentry
    have hsplit := (take_append_drop i (read.filter kept)).symm
    rw [drop_eq_getElem_cons hi, hget] at hsplit
    obtain ⟨before, rest, rfl, hbefore, hrest⟩ := filter_eq_append_iff.mp hsplit
    obtain ⟨skipped, after, rfl, hskipped, hkept, -⟩ := filter_eq_cons_iff.mp hrest
    have hlength : ((before ++ skipped).filter kept).length = i := by
      rw [filter_append, hbefore, filter_eq_nil_iff.mpr hskipped, append_nil, length_take]
      omega
    have := h (before ++ skipped) entry after (append_assoc ..).symm hkept
    rwa [hlength] at this

/-- With so many BARs in the list, no bare entry is reached from the mid point on or before it. -/
def Passable (count : ℕ) (bars : List (ℕ × Option Bar)) (mid : ℕ) : Prop :=
  (count < cacheBars → ∀ entry ∈ bars.drop mid, ¬Bare entry) ∧
    (count < maxOldBars → ∀ entry ∈ bars.take mid, ¬Bare entry)

theorem passable_iff {bars : List (ℕ × Option Bar)} {count mid : ℕ} :
    Passable count bars mid ↔ ∀ i entry, bars[i]? = some entry → Bare entry →
      ¬(count < maxOldBars ∨ count < cacheBars ∧ mid ≤ i) := by
  have hle : maxOldBars ≤ cacheBars := by decide
  constructor
  · rintro ⟨hfrom, hbefore⟩ i entry hi hbare hcount
    rcases le_or_gt mid i with hmid | hmid
    · refine hfrom (by omega) entry (mem_iff_getElem?.mpr ⟨i - mid, ?_⟩) hbare
      rwa [getElem?_drop, Nat.add_sub_cancel' hmid]
    · refine hbefore (by omega) entry (mem_iff_getElem?.mpr ⟨i, ?_⟩) hbare
      rwa [getElem?_take_of_lt hmid]
  · intro h
    refine ⟨fun hcount entry hmem hbare => ?_, fun hcount entry hmem hbare => ?_⟩
    · obtain ⟨i, hi⟩ := mem_iff_getElem?.mp hmem
      rw [getElem?_drop] at hi
      exact h _ entry hi hbare (.inr ⟨hcount, Nat.le_add_right ..⟩)
    · obtain ⟨i, hi⟩ := mem_iff_getElem?.mp (mem_of_mem_take hmem)
      exact h i entry hi hbare (.inl hcount)

/-- No bare entry of what was read is looked up. -/
def NoneReached (state : RhizomeSync) (read : List (ℕ × Bar)) : Prop :=
  ∀ before entry after, read = before ++ entry :: after → Bare (keptEntry entry) →
    ¬Reached state before entry after

/-- What is looked up of the first list. -/
theorem passable_start (hend : state.syncEnd = 0) {r : Reading}
    (hr : r = read.foldl (fun r entry => readBar r entry.1 entry.2)
      ⟨state, [], false, false, none⟩) :
    (∀ mid, (if startsSync r then some 0 else midPoint r) = some mid →
        Passable state.bars.length r.bars mid) ↔ NoneReached state read := by
  have hfold : r = (read.map fun entry => (entry.1, some entry.2)).foldl readEntry
      ⟨state, [], false, false, none⟩ := by
    rw [hr, foldl_map]
    rfl
  have hhighest := readList_highestSeen state (read.map fun entry => (entry.1, some entry.2))
  obtain ⟨hbars, hbefore, -, hmid⟩ := foldl_readEntry_start
    (r := ⟨state, [], false, false, none⟩) (read.map fun entry => (entry.1, some entry.2)) hend
  rw [readList, ← hfold] at hhighest
  rw [← hfold] at hbars hbefore hmid
  have hkept : r.bars = read.map keptEntry := by
    rw [hbars, nil_append, map_map]
    rfl
  have hnone : midPoint r = none := by
    rw [midPoint, hbefore, hmid]
    simp
  have hstarts : startsSync r = true ↔
      ∃ first ∈ read.head?, ∃ last ∈ read.getLast?, last.1 ≤ first.1 := by
    rw [startsSync, hkept, hhighest.syncEnd, hend, head?_map, getLast?_map]
    cases read.head? <;> cases read.getLast? <;> simp [keptEntry]
  have hle : maxOldBars ≤ cacheBars := by decide
  simp only [hnone, passable_iff, hkept]
  constructor
  · intro h before entry after hsplit hbare hreached
    rw [Reached, if_pos hend, ← hsplit, ← hstarts] at hreached
    have hentry : (read.map keptEntry)[before.length]? = some (keptEntry entry) := by simp [hsplit]
    exact h 0 (if_pos hreached.2) _ _ hentry hbare (.inr ⟨hreached.1, Nat.zero_le _⟩)
  · intro h mid hmid i x hx hbare hcount
    split at hmid
    case isTrue hfirst =>
      obtain ⟨entry, hentry, rfl⟩ := mem_map.mp (mem_of_getElem? hx)
      obtain ⟨before, after, hsplit⟩ := append_of_mem hentry
      refine h before entry after hsplit hbare ?_
      rw [Reached, if_pos hend, ← hsplit]
      exact ⟨by omega, hstarts.mp hfirst⟩
    case isFalse => cases hmid

/-- What is looked up of another list. -/
theorem passable_window (hend : state.syncEnd ≠ 0) {r : Reading} (h : Read state read r) :
    (∀ mid, (if startsSync r then some 0 else midPoint r) = some mid →
        Passable state.bars.length r.bars mid) ↔ NoneReached state read := by
  have hstarts : startsSync r = false := by
    rw [startsSync]
    split <;> simp [h.syncEnd, hend]
  -- the mid point, seen from an entry that is kept
  have hmid : ∀ before entry after, read = before ++ entry :: after → outside state entry →
      (Touches state read ∧ (state.bars.length < maxOldBars ∨ state.bars.length < cacheBars ∧
        (Touches state (before ++ [entry]) ∨ ∀ later ∈ after, outside state later = false)) ↔
      ∃ mid, midPoint r = some mid ∧ (state.bars.length < maxOldBars ∨
        state.bars.length < cacheBars ∧ mid ≤ (before.filter (outside state)).length)) := by
    intro before entry after hsplit hout
    have htouches := h.midPoint before entry after hsplit hout
    have hlength : r.bars.length =
        (before.filter (outside state)).length + 1 + (after.filter (outside state)).length := by
      rw [h.bars, hsplit, length_map, filter_append, filter_cons_of_pos hout, length_append,
        length_cons]
      omega
    have hlast : (∀ later ∈ after, outside state later = false) ↔
        (after.filter (outside state)).length = 0 := by
      simp [length_eq_zero_iff, filter_eq_nil_iff]
    rw [hlast, htouches, Rhizome.midPoint]
    cases hfound : r.midPoint with
    | some mid =>
      obtain ⟨hread, hlt⟩ := h.found mid hfound
      simp only [hread, reduceCtorEq, and_false, if_false, Option.some.injEq, exists_eq_left',
        true_and]
      omega
    | none =>
      have hne : r.bars ≠ [] := ne_nil_of_length_pos (by omega)
      have hboth : r.hasBefore = true ∧ r.hasAfter = true ↔ Touches state read :=
        and_congr h.hasBefore h.hasAfter
      by_cases hread : Touches state read
      · obtain ⟨hbefore, hafter⟩ := hboth.mpr hread
        simp only [hread, hne, hbefore, hafter, ne_eq, not_false_eq_true, and_self, if_true,
          Option.some.injEq, exists_eq_left', true_and, reduceCtorEq, false_and, exists_false,
          false_or]
        omega
      · have hnot : ¬(r.bars ≠ [] ∧ r.hasBefore = true ∧ r.hasAfter = true ∧
            (none : Option ℕ) = none) := fun hcond => hread (hboth.mp ⟨hcond.2.1, hcond.2.2.1⟩)
        rw [if_neg hnot]
        simp [hread]
  simp only [hstarts, Bool.false_eq_true, if_false, passable_iff, h.bars]
  have hkept := @forall_kept read (outside state) fun i x => Bare x →
    ∀ mid, Rhizome.midPoint r = some mid →
    ¬(state.bars.length < maxOldBars ∨ state.bars.length < cacheBars ∧ mid ≤ i)
  constructor
  · intro hpass before entry after hsplit hbare hreached
    rw [Reached, if_neg hend, ← hsplit] at hreached
    obtain ⟨mid, hmid', hcount⟩ := (hmid before entry after hsplit hreached.1).mp hreached.2
    exact hkept.mp (fun i x hx hb mid hm => hpass mid hm i x hx hb) before entry after hsplit
      hreached.1 hbare mid hmid' hcount
  · intro hsafe mid hm i x hx hb
    refine hkept.mpr (fun before entry after hsplit hout hbare mid hm hcount => ?_) i x hx hb mid hm
    refine hsafe before entry after hsplit hbare ?_
    rw [Reached, if_neg hend, ← hsplit]
    exact ⟨hout, (hmid before entry after hsplit hout).mpr ⟨mid, hm, hcount⟩⟩

theorem noBareReached_iff (now : ℕ) (s : Syncing) (payload : List Byte) :
    NoBareReached now s payload ↔
      ∀ mid, (if startsSync (reading (restart now s) (decodeBars payload)) then some 0
        else midPoint (reading (restart now s) (decodeBars payload))) = some mid →
        Passable (restart now s).barCount
          (reading (restart now s) (decodeBars payload)).bars mid := by
  rw [NoBareReached]
  generalize restart now s = s
  have hentries : (∀ entries before entry after, Entries payload entries →
      readUntil (outside s.state) barsPerResponse entries = before ++ entry :: after →
      entry.1 ≠ 0 → rhizomeIsBarNone entry.2 = true → ¬Reached s.state before entry after) ↔
      NoneReached s.state (readUntil (outside s.state) barsPerResponse (decodeBars payload)) := by
    constructor
    · intro h before entry after hread hbare
      obtain ⟨htoken, hnone⟩ := bare_keptEntry.mp hbare
      exact h _ before entry after (entries_decodeBars payload) hread htoken hnone
    · intro h entries before entry after hwire hread htoken hnone
      rw [← hwire.decodeBars] at hread
      exact h before entry after hread (bare_keptEntry.mpr ⟨htoken, hnone⟩)
  have hreading : reading s (decodeBars payload) = _ := readBars_eq _ _
  rw [hentries]
  by_cases hend : s.state.syncEnd = 0
  · exact (passable_start hend hreading).symm
  · rw [hreading]
    exact (passable_window hend ((Read.nil s.state).foldl hend)).symm

end Message

section Loops

variable (interesting : Bar → Bool) (now : ℕ) {s s₁ : Syncing} {limit : ℕ}
  {entries rest : List (ℕ × Option Bar)} {result : Except Abort Syncing}

/-- The entries were cached as long as there were fewer BARs than `limit`. If none of them is
interesting, they were all looked at. -/
def Ends (limit : ℕ) (s : Syncing) (entries : List (ℕ × Option Bar)) : Except Abort Syncing → Prop
  | .error _ => s.barCount < limit ∧ ∃ entry ∈ entries, Bare entry
  | .ok s' => (s.barCount ≤ s'.barCount ∧ s'.barCount ≤ max s.barCount cacheBars) ∧
      ((∀ bar, interesting bar = false) → s'.barCount = s.barCount ∧
        (s.barCount < limit → ∀ entry ∈ entries, ¬Bare entry))

variable {interesting}

theorem Ends.append (h : Ends interesting limit s entries (.ok s₁))
    (hrest : Ends interesting limit s₁ rest result) :
    Ends interesting limit s (entries ++ rest) result := by
  obtain ⟨⟨hge, hle⟩, hquiet⟩ := h
  cases result with
  | error =>
    obtain ⟨hlt, entry, hmem, hbare⟩ := hrest
    exact ⟨hge.trans_lt hlt, entry, mem_append_right _ hmem, hbare⟩
  | ok s' =>
    obtain ⟨⟨hge', hle'⟩, hquiet'⟩ := hrest
    refine ⟨⟨hge.trans hge', by omega⟩, fun hall => ?_⟩
    obtain ⟨hcount, hnot⟩ := hquiet hall
    obtain ⟨hcount', hnot'⟩ := hquiet' hall
    rw [hcount] at hcount' hnot'
    exact ⟨hcount', fun hlt => forall_mem_append.mpr ⟨hnot hlt, hnot' hlt⟩⟩

theorem Ends.stop (h : limit ≤ s.barCount) : Ends interesting limit s entries (.ok s) :=
  ⟨⟨le_rfl, le_max_left _ _⟩, fun _ => ⟨rfl, fun hlt => absurd hlt (not_lt.mpr h)⟩⟩

variable (interesting)

theorem syncCacheBar_ends (s : Syncing) (entry : ℕ × Option Bar) : Ends interesting cacheBars s
    [entry] ((syncCacheBar interesting now s entry.2 entry.1).map Prod.fst) := by
  obtain ⟨token, bar⟩ := entry
  unfold syncCacheBar
  split
  case isTrue hfull => exact .stop hfull
  rename_i hroom
  have hlt : s.barCount < cacheBars := not_le.mp hroom
  split
  case isTrue hzero =>
    have hcount : ({ s with state := extendWindow s.state token } : Syncing).barCount =
      s.barCount :=
      congrArg length (extendWindow_spec s.state token).2.2.2
    refine ⟨⟨hcount.ge, hcount.le.trans (le_max_left _ _)⟩, fun _ => ⟨hcount, fun _ => ?_⟩⟩
    exact forall_mem_singleton.mpr fun h => h.1 hzero
  case isFalse htoken =>
    cases bar with
    | none => exact ⟨hlt, _, mem_singleton_self _, htoken, rfl⟩
    | some bar =>
      have hcount : ({ checkBar interesting now s bar token with
          state := extendWindow (checkBar interesting now s bar token).state token } :
            Syncing).barCount = s.barCount + if interesting bar then 1 else 0 := by
        rw [Syncing.barCount, (extendWindow_spec _ token).2.2.2, checkBar]
        split <;> simp [Syncing.barCount, *]
      refine ⟨⟨hcount ▸ Nat.le_add_right _ _, ?_⟩, fun hall => ⟨?_, fun _ => ?_⟩⟩
      · rw [hcount]
        split <;> omega
      · exact hcount.trans (by rw [hall bar]; rfl)
      · exact forall_mem_singleton.mpr fun h => by cases h.2

theorem cacheLoop_ends (s : Syncing) (added : Bool) (entries : List (ℕ × Option Bar)) :
    Ends interesting cacheBars s entries
      ((cacheLoop interesting now s added entries).map Prod.fst) := by
  induction entries generalizing s added with
  | nil => exact ⟨⟨le_rfl, le_max_left _ _⟩, fun _ => ⟨rfl, nofun⟩⟩
  | cons entry entries ih =>
    have hstep := syncCacheBar_ends interesting now s entry
    rw [cacheLoop]
    generalize syncCacheBar interesting now s entry.2 entry.1 = result at hstep ⊢
    rcases result with _ | ⟨s₁, r⟩
    · obtain ⟨hlt, entry', hmem, hbare⟩ := hstep
      exact ⟨hlt, entry', mem_append_left entries hmem, hbare⟩
    · exact hstep.append (ih s₁ (added || r))

theorem cacheOldLoop_ends (s : Syncing) (added : Bool) (entries : List (ℕ × Option Bar)) :
    Ends interesting maxOldBars s entries
      ((cacheOldLoop interesting now s added entries).map Prod.fst) := by
  induction entries generalizing s added with
  | nil => exact ⟨⟨le_rfl, le_max_left _ _⟩, fun _ => ⟨rfl, nofun⟩⟩
  | cons entry entries ih =>
    have hstep := syncCacheBar_ends interesting now s entry
    rw [cacheOldLoop]
    by_cases hold : maxOldBars ≤ s.state.bars.length
    · rw [if_pos hold]
      exact .stop hold
    rw [if_neg hold]
    generalize syncCacheBar interesting now s entry.2 entry.1 = result at hstep ⊢
    rcases result with _ | ⟨s₁, r⟩
    · obtain ⟨-, entry', hmem, hbare⟩ := hstep
      exact ⟨not_le.mp hold, entry', mem_append_left entries hmem, hbare⟩
    · have hlt : s.barCount < cacheBars := (not_le.mp hold).trans (by decide)
      have hstep' : Ends interesting maxOldBars s [entry] (.ok s₁) :=
        ⟨hstep.1, fun hall => ⟨(hstep.2 hall).1, fun _ => (hstep.2 hall).2 hlt⟩⟩
      exact hstep'.append (ih s₁ (added || r))

/-- The cache fails only at a bare entry, and at any if nothing is interesting. -/
theorem cacheFrom_ends (s : Syncing) (bars : List (ℕ × Option Bar)) (mid : ℕ) :
    match cacheFrom interesting now s bars mid with
    | .error _ => ¬Passable s.barCount bars mid
    | .ok s' => (s.barCount ≤ s'.barCount ∧ s'.barCount ≤ max s.barCount cacheBars) ∧
      ((∀ bar, interesting bar = false) → Passable s.barCount bars mid) := by
  have hfirst := cacheLoop_ends interesting now s false (bars.drop mid)
  rw [cacheFrom]
  generalize cacheLoop interesting now s false (bars.drop mid) = result at hfirst ⊢
  rcases result with _ | ⟨s₁, added⟩
  · obtain ⟨hlt, entry, hmem, hbare⟩ := hfirst
    exact fun h => h.1 hlt entry hmem hbare
  obtain ⟨⟨hge, hle⟩, hquiet⟩ := hfirst
  have hthen := cacheOldLoop_ends interesting now s₁ added (bars.take mid).reverse
  dsimp only
  generalize cacheOldLoop interesting now s₁ added (bars.take mid).reverse = result at hthen ⊢
  rcases result with _ | ⟨s₂, added'⟩
  · obtain ⟨hlt, entry, hmem, hbare⟩ := hthen
    exact fun h => h.2 (hge.trans_lt hlt) entry (mem_reverse.mp hmem) hbare
  obtain ⟨⟨hge', hle'⟩, hquiet'⟩ := hthen
  have hcount : (if added' then { s₂ with state := { s₂.state with nextRequest := now } }
      else s₂).barCount = s₂.barCount := by
    split <;> rfl
  dsimp only
  rw [hcount]
  refine ⟨⟨hge.trans hge', hle'.trans (max_le hle (le_max_right _ _))⟩, fun hall =>
    ⟨(hquiet hall).2, fun hlt entry hmem => ?_⟩⟩
  exact (hquiet' hall).2 ((hquiet hall).1.trans_lt hlt) entry (mem_reverse.mpr hmem)

end Loops

theorem readBars_spec (r : Reading) (entries : List (ℕ × Bar))
    (h : r.bars.length ≤ barsPerResponse) :
    (readBars r entries).bars.length ≤ barsPerResponse ∧
      (readBars r entries).state.bars = r.state.bars := by
  induction entries generalizing r with
  | nil => exact ⟨h, rfl⟩
  | cons entry entries ih =>
    rw [readBars]
    by_cases hfull : barsPerResponse ≤ r.bars.length
    · rw [if_pos hfull]
      exact ⟨h, rfl⟩
    · rw [if_neg hfull]
      have hlength := length_readBar_le r entry.1 entry.2
      obtain ⟨hle, hkept⟩ := ih (readBar r entry.1 entry.2) (by omega)
      rw [readBar_state, (trackHighest_highestSeen r.state entry.1).bars] at hkept
      exact ⟨hle, hkept⟩

theorem syncProcessBarList_ends (interesting : Bar → Bool) (now : ℕ) (s : Syncing)
    (payload : List Byte) :
    match syncProcessBarList interesting now s payload with
    | .error _ => ¬NoBareReached now s payload
    | .ok s' => ((restart now s).barCount ≤ s'.barCount ∧
        s'.barCount ≤ max (restart now s).barCount cacheBars) ∧
      ((∀ bar, interesting bar = false) → NoBareReached now s payload) := by
  obtain ⟨-, hkept⟩ := readBars_spec ⟨(restart now s).state, [], false, false, none⟩
    (decodeBars payload) (Nat.zero_le _)
  rw [noBareReached_iff, syncProcessBarList]
  dsimp only
  rw [← reading] at hkept
  generalize reading (restart now s) (decodeBars payload) = r at hkept ⊢
  obtain ⟨state, hstate⟩ : ∃ state, state = if startsSync r = true then { r.state with
    syncStart := r.state.highestSeen, syncEnd := r.state.highestSeen } else r.state := ⟨_, rfl⟩
  have hcount : ({ restart now s with state } : Syncing).barCount = (restart now s).barCount := by
    refine congrArg length (Eq.trans ?_ hkept)
    rw [hstate]
    split <;> rfl
  rw [← hstate]
  cases if startsSync r = true then some 0 else midPoint r with
  | none => exact ⟨⟨hcount.ge, hcount.le.trans (le_max_left _ _)⟩, by simp⟩
  | some mid =>
    have hends := cacheFrom_ends interesting now { restart now s with state } r.bars mid
    rw [hcount] at hends
    simpa only [Option.some.injEq, forall_eq'] using hends

/-- Whatever is received, the lists stay within their bounds. The call succeeds for whatever the
database has just if no bare entry is reached. -/
theorem syncProcessBarList_ok_iff (now : ℕ) (s : Syncing) (payload : List Byte) (allocated : Bool)
    (hcount : s.barCount ≤ cacheBars) (hallocated : 0 < s.barCount → allocated = true) :
    (reading (restart now s) (decodeBars payload)).bars.length ≤ barsPerResponse ∧
      (∀ interesting s', syncProcessBarList interesting now s payload = .ok s' →
        s'.barCount ≤ cacheBars ∧ (0 < s'.barCount → barsAllocated now allocated s s' = true)) ∧
      ((∀ interesting, ∃ s', syncProcessBarList interesting now s payload = .ok s') ↔
        NoBareReached now s payload) := by
  have hrestart : (restart now s).barCount ≤ cacheBars ∧ (0 < (restart now s).barCount →
      (allocated && now - s.state.startTime ≤ 60 * 60 * 1000) = true) := by
    unfold restart
    split
    case isTrue => exact ⟨Nat.zero_le _, nofun⟩
    case isFalse hrecent =>
      refine ⟨hcount, fun h => ?_⟩
      rw [hallocated h, Bool.true_and, decide_eq_true_eq]
      exact not_lt.mp hrecent
  refine ⟨(readBars_spec _ _ (Nat.zero_le _)).1, fun interesting s' hrun => ?_, fun h => ?_,
    fun h interesting => ?_⟩
  · have hends := syncProcessBarList_ends interesting now s payload
    rw [hrun] at hends
    obtain ⟨⟨hge, hle⟩, -⟩ := hends
    refine ⟨hle.trans (max_le hrestart.1 le_rfl), fun hpos => ?_⟩
    rw [barsAllocated, Bool.or_eq_true, decide_eq_true_eq]
    by_cases hgrown : (restart now s).barCount < s'.barCount
    · exact .inr hgrown
    · exact .inl (hrestart.2 (by omega))
  · have hends := syncProcessBarList_ends (fun _ => false) now s payload
    obtain ⟨s', hrun⟩ := h fun _ => false
    rw [hrun] at hends
    exact hends.2 fun _ => rfl
  · have hends := syncProcessBarList_ends interesting now s payload
    generalize syncProcessBarList interesting now s payload = result at hends ⊢
    rcases result with _ | s'
    · exact absurd h hends
    · exact ⟨s', rfl⟩

/-- A bare entry does no harm in a list that does not touch the window. -/
theorem syncProcessBarList_ok_apart : ∃ s', syncProcessBarList (fun _ => true) 0
    { Syncing.new 0 with state := ⟨4, 6, 6, false, 0, 0, [⟨wireBar none, 1, 0⟩]⟩ }
    (responsePayload [(20, none), (19, some ⟨replicate rhizomeBarBytes 1#8, rfl⟩)]) = .ok s' := by
  refine (syncProcessBarList_ok_iff 0 _ _ true (by decide) fun _ => rfl).2.2.mpr ?_ _
  intro entries before entry after hentries hread _ _ hreached
  have hread : before ++ entry :: after =
      [(20, wireBar none), (19, ⟨replicate rhizomeBarBytes 1#8, rfl⟩)] := by
    rw [← hread, ← hentries.decodeBars]
    decide +kernel
  obtain ⟨-, ⟨⟨e, he, hle⟩, -⟩, -⟩ := hreached
  rw [hread] at he
  have : ∀ e ∈ [(20, wireBar none), (19, ⟨replicate rhizomeBarBytes 1#8, rfl⟩)], 6 < e.1 := by
    decide
  exact absurd hle (not_le.mpr (this e he))

/-- The first entry of a list has a token, and its BAR is all zero. -/
theorem syncProcessBarList_bare : syncProcessBarList (fun _ => true) 0 (.new 0)
    (packedBytes 10 5#64 ++ replicate rhizomeBarBytes 0#8) = .error .nullPointer := by
  decide +kernel

end ServalMesh.Rhizome
