import ServalMesh.Util.Alarms

/-!
# The alarm lists over all runs

Every call and every round of `fd_poll` keeps the three lists consistent with each other. What was
last noted about a queued alarm is that it was scheduled, so that no alarm is called without it.
-/

namespace ServalMesh.Util

open Lib List AlarmStep Function
open Overlay (Abort)

section Notes

variable {notes : List AlarmNote} {n : AlarmNote} {a : ℕ}

/-- The last thing that happened to an alarm. -/
def lastNote (notes : List AlarmNote) (a : ℕ) : Option AlarmNote :=
  (notes.filter (·.alarm = a)).getLast?

theorem lastNote_append_self (notes : List AlarmNote) (n : AlarmNote) :
    lastNote (notes ++ [n]) n.alarm = some n := by
  simp [lastNote]

theorem lastNote_append_of_ne (h : n.alarm ≠ a) : lastNote (notes ++ [n]) a = lastNote notes a := by
  simp [lastNote, h]

/-- An alarm is called only if the last thing that happened to it is that it was scheduled, for then
or earlier. -/
def CallsFollow (notes : List AlarmNote) : Prop :=
  ∀ earlier later a now, notes = earlier ++ .called a now :: later →
    ∃ runAfter, lastNote earlier a = some (.scheduled a runAfter) ∧ runAfter ≤ now

theorem CallsFollow.append (h : CallsFollow notes)
    (hn : ∀ a now, n = .called a now →
      ∃ runAfter, lastNote notes a = some (.scheduled a runAfter) ∧ runAfter ≤ now) :
    CallsFollow (notes ++ [n]) := by
  intro earlier later a now heq
  rcases eq_nil_or_concat later with rfl | ⟨later, n', rfl⟩
  · obtain ⟨rfl, hn'⟩ := append_inj' heq rfl
    exact hn a now (singleton_inj.mp hn')
  · rw [concat_eq_append, ← cons_append, ← append_assoc] at heq
    exact h earlier later a now (append_inj' heq rfl).1

end Notes

section Lists

variable {fuel : ℕ} {nextRun : ℕ → Option ℕ} {head : Option ℕ} {l : List ℕ} {a : ℕ}

theorem insertRun_linked (key : ℕ → ℤ) (h : Linked nextRun head l) (hd : l.Nodup) (ha : a ∉ l)
    (hfuel : l.length ≤ fuel) :
    ∃ nextRun' head', insertRun fuel nextRun head key a = .ok (nextRun', head') ∧
      Linked nextRun' head' (l.orderedInsert (key · < key ·) a) ∧
      ∀ b ∉ l, b ≠ a → nextRun' b = nextRun b := by
  rw [insertRun, h.walk _ _ hfuel, orderedInsert_eq_take_drop]
  simp only [decide_not, Option.or_none]
  have hl := takeWhile_append_dropWhile (p := fun b => !decide (key a < key b)) (l := l)
  generalize l.takeWhile (fun b => !decide (key a < key b)) = l₁ at hl ⊢
  generalize l.dropWhile (fun b => !decide (key a < key b)) = l₂ at hl ⊢
  subst hl
  refine ⟨_, _, rfl, h.insert hd ha, ?_⟩
  intro b hb hba
  rw [setAt_of_ne, update_of_ne hba]
  exact fun hlast => hb (mem_append_left l₂ (mem_of_getLast? hlast))

theorem removeRunList_linked (a : ℕ) (h : Linked nextRun head l) (hd : l.Nodup)
    (hfuel : l.length ≤ fuel) :
    ∃ nextRun' head', removeRunList fuel nextRun head a = .ok (nextRun', head') ∧
      Linked nextRun' head' (l.erase a) ∧ ∀ b ∉ l, nextRun' b = nextRun b := by
  rw [removeRunList, h.walk _ _ hfuel]
  by_cases ha : a ∈ l
  · obtain ⟨l₁, l₂, rfl, ha₁⟩ := eq_append_cons_of_mem ha
    have hpos : ∀ b ∈ l₁, (! b == a) = true := by
      intro b hb
      simpa using ne_of_mem_of_not_mem hb ha₁
    rw [takeWhile_append_of_pos hpos, dropWhile_append_of_pos hpos,
      takeWhile_cons_of_neg (by simp), dropWhile_cons_of_neg (by simp), append_nil,
      erase_append_right _ ha₁, erase_cons_head, Option.or_none]
    refine ⟨_, _, rfl, h.remove hd, ?_⟩
    intro b hb
    have hba : b ≠ a := fun he => hb (he ▸ ha)
    rw [update_of_ne hba, setAt_of_ne]
    exact fun hlast => hb (mem_append_left _ (mem_of_getLast? hlast))
  · have hdrop : l.dropWhile (! · == a) = [] := by
      rw [dropWhile_eq_nil_iff]
      intro b hb
      simpa using ne_of_mem_of_not_mem hb ha
    rw [hdrop, erase_of_not_mem ha]
    exact ⟨_, _, rfl, h, fun _ _ => rfl⟩

theorem insertWakeList_linked {s : Alarms} {wake : List ℕ}
    (h : DoublyLinked s.nextWake s.prevWake s.wakeList wake)
    (hs : wake.Pairwise (s.wakeAt · ≤ s.wakeAt ·)) (ha : a ∉ wake) (hfuel : wake.length ≤ fuel) :
    ∃ nextWake prevWake wakeList wake', insertWakeList fuel s a =
        .ok { s with nextWake := nextWake, prevWake := prevWake, wakeList := wakeList } ∧
      DoublyLinked nextWake prevWake wakeList wake' ∧
      wake'.Pairwise (s.wakeAt · ≤ s.wakeAt ·) ∧
      ∀ b, b ∈ wake' ↔ b ∈ wake ∨ b = a ∧ s.wakeAt a ≠ timeMsNeverWill := by
  rw [insertWakeList]
  by_cases hnever : s.wakeAt a = timeMsNeverWill
  · rw [if_pos hnever]
    exact ⟨_, _, _, wake, rfl, h, hs, fun b => by simp [hnever]⟩
  rw [if_neg hnever, h.linked.walk _ _ hfuel]
  have hs' := pairwise_orderedInsert a hs
  have hmem : ∀ b, b ∈ wake.orderedInsert (s.wakeAt · < s.wakeAt ·) a ↔
      b ∈ wake ∨ b = a ∧ s.wakeAt a ≠ timeMsNeverWill := by
    intro b
    simp [mem_orderedInsert, hnever, or_comm]
  refine ⟨_, _, _, _, rfl, ?_, hs', hmem⟩
  rw [orderedInsert_eq_take_drop]
  simp only [decide_not, Option.or_none]
  have hl := takeWhile_append_dropWhile (p := fun b => !decide (s.wakeAt a < s.wakeAt b))
    (l := wake)
  generalize wake.takeWhile (fun b => !decide (s.wakeAt a < s.wakeAt b)) = l₁ at hl ⊢
  generalize wake.dropWhile (fun b => !decide (s.wakeAt a < s.wakeAt b)) = l₂ at hl ⊢
  subst hl
  exact h.insert ha

end Lists

/-- The lists hold the scheduled alarms, each on one of `run_soon` and `run_now`, and those that
wake the daemon on `wake_list`. -/
structure Queues (s : Alarms) (soon now wake : List ℕ) : Prop where
  soon_linked : Linked s.nextRun s.runSoon soon
  now_linked : Linked s.nextRun s.runNow now
  wake_linked : DoublyLinked s.nextWake s.prevWake s.wakeList wake
  soon_sorted : soon.Pairwise (s.runAfter · ≤ s.runAfter ·)
  now_sorted : now.Pairwise (s.runBefore · ≤ s.runBefore ·)
  wake_sorted : wake.Pairwise (s.wakeAt · ≤ s.wakeAt ·)
  once : (soon ++ now).Nodup
  scheduled_iff : ∀ a, s.scheduled a = true ↔ a ∈ soon ++ now
  wake_iff : ∀ a, a ∈ wake ↔ a ∈ soon ∧ s.wakeAt a ≠ timeMsNeverWill
  due : ∀ a ∈ now, s.runAfter a ≤ s.clock
  noted : ∀ a ∈ soon ++ now, lastNote s.notes a = some (.scheduled a (s.runAfter a))
  calls : CallsFollow s.notes

namespace Queues

variable {fuel : ℕ} {s : Alarms} {soon now wake : List ℕ} {a : ℕ}

theorem unused (runAfter : ℕ → ℤ) (clock : ℤ) : Queues (unusedAlarms runAfter clock) [] [] [] where
  soon_linked := rfl
  now_linked := rfl
  wake_linked := ⟨rfl, trivial, nodup_nil, fun _ _ => ⟨rfl, rfl⟩⟩
  soon_sorted := .nil
  now_sorted := .nil
  wake_sorted := .nil
  once := nodup_nil
  scheduled_iff a := by simp [unusedAlarms]
  wake_iff a := by simp
  due a h := nomatch h
  noted a h := nomatch h
  calls := by
    intro earlier later a now heq
    exact absurd heq (by simp [unusedAlarms])

section

variable (h : Queues s soon now wake)

include h

theorem elapse (ms : ℕ) : Queues (s.elapse ms) soon now wake :=
  { h with due := fun a ha => (h.due a ha).trans (by simp [Alarms.elapse]) }

theorem not_mem (ha : s.scheduled a = false) : a ∉ soon ++ now := by
  rw [← h.scheduled_iff, ha]
  exact Bool.false_ne_true

theorem wake_length : wake.length ≤ (soon ++ now).length := by
  apply List.Subperm.length_le
  apply h.wake_linked.once.subperm
  intro a ha
  exact mem_append_left now ((h.wake_iff a).mp ha).1

/-- The times of an alarm that is not queued may change. -/
theorem setTimes (ha : a ∉ soon ++ now) (alarm deadline : ℤ) (runAfter : Option ℤ) :
    Queues (setTimes s a alarm deadline runAfter) soon now wake := by
  have hne : ∀ b ∈ soon ++ now, b ≠ a := fun b hb => ne_of_mem_of_not_mem hb ha
  have hsoon : ∀ b ∈ soon, b ≠ a := fun b hb => hne b (mem_append_left now hb)
  have hnow : ∀ b ∈ now, b ≠ a := fun b hb => hne b (mem_append_right soon hb)
  have hwake : ∀ b ∈ wake, b ≠ a := fun b hb => hsoon b ((h.wake_iff b).mp hb).1
  refine { h with soon_sorted := ?_, now_sorted := ?_, wake_sorted := ?_, wake_iff := ?_
                  due := ?_, noted := ?_ }
  · refine h.soon_sorted.imp_of_mem fun hb hc hle => ?_
    simpa [Util.setTimes, hsoon _ hb, hsoon _ hc] using hle
  · refine h.now_sorted.imp_of_mem fun hb hc hle => ?_
    simpa [Util.setTimes, hnow _ hb, hnow _ hc] using hle
  · refine h.wake_sorted.imp_of_mem fun hb hc hle => ?_
    simpa [Util.setTimes, hwake _ hb, hwake _ hc] using hle
  · intro b
    rw [h.wake_iff]
    refine and_congr_right fun hb => ?_
    simp [Util.setTimes, hsoon b hb]
  · intro b hb
    simpa [Util.setTimes, hnow b hb] using h.due b hb
  · intro b hb
    simpa [Util.setTimes, hne b hb] using h.noted b hb

/-- Something happens to an alarm that is not queued, or no longer. -/
theorem note {n : AlarmNote} (hn : n.alarm ∉ soon ++ now)
    (hcall : ∀ a now, n = .called a now →
      ∃ runAfter, lastNote s.notes a = some (.scheduled a runAfter) ∧ runAfter ≤ now) :
    Queues (s.note n) soon now wake :=
  { h with
    noted := fun b hb =>
      (lastNote_append_of_ne (ne_of_mem_of_not_mem hb hn).symm).trans (h.noted b hb)
    calls := h.calls.append hcall }

/-- An alarm joins `run_soon`. -/
theorem join (ha : a ∉ soon ++ now)
    (hnote : lastNote s.notes a = some (.scheduled a (s.runAfter a)))
    (hfuel : (soon ++ now).length ≤ fuel) :
    ∃ s₁ s₂ soon' wake', insertWakeList fuel s a = .ok s₁ ∧ insertRunSoon fuel s₁ a = .ok s₂ ∧
      Queues { s₂ with scheduled := update s₂.scheduled a true } soon' now wake' ∧
      soon'.length = soon.length + 1 := by
  have ha' := ha
  rw [mem_append, not_or] at ha'
  obtain ⟨hd, hd', hdis⟩ := nodup_append.mp h.once
  have hwake : a ∉ wake := fun hw => ha'.1 ((h.wake_iff a).mp hw).1
  obtain ⟨nextWake, prevWake, wakeList, wake', hins, hlinked, hsorted, hmem⟩ :=
    insertWakeList_linked h.wake_linked h.wake_sorted hwake (h.wake_length.trans hfuel)
  rw [length_append] at hfuel
  obtain ⟨nextRun, runSoon, hrun, hsoon, hother⟩ :=
    insertRun_linked s.runAfter h.soon_linked hd ha'.1 (Nat.le_of_add_right_le hfuel)
  have hperm := perm_orderedInsert (s.runAfter · < s.runAfter ·) a soon
  have hin : ∀ b, b ∈ soon.orderedInsert (s.runAfter · < s.runAfter ·) a ++ now ↔
      b = a ∨ b ∈ soon ++ now := by
    intro b
    rw [mem_append, hperm.mem_iff, mem_cons, mem_append, or_assoc]
  refine ⟨_, { s with nextWake := nextWake, prevWake := prevWake, wakeList := wakeList
                      nextRun := nextRun, runSoon := runSoon },
    soon.orderedInsert (s.runAfter · < s.runAfter ·) a, wake', hins, ?_, ?_, hperm.length_eq⟩
  · rw [insertRunSoon, hrun]
  refine { h with soon_linked := hsoon, now_linked := ?_, wake_linked := hlinked
                  soon_sorted := pairwise_orderedInsert a h.soon_sorted
                  wake_sorted := hsorted, once := ?_, scheduled_iff := ?_, wake_iff := ?_
                  noted := ?_ }
  · refine h.now_linked.congr fun b hb => hother b ?_ (ne_of_mem_of_not_mem hb ha'.2)
    exact fun hb' => hdis b hb' b hb rfl
  · rw [(hperm.append_right now).nodup_iff]
    exact nodup_cons.mpr ⟨ha, h.once⟩
  · intro b
    rw [hin, ← h.scheduled_iff]
    by_cases hb : b = a <;> simp [hb]
  · intro b
    rw [hmem, h.wake_iff, hperm.mem_iff, mem_cons]
    by_cases hb : b = a <;> simp [hb, ha'.1]
  · intro b hb
    rcases (hin b).mp hb with rfl | hb
    · exact hnote
    · exact h.noted b hb

/-- An alarm is no longer queued. -/
theorem drop {t : Alarms} (hsoon : Linked t.nextRun t.runSoon (soon.erase a))
    (hnow : Linked t.nextRun t.runNow (now.erase a))
    (hwake : DoublyLinked t.nextWake t.prevWake t.wakeList (wake.erase a))
    (hscheduled : t.scheduled = update s.scheduled a false)
    (hafter : t.runAfter = update s.runAfter a timeMsNeverWill) (hat : t.wakeAt = s.wakeAt)
    (hbefore : t.runBefore = s.runBefore) (hclock : t.clock = s.clock)
    (hnotes : t.notes = s.notes) :
    Queues t (soon.erase a) (now.erase a) (wake.erase a) := by
  obtain ⟨hd, hd', hdis⟩ := nodup_append.mp h.once
  have hin : ∀ b, b ∈ soon.erase a ++ now.erase a ↔ b ≠ a ∧ b ∈ soon ++ now := by
    intro b
    rw [mem_append, hd.mem_erase_iff, hd'.mem_erase_iff, mem_append, and_or_left]
  have hne : ∀ b ∈ soon.erase a ++ now.erase a, t.runAfter b = s.runAfter b := by
    intro b hb
    rw [hafter, update_of_ne ((hin b).mp hb).1]
  refine ⟨hsoon, hnow, hwake, ?_, ?_, ?_, ?_, ?_, ?_, ?_, ?_, hnotes ▸ h.calls⟩
  · refine (h.soon_sorted.sublist erase_sublist).imp_of_mem fun hb hc hle => ?_
    rwa [hne _ (mem_append_left _ hb), hne _ (mem_append_left _ hc)]
  · rw [hbefore]
    exact h.now_sorted.sublist erase_sublist
  · rw [hat]
    exact h.wake_sorted.sublist erase_sublist
  · exact h.once.sublist (erase_sublist.append erase_sublist)
  · intro b
    rw [hin, hscheduled, ← h.scheduled_iff]
    by_cases hb : b = a <;> simp [hb]
  · intro b
    rw [hat, h.wake_linked.once.mem_erase_iff, hd.mem_erase_iff, h.wake_iff, and_assoc]
  · intro b hb
    rw [hne b (mem_append_right _ hb), hclock]
    exact h.due b (mem_of_mem_erase hb)
  · intro b hb
    rw [hne b hb, hnotes]
    exact h.noted b ((hin b).mp hb).2

theorem not_mem_erase (a : ℕ) : a ∉ soon.erase a ++ now.erase a := by
  obtain ⟨hd, hd', -⟩ := nodup_append.mp h.once
  rw [mem_append, not_or]
  exact ⟨hd.not_mem_erase, hd'.not_mem_erase⟩

/-- An alarm leaves the lists. -/
theorem leave (a : ℕ) (hfuel : (soon ++ now).length ≤ fuel) :
    ∃ nextRun₁ runNow nextRun₂ runSoon,
      removeRunList fuel s.nextRun s.runNow a = .ok (nextRun₁, runNow) ∧
      removeRunList fuel nextRun₁ s.runSoon a = .ok (nextRun₂, runSoon) ∧
      Linked nextRun₂ runNow (now.erase a) ∧ Linked nextRun₂ runSoon (soon.erase a) := by
  obtain ⟨hd, hd', hdis⟩ := nodup_append.mp h.once
  rw [length_append] at hfuel
  obtain ⟨nextRun₁, runNow, hrun₁, hnow, hother₁⟩ :=
    removeRunList_linked a h.now_linked hd' (Nat.le_of_add_left_le hfuel)
  have hsoon : Linked nextRun₁ s.runSoon soon :=
    h.soon_linked.congr fun b hb => hother₁ b (fun hb' => hdis b hb b hb' rfl)
  obtain ⟨nextRun₂, runSoon, hrun₂, hsoon', hother₂⟩ :=
    removeRunList_linked a hsoon hd (Nat.le_of_add_right_le hfuel)
  refine ⟨nextRun₁, runNow, nextRun₂, runSoon, hrun₁, hrun₂, ?_, hsoon'⟩
  refine hnow.congr fun b hb => hother₂ b fun hb' => ?_
  exact hdis b hb' b (mem_of_mem_erase hb) rfl

end

/-- The first alarm of `run_now` is taken off and called. -/
theorem called (h : Queues s soon (a :: now) wake) :
    Queues (Alarms.note { s with runNow := s.nextRun a
                                 scheduled := update s.scheduled a false
                                 runAfter := update s.runAfter a timeMsNeverWill }
      (.called a s.clock)) soon now wake := by
  have hsoon : a ∉ soon := by
    intro ha
    exact (nodup_append.mp h.once).2.2 a ha a mem_cons_self rfl
  have hwake : a ∉ wake := fun ha => hsoon ((h.wake_iff a).mp ha).1
  have ha := h.not_mem_erase a
  have hdrop := fun t : Alarms => h.drop (t := t) (a := a)
  rw [erase_of_not_mem hsoon, erase_cons_head] at ha hdrop
  rw [erase_of_not_mem hwake] at hdrop
  refine note ?_ ha ?_
  · exact hdrop _ h.soon_linked h.now_linked.2 h.wake_linked rfl rfl rfl rfl rfl rfl
  rintro b t ⟨rfl, rfl⟩
  exact ⟨s.runAfter a, h.noted a (by simp), h.due a mem_cons_self⟩

/-- The first alarm of `run_soon` moves to `run_now`. -/
theorem move (h : Queues s (a :: soon) now wake) (hdue : s.runAfter a ≤ s.clock)
    (hfuel : (a :: soon ++ now).length ≤ fuel) :
    ∃ s' now', insertRunNow fuel (removeWakeList { s with runSoon := s.nextRun a } a) a = .ok s' ∧
      Queues s' soon now' (wake.erase a) ∧ now'.length = now.length + 1 := by
  obtain ⟨hd, hd', hdis⟩ := nodup_append.mp h.once
  have ha : a ∉ now := fun ha => hdis a mem_cons_self a ha rfl
  have ha' : a ∉ soon := (nodup_cons.mp hd).1
  rw [length_append] at hfuel
  obtain ⟨nextRun, runNow, hrun, hnow, hother⟩ :=
    insertRun_linked s.runBefore h.now_linked hd' ha (Nat.le_of_add_left_le hfuel)
  have hperm := perm_orderedInsert (s.runBefore · < s.runBefore ·) a now
  have hin : ∀ b, b ∈ soon ++ now.orderedInsert (s.runBefore · < s.runBefore ·) a ↔
      b ∈ a :: soon ++ now := by
    intro b
    rw [mem_append, hperm.mem_iff, mem_append, mem_cons, mem_cons, or_assoc,
      or_left_comm]
  have hinsert : insertRunNow fuel (removeWakeList { s with runSoon := s.nextRun a } a) a =
      .ok { removeWakeList { s with runSoon := s.nextRun a } a with
              nextRun := nextRun, runNow := runNow } := by
    unfold insertRunNow
    rw [show insertRun fuel (removeWakeList { s with runSoon := s.nextRun a } a).nextRun
      (removeWakeList { s with runSoon := s.nextRun a } a).runNow
      (removeWakeList { s with runSoon := s.nextRun a } a).runBefore a = _ from hrun]
  refine ⟨_, now.orderedInsert (s.runBefore · < s.runBefore ·) a, hinsert, ?_, hperm.length_eq⟩
  refine { h with soon_linked := ?_, now_linked := hnow, wake_linked := h.wake_linked.remove a
                  soon_sorted := (pairwise_cons.mp h.soon_sorted).2
                  now_sorted := pairwise_orderedInsert a h.now_sorted
                  wake_sorted := h.wake_sorted.sublist erase_sublist, once := ?_
                  scheduled_iff := ?_, wake_iff := ?_, due := ?_, noted := ?_ }
  · refine h.soon_linked.2.congr fun b hb => hother b ?_ (ne_of_mem_of_not_mem hb ha')
    exact fun hb' => hdis b (mem_cons_of_mem a hb) b hb' rfl
  · rw [(hperm.append_left soon).nodup_iff, nodup_middle]
    exact h.once
  · intro b
    rw [hin]
    exact h.scheduled_iff b
  · intro b
    rw [h.wake_linked.once.mem_erase_iff, h.wake_iff, mem_cons]
    constructor
    · rintro ⟨hb, rfl | hb', hat⟩
      · exact absurd rfl hb
      · exact ⟨hb', hat⟩
    · rintro ⟨hb, hat⟩
      exact ⟨ne_of_mem_of_not_mem hb ha', .inr hb, hat⟩
  · intro b hb
    rcases mem_cons.mp (hperm.mem_iff.mp hb) with rfl | hb
    · exact hdue
    · exact h.due b hb
  · intro b hb
    exact h.noted b ((hin b).mp hb)

end Queues

/-- A result of the scheduler: unless an assertion failed, the lists are consistent and hold at most
`n` alarms. -/
def Keeps (n : ℕ) (r : Except Abort Alarms) : Prop :=
  r = .error .assertion ∨ ∃ s soon now wake, r = .ok s ∧ Queues s soon now wake ∧
    (soon ++ now).length ≤ n

section Steps

variable {fuel n : ℕ} {s : Alarms} {soon now wake : List ℕ} {a : ℕ} {r : Except Abort Alarms}
  {m : ℕ}

theorem Queues.keeps (h : Queues s soon now wake) (hn : (soon ++ now).length ≤ n) :
    Keeps n (.ok s) :=
  .inr ⟨s, soon, now, wake, rfl, h, hn⟩

theorem keeps_ok : Keeps n (.ok s) ↔
    ∃ soon now wake, Queues s soon now wake ∧ (soon ++ now).length ≤ n := by
  constructor
  · rintro (h | ⟨t, soon, now, wake, h, hq, hn⟩)
    · exact nomatch h
    · cases h
      exact ⟨soon, now, wake, hq, hn⟩
  · rintro ⟨soon, now, wake, hq, hn⟩
    exact hq.keeps hn

theorem Keeps.mono (h : Keeps n r) (hnm : n ≤ m) : Keeps m r := by
  rcases h with h | ⟨s, soon, now, wake, h, hq, hn⟩
  · exact .inl h
  · exact .inr ⟨s, soon, now, wake, h, hq, hn.trans hnm⟩

/-- What follows a step that keeps the lists. -/
theorem Keeps.bind {f : Alarms → Except Abort Alarms} :
    Keeps n r → (∀ s, Keeps n (.ok s) → Keeps m (f s)) →
    Keeps m (match r with | .error e => .error e | .ok s => f s) := by
  rintro (rfl | ⟨s, soon, now, wake, rfl, hq, hn⟩) hf
  · exact .inl rfl
  · exact hf s (hq.keeps hn)

section

variable (h : Keeps n (.ok s)) {cs : List AlarmCall} {p : PollRound}

include h

theorem Keeps.elapse (ms : ℕ) : Keeps n (.ok (s.elapse ms)) := by
  obtain ⟨soon, now, wake, hq, hn⟩ := keeps_ok.mp h
  exact (hq.elapse ms).keeps hn

theorem schedule_keeps (hfuel : n ≤ fuel) (alarm deadline : ℤ) (runAfter : Option ℤ)
    (function : Bool) : Keeps (n + 1) (schedule fuel s a alarm deadline runAfter function) := by
  obtain ⟨soon, now, wake, hq, hn⟩ := keeps_ok.mp h
  unfold schedule
  by_cases hassert : (setTimes s a alarm deadline runAfter).runAfter a ≤
        (setTimes s a alarm deadline runAfter).wakeAt a ∧
      (setTimes s a alarm deadline runAfter).runAfter a ≤
        (setTimes s a alarm deadline runAfter).runBefore a ∧
      (setTimes s a alarm deadline runAfter).scheduled a = false ∧ function = true
  · rw [if_pos hassert]
    have ha : a ∉ soon ++ now := hq.not_mem hassert.2.2.1
    have hq := hq.setTimes ha alarm deadline runAfter
    generalize setTimes s a alarm deadline runAfter = s at hq
    have hq : Queues (s.note (.scheduled a (s.runAfter a))) soon now wake :=
      hq.note ha nofun
    have hnote : lastNote (s.note (.scheduled a (s.runAfter a))).notes a =
        some (.scheduled a ((s.note (.scheduled a (s.runAfter a))).runAfter a)) :=
      lastNote_append_self s.notes (.scheduled a (s.runAfter a))
    generalize s.note (.scheduled a (s.runAfter a)) = s at hq hnote
    by_cases hnever : s.runAfter a ≠ timeMsNeverWill
    · obtain ⟨s₁, s₂, soon', wake', h₁, h₂, hq', hlen⟩ := hq.join ha hnote (hn.trans hfuel)
      rw [if_pos hnever, h₁]
      dsimp only
      rw [h₂]
      refine hq'.keeps ?_
      rw [length_append] at hn ⊢
      omega
    · rw [if_neg hnever]
      exact hq.keeps (Nat.le_succ_of_le hn)
  · rw [if_neg hassert]
    exact .inl rfl

theorem unschedule_keeps (hfuel : n ≤ fuel) (a : ℕ) : Keeps n (unschedule fuel s a) := by
  obtain ⟨soon, now, wake, hq, hn⟩ := keeps_ok.mp h
  unfold unschedule
  by_cases hs : (s.note (.unscheduled a)).scheduled a = false
  · rw [if_pos hs]
    have ha : a ∉ soon ++ now := hq.not_mem hs
    exact (hq.note (n := .unscheduled a) ha nofun).keeps hn
  obtain ⟨nextRun₁, runNow, nextRun₂, runSoon, h₁, h₂, hnow, hsoon⟩ :=
    hq.leave a (hn.trans hfuel)
  have h₁ : removeRunList fuel (s.note (.unscheduled a)).nextRun
      (s.note (.unscheduled a)).runNow a =
      .ok (nextRun₁, runNow) := h₁
  have h₂ : removeRunList fuel nextRun₁ (s.note (.unscheduled a)).runSoon a =
      .ok (nextRun₂, runSoon) := h₂
  rw [if_neg hs, h₁]
  dsimp only
  rw [h₂]
  have hdrop : Queues
      { removeWakeList { s with nextRun := nextRun₂, runNow := runNow, runSoon := runSoon } a with
          scheduled := update s.scheduled a false
          runAfter := update s.runAfter a timeMsNeverWill }
      (soon.erase a) (now.erase a) (wake.erase a) :=
    hq.drop hsoon hnow (hq.wake_linked.remove a) rfl rfl rfl rfl rfl rfl
  have hnoted := hdrop.note (n := .unscheduled a) (hq.not_mem_erase a) nofun
  refine hnoted.keeps ?_
  have hle := (erase_sublist (a := a) (l := soon)).length_le
  have hle' := (erase_sublist (a := a) (l := now)).length_le
  rw [length_append] at hn ⊢
  omega

theorem alarmCall_keeps (hfuel : n ≤ fuel) (c : AlarmCall) :
    Keeps (n + 1) (alarmCall fuel s c) := by
  cases c with
  | schedule a alarm deadline runAfter function =>
    exact schedule_keeps h hfuel alarm deadline runAfter function
  | unschedule a => exact (unschedule_keeps h hfuel a).mono (Nat.le_succ n)

theorem alarmCalls_keeps (hfuel : n + cs.length ≤ fuel) :
    Keeps (n + cs.length) (alarmCalls fuel s cs) := by
  induction cs generalizing s n with
  | nil => exact h
  | cons c cs ih =>
    rw [length_cons] at hfuel ⊢
    rw [add_comm cs.length, ← add_assoc] at hfuel ⊢
    have hcall := alarmCall_keeps h (show n ≤ fuel by omega) c
    refine hcall.bind ?_
    intro s' hs'
    exact ih hs' hfuel

omit h in
theorem moveRunList_keeps {rounds : ℕ} (hq : Queues s soon now wake)
    (hn : (soon ++ now).length ≤ n) (hfuel : n ≤ fuel) (hrounds : soon.length ≤ rounds) :
    Keeps n (moveRunList fuel rounds s) := by
  induction rounds generalizing s soon now wake with
  | zero =>
    obtain rfl : soon = [] := length_eq_zero_iff.mp (Nat.le_zero.mp hrounds)
    have hhead : s.runSoon = none := hq.soon_linked
    rw [moveRunList, hhead]
    exact hq.keeps hn
  | succ rounds ih =>
    rw [moveRunList]
    cases soon with
    | nil =>
      have hhead : s.runSoon = none := hq.soon_linked
      rw [hhead]
      exact hq.keeps hn
    | cons a soon =>
      rw [hq.soon_linked.1]
      dsimp only
      by_cases hdue : s.runAfter a ≤ s.clock
      · obtain ⟨s', now', hmove, hq', hlen⟩ := hq.move hdue (hn.trans hfuel)
        rw [if_pos hdue, hmove]
        refine ih hq' ?_ (Nat.le_of_succ_le_succ hrounds)
        simp only [length_append, length_cons] at hn ⊢
        omega
      · rw [if_neg hdue]
        exact hq.keeps hn

theorem Keeps.moveRunList (hfuel : n ≤ fuel) : Keeps n (moveRunList fuel fuel s) := by
  obtain ⟨soon, now, wake, hq, hn⟩ := keeps_ok.mp h
  refine moveRunList_keeps hq hn hfuel ?_
  rw [length_append] at hn
  omega

theorem callFirst_keeps (ha : s.runNow = some a) (hfuel : n + cs.length ≤ fuel) :
    Keeps (n + cs.length) (callFirst fuel s a cs) := by
  obtain ⟨soon, now, wake, hq, hn⟩ := keeps_ok.mp h
  cases now with
  | nil => exact absurd (ha.symm.trans hq.now_linked) (by simp)
  | cons b now =>
    obtain rfl : b = a := Option.some.inj (hq.now_linked.1.symm.trans ha)
    refine alarmCalls_keeps (hq.called.keeps ?_) hfuel
    simp only [length_append, length_cons] at hn ⊢
    omega

omit h in
theorem overdue_some (h : overdue s = some a) : s.runNow = some a :=
  (Option.filter_eq_some_iff.mp h).1

theorem afterPoll_keeps {ms r : ℤ} (hfuel : n + (poll p).calls.length ≤ fuel) :
    Keeps (n + (poll p).calls.length) (afterPoll fuel s ms r p) := by
  have hcalls : (poll p).calls.length = p.handles.flatten.length + p.function.length :=
    length_append
  have hmove := h.moveRunList (show n ≤ fuel by omega)
  refine hmove.bind ?_
  intro s hs
  have hs := hs.elapse p.moving
  dsimp only
  generalize s.elapse p.moving = s at hs
  split
  · exact hs.mono (by omega)
  split
  · have hhandles := alarmCalls_keeps hs
      (show n + p.handles.flatten.length ≤ fuel by omega)
    refine hhandles.bind ?_
    intro s hs
    exact ((hs.elapse p.handling).moveRunList (by omega)).mono (by omega)
  cases hnow : s.runNow with
  | none => exact hs.mono (by omega)
  | some a => exact (callFirst_keeps hs hnow (by omega)).mono (by omega)

theorem fdPoll_keeps (hfuel : n + (poll p).calls.length ≤ fuel) :
    Keeps (n + (poll p).calls.length) (fdPoll fuel s p) := by
  have hcalls : p.function.length ≤ (poll p).calls.length :=
    (sublist_append_right p.handles.flatten p.function).length_le
  have h := h.elapse p.before
  unfold fdPoll
  dsimp only
  generalize s.elapse p.before = s at h
  cases hover : overdue s with
  | some a => exact (callFirst_keeps h (overdue_some hover) (by omega)).mono (by omega)
  | none =>
    cases pollTimeout s p.fdcount with
    | none => exact h.mono (Nat.le_add_right n _)
    | some ms => exact afterPoll_keeps (h.elapse p.waiting) hfuel

theorem alarmStep_keeps {e : AlarmStep} (hfuel : n + e.calls.length ≤ fuel) :
    Keeps (n + e.calls.length) (alarmStep fuel s e) := by
  cases e with
  | call c => exact alarmCall_keeps h (Nat.le_of_succ_le hfuel) c
  | poll p => exact fdPoll_keeps h hfuel

end

end Steps

section Runs

variable {fuel n : ℕ} {s : Alarms} {es : List AlarmStep}

theorem runAlarms_keeps (h : Keeps n (.ok s))
    (hfuel : n + (es.flatMap calls).length ≤ fuel) :
    Keeps (n + (es.flatMap calls).length) (runAlarms fuel s es) := by
  induction es generalizing s n with
  | nil => exact h
  | cons e es ih =>
    rw [flatMap_cons, length_append, ← add_assoc] at hfuel ⊢
    have hstep := alarmStep_keeps h (show n + e.calls.length ≤ fuel by omega)
    refine hstep.bind ?_
    intro s hs
    exact ih hs hfuel

/-- In every run in which no assertion of `schedule` fails, the scheduler ends each loop, an alarm
is scheduled exactly if it is on one of the sorted lists `run_soon` and `run_now`, the sorted
`wake_list` is linked in both directions and holds the alarms of `run_soon` that have a time to wake
at, and an alarm is called only if it was scheduled and neither called nor unscheduled since, and
not before its `run_after`. -/
theorem runAlarms_queues (fuel : ℕ) (runAfter : ℕ → ℤ) (clock : ℤ) (es : List AlarmStep)
    (hfuel : (es.flatMap AlarmStep.calls).length ≤ fuel) :
    runAlarms fuel (unusedAlarms runAfter clock) es = .error .assertion ∨
      ∃ s soon now wake, runAlarms fuel (unusedAlarms runAfter clock) es = .ok s ∧
        Linked s.nextRun s.runSoon soon ∧ soon.Pairwise (s.runAfter · ≤ s.runAfter ·) ∧
        Linked s.nextRun s.runNow now ∧ now.Pairwise (s.runBefore · ≤ s.runBefore ·) ∧
        soon.Nodup ∧ now.Nodup ∧ soon.Disjoint now ∧
        (∀ a, s.scheduled a = true ↔ a ∈ soon ∨ a ∈ now) ∧
        Linked s.nextWake s.wakeList wake ∧ BackLinked s.prevWake none wake ∧ wake.Nodup ∧
        wake.Pairwise (s.wakeAt · ≤ s.wakeAt ·) ∧
        (∀ a, a ∈ wake ↔ a ∈ soon ∧ s.wakeAt a ≠ timeMsNeverWill) ∧
        CallsFollow s.notes := by
  have hstart := (Queues.unused runAfter clock).keeps (le_refl 0)
  have hfuel : 0 + (es.flatMap calls).length ≤ fuel := by rwa [zero_add]
  rcases runAlarms_keeps hstart hfuel with h | ⟨s, soon, now, wake, h, hq, -⟩
  · exact .inl h
  obtain ⟨hsoon, hnow, hdis⟩ := nodup_append.mp hq.once
  refine .inr ⟨s, soon, now, wake, h, hq.soon_linked, hq.soon_sorted, hq.now_linked,
    hq.now_sorted, hsoon, hnow, ?_, ?_, hq.wake_linked.linked, hq.wake_linked.back,
    hq.wake_linked.once, hq.wake_sorted, hq.wake_iff, hq.calls⟩
  · intro a ha ha'
    exact hdis a ha a ha' rfl
  · intro a
    rw [hq.scheduled_iff, mem_append]

/-- The function of an alarm unschedules another one and schedules itself again. -/
def rescheduledSteps : List AlarmStep :=
  [.call (.schedule 1 105 110 none true), .call (.schedule 2 105 120 none true),
    .poll ⟨0, 0, [], [.unschedule 2, .schedule 1 200 200 none true], 0, 6, 0, 0⟩]

theorem runAlarms_queues_rescheduled :
    ∃ s, runAlarms 4 (unusedAlarms (fun _ => 0) 100) rescheduledSteps = .ok s ∧
      s.notes = [.scheduled 1 105, .scheduled 2 105, .called 1 106, .unscheduled 2,
        .scheduled 1 200] ∧
      CallsFollow s.notes := by
  have hnotes : (runAlarms 4 (unusedAlarms (fun _ => 0) 100) rescheduledSteps).map Alarms.notes =
      .ok [.scheduled 1 105, .scheduled 2 105, .called 1 106, .unscheduled 2,
        .scheduled 1 200] := by
    decide +kernel
  rcases runAlarms_queues 4 (fun _ => 0) 100 rescheduledSteps (by decide) with
    h | ⟨s, _, _, _, h, hq⟩
  · rw [h] at hnotes
    exact nomatch hnotes
  · rw [h] at hnotes
    exact ⟨s, h, Except.ok.inj hnotes, hq.2.2.2.2.2.2.2.2.2.2.2.2.2⟩

end Runs

end ServalMesh.Util
