import Mathlib.Data.List.Count
import Mathlib.Data.BitVec

/-!
# Rate limits

A burst of calls is allowed in each interval. An interval ends no earlier than a burst length after
the one before it, so a window of that length meets at most two of them.
-/

namespace ServalMesh.Util

open List

/-- `struct limit_state`. -/
structure LimitState where
  rateMicroSeconds : BitVec 32
  burstLength : ℤ
  burstSize : ℕ
  sent : ℕ
  nextInterval : ℤ

def minBurstLength : ℕ := 5000

/-- The product is one of unsigned numbers, and of the quotient the whole part is kept. -/
def limitInit (s : LimitState) (rateMicroSeconds : BitVec 32) : LimitState :=
  let burstSize := if rateMicroSeconds = 0 then 0 else minBurstLength / rateMicroSeconds.toNat + 1
  { s with
    rateMicroSeconds, burstSize
    burstLength := (burstSize * rateMicroSeconds.toNat % 2 ^ 32 / 1000 : ℕ) }

def updateLimitState (s : LimitState) (now : ℤ) : LimitState :=
  if now < s.nextInterval ∨ s.burstSize = 0 then s
  else
    { s with
      nextInterval :=
        if now < s.nextInterval + s.burstLength then s.nextInterval + s.burstLength
        else now + s.burstLength
      sent := 0 }

def limitNextAllowed (s : LimitState) (now : ℤ) : ℤ × LimitState :=
  if s.burstSize = 0 then (now, s)
  else
    let s := updateLimitState s now
    (if s.sent < s.burstSize then now else s.nextInterval, s)

def limitIsAllowed (s : LimitState) (now : ℤ) : ℤ × LimitState :=
  if s.burstSize = 0 then (0, s)
  else
    let s := updateLimitState s now
    if s.burstSize ≤ s.sent then (-1, s) else (0, { s with sent := s.sent + 1 })

/-- A call of `limit_is_allowed`, or else of `limit_next_allowed`. -/
structure LimitCall where
  isAllowed : Bool
  now : ℤ

def LimitCall.run (c : LimitCall) (s : LimitState) : LimitState :=
  if c.isAllowed then (limitIsAllowed s c.now).2 else (limitNextAllowed s c.now).2

def LimitCall.succeeds (c : LimitCall) (s : LimitState) : Bool :=
  c.isAllowed && (limitIsAllowed s c.now).1 = 0

/-- The times at which `limit_is_allowed` succeeds. -/
def allowedTimes : LimitState → List LimitCall → List ℤ
  | _, [] => []
  | s, c :: calls =>
    if c.succeeds s then c.now :: allowedTimes (c.run s) calls else allowedTimes (c.run s) calls

section Windows

variable {s : LimitState} {t : ℤ} {c : LimitCall} {calls : List LimitCall}

theorem le_of_mem_allowedTimes {now : ℤ} (hcalls : ∀ c ∈ calls, now ≤ c.now)
    (h : t ∈ allowedTimes s calls) : now ≤ t := by
  induction calls generalizing s with
  | nil => exact nomatch h
  | cons c calls ih => grind [allowedTimes]

theorem updateLimitState_cases (hsize : s.burstSize ≠ 0) (hlength : 0 < s.burstLength) (now : ℤ) :
    (now < s.nextInterval ∧ updateLimitState s now = s) ∨
      ∃ next, s.nextInterval ≤ now ∧ now < next ∧ s.nextInterval + s.burstLength ≤ next ∧
        updateLimitState s now = { s with nextInterval := next, sent := 0 } := by
  unfold updateLimitState
  grind

theorem LimitCall.run_cases (hsize : s.burstSize ≠ 0) (c : LimitCall) :
    (c.succeeds s = true ∧
        (updateLimitState s c.now).sent < (updateLimitState s c.now).burstSize ∧
        c.run s = { updateLimitState s c.now with sent := (updateLimitState s c.now).sent + 1 }) ∨
      (c.succeeds s = false ∧ c.run s = updateLimitState s c.now) := by
  unfold run succeeds limitIsAllowed limitNextAllowed
  grind

/-- How many calls may succeed in the window from `w` on: the rest of this burst and the next one
if it starts in time, or two bursts if this interval ends before. -/
def windowRest (s : LimitState) (w : ℤ) : ℕ :=
  if s.nextInterval ≤ w then 2 * s.burstSize
  else s.burstSize - s.sent + if s.nextInterval < w + s.burstLength then s.burstSize else 0

theorem countP_allowedTimes (hsize : s.burstSize ≠ 0) (hlength : 0 < s.burstLength)
    (hcalls : calls.Pairwise (·.now ≤ ·.now)) (w : ℤ) :
    (allowedTimes s calls).countP (fun t => w ≤ t ∧ t < w + s.burstLength) ≤ windowRest s w := by
  induction calls generalizing s with
  | nil => exact Nat.zero_le _
  | cons c calls ih =>
    rcases lt_or_ge c.now (w + s.burstLength) with hnow | hnow
    · rw [allowedTimes]
      rcases updateLimitState_cases hsize hlength c.now with ⟨hlt, hu⟩ | ⟨next, hle, hlt, hnext, hu⟩
      all_goals
        rcases c.run_cases hsize with ⟨hs, hsent, hrun⟩ | ⟨hs, hrun⟩
        all_goals
          rw [hu] at hrun
          have hrest := @ih (c.run s) (by rwa [hrun]) (by rwa [hrun]) (pairwise_cons.1 hcalls).2
          rw [hrun] at hrest
          simp only [hs, hrun, windowRest] at hrest ⊢
          grind
    · -- all the others are later
      refine (countP_eq_zero.2 fun t ht => ?_).trans_le (Nat.zero_le _)
      have : c.now ≤ t := le_of_mem_allowedTimes (by simpa using (pairwise_cons.1 hcalls).1) ht
      grind

end Windows

section Limits

variable {s : LimitState}

theorem limitInit_positive (s : LimitState) {rate : BitVec 32} (hrate : rate ≠ 0) :
    (limitInit s rate).burstSize ≠ 0 ∧ 0 < (limitInit s rate).burstLength := by
  have hpos : rate.toNat ≠ 0 := fun h => hrate (BitVec.eq_of_toNat_eq h)
  have hle := Nat.div_mul_le_self 5000 rate.toNat
  have hlt := Nat.lt_div_mul_add (Nat.pos_of_ne_zero hpos) (a := 5000)
  have := rate.isLt
  simp only [limitInit, if_neg hrate, minBurstLength, Nat.succ_mul]
  refine ⟨Nat.succ_ne_zero _, ?_⟩
  rcases lt_or_ge 5000 rate.toNat with h | h
  · rw [Nat.div_eq_of_lt h]
    omega
  · omega

/-- In whatever state a call fails, the next interval is later, and a burst is allowed then. -/
theorem limitNextAllowed_isLeast (hsize : s.burstSize ≠ 0) (now : ℤ) :
    ((limitNextAllowed s now).1 = now ↔ (limitIsAllowed s now).1 = 0) ∧
      ((limitIsAllowed s now).1 ≠ 0 →
        IsLeast {t | now < t ∧ (limitIsAllowed (limitNextAllowed s now).2 t).1 = 0}
          (limitNextAllowed s now).1) := by
  by_cases hfails : now < s.nextInterval ∧ s.burstSize ≤ s.sent
  · have hlater (t : ℤ) : (limitIsAllowed s t).1 = 0 ↔ s.nextInterval ≤ t := by
      grind [limitIsAllowed, updateLimitState]
    have hnext : limitNextAllowed s now = (s.nextInterval, s) := by
      grind [limitNextAllowed, updateLimitState]
    simp only [hnext, hlater]
    exact ⟨by omega, fun _ => ⟨⟨hfails.1, le_rfl⟩, fun t ht => ht.2⟩⟩
  · have hzero : (limitIsAllowed s now).1 = 0 := by grind [limitIsAllowed, updateLimitState]
    have hnow : (limitNextAllowed s now).1 = now := by grind [limitNextAllowed, updateLimitState]
    exact ⟨iff_of_true hnow hzero, absurd hzero⟩

theorem LimitCall.run_size (c : LimitCall) : (c.run s).burstSize = s.burstSize := by
  unfold run limitIsAllowed limitNextAllowed updateLimitState
  grind

/-- A window of a burst length has at most two bursts. The time that `limit_next_allowed` returns is
now if a call succeeds, and otherwise the earliest one at which it would. -/
theorem limit_bounds (s : LimitState) (rate : BitVec 32) (hrate : rate ≠ 0)
    (calls : List LimitCall) (hcalls : calls.Pairwise (·.now ≤ ·.now)) :
    (∀ w, (allowedTimes (limitInit s rate) calls).countP
        (fun t => w ≤ t ∧ t < w + (limitInit s rate).burstLength) ≤
          2 * (limitInit s rate).burstSize) ∧
      ∀ u now, u = calls.foldl (fun s c => c.run s) (limitInit s rate) →
        ((limitNextAllowed u now).1 = now ↔ (limitIsAllowed u now).1 = 0) ∧
        ((limitIsAllowed u now).1 ≠ 0 →
          IsLeast {t | now < t ∧ (limitIsAllowed (limitNextAllowed u now).2 t).1 = 0}
            (limitNextAllowed u now).1) := by
  obtain ⟨hsize, hlength⟩ := limitInit_positive s hrate
  refine ⟨fun w => (countP_allowedTimes hsize hlength hcalls w).trans ?_, ?_⟩
  · grind [windowRest]
  rintro u now rfl
  refine limitNextAllowed_isLeast ?_ now
  clear hcalls
  generalize limitInit s rate = s at hsize
  induction calls generalizing s with
  | nil => exact hsize
  | cons c calls ih => exact ih _ (c.run_size.trans_ne hsize)

theorem limit_bounds_two :
    (allowedTimes (limitInit ⟨0, 0, 0, 0, 0⟩ 2500) [⟨true, 10⟩, ⟨false, 11⟩, ⟨true, 17⟩]).countP
      (fun t => 10 ≤ t ∧ t < 10 + 7) ≤ 2 * 3 :=
  (limit_bounds ⟨0, 0, 0, 0, 0⟩ 2500 (by decide) _ (by decide)).1 10

end Limits

end ServalMesh.Util
