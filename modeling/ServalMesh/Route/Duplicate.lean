import ServalMesh.Lib.ShiftRegister
import ServalMesh.Route.Tables

/-!
# Per-neighbour payload de-duplication

`link_received_duplicate` keeps the newest payload sequence byte of a neighbour
and a 64 bit history of the ones before it.
-/

namespace ServalMesh.Route

open Lib List

/-- `1<<offset` is an `int`; using it with a `uint64_t` extends its sign. -/
def oneShl (u : UndefinedShifts) (offset : ℕ) : BitVec 64 :=
  (u.shlInt 1#32 offset).signExtend 64

/-- `d & 0xFF` for a difference of two sequence numbers. -/
def seqByte (d : ℤ) : ℕ := (d % 256).toNat

variable {u : UndefinedShifts} {offset i : ℕ}

theorem oneShl_low (ho : offset < 32) (hi : i < 32) :
    (oneShl u offset).getLsbD i = true ↔ i = offset := by
  have hi64 : i < 64 := by omega
  rw [oneShl, UndefinedShifts.shlInt_of_lt ho, BitVec.getLsbD_signExtend]
  simp only [hi, if_true, hi64, decide_true, Bool.true_and]
  rw [BitVec.getLsbD_shiftLeft, BitVec.getLsbD_one]
  simp only [hi, decide_true, Bool.true_and, Bool.and_eq_true, Bool.not_eq_true',
    decide_eq_false_iff_not, decide_eq_true_eq]
  omega

/-- Below bit 31 the constant is positive, so no other bit is set. -/
theorem oneShl_exact (ho : offset < 31) (hi : i < 64) :
    (oneShl u offset).getLsbD i = true ↔ i = offset := by
  by_cases hlow : i < 32
  · exact oneShl_low (by omega) hlow
  have ho32 : offset < 32 := by omega
  rw [oneShl, UndefinedShifts.shlInt_of_lt ho32, BitVec.getLsbD_signExtend]
  simp only [hlow, if_false, hi, decide_true, Bool.true_and]
  rw [BitVec.msb_eq_getLsbD_last, BitVec.getLsbD_shiftLeft, BitVec.getLsbD_one]
  simp only [Bool.and_eq_true, Bool.not_eq_true', decide_eq_false_iff_not, decide_eq_true_eq]
  omega

section

variable {σ : Type}

/-- `link_received_duplicate` once the neighbour has been found. -/
def Neighbour.receivedDuplicate (u : UndefinedShifts) (n : Neighbour σ) (payloadSeq : ℕ) :
    Bool × Neighbour σ :=
  if n.mdpAckSequence = -1 then (false, { n with mdpAckSequence := payloadSeq })
  else if n.mdpAckSequence = payloadSeq then (true, n)
  else
    let offset := seqByte (n.mdpAckSequence - 1 - payloadSeq)
    if offset < 64 then
      if n.mdpAckMask &&& oneShl u offset ≠ 0#64 then (true, n)
      else (false, { n with mdpAckMask := n.mdpAckMask ||| oneShl u offset })
    else
      let offset := seqByte (payloadSeq - n.mdpAckSequence - 1)
      (false, { n with
        mdpAckMask := u.shlUint64 ((n.mdpAckMask <<< 1) ||| 1#64) offset
        mdpAckSequence := payloadSeq })

variable [DecidableEq σ]

def linkReceivedDuplicate (u : UndefinedShifts) (ns : List (Neighbour σ)) (s : σ)
    (payloadSeq : ℕ) : Bool × List (Neighbour σ) :=
  match getNeighbour ns s with
  | none => (false, ns)
  | some n =>
    let r := n.receivedDuplicate u payloadSeq
    (r.1, setNeighbour ns r.2)

/-- The answers to a sequence of arriving frame numbers, of which only the low
byte is on the wire. -/
def duplicateAnswers (u : UndefinedShifts) (s : σ) : List (Neighbour σ) → List ℕ → List Bool
  | _, [] => []
  | ns, k :: ks =>
    let r := linkReceivedDuplicate u ns s (k % 256)
    r.1 :: duplicateAnswers u s r.2 ks

end

/-- What de-duplication is for: has this very frame number arrived before? -/
def repeats : List ℕ → List ℕ → List Bool
  | _, [] => []
  | seen, k :: ks => decide (k ∈ seen) :: repeats (k :: seen) ks

/-- Every arrival stands in relation `P` to the highest number seen before it. -/
def Arrivals (P : ℕ → ℕ → Prop) : List ℕ → List ℕ → Prop
  | _, [] => True
  | seen, k :: ks => (∀ high, seen.max? = some high → P high k) ∧ Arrivals P (k :: seen) ks

/-- Less than 64 behind the highest number, or at most 128 ahead of it. -/
def DedupWindow (high k : ℕ) : Prop := high < k + 64 ∧ k ≤ high + 128

/-- The distances at which both shifts of the code mean what they say. -/
def ShiftsDefined (high k : ℕ) : Prop := high ≤ k + 31 ∧ k ≤ high + 64

instance (high k : ℕ) : Decidable (DedupWindow high k) := inferInstanceAs (Decidable (_ ∧ _))

instance (high k : ℕ) : Decidable (ShiftsDefined high k) := inferInstanceAs (Decidable (_ ∧ _))

instance instDecidableArrivals {P : ℕ → ℕ → Prop} [∀ h k, Decidable (P h k)] :
    ∀ seen ks, Decidable (Arrivals P seen ks)
  | _, [] => isTrue trivial
  | seen, k :: ks =>
    have : Decidable (∀ high, seen.max? = some high → P high k) :=
      match hm : seen.max? with
      | none => isTrue (by simp)
      | some h => decidable_of_iff (P h k) (by simp)
    have := instDecidableArrivals (P := P) (k :: seen) ks
    inferInstanceAs (Decidable (_ ∧ _))

section

variable {σ : Type} {u : UndefinedShifts} {n : Neighbour σ} {seen : List ℕ}
  {k high : ℕ} {ks : List ℕ}

/-- The neighbour's two fields represent exactly the frames seen. -/
def Remembers (n : Neighbour σ) (seen : List ℕ) : Prop :=
  match seen.max? with
  | none => n.mdpAckSequence = -1 ∧ n.mdpAckMask = 0#64
  | some high => n.mdpAckSequence = ((high % 256 : ℕ) : ℤ) ∧
      Tracks 64 n.mdpAckMask (· ∈ seen) high

section

variable (hm : seen.max? = some high)
include hm

theorem max?_cons_some : (k :: seen).max? = some (max k high) := by
  rw [max?_cons, hm]
  rfl

theorem le_of_max? (hk : k ∈ seen) : k ≤ high :=
  (max?_eq_some_iff.mp hm).2 k hk

theorem mem_of_max? : high ∈ seen :=
  (max?_eq_some_iff.mp hm).1

end

theorem tracks_cons {w m : ℕ} {mask : BitVec w} (h : Tracks m mask (· ∈ seen) high)
    (hk : k < high → k ∈ seen) : Tracks m mask (· ∈ k :: seen) high := by
  refine tracks_congr h fun x hx => ⟨mem_cons_of_mem k, fun hmem => ?_⟩
  rcases mem_cons.mp hmem with rfl | hmem
  · exact hk hx
  · exact hmem

theorem tracks_ahead {w m : ℕ} {mask : BitVec w} (h : Tracks m mask (· ∈ seen) high)
    (hm : seen.max? = some high) (hle : m ≤ w) (hnew : high < k) :
    Tracks m ((mask <<< 1 ||| 1#w) <<< (k - high - 1)) (· ∈ k :: seen) k := by
  have hpush := tracks_push h hle (mem_of_max? hm)
  have hshift := tracks_shift (k := k - high - 1) hpush hle (by
    intro m hlo _ hmem
    have := le_of_max? hm hmem
    omega)
  rw [show high + 1 + (k - high - 1) = k by omega] at hshift
  exact tracks_cons hshift fun hlt => absurd hlt (lt_irrefl k)

theorem seqByte_late (hlate : k < high) (hw : high ≤ k + 256) :
    seqByte (((high % 256 : ℕ) : ℤ) - 1 - ((k % 256 : ℕ) : ℤ)) = high - 1 - k := by
  unfold seqByte
  omega

theorem seqByte_ahead (hnew : high < k) (hw : k ≤ high + 256) :
    seqByte (((k % 256 : ℕ) : ℤ) - ((high % 256 : ℕ) : ℤ) - 1) = k - high - 1 := by
  unfold seqByte
  omega

/-- A frame is answered, and recorded. -/
def Answers (u : UndefinedShifts) (n : Neighbour σ) (seen : List ℕ) (k : ℕ) : Prop :=
  (n.receivedDuplicate u (k % 256)).1 = decide (k ∈ seen) ∧
    Remembers (n.receivedDuplicate u (k % 256)).2 (k :: seen)

theorem remembers_first (h : Remembers n []) : Answers u n [] k := by
  obtain ⟨hseq, hmask⟩ : n.mdpAckSequence = -1 ∧ n.mdpAckMask = 0#64 := h
  simp only [Answers, Neighbour.receivedDuplicate, hseq, if_true]
  refine ⟨by simp, rfl, ?_⟩
  change Tracks 64 n.mdpAckMask (· ∈ [k]) k
  rw [hmask]
  apply tracks_zero
  intro m hm hmem
  have := mem_singleton.mp hmem
  omega

section

variable (h : Remembers n seen) (hm : seen.max? = some high) (hw : ShiftsDefined high k)
include h hm hw

/-- A frame behind the highest one is looked up, and recorded, in the mask. -/
theorem remembers_late (hlate : k < high) : Answers u n seen k := by
  rw [Remembers, hm] at h
  obtain ⟨hseq, htr⟩ := h
  have hmax : (k :: seen).max? = some high := by
    rw [max?_cons_some hm, max_eq_right (by omega)]
  obtain ⟨hw, -⟩ := hw
  have hoff := seqByte_late hlate (by omega)
  have hoff31 : high - 1 - k < 31 := by omega
  have hne : ¬ (((high % 256 : ℕ) : ℤ) = ((k % 256 : ℕ) : ℤ)) := by omega
  have hbit : ∀ i, i < 64 → ((oneShl u (high - 1 - k)).getLsbD i = true ↔ i = high - 1 - k) :=
    fun i hi => oneShl_exact hoff31 hi
  have htest : n.mdpAckMask &&& oneShl u (high - 1 - k) ≠ 0#64 ↔ k ∈ seen :=
    tracks_test htr hlate (by omega) hbit
  have hneg1 : ¬ (((high % 256 : ℕ) : ℤ) = -1) := by omega
  simp only [Answers, Neighbour.receivedDuplicate, hseq, hneg1, hne, if_false, hoff,
    show high - 1 - k < 64 by omega, if_true]
  by_cases hmem : k ∈ seen
  · rw [if_pos (htest.mpr hmem)]
    refine ⟨by simp [hmem], ?_⟩
    rw [Remembers, hmax]
    exact ⟨hseq, tracks_cons htr fun _ => hmem⟩
  rw [if_neg (fun hc => hmem (htest.mp hc))]
  refine ⟨by simp [hmem], ?_⟩
  rw [Remembers, hmax]
  refine ⟨rfl, tracks_congr (tracks_mark htr hlate hbit) ?_⟩
  intro m _
  simp only [mem_cons]
  exact or_comm

/-- A frame ahead of the highest one shifts the history along. -/
theorem remembers_ahead (hnew : high < k) : Answers u n seen k := by
  rw [Remembers, hm] at h
  obtain ⟨hseq, htr⟩ := h
  have hmax : (k :: seen).max? = some k := by
    rw [max?_cons_some hm, max_eq_left (by omega)]
  have hnot : k ∉ seen := fun hmem => by have := le_of_max? hm hmem; omega
  obtain ⟨-, hw⟩ := hw
  have hoff := seqByte_ahead hnew (by omega)
  have hback : ¬ seqByte (((high % 256 : ℕ) : ℤ) - 1 - ((k % 256 : ℕ) : ℤ)) < 64 := by
    unfold seqByte
    omega
  have hne : ¬ (((high % 256 : ℕ) : ℤ) = ((k % 256 : ℕ) : ℤ)) := by omega
  have hneg1 : ¬ (((high % 256 : ℕ) : ℤ) = -1) := by omega
  have hlt : k - high - 1 < 64 := by omega
  simp only [Answers, Neighbour.receivedDuplicate, hseq, hneg1, hne, if_false, hback, hoff]
  refine ⟨by simp [hnot], ?_⟩
  rw [Remembers, hmax, UndefinedShifts.shlUint64, if_pos hlt]
  exact ⟨rfl, tracks_ahead htr hm le_rfl hnew⟩

end

theorem remembers_step (h : Remembers n seen)
    (hw : ∀ high, seen.max? = some high → ShiftsDefined high k) : Answers u n seen k := by
  cases hm : seen.max? with
  | none =>
    obtain rfl := max?_eq_none_iff.mp hm
    exact remembers_first h
  | some high =>
    rcases lt_trichotomy k high with hlt | rfl | hgt
    · exact remembers_late h hm (hw high hm) hlt
    · have hmem := mem_of_max? hm
      have hmax : (k :: seen).max? = some k := by rw [max?_cons_some hm, Nat.max_self]
      rw [Remembers, hm] at h
      obtain ⟨hseq, htr⟩ := h
      have hneg1 : ¬ (((k % 256 : ℕ) : ℤ) = -1) := by omega
      simp only [Answers, Neighbour.receivedDuplicate, hseq, hneg1, if_false, if_true, hmem,
        decide_true, true_and]
      rw [Remembers, hmax]
      exact ⟨hseq, tracks_cons htr fun _ => hmem⟩
    · exact remembers_ahead h hm (hw high hm) hgt

theorem receivedDuplicate_subscriber (u : UndefinedShifts) (n : Neighbour σ) (seq : ℕ) :
    (n.receivedDuplicate u seq).2.subscriber = n.subscriber := by
  unfold Neighbour.receivedDuplicate
  dsimp only
  split_ifs <;> rfl

theorem arrivals_mono {P Q : ℕ → ℕ → Prop} (hpq : ∀ h k, P h k → Q h k) (h : Arrivals P seen ks) :
    Arrivals Q seen ks := by
  induction ks generalizing seen with
  | nil => trivial
  | cons k ks ih => exact ⟨fun high hm => hpq _ _ (h.1 high hm), ih h.2⟩

variable [DecidableEq σ]

theorem duplicateAnswers_of_remembers {ns : List (Neighbour σ)} {s : σ}
    (hn : getNeighbour ns s = some n) (h : Remembers n seen) (hw : Arrivals ShiftsDefined seen ks) :
    duplicateAnswers u s ns ks = repeats seen ks := by
  induction ks generalizing ns n seen with
  | nil => rfl
  | cons k ks ih =>
    obtain ⟨hk, hks⟩ := hw
    obtain ⟨hr, hmem⟩ := remembers_step (u := u) h hk
    have hsub := (receivedDuplicate_subscriber u n (k % 256)).trans (getNeighbour_subscriber hn)
    have hn' : getNeighbour (setNeighbour ns (n.receivedDuplicate u (k % 256)).2) s =
        some (n.receivedDuplicate u (k % 256)).2 := by
      rw [← hsub] at hn ⊢
      exact getNeighbour_setNeighbour_self hn
    simp only [duplicateAnswers, linkReceivedDuplicate, hn, repeats, hr]
    rw [ih hn' hmem hks]

/-- While every shift is defined, a freshly created neighbour answers each
arrival exactly, across any number of wraps of the sequence byte. -/
theorem linkReceivedDuplicate_exact (u : UndefinedShifts) (ns : List (Neighbour σ)) (s : σ)
    (n : Neighbour σ) (hn : getNeighbour ns s = some n) (hseq : n.mdpAckSequence = -1)
    (hmask : n.mdpAckMask = 0#64) (ks : List ℕ)
    (hw : Arrivals (fun high k => DedupWindow high k ∧ ShiftsDefined high k) [] ks) :
    duplicateAnswers u s ns ks = repeats [] ks :=
  duplicateAnswers_of_remembers hn ⟨hseq, hmask⟩ (arrivals_mono (fun _ _ h => h.2) hw)

end

theorem linkReceivedDuplicate_exact_wrap :
    duplicateAnswers .arm 7 [({ subscriber := 7 } : Neighbour ℕ)] [250, 281, 250, 257, 300, 281] =
      repeats [] [250, 281, 250, 257, 300, 281] :=
  linkReceivedDuplicate_exact .arm [{ subscriber := 7 }] 7 { subscriber := 7 } rfl rfl rfl _
    (by decide)

/-- Frame 8 arrives 32 behind frame 40. The test constant is then `1<<31`, whose
sign extension also covers the bit of frame 0, so the new frame is dropped. -/
theorem linkReceivedDuplicate_false_duplicate :
    Arrivals DedupWindow [] [0, 40, 8] ∧
      duplicateAnswers .arm 7 [({ subscriber := 7 } : Neighbour ℕ)] [0, 40, 8] ≠
        repeats [] [0, 40, 8] := by
  decide

end ServalMesh.Route
