import Mathlib.Data.List.Sort
import Mathlib.Logic.Function.Basic
import Mathlib.Tactic.Common

/-!
# Intrusive linked lists

A list whose elements carry the links: a pointer to the first element and, for every element, a
pointer to the next one. A cell of such a list is the head or the link of the element that owns it.
-/

namespace ServalMesh.Lib

open List Function

variable {α : Type*} {next next' prev prev' : α → Option α} {p q owner : Option α} {a b : α}
  {l l₁ l₂ l₃ : List α}

/-- The elements reached from a pointer. -/
def Linked (next : α → Option α) : Option α → List α → Prop
  | p, [] => p = none
  | p, a :: l => p = some a ∧ Linked next (next a) l

/-- Every element points back to the one before it, and the first one to `p`. -/
def BackLinked (prev : α → Option α) : Option α → List α → Prop
  | _, [] => True
  | p, a :: l => prev a = p ∧ BackLinked prev (some a) l

/-- Walk from a cell to the first one that is empty or whose element is to be stopped at. -/
def walk (next : α → Option α) (stop : α → Bool) :
    ℕ → Option α → Option α → Option (Option α × Option α)
  | _, owner, none => some (owner, none)
  | 0, _, some _ => none
  | fuel + 1, owner, some a =>
    if stop a then some (owner, some a) else walk next stop fuel (some a) (next a)

section Linked

theorem Linked.congr (h : Linked next p l) (hn : ∀ b ∈ l, next' b = next b) :
    Linked next' p l := by
  induction l generalizing p with
  | nil => exact h
  | cons b l ih =>
    refine ⟨h.1, ?_⟩
    rw [hn b mem_cons_self]
    exact ih h.2 (fun c hc => hn c (mem_cons_of_mem b hc))

theorem Linked.head_eq (h : Linked next p l) : p = l.head? := by
  cases l with
  | nil => exact h
  | cons b l => exact h.1

theorem Linked.tail (h : Linked next p (l₁ ++ a :: l₂)) : Linked next (next a) l₂ := by
  induction l₁ generalizing p with
  | nil => exact h.2
  | cons b l₁ ih => exact ih h.2

theorem Linked.walk (stop : α → Bool) {fuel : ℕ} (owner : Option α) (h : Linked next p l)
    (hfuel : l.length ≤ fuel) :
    walk next stop fuel owner p = some ((l.takeWhile (! stop ·)).getLast?.or owner,
      (l.dropWhile (! stop ·)).head?) := by
  induction l generalizing p fuel owner with
  | nil =>
    obtain rfl : p = none := h
    cases fuel <;> rfl
  | cons b l ih =>
    obtain ⟨rfl, h⟩ := h
    obtain ⟨fuel, rfl⟩ := Nat.exists_eq_add_one_of_ne_zero (Nat.ne_zero_of_lt hfuel)
    have ih := ih (some b) h (Nat.le_of_succ_le_succ hfuel)
    rw [Lib.walk]
    cases hstop : stop b with
    | true => simp [hstop]
    | false =>
      rw [if_neg (by simp), ih]
      simp only [hstop, Bool.not_false, takeWhile_cons_of_pos, dropWhile_cons_of_pos,
        getLast?_cons]
      cases (l.takeWhile (! stop ·)).getLast? <;> rfl

end Linked

section Cells

variable [DecidableEq α]

/-- Write to a field of an element, if there is one. -/
def setAt (field : α → Option α) (owner : Option α) (v : Option α) : α → Option α :=
  match owner with
  | none => field
  | some a => Function.update field a v

/-- The head after a write to a cell. -/
def setHead (head owner v : Option α) : Option α :=
  match owner with
  | none => v
  | some _ => head

theorem setAt_of_ne {field : α → Option α} {v : Option α} (h : owner ≠ some b) :
    setAt field owner v b = field b := by
  cases owner with
  | none => rfl
  | some a =>
    have hne : b ≠ a := fun hb => h (by rw [hb])
    exact update_of_ne hne _ _

/-- A write to the last cell of `l₁` replaces what follows it. -/
theorem Linked.setAt (h : Linked next p (l₁ ++ l₂)) (hd : l₁.Nodup) (h₃ : Linked next q l₃)
    (hdis : ∀ b ∈ l₁, b ∉ l₃) :
    Linked (setAt next l₁.getLast? q) (setHead p l₁.getLast? q) (l₁ ++ l₃) := by
  rcases eq_nil_or_concat l₁ with rfl | ⟨l, a, rfl⟩
  · exact h₃
  rw [concat_eq_append] at h hd hdis ⊢
  rw [getLast?_concat]
  have ha : a ∉ l := fun hl => (nodup_append.mp hd).2.2 a hl a (by simp) rfl
  have h₃ : Linked (update next a q) q l₃ := by
    refine h₃.congr fun b hb => ?_
    have hne : b ≠ a := fun he => hdis b (by simp [he]) hb
    exact update_of_ne hne _ _
  change Linked (update next a q) p (l ++ [a] ++ l₃)
  clear hd hdis
  induction l generalizing p with
  | nil =>
    refine ⟨h.1, ?_⟩
    rwa [update_self]
  | cons b l ih =>
    refine ⟨h.1, ?_⟩
    rw [update_of_ne (fun hb => ha (by rw [hb]; exact mem_cons_self))]
    exact ih h.2 (fun hl => ha (mem_cons_of_mem b hl))

/-- An element is linked in before `l₂`. -/
theorem Linked.insert (h : Linked next p (l₁ ++ l₂)) (hd : (l₁ ++ l₂).Nodup) (ha : a ∉ l₁ ++ l₂) :
    Linked (Lib.setAt (update next a l₂.head?) l₁.getLast? (some a))
      (setHead p l₁.getLast? (some a)) (l₁ ++ a :: l₂) := by
  rw [mem_append, not_or] at ha
  have hne : ∀ b ∈ l₁ ++ l₂, update next a l₂.head? b = next b := by
    intro b hb
    refine update_of_ne ?_ _ _
    rintro rfl
    exact (mem_append.mp hb).elim ha.1 ha.2
  have h' := h.congr hne
  have h₂ : Linked (update next a l₂.head?) l₂.head? l₂ := by
    clear hd ha hne h
    induction l₁ generalizing p with
    | nil =>
      obtain rfl := h'.head_eq
      exact h'
    | cons b l₁ ih => exact ih h'.2
  refine h'.setAt (nodup_append.mp hd).1 ⟨rfl, ?_⟩ ?_
  · rwa [update_self]
  · rintro b hb hb'
    rcases mem_cons.mp hb' with rfl | hb'
    · exact ha.1 hb
    · exact (nodup_append.mp hd).2.2 b hb b hb' rfl

/-- An element is taken out, and its own link cleared. -/
theorem Linked.remove (h : Linked next p (l₁ ++ a :: l₂)) (hd : (l₁ ++ a :: l₂).Nodup) :
    Linked (update (Lib.setAt next l₁.getLast? (next a)) a none)
      (setHead p l₁.getLast? (next a)) (l₁ ++ l₂) := by
  obtain ⟨hd₁, hd₂, hdis⟩ := nodup_append.mp hd
  have h₁ := h.setAt hd₁ h.tail
    (fun b hb hb' => hdis b hb b (mem_cons_of_mem a hb') rfl)
  refine h₁.congr fun b hb => update_of_ne ?_ _ _
  rintro rfl
  rcases mem_append.mp hb with hb | hb
  · exact hdis b hb b mem_cons_self rfl
  · exact (nodup_cons.mp hd₂).1 hb

end Cells

section BackLinked

theorem BackLinked.congr (h : BackLinked prev p l) (hp : ∀ b ∈ l, prev' b = prev b) :
    BackLinked prev' p l := by
  induction l generalizing p with
  | nil => trivial
  | cons b l ih =>
    refine ⟨(hp b mem_cons_self).trans h.1, ?_⟩
    exact ih h.2 (fun c hc => hp c (mem_cons_of_mem b hc))

theorem backLinked_append :
    BackLinked prev p (l₁ ++ l₂) ↔
      BackLinked prev p l₁ ∧ BackLinked prev (l₁.getLast?.or p) l₂ := by
  induction l₁ generalizing p with
  | nil => simp [BackLinked]
  | cons b l ih =>
    rw [cons_append, BackLinked, BackLinked, ih, and_assoc, getLast?_cons]
    cases l.getLast? <;> rfl

theorem BackLinked.prev_eq (h : BackLinked prev none (l₁ ++ a :: l₂)) :
    prev a = l₁.getLast? := by
  rw [(backLinked_append.mp h).2.1, Option.or_none]

variable [DecidableEq α]

/-- An element that is linked in before `l₂` becomes the one before it. -/
theorem BackLinked.insert (h : BackLinked prev p (l₁ ++ l₂)) (hd : (l₁ ++ l₂).Nodup)
    (ha : a ∉ l₁ ++ l₂) :
    BackLinked (update (setAt prev l₂.head? (some a)) a (l₁.getLast?.or p)) p
      (l₁ ++ a :: l₂) := by
  obtain ⟨h₁, h₂⟩ := backLinked_append.mp h
  rw [mem_append, not_or] at ha
  refine backLinked_append.mpr ⟨h₁.congr ?_, update_self .., ?_⟩
  · intro b hb
    rw [update_of_ne (ne_of_mem_of_not_mem hb ha.1), setAt_of_ne]
    intro hb'
    exact (nodup_append.mp hd).2.2 b hb b (mem_of_head? hb') rfl
  cases l₂ with
  | nil => trivial
  | cons c l =>
    have hc : c ≠ a := fun he => ha.2 (by rw [he]; exact mem_cons_self)
    refine ⟨?_, h₂.2.congr fun b hb => ?_⟩
    · rw [update_of_ne hc]
      exact update_self ..
    · rw [update_of_ne (ne_of_mem_of_not_mem (mem_cons_of_mem c hb) ha.2), setAt_of_ne]
      intro hb'
      cases hb'
      exact (nodup_cons.mp (nodup_append.mp hd).2.1).1 hb

/-- The element after one that is taken out points back past it. -/
theorem BackLinked.remove (h : BackLinked prev p (l₁ ++ a :: l₂)) (hd : (l₁ ++ a :: l₂).Nodup) :
    BackLinked (update (setAt prev l₂.head? (prev a)) a none) p (l₁ ++ l₂) := by
  obtain ⟨h₁, ha, h₂⟩ := backLinked_append.mp h
  obtain ⟨-, hd₂, hdis⟩ := nodup_append.mp hd
  have ha₂ := (nodup_cons.mp hd₂).1
  refine backLinked_append.mpr ⟨h₁.congr ?_, ?_⟩
  · intro b hb
    rw [update_of_ne (fun he => hdis b hb a mem_cons_self he), setAt_of_ne]
    intro hb'
    exact hdis b hb b (mem_cons_of_mem a (mem_of_head? hb')) rfl
  cases l₂ with
  | nil => trivial
  | cons c l =>
    have hc : c ≠ a := fun he => ha₂ (by rw [he]; exact mem_cons_self)
    refine ⟨?_, h₂.2.congr fun b hb => ?_⟩
    · rw [update_of_ne hc]
      exact (update_self ..).trans ha
    · rw [update_of_ne (ne_of_mem_of_not_mem (mem_cons_of_mem c hb) ha₂), setAt_of_ne]
      intro hb'
      cases hb'
      exact (nodup_cons.mp (nodup_cons.mp hd₂).2).1 hb

end BackLinked

section DoublyLinked

/-- A list that is linked in both directions. Elements that are not in it have no links. -/
structure DoublyLinked (next prev : α → Option α) (head : Option α) (l : List α) : Prop where
  linked : Linked next head l
  back : BackLinked prev none l
  once : l.Nodup
  clear : ∀ b ∉ l, next b = none ∧ prev b = none

variable [DecidableEq α]

theorem DoublyLinked.insert (h : DoublyLinked next prev p (l₁ ++ l₂)) (ha : a ∉ l₁ ++ l₂) :
    DoublyLinked (setAt (update next a l₂.head?) l₁.getLast? (some a))
      (update (setAt prev l₂.head? (some a)) a l₁.getLast?)
      (setHead p l₁.getLast? (some a)) (l₁ ++ a :: l₂) where
  linked := h.linked.insert h.once ha
  back := by
    have hb := h.back.insert h.once ha
    rwa [Option.or_none] at hb
  once := (nodup_middle.mpr (nodup_cons.mpr ⟨ha, h.once⟩))
  clear := by
    intro b hb
    simp only [mem_append, mem_cons, not_or] at hb
    have hclear := h.clear b (by simp [hb])
    constructor
    · rw [setAt_of_ne (fun hl => hb.1 (mem_of_getLast? hl)), update_of_ne hb.2.1]
      exact hclear.1
    · rw [update_of_ne hb.2.1, setAt_of_ne (fun hl => hb.2.2 (mem_of_head? hl))]
      exact hclear.2

/-- The links tell where an element is taken out, and that it is not in the list. -/
theorem DoublyLinked.remove (h : DoublyLinked next prev p l) (a : α) :
    DoublyLinked (update (setAt next (prev a) (next a)) a none)
      (update (setAt prev (next a) (prev a)) a none)
      (if prev a = none ∧ p = some a then next a else p) (l.erase a) := by
  by_cases ha : a ∈ l
  · obtain ⟨l₁, l₂, rfl, ha₁⟩ := eq_append_cons_of_mem ha
    have hprev := h.back.prev_eq
    have hnext := h.linked.tail.head_eq
    rw [erase_append_right _ ha₁, erase_cons_head]
    refine ⟨?_, ?_, ?_, ?_⟩
    · have hl := h.linked.remove h.once
      rw [hprev]
      convert hl using 1
      cases hlast : l₁.getLast? with
      | none =>
        rw [getLast?_eq_none_iff] at hlast
        subst hlast
        exact if_pos ⟨rfl, h.linked.1⟩
      | some b => exact if_neg (fun hc => nomatch hc.1)
    · rw [hnext]
      exact h.back.remove h.once
    · exact (nodup_cons.mp (nodup_middle.mp h.once)).2
    · intro b hb
      rw [mem_append, not_or] at hb
      by_cases hba : b = a
      · subst hba
        exact ⟨update_self .., update_self ..⟩
      have hclear := h.clear b (by simp [hb, hba])
      rw [update_of_ne hba, update_of_ne hba, setAt_of_ne, setAt_of_ne]
      · exact hclear
      · rw [hnext]
        exact fun hl => hb.2 (mem_of_head? hl)
      · rw [hprev]
        exact fun hl => hb.1 (mem_of_getLast? hl)
  · obtain ⟨hnext, hprev⟩ := h.clear a ha
    have hp : p ≠ some a := by
      rw [h.linked.head_eq]
      exact fun hl => ha (mem_of_head? hl)
    rw [hnext, hprev, if_neg (fun hc => hp hc.2), erase_of_not_mem ha]
    have hn : update next a none = next := update_eq_self_iff.mpr hnext.symm
    have hb : update prev a none = prev := update_eq_self_iff.mpr hprev.symm
    change DoublyLinked (update next a none) (update prev a none) p l
    rwa [hn, hb]

end DoublyLinked

section Sorted

variable {β : Type*} [LinearOrder β] {key : α → β}

theorem pairwise_orderedInsert (a : α) (h : l.Pairwise (key · ≤ key ·)) :
    (l.orderedInsert (key · < key ·) a).Pairwise (key · ≤ key ·) := by
  induction l with
  | nil => exact pairwise_singleton _ a
  | cons b l ih =>
    rw [pairwise_cons] at h
    by_cases hab : key a < key b
    · rw [orderedInsert_cons_of_le _ l hab, pairwise_cons, pairwise_cons]
      exact ⟨forall_mem_cons.mpr ⟨hab.le, fun c hc => hab.le.trans (h.1 c hc)⟩, h⟩
    · rw [orderedInsert_of_not_le _ l hab, pairwise_cons]
      refine ⟨fun c hc => ?_, ih h.2⟩
      rcases (mem_orderedInsert _).mp hc with rfl | hc
      · exact not_lt.mp hab
      · exact h.1 c hc

end Sorted

end ServalMesh.Lib
