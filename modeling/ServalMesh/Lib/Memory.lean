import Mathlib.Data.List.Basic
import Mathlib.Logic.Function.Basic
import Mathlib.Data.Nat.Basic
import Mathlib.Tactic.Common

/-!
# A memory that remembers where it was written

Bytes at addresses, with the addresses of all writes so far.
-/

namespace ServalMesh.Lib

open List

variable {β : Type*}

structure Memory (β : Type*) where
  bytes : ℕ → β
  written : List ℕ

namespace Memory

variable {m m' m'' : Memory β} {a a' : ℕ} {b : β} {text text' : List β} {low high : ℕ}

def write (m : Memory β) (a : ℕ) (b : β) : Memory β where
  bytes := Function.update m.bytes a b
  written := m.written ++ [a]

/-- Consecutive writes. -/
def put (m : Memory β) (a : ℕ) : List β → Memory β
  | [] => m
  | b :: text => put (m.write a b) (a + 1) text

/-- There is a text at an address. -/
def Holds (m : Memory β) (a : ℕ) (text : List β) : Prop :=
  ∀ i b, text[i]? = some b → m.bytes (a + i) = b

theorem Holds.nil (m : Memory β) (a : ℕ) : m.Holds a [] := by
  intro i b h
  exact nomatch h

theorem holds_append :
    m.Holds a (text ++ text') ↔ m.Holds a text ∧ m.Holds (a + text.length) text' := by
  constructor
  · intro h
    constructor
    · intro i b hb
      have hi : i < text.length := (List.getElem?_eq_some_iff.mp hb).1
      exact h i b (by rwa [List.getElem?_append_left hi])
    · intro i b hb
      rw [Nat.add_assoc]
      refine h _ b ?_
      rwa [getElem?_append_right (Nat.le_add_right _ _), Nat.add_sub_cancel_left]
  · rintro ⟨h, h'⟩ i b hb
    by_cases hi : i < text.length
    · rw [getElem?_append_left hi] at hb
      exact h i b hb
    · have hi := not_lt.mp hi
      rw [getElem?_append_right hi] at hb
      have hat := h' _ b hb
      rwa [Nat.add_assoc, Nat.add_sub_cancel' hi] at hat

theorem Holds.take (h : m.Holds a text) (n : ℕ) : m.Holds a (text.take n) := by
  rw [← take_append_drop n text] at h
  exact (holds_append.mp h).1

/-- All writes from one state to the other are in a range. -/
structure Within (m m' : Memory β) (low high : ℕ) : Prop where
  unchanged : ∀ x, x < low ∨ high ≤ x → m'.bytes x = m.bytes x
  written : ∀ x ∈ m'.written, x ∈ m.written ∨ (low ≤ x ∧ x < high)

theorem Within.refl (m : Memory β) (low high : ℕ) : Within m m low high :=
  ⟨fun _ _ => rfl, fun _ hx => .inl hx⟩

theorem Within.trans (h : Within m m' low high) (h' : Within m' m'' low high) :
    Within m m'' low high := by
  refine ⟨fun x hx => (h'.unchanged x hx).trans (h.unchanged x hx), ?_⟩
  intro x hx
  rcases h'.written x hx with hx | hx
  · exact h.written x hx
  · exact .inr hx

theorem Within.mono {low high low' high' : ℕ} (h : Within m m' low high) (hlow : low' ≤ low)
    (hhigh : high ≤ high') : Within m m' low' high' := by
  refine ⟨fun x hx => h.unchanged x (by omega), ?_⟩
  intro x hx
  rcases h.written x hx with hx | hx
  · exact .inl hx
  · exact .inr (by omega)

theorem within_write (m : Memory β) (a : ℕ) (b : β) : Within m (m.write a b) a (a + 1) := by
  constructor
  · intro x hx
    exact Function.update_of_ne (by omega) _ _
  intro x hx
  rcases mem_append.mp hx with hx | hx
  · exact .inl hx
  · rw [mem_singleton] at hx
    exact .inr (by omega)

theorem Holds.within (h : m.Holds a text) (hw : Within m m' low high)
    (hout : a + text.length ≤ low ∨ high ≤ a) : m'.Holds a text := by
  intro i b hb
  have hi : i < text.length := (List.getElem?_eq_some_iff.mp hb).1
  rw [hw.unchanged (a + i) (by omega)]
  exact h i b hb

/-- A text is written at an address, and nothing else. -/
structure Puts (m m' : Memory β) (a : ℕ) (text : List β) : Prop where
  holds : m'.Holds a text
  within : Within m m' a (a + text.length)

theorem Puts.append (h : Puts m m' a text) (h' : Puts m' m'' (a + text.length) text') :
    Puts m m'' a (text ++ text') := by
  refine ⟨holds_append.mpr ⟨h.holds.within h'.within (.inl le_rfl), h'.holds⟩, ?_⟩
  rw [length_append]
  exact (h.within.mono le_rfl (by omega)).trans (h'.within.mono (by omega) (by omega))

theorem puts_write (m : Memory β) (a : ℕ) (b : β) : Puts m (m.write a b) a [b] := by
  refine ⟨?_, within_write m a b⟩
  intro i c hc
  cases i with
  | zero =>
    cases hc
    exact Function.update_self _ _ _
  | succ i => exact nomatch hc

theorem puts_put (m : Memory β) (a : ℕ) (text : List β) : Puts m (m.put a text) a text := by
  induction text generalizing m a with
  | nil => exact ⟨Holds.nil _ _, .refl _ _ _⟩
  | cons b text ih => exact (puts_write m a b).append (ih (m.write a b) (a + 1))

/-- A byte is written again. -/
theorem Puts.rewrite (text : List β) (h : Puts m m' a (text ++ [b])) :
    Puts m (m'.write (a + text.length) b) a (text ++ [b]) := by
  have hwrite := puts_write m' (a + text.length) b
  refine ⟨holds_append.mpr ⟨?_, hwrite.holds⟩, h.within.trans (hwrite.within.mono ?_ ?_)⟩
  · exact (holds_append.mp h.holds).1.within hwrite.within (.inl le_rfl)
  · exact Nat.le_add_right _ _
  · rw [length_append, length_singleton]
    omega

end Memory

end ServalMesh.Lib
