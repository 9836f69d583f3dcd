import Mathlib

/-!
# Digit tries

A trie over an alphabet `α` whose leaves sit as high as they can: an entry is
stored at the end of the shortest path of digits that tells it from all others.
-/

namespace ServalMesh.Lib

open List Function

variable {α β κ : Type}

inductive DigitTrie (α β : Type) where
  | empty
  | leaf (entry : β)
  | node (children : α → DigitTrie α β)

namespace DigitTrie

/-- The entry `b` is stored in the slot at the end of this path. -/
inductive At : DigitTrie α β → List α → β → Prop
  | leaf {b : β} : At (.leaf b) [] b
  | node {children : α → DigitTrie α β} {a : α} {path : List α} {b : β} :
      At (children a) path b → At (.node children) (a :: path) b

/-- The second trie hangs below the first, at the end of this path. -/
inductive Below : DigitTrie α β → List α → DigitTrie α β → Prop
  | here {t : DigitTrie α β} : Below t [] t
  | node {children : α → DigitTrie α β} {a : α} {path : List α} {t : DigitTrie α β} :
      Below (children a) path t → Below (.node children) (a :: path) t

/-- Some entry of the trie has this key. -/
def HasKey (key : β → κ) (t : DigitTrie α β) (k : κ) : Prop := ∃ path b, t.At path b ∧ key b = k

section Entries

variable {key : β → κ} {k : κ} {t : DigitTrie α β} {children : α → DigitTrie α β} {a : α}
  {path path' : List α} {b b' : β}

@[simp] theorem not_at_empty : ¬ At (.empty : DigitTrie α β) path b := by
  intro h
  cases h

@[simp] theorem at_leaf : At (.leaf b : DigitTrie α β) path b' ↔ path = [] ∧ b' = b := by
  constructor
  · intro h
    cases h
    exact ⟨rfl, rfl⟩
  · rintro ⟨rfl, rfl⟩
    exact .leaf

theorem at_node (h : At (.node children) path b) :
    ∃ a rest, path = a :: rest ∧ At (children a) rest b := by
  cases h with
  | node h => exact ⟨_, _, rfl, h⟩

/-- Two paths to entries are equal or part at some digit. -/
theorem at_unique (h : t.At path b) (h' : t.At path' b') (hp : path <+: path') :
    path = path' ∧ b = b' := by
  induction h generalizing path' with
  | leaf =>
    rw [at_leaf] at h'
    exact ⟨h'.1.symm, h'.2.symm⟩
  | node _ ih =>
    obtain ⟨a', rest, rfl, hrest⟩ := at_node h'
    rw [cons_prefix_cons] at hp
    obtain ⟨rfl, hp⟩ := hp
    obtain ⟨rfl, rfl⟩ := ih hrest hp
    exact ⟨rfl, rfl⟩

theorem below_at {t' : DigitTrie α β} (h : Below t path t') (h' : At t' path' b) :
    At t (path ++ path') b := by
  induction h with
  | here => exact h'
  | node _ ih => exact .node (ih h')

@[simp] theorem not_hasKey_empty : ¬ HasKey key (.empty : DigitTrie α β) k := by
  rintro ⟨path, b, h, -⟩
  exact not_at_empty h

@[simp] theorem hasKey_leaf : HasKey key (.leaf b : DigitTrie α β) k ↔ key b = k := by
  constructor
  · rintro ⟨path, b', h, rfl⟩
    rw [(at_leaf.mp h).2]
  · intro h
    exact ⟨[], b, .leaf, h⟩

theorem hasKey_node : HasKey key (.node children) k ↔ ∃ a, HasKey key (children a) k := by
  constructor
  · rintro ⟨path, b, h, hk⟩
    obtain ⟨a, rest, -, h⟩ := at_node h
    exact ⟨a, rest, b, h, hk⟩
  · rintro ⟨a, path, b, h, hk⟩
    exact ⟨a :: path, b, .node h, hk⟩

theorem hasKey_update [DecidableEq α] :
    HasKey key (.node (update children a t)) k ↔
      HasKey key t k ∨ ∃ a', a' ≠ a ∧ HasKey key (children a') k := by
  rw [hasKey_node]
  constructor
  · rintro ⟨a', h⟩
    by_cases ha : a' = a
    · subst ha
      rw [update_self] at h
      exact .inl h
    · rw [update_of_ne ha] at h
      exact .inr ⟨a', ha, h⟩
  · rintro (h | ⟨a', ha, h⟩)
    · exact ⟨a, by rwa [update_self]⟩
    · exact ⟨a', by rwa [update_of_ne ha]⟩

theorem hasKey_split [DecidableEq α] (a : α) :
    HasKey key (.node children) k ↔
      HasKey key (children a) k ∨ ∃ a', a' ≠ a ∧ HasKey key (children a') k := by
  rw [← hasKey_update, update_eq_self]

end Entries

/-- The first digits of a key. -/
def firstDigits (digit : ℕ → α) (n : ℕ) : List α := (List.range n).map digit

section Digits

variable {d d' : ℕ → α} {m n : ℕ}

@[simp] theorem length_firstDigits : (firstDigits d n).length = n := by simp [firstDigits]

theorem firstDigits_succ : firstDigits d (n + 1) = firstDigits d n ++ [d n] := by
  simp [firstDigits, range_succ]

theorem firstDigits_eq : firstDigits d n = firstDigits d' n ↔ ∀ i < n, d i = d' i := by
  simp [firstDigits, map_inj_left]

theorem firstDigits_le (h : m ≤ n) : firstDigits d m <+: firstDigits d n := by
  obtain ⟨k, rfl⟩ := Nat.exists_eq_add_of_le h
  simp [firstDigits, range_add]

end Digits

/-- Every entry lies where its digits lead, and every inner node tells at least
two keys apart. The entry may depend on its depth. -/
def Ok (digit : κ → ℕ → α) (key : β → κ) (good : ℕ → β → Prop) :
    List α → DigitTrie α β → Prop
  | _, .empty => True
  | path, .leaf b => good path.length b ∧ path = firstDigits (digit (key b)) path.length
  | path, .node children =>
    (∃ k k', k ≠ k' ∧ HasKey key (.node children) k ∧ HasKey key (.node children) k') ∧
      ∀ a, (children a).Ok digit key good (path ++ [a])

section Invariant

variable {digit : κ → ℕ → α} {key : β → κ} {good : ℕ → β → Prop} {t : DigitTrie α β}
  {children : α → DigitTrie α β} {path path' : List α} {b : β} {k : κ}

section

variable (h : t.Ok digit key good path)
include h

theorem ok_at (hb : t.At path' b) :
    good (path.length + path'.length) b ∧
      path ++ path' = firstDigits (digit (key b)) (path.length + path'.length) := by
  induction hb generalizing path with
  | leaf =>
    obtain ⟨hg, hp⟩ := h
    exact ⟨hg, by simpa using hp⟩
  | @node children a rest b _ ih =>
    obtain ⟨hg, hp⟩ := ih (h.2 a)
    have hlen : (path ++ [a]).length + rest.length = path.length + (a :: rest).length := by
      simp only [length_append, length_cons, length_nil]
      omega
    rw [hlen] at hg hp
    exact ⟨hg, by simpa using hp⟩

theorem ok_hasKey (hk : HasKey key t k) :
    path = firstDigits (digit k) path.length := by
  obtain ⟨rest, b, hb, rfl⟩ := hk
  have hp := (ok_at h hb).2
  have hpre : path <+: firstDigits (digit (key b)) (path.length + rest.length) :=
    hp ▸ prefix_append path rest
  have hpre' := firstDigits_le (d := digit (key b)) (Nat.le_add_right path.length rest.length)
  exact (prefix_of_prefix_length_le hpre hpre' (by simp)).eq_of_length (by simp)

theorem ok_below (hb : Below t path' (.node children)) :
    ∃ k k', k ≠ k' ∧ HasKey key (.node children) k ∧ HasKey key (.node children) k' := by
  generalize ht : (DigitTrie.node children) = t' at hb ⊢
  induction hb generalizing path with
  | here =>
    subst ht
    exact h.1
  | node _ ih => exact ih (h.2 _) ht

end

theorem ok_update [DecidableEq α] {a : α} (h : ∀ a, (children a).Ok digit key good (path ++ [a]))
    (ht : t.Ok digit key good (path ++ [a])) :
    ∀ a', (update children a t a').Ok digit key good (path ++ [a']) := by
  intro a'
  by_cases ha : a' = a
  · subst ha
    rwa [update_self]
  · rw [update_of_ne ha]
    exact h a'

end Invariant

end DigitTrie

end ServalMesh.Lib
