import Mathlib

/-!
# Binary search

The search compares what it looks for with the item in the middle. It ends at an item that compares
equal, or at the index where one is missing.
-/

namespace ServalMesh.Lib

open List

variable {β : Type} (cmp : β → Ordering) (items : List β)

/-- Where a search ends. -/
inductive Place where
  | found (i : ℕ)
  | missing (i : ℕ)
deriving DecidableEq

/-- The loop between the index `m` and the index before `n`. -/
def searchBetween : ℕ → ℕ → ℕ → Place
  | 0, m, _ => .missing m
  | fuel + 1, m, n =>
    if m < n then
      let i := (m + n - 1) / 2
      match items[i]? with
      | none => .missing m
      | some item =>
        match cmp item with
        | .eq => .found i
        | .gt => searchBetween fuel (i + 1) n
        | .lt => searchBetween fuel m i
    else .missing m

def binarySearch : Place := searchBetween cmp items items.length 0 items.length

/-- What is looked for is greater than some items at the front, less than some at the end, and equal
to one in between if there is one. -/
structure Places (front : List β) (middle : Option β) (back : List β) : Prop where
  items : items = front ++ middle.toList ++ back
  greater : ∀ item ∈ front, cmp item = .gt
  equal : ∀ item ∈ middle, cmp item = .eq
  less : ∀ item ∈ back, cmp item = .lt

variable {cmp items} {front back : List β} {middle : Option β}

/-- The index of the middle and what stands there. -/
def placeOf (front : List β) : Option β → Place
  | none => .missing front.length
  | some _ => .found front.length

theorem insertIdx_length_append (front back : List β) (x : β) :
    (front ++ back).insertIdx front.length x = front ++ x :: back := by
  induction front with
  | nil => rfl
  | cons y front ih => simpa using ih

theorem modify_length_append (front back : List β) (x : β) (f : β → β) :
    (front ++ x :: back).modify front.length f = front ++ f x :: back := by
  induction front with
  | nil => rfl
  | cons y front ih => simpa using ih

section

variable (h : Places cmp items front middle back)
include h

theorem Places.cmp_getElem? {i : ℕ} {item : β} (hi : items[i]? = some item) :
    (cmp item = .gt ∧ i < front.length) ∨
      (cmp item = .eq ∧ i = front.length ∧ middle = some item) ∨
        (cmp item = .lt ∧ front.length + middle.toList.length ≤ i) := by
  rw [h.items, append_assoc] at hi
  by_cases hfront : i < front.length
  · rw [getElem?_append_left hfront] at hi
    exact .inl ⟨h.greater item (mem_of_getElem? hi), hfront⟩
  rw [getElem?_append_right (by omega)] at hi
  cases middle with
  | none => exact .inr (.inr ⟨h.less item (mem_of_getElem? hi), by simp; omega⟩)
  | some x =>
    by_cases hmiddle : i = front.length
    · subst hmiddle
      have : x = item := by simpa using hi
      subst this
      exact .inr (.inl ⟨h.equal x rfl, rfl, rfl⟩)
    · rw [getElem?_append_right (by simp; omega)] at hi
      refine .inr (.inr ⟨h.less item (mem_of_getElem? hi), ?_⟩)
      simp
      omega

/-- The loop stays around the place. -/
theorem searchBetween_eq {fuel m n : ℕ} (hm : m ≤ front.length)
    (hn : front.length + middle.toList.length ≤ n) (hn' : n ≤ items.length) (hfuel : n - m ≤ fuel) :
    searchBetween cmp items fuel m n = placeOf front middle := by
  induction fuel generalizing m n with
  | zero =>
    cases middle with
    | none =>
      obtain rfl : m = front.length := by simp at hn; omega
      rfl
    | some x => simp at hn; omega
  | succ fuel ih =>
    unfold searchBetween
    by_cases hmn : m < n
    · rw [if_pos hmn]
      dsimp only
      have hi : (m + n - 1) / 2 < items.length := by omega
      rw [getElem?_eq_getElem hi]
      dsimp only
      rcases h.cmp_getElem? (getElem?_eq_getElem hi) with
        ⟨cmp_eq, lt⟩ | ⟨cmp_eq, eq, rfl⟩ | ⟨cmp_eq, le⟩
      · rw [cmp_eq]
        exact ih (by omega) hn hn' (by omega)
      · rw [cmp_eq]
        exact congrArg Place.found eq
      · rw [cmp_eq]
        exact ih hm (by omega) (by omega) (by omega)
    · rw [if_neg hmn]
      cases middle with
      | none =>
        obtain rfl : m = front.length := by simp at hn; omega
        rfl
      | some x => simp at hn; omega

theorem binarySearch_eq :
    binarySearch cmp items = placeOf front middle := by
  have length := congrArg List.length h.items
  rw [length_append, length_append] at length
  exact searchBetween_eq h (Nat.zero_le _) (by omega) le_rfl (by omega)

end

end ServalMesh.Lib
