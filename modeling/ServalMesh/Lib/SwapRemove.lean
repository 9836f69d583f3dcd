import Mathlib

/-!
# Removing an element of an array

The last element takes the place of the one that is removed.
-/

namespace ServalMesh.Lib

open List

variable {α : Type} {l : List α} {x : α} {i : ℕ}

def swapRemove (l : List α) (i : ℕ) : List α :=
  match l.getLast? with
  | none => []
  | some last => (l.set i last).dropLast

theorem set_of_getElem? (h : l[i]? = some x) : l.set i x = l := by
  obtain ⟨bound, rfl⟩ := List.getElem?_eq_some_iff.1 h
  exact List.set_getElem_self bound

theorem perm_cons_eraseIdx (h : l[i]? = some x) : l.Perm (x :: l.eraseIdx i) := by
  obtain ⟨bound, rfl⟩ := List.getElem?_eq_some_iff.1 h
  exact (List.getElem_cons_eraseIdx_perm bound).symm

theorem perm_cons_swapRemove (h : l[i]? = some x) : l.Perm (x :: swapRemove l i) := by
  obtain ⟨bound, _⟩ := List.getElem?_eq_some_iff.1 h
  cases l using List.reverseRecOn with
  | nil => cases h
  | append_singleton init last _ =>
    unfold swapRemove
    rw [getLast?_concat]
    dsimp only
    by_cases inside : i < init.length
    · rw [set_append_left _ _ inside, dropLast_concat]
      rw [getElem?_append_left inside] at h
      calc
        (init ++ [last]).Perm (last :: init) := perm_append_singleton last init
        List.Perm _ (last :: x :: init.eraseIdx i) := (perm_cons_eraseIdx h).cons last
        List.Perm _ (x :: last :: init.eraseIdx i) := List.Perm.swap x last _
        List.Perm _ (x :: init.set i last) := (set_perm_cons_eraseIdx inside last).symm.cons x
    · have place : i = init.length := by
        rw [length_append, length_singleton] at bound
        omega
      subst place
      rw [getElem?_concat_length] at h
      cases h
      rw [set_append_right _ _ (le_refl _), Nat.sub_self, set_cons_zero,
        dropLast_concat]
      exact perm_append_singleton _ init

theorem getElem?_of_swapRemove {i j : ℕ} (other : i ≠ j) (h : (swapRemove l i)[j]? = some x) :
    l[j]? = some x := by
  unfold swapRemove at h
  cases last : l.getLast? with
  | none => simp [last] at h
  | some y =>
    rw [last] at h
    dsimp only at h
    rw [getElem?_dropLast] at h
    split_ifs at h
    rwa [getElem?_set_ne other] at h

end ServalMesh.Lib
