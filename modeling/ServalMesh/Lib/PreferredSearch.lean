import Mathlib

/-!
# Searches with a preference

A search takes the first element that fits exactly. Until it finds one it remembers the last element
that would do.
-/

namespace ServalMesh.Lib

variable {β : Type} (exact fallback : β → Bool)

def searchPreferring : List β → Option β → Option β
  | [], found => found
  | b :: bs, found =>
    if exact b then some b
    else searchPreferring bs (if fallback b then some b else found)

variable {exact fallback}

/-- What a search can find, in the order of preference. -/
theorem searchPreferring_cases (bs : List β) (found : Option β) :
    (∃ b ∈ bs, exact b ∧ searchPreferring exact fallback bs found = some b) ∨
      (∀ b ∈ bs, ¬exact b) ∧
        ((∃ b ∈ bs, fallback b ∧ searchPreferring exact fallback bs found = some b) ∨
          (∀ b ∈ bs, ¬fallback b) ∧ searchPreferring exact fallback bs found = found) := by
  induction bs generalizing found with
  | nil => exact .inr ⟨by simp, .inr ⟨by simp, rfl⟩⟩
  | cons b bs ih =>
    by_cases hb : exact b
    · exact .inl ⟨b, List.mem_cons_self, hb, by simp [searchPreferring, hb]⟩
    have step : searchPreferring exact fallback (b :: bs) found =
        searchPreferring exact fallback bs (if fallback b then some b else found) := by
      simp [searchPreferring, hb]
    rw [step]
    rcases ih (if fallback b then some b else found) with
      ⟨c, hc, fits, result⟩ | ⟨none_exact, ⟨c, hc, fits, result⟩ | ⟨none_fallback, result⟩⟩
    · exact .inl ⟨c, List.mem_cons_of_mem b hc, fits, result⟩
    · exact .inr ⟨List.forall_mem_cons.2 ⟨hb, none_exact⟩,
        .inl ⟨c, List.mem_cons_of_mem b hc, fits, result⟩⟩
    · refine .inr ⟨List.forall_mem_cons.2 ⟨hb, none_exact⟩, ?_⟩
      by_cases hf : fallback b
      · exact .inl ⟨b, List.mem_cons_self, hf, by rw [result, if_pos hf]⟩
      · exact .inr ⟨List.forall_mem_cons.2 ⟨hf, none_fallback⟩, by rw [result, if_neg hf]⟩

/-- A search that finds nothing has seen nothing that fits. -/
theorem searchPreferring_eq_none {bs : List β}
    (h : searchPreferring exact fallback bs none = none) :
    (∀ b ∈ bs, ¬exact b) ∧ ∀ b ∈ bs, ¬fallback b := by
  rcases @searchPreferring_cases _ exact fallback bs none with
    ⟨b, _, _, result⟩ | ⟨none_exact, ⟨b, _, _, result⟩ | ⟨none_fallback, _⟩⟩
  · cases h.symm.trans result
  · cases h.symm.trans result
  · exact ⟨none_exact, none_fallback⟩

end ServalMesh.Lib
