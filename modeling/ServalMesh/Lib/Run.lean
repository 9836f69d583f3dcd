import Mathlib

/-!
# Runs that may abort

A run changes a state and ends with a result or aborts. An abort keeps the state
it happened in, so that a rule can speak of it.
-/

namespace ServalMesh.Lib

def Run (ε σ α : Type) := σ → Except ε α × σ

namespace Run

variable {ε σ α β : Type}

def run (m : Run ε σ α) (s : σ) : Except ε α × σ := m s

/-- Continue with the result of `m`, unless it aborts. -/
def andThen (m : Run ε σ α) (f : α → Run ε σ β) : Run ε σ β := fun s =>
  match m.run s with
  | (.ok a, s') => (f a).run s'
  | (.error e, s') => (.error e, s')

instance : Monad (Run ε σ) where
  pure a := fun s => (.ok a, s)
  bind := andThen

def get : Run ε σ σ := fun s => (.ok s, s)

def modify (f : σ → σ) : Run ε σ Unit := fun s => (.ok (), f s)

def abort (e : ε) : Run ε σ α := fun s => (.error e, s)

/-- A computation that does not change the state. -/
def ofExcept (x : Except ε α) : Run ε σ α := fun s => (x, s)

/-- `m`, if there is reason to. -/
def when (c : Bool) (m : Run ε σ Unit) : Run ε σ Unit := if c then m else pure ()

@[simp]
theorem run_pure (a : α) (s : σ) : (pure a : Run ε σ α).run s = (.ok a, s) := rfl

theorem run_bind (m : Run ε σ α) (f : α → Run ε σ β) (s : σ) :
    (m >>= f).run s = match m.run s with
      | (.ok a, s') => (f a).run s'
      | (.error e, s') => (.error e, s') := rfl

theorem run_bind_ok {m : Run ε σ α} {f : α → Run ε σ β} {s s' : σ} {a : α}
    (h : m.run s = (.ok a, s')) : (m >>= f).run s = (f a).run s' := by
  rw [run_bind, h]

@[simp]
theorem run_get_bind (f : σ → Run ε σ β) (s : σ) : (get >>= f).run s = (f s).run s := rfl

@[simp]
theorem run_modify_bind (g : σ → σ) (f : Unit → Run ε σ β) (s : σ) :
    (modify g >>= f).run s = (f ()).run (g s) := rfl

@[simp]
theorem run_pure_bind (a : α) (f : α → Run ε σ β) (s : σ) :
    ((pure a : Run ε σ α) >>= f).run s = (f a).run s := rfl

@[simp]
theorem ofExcept_ok_bind (a : α) (f : α → Run ε σ β) : (ofExcept (.ok a) >>= f) = f a := rfl

theorem run_ofExcept_bind (x : Except ε α) (f : α → Run ε σ β) (s : σ) :
    (ofExcept x >>= f).run s = match x with
      | .ok a => (f a).run s
      | .error e => (.error e, s) := by
  cases x <;> rfl

end Run

/-- What ends well has begun well. -/
theorem ok_of_bind {ε α β : Type} {x : Except ε α} {f : α → Except ε β} {r : β}
    (h : x >>= f = .ok r) : ∃ a, x = .ok a ∧ f a = .ok r := by
  cases x with
  | error e => exact nomatch h
  | ok a => exact ⟨a, rfl, h⟩

/-- From `P`, the run ends with `Q` or aborts with `E`. -/
def Triple {ε σ α : Type} (P : σ → Prop) (m : Run ε σ α) (Q : α → σ → Prop) (E : ε → σ → Prop) :
    Prop :=
  ∀ s, P s → match m.run s with
    | (.ok a, s') => Q a s'
    | (.error e, s') => E e s'

namespace Triple

open Run

variable {ε σ α β : Type} {P P' : σ → Prop} {Q Q' : α → σ → Prop} {R : β → σ → Prop}
  {E : ε → σ → Prop} {m : Run ε σ α} {f : α → Run ε σ β} {E' : ε → σ → Prop} {I : σ → Prop}
  {g : σ → σ} {a : α}

theorem pure (h : ∀ s, P s → Q a s) : Triple P (Pure.pure a : Run ε σ α) Q E := h

theorem skip : Triple P (Pure.pure a : Run ε σ α) (fun _ => P) E := pure fun _ h => h

theorem stay {s : σ} (h : Q a s) : Triple (· = s) (Pure.pure a : Run ε σ α) Q E :=
  pure fun _ hs => hs ▸ h

theorem bind (hm : Triple P m Q E) (hf : ∀ a, Triple (Q a) (f a) R E) :
    Triple P (m >>= f) R E := by
  intro s hs
  have h := hm s hs
  rw [run_bind]
  rcases hms : m.run s with ⟨_ | a, s'⟩
  · rwa [hms] at h
  · rw [hms] at h
    exact hf a s' h

theorem bind_ok {s s' : σ} (h : m.run s = (.ok a, s')) (hf : Triple (· = s') (f a) R E) :
    Triple (· = s) (m >>= f) R E := by
  rintro _ rfl
  rw [run_bind_ok h]
  exact hf s' rfl

theorem get_bind {f : σ → Run ε σ β} (h : ∀ s, P s → Triple (· = s) (f s) R E) :
    Triple P (get >>= f) R E :=
  fun s hs => h s hs s rfl

/-- Looking at the state does not change it. -/
theorem get_bind_inv {f : σ → Run ε σ β} (h : ∀ s, P s → Triple P (f s) R E) :
    Triple P (get >>= f) R E :=
  fun s hs => h s hs s hs

theorem modify_bind {f : Unit → Run ε σ β} (hg : ∀ s, P s → I (g s)) (hf : Triple I (f ()) R E) :
    Triple P (modify g >>= f) R E :=
  fun s hs => hf (g s) (hg s hs)

theorem abort {e : ε} (h : ∀ s, P s → E e s) : Triple P (Run.abort e : Run ε σ α) Q E := h

theorem weaken (h : Triple P m Q E) (hP : ∀ s, P' s → P s) (hQ : ∀ a s, Q a s → Q' a s) :
    Triple P' m Q' E := by
  intro s hs
  have := h s (hP s hs)
  rcases hms : m.run s with ⟨_ | a, s'⟩
  · rwa [hms] at this
  · rw [hms] at this
    exact hQ a s' this

/-- What is known apart from the state. -/
theorem assume {p : Prop} (h : p → Triple P m Q E) : Triple (fun s => P s ∧ p) m Q E :=
  fun s hs => h hs.2 s hs.1

theorem weaken_abort (h : Triple P m Q E) (hE : ∀ e s, E e s → E' e s) : Triple P m Q E' := by
  intro s hs
  have := h s hs
  rcases hms : m.run s with ⟨e | a, s'⟩
  · rw [hms] at this
    exact hE e s' this
  · rwa [hms] at this

/-- Two facts about the same run. -/
theorem and (h : Triple P m Q E) (h' : Triple P' m Q' E') :
    Triple (fun s => P s ∧ P' s) m (fun a s => Q a s ∧ Q' a s) E := by
  rintro s ⟨hs, hs'⟩
  have hm := h s hs
  have hm' := h' s hs'
  rcases hms : m.run s with ⟨e | a, s'⟩
  · rwa [hms] at hm
  · rw [hms] at hm hm'
    exact ⟨hm, hm'⟩

/-- A fact about the final state, however the run ends. -/
theorem final {s : σ} (h : Triple P m (fun _ => I) (fun _ => I)) (hs : P s) : I (m.run s).2 := by
  have := h s hs
  rcases hms : m.run s with ⟨_ | a, s'⟩ <;> rwa [hms] at this

end Triple

end ServalMesh.Lib
