import Mathlib.Data.Nat.Notation

/-!
# What holds throughout a run

A run is a list of actions, each of which a state may allow or not; after an
action that is not allowed nothing follows. `Throughout` asks something of
every state of a run and of every action in the state it is taken in. When it
is told for each step what is asked of the action for the next state to be
good again, it is told for runs.
-/

section Throughout

variable {σ α : Type*} (step : σ → α → Option σ) (P : σ → Prop) (Q : σ → α → Prop)

/-- **Every state of the run** from `s` has a property, and every action of it
in the state it is taken in. -/
def Throughout : σ → List α → Prop
  | s, [] => P s
  | s, a :: as => P s ∧ Q s a ∧ ∀ s', step s a = some s' → Throughout s' as

/-- **Every action of the run** from `s` meets a condition. -/
abbrev EachAction (C : σ → α → Prop) : σ → List α → Prop := Throughout step (fun _ => True) C

variable {step P Q} {C : σ → α → Prop} {s : σ} {as : List α}

theorem Throughout.head (h : Throughout step P Q s as) : P s := by
  cases as with
  | nil => exact h
  | cons a as => exact h.1

/-- **The run rule**: from a good state, the next state is good and the action
is as it is to be exactly when the action meets the condition. -/
theorem throughout_iff (hstep : ∀ s a s', P s → step s a = some s' → (Q s a ∧ P s' ↔ C s a))
    (hnone : ∀ s a, P s → step s a = none → Q s a ∧ C s a) (hs : P s) :
    Throughout step P Q s as ↔ EachAction step C s as := by
  induction as generalizing s with
  | nil => exact iff_of_true hs trivial
  | cons a as ih =>
    unfold EachAction Throughout
    rw [true_and, and_iff_right hs]
    cases ha : step s a with
    | none =>
      obtain ⟨hq, hc⟩ := hnone s a hs ha
      exact iff_of_true ⟨hq, fun s' h => by cases h⟩ ⟨hc, fun s' h => by cases h⟩
    | some s' =>
      have hone := hstep s a s' hs ha
      constructor
      · rintro ⟨hq, hrest⟩
        have hs' : P s' := (hrest s' rfl).head
        refine ⟨hone.mp ⟨hq, hs'⟩, fun s'' h => ?_⟩
        cases h
        exact (ih hs').mp (hrest s' rfl)
      · rintro ⟨hc, hrest⟩
        obtain ⟨hq, hs'⟩ := hone.mpr hc
        refine ⟨hq, fun s'' h => ?_⟩
        cases h
        exact (ih hs').mpr (hrest s' rfl)

end Throughout
