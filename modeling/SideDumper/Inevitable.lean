import Mathlib.Data.Nat.Notation

/-!
# What happens on every path

A property is inevitable when every way a system can go on leads to it: it
holds, or the system can take a step and whichever it takes makes it
inevitable. A rank that goes down with every step shows it.
-/

/-- **A property that comes to hold** whatever steps are taken. -/
inductive Inevitable {σ : Type} (Step : σ → σ → Prop) (P : σ → Prop) : σ → Prop
  | now {s : σ} (h : P s) : Inevitable Step P s
  | later {s : σ} (hex : ∃ s', Step s s') (h : ∀ s', Step s s' → Inevitable Step P s') :
      Inevitable Step P s

namespace Inevitable

variable {σ : Type} {Step : σ → σ → Prop} {P I : σ → Prop} {s : σ}

/-- **The rank rule**: while the property does not hold there is a step, and each
step keeps the invariant and lowers the rank. -/
theorem of_rank (rank : σ → ℕ) (hex : ∀ s, I s → ¬ P s → ∃ s', Step s s')
    (hstep : ∀ s s', I s → ¬ P s → Step s s' → I s' ∧ rank s' < rank s) (hs : I s) :
    Inevitable Step P s := by
  induction hn : rank s using Nat.strongRecOn generalizing s with
  | ind n ih =>
    by_cases hp : P s
    · exact .now hp
    · refine .later (hex s hs hp) fun s' h => ?_
      obtain ⟨hs', hlt⟩ := hstep s s' hs hp h
      exact ih _ (hn ▸ hlt) hs' rfl

end Inevitable
