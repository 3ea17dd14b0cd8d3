import SideDumper.Fuel

/-!
# Loops with a known number of passes

A `do .. while` loop whose condition compares a running pointer with its end
value ends only if the pointer hits that value exactly. The rule here is for
loops of which the number of passes is known: an invariant that says how
many passes have been made, and that the condition fails for the first time
after the last of them.
-/

variable {σ : Type*} {step : σ → σ} {stop : σ → Bool} {x : σ}

/-- The loop `do x = step(x) while (!stop(x))`. -/
def doUntil (step : σ → σ) (stop : σ → Bool) : ℕ → σ → Option σ
  | 0, _ => none
  | fuel + 1, x => if stop (step x) then some (step x) else doUntil step stop fuel (step x)

theorem doUntil_fuelled (step : σ → σ) (stop : σ → Bool) (x : σ) :
    Fuelled (fun fuel => doUntil step stop fuel x) := by
  intro fuel y h
  dsimp only at h ⊢
  induction fuel generalizing x with
  | zero => cases h
  | succ fuel ih =>
    unfold doUntil at h ⊢
    split
    · rename_i hstop
      rw [if_pos hstop] at h
      exact h
    · rename_i hstop
      rw [if_neg hstop] at h
      exact ih _ h

/-- **The rule for counted passes**: `P k` holds after `k` of them, and tells
whether they were the last. -/
theorem exists_doUntil {P : ℕ → σ → Prop} {n : ℕ} (hinit : P 0 x) (hpos : 0 < n)
    (hstep : ∀ k y, k < n → P k y → P (k + 1) (step y))
    (hstop : ∀ k y, 0 < k → k ≤ n → P k y → (stop y = true ↔ k = n)) :
    ∃ y, doUntil step stop n x = some y ∧ P n y := by
  suffices h : ∀ m k y, k + (m + 1) = n → P k y →
      ∃ z, doUntil step stop (m + 1) y = some z ∧ P n z by
    obtain ⟨m, rfl⟩ := Nat.exists_eq_succ_of_ne_zero hpos.ne'
    exact h m 0 x (Nat.zero_add _) hinit
  intro m
  -- The induction is on the passes that are left.
  induction m with
  | zero =>
    intro k y hk hy
    have hnext := hstep k y (by omega) hy
    have hlast := (hstop (k + 1) _ k.succ_pos (by omega) hnext).mpr hk
    exact ⟨step y, if_pos hlast, hk ▸ hnext⟩
  | succ m ih =>
    intro k y hk hy
    have hnext := hstep k y (by omega) hy
    have hmore : ¬ stop (step y) = true := fun h => by
      have hlast := (hstop (k + 1) _ k.succ_pos (by omega) hnext).mp h
      omega
    obtain ⟨z, hz, hP⟩ := ih (k + 1) (step y) (by omega) hnext
    exact ⟨z, (if_neg hmore).trans hz, hP⟩
