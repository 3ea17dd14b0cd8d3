import Mathlib.Data.List.Basic

/-!
# Scanning an input that something follows

A `Reader` reads one token after the other off a list of symbols, of which
only those before the last `behind` are its input: it can look at the others,
and it may stop at them. `Local` says that at a position it does not matter
what follows the input. The tokens of an input are told by the input alone
unless a position is reached that is not local.
-/

/-- **A reader of tokens.** A token takes at least one symbol. -/
structure Reader (α τ : Type*) where
  /-- The token at the front, and what is left. -/
  read : ℕ → List α → Option (τ × List α)
  shrinks : ∀ {behind : ℕ} {x y : List α} {v : τ}, read behind x = some (v, y) →
    y.length < x.length

namespace Reader

variable {α τ σ : Type*} (R : Reader α τ)

/-- The loop that reads tokens as long as there are any, and does something
with each. -/
def run (act : σ → τ → σ) (behind : ℕ) (x : List α) (s : σ) : σ :=
  match _h : R.read behind x with
  | none => s
  | some (v, y) => run act behind y (act s v)
termination_by x.length
decreasing_by exact R.shrinks _h

/-- The tokens of an input. -/
def tokens (behind : ℕ) (x : List α) : List τ :=
  match _h : R.read behind x with
  | none => []
  | some (v, y) => v :: tokens behind y
termination_by x.length
decreasing_by exact R.shrinks _h

/-- **What follows the input does not matter here.** -/
def Local (x : List α) : Prop :=
  ∀ r, R.read r.length (x ++ r) = (R.read 0 x).map (fun p => (p.1, p.2 ++ r))

/-- After the tokens `ts` the loop is at the position `y`. -/
inductive Reaches : List α → List τ → List α → Prop
  | refl (x : List α) : Reaches x [] x
  | step {x y z : List α} {v : τ} {ts : List τ} : R.read 0 x = some (v, y) → Reaches y ts z →
      Reaches x (v :: ts) z

variable {R} {x y r : List α} {v : τ} {ts : List τ} {behind : ℕ}

theorem tokens_of_none (h : R.read behind x = none) : R.tokens behind x = [] := by
  rw [tokens]
  split
  · rfl
  · rename_i heq
    rw [h] at heq
    cases heq

theorem tokens_of_some (h : R.read behind x = some (v, y)) :
    R.tokens behind x = v :: R.tokens behind y := by
  rw [tokens]
  split
  · rename_i heq
    rw [h] at heq
    cases heq
  · rename_i heq
    rw [h] at heq
    cases heq
    rfl

/-- Where the same is read first, all tokens are the same. -/
theorem tokens_congr (h : R.read behind x = R.read behind y) :
    R.tokens behind x = R.tokens behind y := by
  cases hy : R.read behind y with
  | none => rw [tokens_of_none hy, tokens_of_none (h.trans hy)]
  | some p => rw [tokens_of_some hy, tokens_of_some (h.trans hy)]

/-- The loop goes through the tokens. -/
theorem run_eq_foldl (act : σ → τ → σ) (behind : ℕ) (x : List α) (s : σ) :
    R.run act behind x s = (R.tokens behind x).foldl act s := by
  rw [run]
  split
  · rename_i h
    rw [tokens_of_none h, List.foldl_nil]
  · rename_i v y h
    rw [tokens_of_some h, List.foldl_cons]
    exact run_eq_foldl act behind y (act s v)
termination_by x.length
decreasing_by exact R.shrinks (by assumption)

section Open

variable {Open : List α → Prop}

/-- **Where no open position is reached, the tokens are those of the input.** -/
theorem tokens_append_of_closed (hlocal : ∀ x, ¬ Open x → R.Local x) (x r : List α)
    (h : ∀ ts y, R.Reaches x ts y → ¬ Open y) : R.tokens r.length (x ++ r) = R.tokens 0 x := by
  have hx := hlocal x (h _ _ (.refl x)) r
  cases hread : R.read 0 x with
  | none =>
    rw [hread] at hx
    rw [tokens_of_none hread, tokens_of_none hx]
  | some p =>
    obtain ⟨v, y⟩ := p
    rw [hread] at hx
    rw [tokens_of_some hread, tokens_of_some hx]
    have ih := tokens_append_of_closed hlocal y r (fun ts z hz => h _ _ (.step hread hz))
    rw [ih]
termination_by x.length
decreasing_by exact R.shrinks (by assumption)

/-- **Up to an open position the tokens are those of the input**, when it is
the only one. -/
theorem tokens_append_of_reaches (hlocal : ∀ x, ¬ Open x → R.Local x)
    (hlast : ∀ x v y, Open x → R.read 0 x = some (v, y) → ¬ Open y ∧ R.read 0 y = none)
    (h : R.Reaches x ts y) (hy : Open y) :
    R.tokens r.length (x ++ r) = ts ++ R.tokens r.length (y ++ r) := by
  induction h with
  | refl x => rfl
  | @step x y z v ts hread hz ih =>
    have hclosed : ¬ Open x := by
      intro hx
      obtain ⟨hny, hnone⟩ := hlast x v y hx hread
      cases hz with
      | refl => exact hny hy
      | step hread' =>
        rw [hnone] at hread'
        cases hread'
    have hx := hlocal x hclosed r
    rw [hread] at hx
    rw [tokens_of_some hx, ih hy, List.cons_append]

end Open

end Reader
