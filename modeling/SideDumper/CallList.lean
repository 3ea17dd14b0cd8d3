import Mathlib.Data.List.Count
import Mathlib.Data.List.Perm.Basic

/-!
# Lists of calls

The calls that are under way are a list in which a call that moves on is
taken out and put back at its new place. What is counted or collected over
the calls changes by what the one call contributes.
-/

namespace List

variable {α β : Type*} [DecidableEq α] {a : α} {xs : List α}

/-- What a list counts without one of its elements. -/
theorem countP_erase_add (p : α → Bool) (h : a ∈ xs) :
    (xs.erase a).countP p + (p a).toNat = xs.countP p := by
  have hperm := (perm_cons_erase h).countP_eq p
  rw [countP_cons] at hperm
  rw [hperm]
  cases p a <;> rfl

/-- What a list counts when one of its elements is replaced. -/
theorem countP_cons_erase (p : α → Bool) (b : α) (h : a ∈ xs) :
    (b :: xs.erase a).countP p + (p a).toNat = xs.countP p + (p b).toNat := by
  rw [← countP_erase_add p h, countP_cons]
  cases p b
  · simp
  · simp only [if_true, Bool.toNat_true]
    omega

/-- What is collected over a list, with one of its elements in front. -/
theorem perm_flatMap_erase (f : α → List β) (h : a ∈ xs) :
    (xs.flatMap f).Perm (f a ++ (xs.erase a).flatMap f) :=
  (perm_cons_erase h).flatMap_right f

end List
