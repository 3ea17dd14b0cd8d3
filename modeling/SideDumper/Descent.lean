import Mathlib.Order.WellFounded

/-!
# Steps that bring something down

In an endless run of which something is left to do, by a well-founded measure, some of
the steps are marked. When no step raises the measure and every marked one lowers it,
the marked steps come to an end. The measure is a relation, since what is left may be
known only from an invariant.
-/

/-- **No step raises the measure**, and the marked ones lower it. -/
def Descends {σ α : Type*} [Preorder α] (left : σ → α → Prop) (run : ℕ → σ) (mark : ℕ → Prop) :
    Prop :=
  ∀ i a, left (run i) a → ∃ b ≤ a, left (run (i + 1)) b ∧ (mark i → b < a)

namespace Descends

variable {σ α : Type*} [Preorder α] {left : σ → α → Prop} {run : ℕ → σ} {mark : ℕ → Prop}
    {i j : ℕ} {a : α}

theorem below (hd : Descends left run mark) (h : left (run i) a) (hij : i ≤ j) :
    ∃ b ≤ a, left (run j) b := by
  induction j, hij using Nat.le_induction with
  | base => exact ⟨a, le_refl a, h⟩
  | succ j _ ih =>
    obtain ⟨b, hb, hj⟩ := ih
    obtain ⟨c, hc, hj', -⟩ := hd j b hj
    exact ⟨c, hc.trans hb, hj'⟩

/-- **The marked steps come to an end.** -/
theorem ends [WellFoundedLT α] (hd : Descends left run mark) (h : left (run i) a) :
    ∃ n, ∀ j ≥ n, ¬ mark j := by
  induction a using WellFoundedLT.induction generalizing i with
  | _ a ih =>
    by_cases hm : ∃ j ≥ i, mark j
    · obtain ⟨j, hij, hj⟩ := hm
      obtain ⟨b, hb, hleft⟩ := hd.below h hij
      obtain ⟨c, -, hnext, hlt⟩ := hd j b hleft
      exact ih c ((hlt hj).trans_le hb) hnext
    · exact ⟨i, fun j hij hj => hm ⟨j, hij, hj⟩⟩

end Descends
