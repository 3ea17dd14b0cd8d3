import Mathlib.Data.Nat.Notation

/-!
# Walks over records that begin with their length

A walk goes from a record to the next by the length the record gives for
itself, until it is at or behind an end. It comes to the end exactly when no
record that it leads to in front of the end has length zero.
-/

namespace LengthWalk

/-- Whether the walk has come to the end after at most so many records. -/
def ended (len : ℕ → ℕ) (pEnd : ℕ) : ℕ → ℕ → Bool
  | 0, off => decide (pEnd ≤ off)
  | passes + 1, off => if off < pEnd then ended len pEnd passes (off + len off) else true

/-- **The records that follow one another** from a place on. -/
inductive LeadsTo (len : ℕ → ℕ) : ℕ → ℕ → Prop
  | here (off : ℕ) : LeadsTo len off off
  | next {off z : ℕ} (h : LeadsTo len (off + len off) z) : LeadsTo len off z

variable {len : ℕ → ℕ} {pEnd off z : ℕ}

theorem LeadsTo.le (h : LeadsTo len off z) : off ≤ z := by
  induction h with
  | here off => exact Nat.le_refl off
  | next _ ih => exact Nat.le_trans (Nat.le_add_right _ _) ih

/-- A walk does not leave a record of length zero. -/
theorem ended_of_len_zero (hz : z < pEnd) (hlen : len z = 0) (passes : ℕ) :
    ended len pEnd passes z = false := by
  induction passes with
  | zero => exact decide_eq_false (Nat.not_le.mpr hz)
  | succ passes ih => rw [ended, if_pos hz, hlen, Nat.add_zero, ih]

/-- A record in front of the end is passed. -/
theorem ended_next (hoff : off < pEnd) {passes : ℕ} (h : ended len pEnd passes off = true) :
    ∃ passes', ended len pEnd passes' (off + len off) = true := by
  cases passes with
  | zero => exact absurd (of_decide_eq_true h) (Nat.not_le.mpr hoff)
  | succ passes =>
    rw [ended, if_pos hoff] at h
    exact ⟨passes, h⟩

/-- **When a walk ends.** -/
theorem exists_ended_iff : (∃ passes, ended len pEnd passes off = true) ↔
    ∀ z, LeadsTo len off z → z < pEnd → len z ≠ 0 := by
  constructor
  · intro ⟨passes, hended⟩ z hlead hz hlen
    induction hlead generalizing passes with
    | here off => exact absurd hended (Bool.eq_false_iff.mp (ended_of_len_zero hz hlen passes))
    | next h ih =>
      have hoff := Nat.lt_of_le_of_lt (Nat.le_trans (Nat.le_add_right _ _) h.le) hz
      obtain ⟨passes', hended'⟩ := ended_next hoff hended
      exact ih passes' hended' hz hlen
  · -- what is left in front of the end gets smaller
    induction hleft : pEnd - off using Nat.strongRecOn generalizing off with
    | _ left ih =>
      intro hpos
      by_cases hoff : off < pEnd
      · have hlen := Nat.pos_of_ne_zero (hpos off (.here off) hoff)
        obtain ⟨passes, hended⟩ := ih (pEnd - (off + len off)) (by omega) rfl
          (fun z hlead => hpos z (.next hlead))
        refine ⟨passes + 1, ?_⟩
        rw [ended, if_pos hoff, hended]
      · exact ⟨0, decide_eq_true (Nat.not_lt.mp hoff)⟩

end LengthWalk
