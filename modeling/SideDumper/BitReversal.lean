import SideDumper.EpLink
import Mathlib.Algebra.Order.Ring.Nat
import Mathlib.Data.Nat.ModEq
import Mathlib.Tactic.NormNum

/-!
# The branches of an interrupt endpoint in visiting order

The loops of `ep_link` and `ep_unlink` do not visit the branches of an ED in
increasing order: the `i`-th one is `ep_rev (5, i) + int_branch`. In that
order the branches that two EDs share are consecutive. An ED of interval
`2 ^ k` has `2 ^ (5 - k)` branches, and an ED of a larger interval `2 ^ m`
that is on one of them occupies an aligned block of `2 ^ (5 - m)` of the
indices – which is why a stride that skips one such block skips exactly the
lists that share the ED.

There are 32 indices and six intervals, so each fact is settled by looking.
-/

/-- The number of branches of an ED, which the code writes
`ep_rev (6, interval)`. -/
theorem epRev_six {k : ℕ} (hk : k ≤ 5) : epRev 6 (2 ^ k) = 2 ^ (5 - k) := by
  have hall : ∀ k < 6, epRev 6 (2 ^ k) = 2 ^ (5 - k) := by decide
  exact hall k (by omega)

theorem epRev_lt {i : ℕ} (hi : i < 32) : epRev 5 i < 32 := by
  have hall : ∀ i < 32, epRev 5 i < 32 := by decide
  exact hall i hi

/-- Reversing the bits twice changes nothing. -/
theorem epRev_epRev {k a : ℕ} (hk : k ≤ 5) (ha : a < 2 ^ k) : epRev k (epRev k a) = a := by
  have hall : ∀ k < 6, ∀ a < 2 ^ k, epRev k (epRev k a) = a := by decide
  exact hall k (by omega) a ha

/-- The low bits of a branch are the high bits of its index, reversed. -/
theorem epRev_mod {k i : ℕ} (hk : k ≤ 5) (hi : i < 32) :
    epRev 5 i % 2 ^ k = epRev k (i / 2 ^ (5 - k)) := by
  have hall : ∀ k < 6, ∀ i < 32, epRev 5 i % 2 ^ k = epRev k (i / 2 ^ (5 - k)) := by decide
  exact hall k (by omega) i hi

/-- **Classes are blocks.** Two indices give branches that agree modulo
`2 ^ k` exactly when they lie in the same aligned block of `2 ^ (5 - k)`. -/
theorem epRev_mod_iff {k i j : ℕ} (hk : k ≤ 5) (hi : i < 32) (hj : j < 32) :
    epRev 5 i % 2 ^ k = epRev 5 j % 2 ^ k ↔ i / 2 ^ (5 - k) = j / 2 ^ (5 - k) := by
  have hlt : ∀ n < 32, n / 2 ^ (5 - k) < 2 ^ k := by
    intro n hn
    rw [Nat.div_lt_iff_lt_mul (Nat.two_pow_pos _), ← pow_add, Nat.add_sub_cancel' hk]
    exact hn
  rw [epRev_mod hk hi, epRev_mod hk hj]
  constructor
  · intro h
    rw [← epRev_epRev hk (hlt i hi), h, epRev_epRev hk (hlt j hj)]
  · intro h
    rw [h]

/-- The branches visited for an interval of `2 ^ k` are multiples of it. -/
theorem epRev_mod_eq_zero {k i : ℕ} (hk : k ≤ 5) (hi : i < 2 ^ (5 - k)) :
    epRev 5 i % 2 ^ k = 0 := by
  have hall : ∀ k < 6, ∀ i < 2 ^ (5 - k), epRev 5 i % 2 ^ k = 0 := by decide
  exact hall k (by omega) i hi

/-- Every multiple of `2 ^ k` below 32 is visited, at the index the other
reversal gives. -/
theorem exists_epRev_eq {k b : ℕ} (hk : k ≤ 5) (hb : b < 32) (hm : b % 2 ^ k = 0) :
    ∃ i < 2 ^ (5 - k), epRev 5 i = b := by
  have hall : ∀ k < 6, ∀ b < 32, b % 2 ^ k = 0 → epRev 5 b < 2 ^ (5 - k) := by decide
  exact ⟨epRev 5 b, hall k (by omega) b hb hm, epRev_epRev le_rfl hb⟩

/-- The branch visited last is the largest one. -/
theorem epRev_last {k : ℕ} (hk : k ≤ 5) : epRev 5 (2 ^ (5 - k) - 1) = 32 - 2 ^ k := by
  have hall : ∀ k < 6, epRev 5 (2 ^ (5 - k) - 1) = 32 - 2 ^ k := by decide
  exact hall k (by omega)

theorem epRev_injOn {i j : ℕ} (hi : i < 32) (hj : j < 32) (h : epRev 5 i = epRev 5 j) :
    i = j := by
  have hb := (epRev_mod_iff (k := 5) le_rfl hi hj).mp (by rw [h])
  simpa using hb

theorem ep2nIntervalFrom_eq_two_pow (inter : ℕ) {left : ℕ} (hl : left ≤ 5) :
    ∃ k ≤ 5, ep2nIntervalFrom inter left = 2 ^ k := by
  induction left with
  | zero => exact ⟨5, le_rfl, rfl⟩
  | succ left ih =>
    unfold ep2nIntervalFrom
    split
    · exact ih (by omega)
    · exact ⟨5 - (left + 1), by omega, Nat.one_shiftLeft _⟩

/-- The intervals `ep_2_n_interval` produces. -/
theorem ep2nInterval_eq_two_pow (inter : ℕ) : ∃ k ≤ 5, ep2nInterval inter = 2 ^ k :=
  ep2nIntervalFrom_eq_two_pow inter le_rfl

/-- The branch an ED with base branch `br` has at visiting index `i`. -/
def visit (br i : ℕ) : ℕ := epRev 5 i + br

/-- **The branches of a class.** For an interval of `2 ^ k` and a branch
below it, the branches visited are those congruent to it. -/
theorem mod_eq_iff_exists_visit {k br b : ℕ} (hk : k ≤ 5) (hbr : br < 2 ^ k) (hb : b < 32) :
    b % 2 ^ k = br ↔ ∃ i < 2 ^ (5 - k), visit br i = b := by
  constructor
  · intro h
    have hle : br ≤ b := h ▸ Nat.mod_le b (2 ^ k)
    have hz : (b - br) % 2 ^ k = 0 := by
      rw [← h]
      exact Nat.sub_mod_eq_zero_of_mod_eq (by rw [Nat.mod_mod])
    obtain ⟨i, hi, hib⟩ := exists_epRev_eq hk (by omega) hz
    exact ⟨i, hi, by unfold visit; omega⟩
  · rintro ⟨i, hi, rfl⟩
    rw [visit, Nat.add_mod, epRev_mod_eq_zero hk hi, Nat.zero_add, Nat.mod_mod,
      Nat.mod_eq_of_lt hbr]

/-- The branches visited exist. -/
theorem visit_lt {k br i : ℕ} (hk : k ≤ 5) (hbr : br < 2 ^ k) (hi : i < 2 ^ (5 - k)) :
    visit br i < 32 := by
  unfold visit
  have hz := epRev_mod_eq_zero hk hi
  have hlt : epRev 5 i < 32 :=
    epRev_lt (lt_of_lt_of_le hi (Nat.pow_le_pow_right (by norm_num) (by omega : 5 - k ≤ 5)))
  obtain ⟨c, hc⟩ := Nat.dvd_of_mod_eq_zero hz
  obtain ⟨d, hd⟩ := pow_dvd_pow 2 hk
  have h32 : (2 : ℕ) ^ 5 = 32 := by norm_num
  have hcd : c < d := by
    by_contra hcon
    have hmul := Nat.mul_le_mul_left (2 ^ k) (Nat.le_of_not_lt hcon)
    omega
  have hmul := Nat.mul_le_mul_left (2 ^ k) (Nat.succ_le_of_lt hcd)
  rw [Nat.mul_succ] at hmul
  omega

/-- Two indices give branches that agree modulo `2 ^ q` exactly when they
lie in the same block. -/
theorem visit_mod_iff {b q i j : ℕ} (hq : q ≤ 5) (hi : i < 32) (hj : j < 32) :
    visit b i % 2 ^ q = visit b j % 2 ^ q ↔ i / 2 ^ (5 - q) = j / 2 ^ (5 - q) := by
  rw [← epRev_mod_iff hq hi hj]
  exact ⟨fun h => Nat.ModEq.add_right_cancel' b h, fun h => Nat.ModEq.add_right b h⟩

theorem visit_injOn {br i j : ℕ} (hi : i < 32) (hj : j < 32) (h : visit br i = visit br j) :
    i = j :=
  epRev_injOn hi hj (Nat.add_right_cancel h)

/-- The branches of a class agree modulo its interval. -/
theorem visit_mod {br k i : ℕ} (hk : k ≤ 5) (hi : i < 2 ^ (5 - k)) :
    visit br i % 2 ^ k = br % 2 ^ k := by
  rw [visit, Nat.add_mod, epRev_mod_eq_zero hk hi, Nat.zero_add, Nat.mod_mod]

/-- No class has more than 32 branches. -/
theorem two_pow_le (k : ℕ) : 2 ^ (5 - k) ≤ 32 :=
  Nat.pow_le_pow_right (by norm_num) (by omega : 5 - k ≤ 5)
