import SideDumper.ScheduleLink

/-!
# Unlinking interrupt endpoints

`ep_unlink` visits the branches of an ED the way `ep_link` does, but it reads
its stride off the ED that `ed_p` has been advanced *to*, not off the one it
has passed. As long as the ED to remove is the first of its list nothing is
passed and the stride is one. On the first list where something precedes it,
the stride becomes the number of all its branches and the loop ends: that
pass removes the ED from every list that shares the predecessor, and the
lists further on keep it.

So the removal is exact just when no such list is further on
(`epUnlink_int_exact_iff`): the EDs directly in front of the removed one, on
whatever list they are, have to be on the list visited last.
-/

section Walks

variable {o : Ohci} {c : Cell} {e y : EdPtr} {inter fuel : ℕ} {p r : List EdPtr}

/-- The inner loop where the ED to remove comes first. -/
theorem unlinkWalk_head (hw : Walk o.nextED 0 (o.get c) (e :: r)) (hf : 0 < fuel) :
    unlinkWalk e o fuel c inter = some (o.set c (o.nextED e), inter) := by
  obtain ⟨fuel, rfl⟩ := Nat.exists_eq_succ_of_ne_zero hf.ne'
  have hnd := hw.nodup
  obtain ⟨hc, he0, htl⟩ := hw
  have hne : e ≠ o.nextED e := by
    intro hcon
    cases r with
    | nil => exact he0 (hcon.trans htl)
    | cons z r => exact (List.nodup_cons.mp hnd).1 (by simp [hcon.trans htl.1])
  rw [unlinkWalk, hc, if_pos ⟨he0, hne⟩, if_pos rfl]

/-- **The inner loop where something precedes the ED to remove**: the link
written is that of the predecessor, and the stride is the one of the removed
ED itself. -/
theorem unlinkWalk_behind (hw : Walk o.nextED 0 (o.get c) (p ++ y :: e :: r))
    (hf : p.length + 1 < fuel) :
    unlinkWalk e o fuel c inter
      = some (o.set (.next y) (o.nextED e), epRev 6 (o.interval e)) := by
  have hnd := hw.nodup
  have htail : o.nextED e = r.headD 0 := hw.drop.2.2.2.2.start_eq
  -- the loop goes on at an ED before `e`: it is neither `e` nor behind `e`
  have hpass : ∀ x ∈ p ++ [y], x ≠ 0 ∧ x ≠ o.nextED e ∧ x ≠ e := by
    intro x hx
    have hx0 : x ≠ 0 := hw.ne_stop x (by
      rw [List.append_cons]
      exact List.mem_append_left _ hx)
    rw [List.append_cons, List.nodup_append] at hnd
    refine ⟨hx0, ?_, hnd.2.2 x hx e (by simp)⟩
    rw [htail]
    cases r with
    | nil => exact hx0
    | cons z r => exact hnd.2.2 x hx z (by simp)
  induction p generalizing c inter fuel with
  | nil =>
    obtain ⟨fuel, rfl⟩ := Nat.exists_eq_succ_of_ne_zero (by omega : fuel ≠ 0)
    obtain ⟨hy0, hyn, hye⟩ := hpass y (by simp)
    obtain ⟨hc, -, hrest⟩ := hw
    have hnext : o.get (.next y) = e := hrest.1
    rw [unlinkWalk, hc, if_pos ⟨hy0, hyn⟩, if_neg hye, hnext]
    exact unlinkWalk_head (c := .next y) hrest (by omega)
  | cons x p ih =>
    obtain ⟨fuel, rfl⟩ := Nat.exists_eq_succ_of_ne_zero (by omega : fuel ≠ 0)
    obtain ⟨hx0, hxn, hxe⟩ := hpass x (by simp)
    obtain ⟨hc, -, hrest⟩ := hw
    rw [unlinkWalk, hc, if_pos ⟨hx0, hxn⟩, if_neg hxe]
    refine ih (c := .next x) hrest ?_ (List.nodup_cons.mp hnd).2 (fun z hz => ?_)
    · simpa using hf
    · exact hpass z (List.mem_cons_of_mem x hz)

/-- Removing from a walk the node after `y`. -/
theorem walk_removed {next : EdPtr → EdPtr} {a : EdPtr}
    (hw : Walk next 0 a (p ++ y :: e :: r)) :
    Walk (Function.update next y (next e)) 0 a (p ++ y :: r) := by
  refine hw.relink (hw.drop.2.2.2.2.update_of_notMem ?_)
  have hnd := (List.nodup_append.mp hw.nodup).2.1
  exact fun hcon => (List.nodup_cons.mp hnd).1 (List.mem_cons_of_mem e hcon)

end Walks

section Filter

variable {e : EdPtr} {l p r : List EdPtr}

theorem filter_ne_of_notMem (h : e ∉ l) : l.filter (· ≠ e) = l :=
  List.filter_eq_self.mpr (fun x hx => by simpa using ne_of_mem_of_not_mem hx h)

theorem filter_ne_of_nodup (h : (p ++ e :: r).Nodup) :
    (p ++ e :: r).filter (· ≠ e) = p ++ r := by
  rw [List.nodup_append, List.nodup_cons] at h
  have hp : e ∉ p := fun hcon => h.2.2 e hcon e (by simp) rfl
  rw [List.filter_append, List.filter_cons_of_neg (by simp), filter_ne_of_notMem hp,
    filter_ne_of_notMem h.2.1.1]

end Filter

variable {k k' : Links} {iv br : EdPtr → ℕ} {linked : List EdPtr} {L : ℕ → List EdPtr}
variable {e m i : ℕ}

/-- **The invariant of the removal loop** before index `i`: so far the ED
came first everywhere, and the entries of `int_table` alone have changed. -/
structure UnlinkInv (k k' : Links) (L : ℕ → List EdPtr) (e brE i : ℕ) : Prop where
  next : k'.next = k.next
  done : ∀ j < i, k'.table (visit brE j) = k.next e ∧ ∃ r, L (visit brE j) = e :: r
  todo : ∀ b, (∀ j < i, visit brE j ≠ b) → k'.table b = k.table b

/-- **What the removal loop leaves.** Either the ED was first on all its
lists, or it was so before some index `i` and stands there behind `y`, whose
link is the last one written. -/
def UnlinkEnd (k k' : Links) (L : ℕ → List EdPtr) (e brE m : ℕ) : Prop :=
  UnlinkInv k k' L e brE (2 ^ (5 - m))
    ∨ ∃ i < 2 ^ (5 - m), ∃ k₁ y p r, UnlinkInv k k₁ L e brE i
        ∧ L (visit brE i) = p ++ y :: e :: r ∧ k' = k₁.setNext y (k.next e)

namespace UnlinkInv

variable (h : Schedule k iv br linked L) (he : e ∈ linked) (hm : m ≤ 5) (hiv : iv e = 2 ^ m)
  (hbr : br e < 2 ^ m)

include h he hm hiv hbr

/-- The removed ED is on the lists that the loop visits. -/
theorem mem_visit {j : ℕ} (hj : j < 2 ^ (5 - m)) : e ∈ L (visit (br e) j) := by
  rw [h.mem _ (visit_lt hm hbr hj), hiv]
  exact ⟨he, visit_mod hm hj⟩

omit he hiv in
/-- The list about to be visited is still the old one. -/
theorem walk_visit (inv : UnlinkInv k k' L e (br e) i) (hi : i < 2 ^ (5 - m)) :
    Walk k'.next 0 (k'.table (visit (br e) i)) (L (visit (br e) i)) := by
  have h32 := two_pow_le m
  have hnew : ∀ j < i, visit (br e) j ≠ visit (br e) i := fun j hj hcon => by
    have hji := visit_injOn (by omega) (by omega) hcon
    omega
  rw [inv.next, inv.todo _ hnew]
  exact h.walk _ (visit_lt hm hbr hi)

omit h he hm hiv hbr in
/-- A pass over a list that begins with the removed ED. -/
theorem pass_head (inv : UnlinkInv k k' L e (br e) i) {r : List EdPtr}
    (hl : L (visit (br e) i) = e :: r) :
    UnlinkInv k (k'.set (.table (visit (br e) i)) (k'.next e)) L e (br e) (i + 1) := by
  refine ⟨inv.next, fun j hj => ?_, fun b hb => ?_⟩
  · rw [inv.next]
    by_cases hji : j = i
    · subst hji
      exact ⟨by simp [Links.set], r, hl⟩
    · obtain ⟨htab, r', hl'⟩ := inv.done j (by omega)
      refine ⟨?_, r', hl'⟩
      simp only [Links.set]
      by_cases hv : visit (br e) j = visit (br e) i
      · rw [hv, Function.update_self]
      · rwa [Function.update_of_ne hv]
  · have hbi := hb i (Nat.lt_succ_self i)
    simp only [Links.set]
    rw [Function.update_of_ne (Ne.symm hbi)]
    exact inv.todo b (fun j hj => hb j (Nat.lt_succ_of_lt hj))

/-- **The loop of the case `INT`** terminates, whatever the schedule. -/
theorem unlinkIntLoop_eq {o : Ohci} {K : ℕ} (ho : o.interval e = iv e)
    (hK : ∀ b < 32, (L b).length ≤ K) {d : ℕ} :
    ∀ {i n : ℕ} {k' : Links}, 2 ^ (5 - m) - i ≤ d → i ≤ 2 ^ (5 - m) →
      UnlinkInv k k' L e (br e) i → d + K + 2 < n →
      ∃ k'', unlinkIntLoop e (2 ^ m) (br e) n i (o.withLinks k') = some (o.withLinks k'')
        ∧ UnlinkEnd k k'' L e (br e) m := by
  -- on the number of indices left
  induction d with
  | zero =>
    intro i n k' hd hb inv hf
    obtain ⟨n, rfl⟩ := Nat.exists_eq_succ_of_ne_zero (by omega : n ≠ 0)
    refine ⟨k', ?_, .inl ((by omega : i = 2 ^ (5 - m)) ▸ inv)⟩
    rw [unlinkIntLoop, epRev_six hm, if_neg (by omega)]
  | succ d ih =>
    intro i n k' hd hb inv hf
    obtain ⟨n, rfl⟩ := Nat.exists_eq_succ_of_ne_zero (by omega : n ≠ 0)
    by_cases hi : i < 2 ^ (5 - m)
    · have hlen := hK _ (visit_lt hm hbr hi)
      have hw : Walk (o.withLinks k').nextED 0
          ((o.withLinks k').get (.table (visit (br e) i))) (L (visit (br e) i)) :=
        walk_visit h hm hbr inv hi
      obtain ⟨p, r, hl⟩ := List.append_of_mem (mem_visit h he hm hiv hbr hi)
      rw [unlinkIntLoop, epRev_six hm, if_pos hi]
      rcases List.eq_nil_or_concat' p with rfl | ⟨p, y, rfl⟩
      · -- first on its list: the stride is one
        obtain ⟨k'', hk, hend⟩ := ih (i := i + 1) (n := n) (by omega) (by omega)
          (pass_head inv hl) (by omega)
        refine ⟨k'', ?_, hend⟩
        have hstop : unlinkWalk e (o.withLinks k') n (.table (visit (br e) i)) 1 = _ :=
          unlinkWalk_head (hl ▸ hw) (by omega)
        rw [withLinks_set] at hstop
        simp only [visit] at hstop hk
        simp only [hstop, Option.bind_eq_bind, Option.bind_some]
        exact hk
      · -- something precedes it: the stride leads to the end
        rw [List.append_assoc, List.singleton_append] at hl
        refine ⟨k'.setNext y (k'.next e), ?_, .inr ⟨i, hi, k', y, p, r, inv, hl, ?_⟩⟩
        · rw [hl] at hlen
          simp only [List.length_append, List.length_cons] at hlen
          have hstop : unlinkWalk e (o.withLinks k') n (.table (visit (br e) i)) 1 = _ :=
            unlinkWalk_behind (hl ▸ hw) (by omega)
          have hive : (o.withLinks k').interval e = 2 ^ m := ho.trans hiv
          rw [withLinks_set, hive, epRev_six hm] at hstop
          simp only [visit] at hstop
          simp only [hstop, Option.bind_eq_bind, Option.bind_some]
          obtain ⟨n, rfl⟩ := Nat.exists_eq_succ_of_ne_zero (by omega : n ≠ 0)
          rw [unlinkIntLoop, epRev_six hm, if_neg (by omega)]
          rfl
        · rw [inv.next]
    · refine ⟨k', ?_, .inl ((by omega : i = 2 ^ (5 - m)) ▸ inv)⟩
      rw [unlinkIntLoop, epRev_six hm, if_neg hi]

end UnlinkInv

/-! ## When the removal is exact -/

namespace UnlinkEnd

variable (h : Schedule k iv br linked L)

include h

/-- Every linked ED is on some list. -/
theorem exists_mem {x : EdPtr} (hx : x ∈ linked) : ∃ b < 32, x ∈ L b := by
  obtain ⟨q, hq, hivx⟩ := h.interval x hx
  have hle : (2 : ℕ) ^ q ≤ 32 := Nat.pow_le_pow_right (by norm_num) hq
  have hlt : br x % 2 ^ q < 32 := (Nat.mod_lt _ (by positivity)).trans_le hle
  exact ⟨br x % 2 ^ q, hlt, (h.mem _ hlt x).mpr ⟨hx, by rw [hivx, Nat.mod_mod]⟩⟩

/-- Behind an ED whose link leads to `e` stands `e`. -/
theorem eq_append_of_next {x : EdPtr} {b : ℕ} (hb : b < 32) (he0 : e ≠ 0) (hx : x ∈ L b)
    (hxe : k.next x = e) : ∃ p r, L b = p ++ x :: e :: r := by
  obtain ⟨p, r, hl⟩ := List.append_of_mem hx
  have hw := h.walk b hb
  rw [hl] at hw
  have hr := hw.drop.2.2.start_eq
  rw [hxe] at hr
  cases r with
  | nil => exact absurd hr he0
  | cons z r => exact ⟨p, r, by rw [hl, hr]; rfl⟩

/-- Two EDs in front of `e` on one list are the same. -/
theorem pred_unique {x y : EdPtr} {b : ℕ} (hb : b < 32) (he0 : e ≠ 0) (hx : x ∈ L b)
    (hxe : k.next x = e) (hy : y ∈ L b) (hye : k.next y = e) : x = y := by
  obtain ⟨p, r, hl⟩ := eq_append_of_next h hb he0 hx hxe
  obtain ⟨p', r', hl'⟩ := eq_append_of_next h hb he0 hy hye
  have hnd := h.nodup hb
  rw [hl, List.append_cons, List.nodup_append, List.nodup_cons] at hnd
  rw [hl, List.append_cons, List.append_cons p'] at hl'
  have hp : e ∉ p ++ [x] := fun hcon => hnd.2.2 e hcon e (by simp) rfl
  have hcut : p ++ [x] = p' ++ [y] :=
    ((List.append_cons_inj_of_notMem hp hnd.2.1.1).mp hl').1
  exact (by simpa using hcut : p = p' ∧ x = y).2

/-- Where the removed ED comes first nothing leads to it. -/
theorem notMem_of_head {x : EdPtr} {b : ℕ} {r : List EdPtr} (hb : b < 32) (he0 : e ≠ 0)
    (hl : L b = e :: r) (hxe : k.next x = e) : x ∉ L b := by
  intro hx
  obtain ⟨p, r', hl'⟩ := eq_append_of_next h hb he0 hx hxe
  have hnd := h.nodup hb
  rw [hl', List.append_cons, List.nodup_append] at hnd
  rw [hl, List.append_cons, eq_comm, List.append_eq_cons_iff] at hl'
  obtain ⟨hcon, -⟩ | ⟨q, hq, -⟩ := hl'
  · simp at hcon
  · exact hnd.2.2 e (by simp [hq]) e (by simp) rfl

variable (hm : m ≤ 5) (hbr : br e < 2 ^ m)

include hm hbr

/-- An ED on the list at `i` and on the one visited last is on all between. -/
theorem mem_between {y : EdPtr} {j : ℕ} (hi : i < 2 ^ (5 - m)) (hij : i ≤ j)
    (hj : j < 2 ^ (5 - m)) (hyi : y ∈ L (visit (br e) i))
    (hy : y ∈ L (visit (br e) (2 ^ (5 - m) - 1))) : y ∈ L (visit (br e) j) := by
  obtain ⟨q, hq, hivy⟩ := h.interval y ((h.mem _ (visit_lt hm hbr hi) y).mp hyi).1
  have hblock := fun (j' : ℕ) (hj' : j' < 2 ^ (5 - m)) =>
    LinkInv.mem_visit_iff h hm hbr hq hivy hi hj' hyi
  have hlast := (hblock _ (by omega)).mp hy
  refine (hblock j hj).mpr (le_antisymm (Nat.div_le_div_right hij) ?_)
  rw [hlast]
  exact Nat.div_le_div_right (by omega)

variable (he : e ∈ linked) (hiv : iv e = 2 ^ m) (he0 : e ≠ 0)

include he hiv he0

omit he in
/-- A list with something that leads to the removed ED is visited. -/
theorem exists_visit {x : EdPtr} {b : ℕ} (hb : b < 32) (hx : x ∈ L b) (hxe : k.next x = e) :
    ∃ j < 2 ^ (5 - m), visit (br e) j = b := by
  obtain ⟨p, r, hl⟩ := eq_append_of_next h hb he0 hx hxe
  have heb := (h.mem b hb e).mp (by simp [hl])
  rw [hiv, Nat.mod_eq_of_lt hbr] at heb
  exact (mod_eq_iff_exists_visit hm hbr hb).mp heb.2

omit he hiv he0 in
/-- Where the loop found the ED first it removed it. -/
theorem walk_done {k₁ : Links} (inv : UnlinkInv k k₁ L e (br e) i) (hi : i ≤ 2 ^ (5 - m))
    {j : ℕ} (hj : j < i) : Walk k.next 0 (k₁.table (visit (br e) j))
      ((L (visit (br e) j)).filter (· ≠ e)) := by
  have hlt := visit_lt hm hbr (hj.trans_le hi)
  obtain ⟨htab, r, hl⟩ := inv.done j hj
  have hw := h.walk _ hlt
  have hnd := h.nodup hlt
  rw [hl] at hw hnd
  rw [htab, hl, ← List.nil_append (e :: r), filter_ne_of_nodup (p := []) hnd]
  exact hw.2.2

omit he hiv in
/-- **The lists after an early end of the loop**, at index `i` and with the
link of `y` written last. The ED is gone from the lists before that index
and from those that hold `y`, and the others are what they were. -/
theorem walk_early {k₁ : Links} {y : EdPtr} {b : ℕ} (inv : UnlinkInv k k₁ L e (br e) i)
    (hi : i < 2 ^ (5 - m)) (hye : k.next y = e) (hb : b < 32) :
    Walk (k₁.setNext y (k.next e)).next 0 ((k₁.setNext y (k.next e)).table b)
      (if (∃ j < i, visit (br e) j = b) ∨ y ∈ L b then (L b).filter (· ≠ e) else L b) := by
  have hnext : (k₁.setNext y (k.next e)).next = Function.update k.next y (k.next e) := by
    rw [← inv.next]
    rfl
  rw [hnext]
  by_cases hfirst : ∃ j < i, visit (br e) j = b
  · rw [if_pos (.inl hfirst)]
    obtain ⟨j, hj, rfl⟩ := hfirst
    obtain ⟨-, r, hl⟩ := inv.done j hj
    refine (walk_done h hm hbr inv hi.le hj).update_of_notMem (fun hcon => ?_)
    exact notMem_of_head h hb he0 hl hye (List.mem_filter.mp hcon).1
  · have htab : (k₁.setNext y (k.next e)).table b = k.table b :=
      inv.todo b (fun j hj hcon => hfirst ⟨j, hj, hcon⟩)
    rw [htab]
    by_cases hy : y ∈ L b
    · rw [if_pos (.inr hy)]
      obtain ⟨p, r, hl⟩ := eq_append_of_next h hb he0 hy hye
      have hw := h.walk b hb
      have hnd := h.nodup hb
      rw [hl] at hw hnd ⊢
      rw [List.append_cons] at hnd ⊢
      rw [filter_ne_of_nodup hnd, List.append_assoc, List.singleton_append]
      exact walk_removed hw
    · rw [if_neg (not_or.mpr ⟨hfirst, hy⟩)]
      exact (h.walk b hb).update_of_notMem hy

omit h hbr he he0 in
/-- The branch visited last. -/
theorem visit_last : visit (br e) (2 ^ (5 - m) - 1) = br e + (32 - iv e) := by
  rw [visit, epRev_last hm, hiv, Nat.add_comm]

/-- **When the removal is exact**: when all that leads to the removed ED is
on the list visited last. -/
theorem exact_iff (hend : UnlinkEnd k k' L e (br e) m) :
    (∀ b < 32, Walk k'.next 0 (k'.table b) ((L b).filter (· ≠ e)))
      ↔ ∀ x ∈ linked, k.next x = e → (br e + (32 - iv e)) % iv x = br x % iv x := by
  have h32 := two_pow_le m
  have hpos : 0 < 2 ^ (5 - m) := by positivity
  rw [← visit_last hm hiv]
  rcases hend with inv | ⟨i, hi, k₁, y, p, r, inv, hl, rfl⟩
  · -- the ED was first everywhere: nothing leads to it
    refine iff_of_true (fun b hb => ?_) (fun x hx hxe => ?_)
    · rw [inv.next]
      by_cases hfirst : ∃ j < 2 ^ (5 - m), visit (br e) j = b
      · obtain ⟨j, hj, rfl⟩ := hfirst
        exact walk_done h hm hbr inv le_rfl hj
      · have heb : e ∉ L b := by
          rw [h.mem b hb, hiv, Nat.mod_eq_of_lt hbr, mod_eq_iff_exists_visit hm hbr hb]
          exact fun hcon => hfirst hcon.2
        rw [filter_ne_of_notMem heb, inv.todo b (fun j hj hcon => hfirst ⟨j, hj, hcon⟩)]
        exact h.walk b hb
    · obtain ⟨b, hb, hxb⟩ := exists_mem h hx
      obtain ⟨j, hj, rfl⟩ := exists_visit h hm hbr hiv he0 hb hxb hxe
      obtain ⟨-, r, hl⟩ := inv.done j hj
      exact absurd hxb (notMem_of_head h hb he0 hl hxe)
  · have hlt := visit_lt hm hbr hi
    have hlast := visit_lt (i := 2 ^ (5 - m) - 1) hm hbr (by omega)
    have hye : k.next y = e := by
      have hw := h.walk _ hlt
      rw [hl] at hw
      exact hw.drop.2.2.1
    have hyi : y ∈ L (visit (br e) i) := by
      rw [hl]
      simp
    have hearly := fun b hb => walk_early h hm hbr he0 (b := b) inv hi hye hb
    constructor
    · intro hexact x hx hxe
      -- the list visited last has lost `e`, so it holds `y`; and `x` is `y`
      have hylast : y ∈ L (visit (br e) (2 ^ (5 - m) - 1)) := by
        by_contra hcon
        have hw := hearly _ hlast
        have hnot : ¬ ((∃ j < i, visit (br e) j = visit (br e) (2 ^ (5 - m) - 1))
            ∨ y ∈ L (visit (br e) (2 ^ (5 - m) - 1))) := by
          rintro (⟨j, hj, hjl⟩ | hy)
          · have hj' := visit_injOn (by omega) (by omega) hjl
            omega
          · exact hcon hy
        rw [if_neg hnot] at hw
        have hmem : e ∈ L (visit (br e) (2 ^ (5 - m) - 1)) :=
          UnlinkInv.mem_visit h he hm hiv hbr (by omega)
        rw [hw.unique (hexact _ hlast)] at hmem
        simp at hmem
      obtain ⟨b, hb, hxb⟩ := exists_mem h hx
      obtain ⟨j, hj, rfl⟩ := exists_visit h hm hbr hiv he0 hb hxb hxe
      have hij : i ≤ j := by
        by_contra hcon
        obtain ⟨-, r, hl⟩ := inv.done j (by omega)
        exact notMem_of_head h hb he0 hl hxe hxb
      have hyj : y ∈ L (visit (br e) j) := mem_between h hm hbr hi hij hj hyi hylast
      rw [pred_unique h hb he0 hxb hxe hyj hye]
      exact ((h.mem _ hlast y).mp hylast).2
    · intro hcond b hb
      have hyl : y ∈ linked := ((h.mem _ hlt y).mp hyi).1
      have hylast : y ∈ L (visit (br e) (2 ^ (5 - m) - 1)) :=
        (h.mem _ hlast y).mpr ⟨hyl, hcond y hyl hye⟩
      by_cases heb : e ∈ L b
      · have hclass := ((h.mem b hb e).mp heb).2
        rw [hiv, Nat.mod_eq_of_lt hbr] at hclass
        obtain ⟨j, hj, rfl⟩ := (mod_eq_iff_exists_visit hm hbr hb).mp hclass
        have hin : (∃ j' < i, visit (br e) j' = visit (br e) j) ∨ y ∈ L (visit (br e) j) := by
          by_cases hij : i ≤ j
          · exact .inr (mem_between h hm hbr hi hij hj hyi hylast)
          · exact .inl ⟨j, by omega, rfl⟩
        have hw := hearly _ hb
        rwa [if_pos hin] at hw
      · have hw := hearly b hb
        rw [filter_ne_of_notMem heb, ite_self] at hw
        rwa [filter_ne_of_notMem heb]

end UnlinkEnd

section Reachable

variable {o : Ohci}

/-- Around the loops of `ep_unlink` for an interrupt ED. The marks it sets
on the ED and the loads are no part of the schedule. -/
theorem epUnlink_int_eq {o₁ : Ohci} {fuel : ℕ} (ht : (o.ed e).type = .int)
    (hpos : 0 < o.interval e) (hf : 32 < fuel)
    (hloop : unlinkIntLoop e (o.interval e) (o.branch e) fuel 0
      (o.modEd e (fun r => { r with hwINFO := { r.hwINFO with k := true } })) = some o₁) :
    ∃ o', epUnlink fuel o e = some o' ∧ o'.links = o₁.links := by
  obtain ⟨l, hl⟩ : ∃ l, addLoad (o.interval e) (-((o₁.ed e).intLoad : ℤ)) fuel (o.branch e)
      o₁.ohciIntLoad = some l := addLoad_total hpos (by omega)
  refine ⟨({ o₁ with ohciIntLoad := l } : Ohci).modEd e (fun r => { r with state := .edUnlink }),
    ?_, ?_⟩
  · simp only [epUnlink, unlinkType, unlinkInt, Ohci.modEd_ed_self, ht, hloop, hl,
      Option.bind_eq_bind, Option.bind_some]
  · refine Links.ext rfl (funext fun x => ?_)
    by_cases hx : x = e <;> simp [Ohci.links, Ohci.nextED, Ohci.modEd_ed, hx]

/-- **`ep_unlink` of an interrupt ED terminates** when the schedule holds the linked EDs,
wherever the loop over the branches leaves its links. -/
theorem Ohci.Periodic.epUnlink_int {L : ℕ → List EdPtr} (hL : o.Periodic linked L)
    (he : e ∈ linked)
    (ht : (o.ed e).type = .int) (hbr : o.branch e < o.interval e) :
    ∃ m ≤ 5, o.interval e = 2 ^ m ∧ ∃ n o', (∀ fuel ≥ n, epUnlink fuel o e = some o')
      ∧ UnlinkEnd o.links o'.links L e (o.branch e) m := by
  obtain ⟨m, hm, hiv⟩ := hL.interval e he
  obtain ⟨K, hK⟩ := exists_length_le L 32
  have hinit : UnlinkInv o.links o.links L e (o.branch e) 0 :=
    ⟨rfl, fun j hj => absurd hj (Nat.not_lt_zero j), fun _ _ => rfl⟩
  have hmark : (o.modEd e (fun r => { r with hwINFO := { r.hwINFO with k := true } })).links
      = o.links := by
    refine Links.ext rfl (funext fun x => ?_)
    by_cases hx : x = e <;> simp [Ohci.links, Ohci.nextED, Ohci.modEd_ed, hx]
  obtain ⟨k, hk, hend⟩ := UnlinkInv.unlinkIntLoop_eq hL he hm hiv (hiv ▸ hbr)
    (o := o.modEd e (fun r => { r with hwINFO := { r.hwINFO with k := true } }))
    (by simp [Ohci.interval]) hK ((Nat.sub_le _ _).trans (two_pow_le m)) (Nat.zero_le _) hinit
    (by omega : 32 + K + 2 < K + 67)
  rw [← hmark, withLinks_links, ← hiv] at hk
  obtain ⟨o', ho', hlinks⟩ := epUnlink_int_eq ht (Nat.zero_lt_of_lt hbr) (by omega) hk
  have hlinks' : o'.links = k := hlinks
  exact ⟨m, hm, hiv, _, o', fun fuel hf => epUnlink_fuelled.le ho' hf, hlinks' ▸ hend⟩

/-- **When `ep_unlink` of an interrupt ED is exact.** It always terminates,
and it removes the ED from all lists and leaves everything else in place if
and only if each ED that stands directly in front of the removed one on some
list is on the last of its branches. -/
theorem epUnlink_int_exact_iff (h : IntReachable o linked) (he : e ∈ linked) :
    ∃ n o', (∀ fuel ≥ n, epUnlink fuel o e = some o')
      ∧ ((∀ b < 32, ∃ l, Walk o.nextED 0 (o.intTable b) l
            ∧ Walk o'.nextED 0 (o'.intTable b) (l.filter (· ≠ e)))
        ↔ ∀ x ∈ linked, o.nextED x = e →
            (o.branch e + (32 - o.interval e)) % o.interval x = o.branch x % o.interval x) := by
  obtain ⟨⟨L, hL⟩, hlinked⟩ := h.periodic
  obtain ⟨he0, ht, hbr⟩ := hlinked e he
  obtain ⟨m, hm, hiv, n, o', heq, hend⟩ := hL.epUnlink_int he ht hbr
  refine ⟨n, o', heq, ?_⟩
  have hiff := UnlinkEnd.exact_iff hL hm (hiv ▸ hbr) he hiv he0 hend
  refine Iff.trans (forall₂_congr fun b hb => ?_) hiff
  constructor
  · rintro ⟨l, hl, hw⟩
    rwa [(hL.walk b hb).unique hl]
  · exact fun hw => ⟨L b, hL.walk b hb, hw⟩

/-- Two EDs of the periods 32 and 1, linked in this order: on list 0 the
second stands behind the first, on the other lists it stands alone. -/
def twoPeriods : Ohci := Ohci.ofPeriods (fun e => if e = 1 then 32 else 1)

/-- Unlinking the second ED takes it off list 0 only. -/
theorem epUnlink_int_not_exact : ¬ ∀ (o : Ohci) (linked : List EdPtr) (e : EdPtr),
    IntReachable o linked → e ∈ linked →
      ∃ n o', (∀ fuel ≥ n, epUnlink fuel o e = some o') ∧ ∀ b < 32, ∃ l,
        Walk o.nextED 0 (o.intTable b) l
        ∧ Walk o'.nextED 0 (o'.intTable b) (l.filter (· ≠ e)) := by
  intro hall
  have htab : ((linkAll 64 twoPeriods [1, 2]).bind (epUnlink 64 · 2)).map (·.intTable 1)
      = some 2 := by decide +kernel
  obtain ⟨o', ho', htab⟩ := Option.map_eq_some_iff.mp htab
  obtain ⟨o, ho, ho'⟩ := Option.bind_eq_some_iff.mp ho'
  have hreach : IntReachable o [2, 1] := linkAll_intReachable (.empty (fun _ _ => rfl)) ho
    (by decide) (by simp) (fun _ _ => rfl)
  obtain ⟨n, o'', heq, hlists⟩ := hall o [2, 1] 2 hreach (by simp)
  obtain rfl := epUnlink_fuelled.unique ho' (heq n le_rfl)
  obtain ⟨l, -, hw⟩ := hlists 1 (by omega)
  -- the list begins with the removed ED still
  have hmem := hw.start_mem (by simp [htab])
  simp [htab] at hmem

/-- The ED linked first has nothing in front of it, and unlinking it is
exact. -/
theorem epUnlink_int_exact_first : ∃ o n o', linkAll 64 twoPeriods [1, 2] = some o
    ∧ (∀ fuel ≥ n, epUnlink fuel o 1 = some o') ∧ ∀ b < 32, ∃ l,
      Walk o.nextED 0 (o.intTable b) l
      ∧ Walk o'.nextED 0 (o'.intTable b) (l.filter (· ≠ 1)) := by
  have hnext : (linkAll 64 twoPeriods [1, 2]).map (fun o => (o.nextED 1, o.nextED 2))
      = some (2, 0) := by decide +kernel
  obtain ⟨o, ho, hnext⟩ := Option.map_eq_some_iff.mp hnext
  have hreach : IntReachable o [2, 1] := linkAll_intReachable (.empty (fun _ _ => rfl)) ho
    (by decide) (by simp) (fun _ _ => rfl)
  obtain ⟨n, o', heq, hiff⟩ := epUnlink_int_exact_iff hreach (e := 1) (by simp)
  refine ⟨o, n, o', ho, heq, hiff.mpr (fun x hx hx1 => ?_)⟩
  obtain rfl | rfl : x = 2 ∨ x = 1 := by simpa using hx
  · simp_all
  · simp_all

end Reachable
