import SideDumper.Schedule

/-!
# Inserting an endpoint into the periodic schedule

One pass of the loop of `ep_link` walks the list of one branch of the new
ED's class and inserts the ED there. `LinkInv.pass_head` and
`LinkInv.pass_behind` say what that does to all 32 lists: in the first case
the ED goes to the front and one list has changed; in the second it goes
behind an ED `y`, and every list that holds `y` has changed – these are the
branches of a block of visiting indices that begins at the current one, and
the stride skips exactly them.
-/

variable {k : Links} {iv br : EdPtr → ℕ} {linked : List EdPtr} {L : ℕ → List EdPtr}
variable {e brE m i : ℕ}

/-- **The invariant of the insertion loop** before index `i`, for an ED `e`
of interval `2 ^ m` and base branch `brE`; `L` are the lists before the
loop. -/
structure LinkInv (k : Links) (iv : EdPtr → ℕ) (L : ℕ → List EdPtr) (e brE m i : ℕ) :
    Prop where
  done : ∀ j < i, Walk k.next 0 (k.table (visit brE j))
    (schedInsert iv (2 ^ m) e (L (visit brE j)))
  todo : ∀ b < 32, (∀ j < i, visit brE j ≠ b) → Walk k.next 0 (k.table b) (L b)
  apart : ∀ j < i, ∀ j', i ≤ j' → j' < 2 ^ (5 - m) →
    ∀ x ∈ L (visit brE j), 2 ^ m ≤ iv x → x ∉ L (visit brE j')
  bound : i ≤ 2 ^ (5 - m)

/-- Where the inner loop ends up after passing the EDs of a list: behind the
last of them, with the stride of that one. -/
def stopAt (iv : EdPtr → ℕ) (s : Cell × ℕ) (p : List EdPtr) : Cell × ℕ :=
  p.foldl (fun _ x => (.next x, epRev 6 (iv x))) s

theorem stopAt_concat (s : Cell × ℕ) (p : List EdPtr) (y : EdPtr) :
    stopAt iv s (p ++ [y]) = (.next y, epRev 6 (iv y)) := by
  rw [stopAt, List.foldl_append]
  rfl

/-- **The inner loop of `ep_link`** passes the EDs that `keep` accepts and
stops at the first it does not, or at the end. -/
theorem linkWalk_eq {o : Ohci} {keep : EdPtr → Bool} {c : Cell} {inter fuel : ℕ}
    {p q : List EdPtr} (hw : Walk o.nextED 0 (o.get c) (p ++ q))
    (hp : ∀ x ∈ p, keep x = true) (hq : ∀ x ∈ q, keep x = false) (hf : p.length < fuel) :
    linkWalk o keep fuel c inter
      = some (stopAt (fun x => (o.ed x).intInterval) (c, inter) p) := by
  induction p generalizing c inter fuel with
  | nil =>
    obtain ⟨fuel, rfl⟩ := Nat.exists_eq_add_of_lt hf
    have hstop : ¬ (o.get c ≠ 0 ∧ keep (o.get c) = true) := by
      cases q with
      | nil => exact fun h => h.1 hw
      | cons x q =>
        have hx : o.get c = x := hw.1
        rw [hx, hq x (by simp)]
        simp
    simp only [List.length_nil, Nat.zero_add, linkWalk, if_neg hstop]
    rfl
  | cons x p ih =>
    cases fuel with
    | zero => exact absurd hf (Nat.not_lt_zero _)
    | succ fuel =>
      obtain ⟨hx, hne, htl⟩ := hw
      rw [linkWalk, hx, if_pos ⟨hne, hp x (by simp)⟩]
      refine (ih (c := .next x) htl (fun y hy => hp y (by simp [hy])) ?_).trans rfl
      simpa using hf

/-- A walk through `y` after the ED has been put behind `y`. -/
theorem walk_behind {next : EdPtr → EdPtr} {a y : EdPtr} {p r : List EdPtr}
    (hw : Walk next 0 a (p ++ y :: r)) (he0 : e ≠ 0) (her : e ∉ p ++ y :: r) :
    Walk (Function.update (Function.update next e (next y)) y e) 0 a (p ++ y :: e :: r) := by
  have hye : e ≠ y := fun hcon => her (by simp [hcon])
  refine (hw.update_of_notMem her).relink (v := e) (x := y) ⟨rfl, he0, ?_⟩
  rw [Function.update_of_ne hye, Function.update_self]
  refine (hw.drop.2.2.update_of_notMem ?_).update_of_notMem ?_
  · exact fun hcon => her (by simp [hcon])
  · exact (List.nodup_cons.mp (List.nodup_append.mp hw.nodup).2.1).1

namespace LinkInv

variable (h : Schedule k iv br linked L) (hm : m ≤ 5) (hbr : brE < 2 ^ m)

include h hm hbr

/-- The indices whose lists share an ED of interval at least `2 ^ m` form a
block. -/
theorem mem_visit_iff {j j' : ℕ} {y : EdPtr} {q : ℕ} (hq : q ≤ 5) (hy : iv y = 2 ^ q)
    (hj : j < 2 ^ (5 - m)) (hj' : j' < 2 ^ (5 - m)) (hmem : y ∈ L (visit brE j)) :
    y ∈ L (visit brE j') ↔ j / 2 ^ (5 - q) = j' / 2 ^ (5 - q) := by
  have h32 := two_pow_le m
  rw [← visit_mod_iff (b := brE) hq (by omega) (by omega)]
  rw [h.mem _ (visit_lt hm hbr hj)] at hmem
  rw [h.mem _ (visit_lt hm hbr hj'), ← hy, hmem.2]
  exact ⟨fun hx => hx.2.symm, fun hx => ⟨hmem.1, hx.symm⟩⟩

/-- The lists of the class of the new ED agree behind the place where it
goes. -/
theorem tail_eq {j j' : ℕ} (hj : j < 2 ^ (5 - m)) (hj' : j' < 2 ^ (5 - m)) :
    (L (visit brE j)).dropWhile (fun x => 2 ^ m ≤ iv x)
      = (L (visit brE j')).dropWhile (fun x => 2 ^ m ≤ iv x) := by
  refine h.dropWhile_eq (visit_lt hm hbr hj) (visit_lt hm hbr hj') ?_
  rw [visit_mod hm hj, visit_mod hm hj']

variable {k' : Links} (inv : LinkInv k' iv L e brE m i) (hi : i < 2 ^ (5 - m))

include inv hi

/-- Where the new ED already stands, its link already is what the pass is
going to write. -/
theorem next_eq {j v : ℕ} {p q : List EdPtr} (hj : j < i)
    (hl : L (visit brE i) = p ++ q)
    (hp : ∀ x ∈ p, 2 ^ m ≤ iv x) (hq : ∀ x ∈ q, iv x < 2 ^ m) (hv : v = q.headD 0) :
    k'.next e = v := by
  have hd := inv.done j hj
  have hq' : (L (visit brE j)).dropWhile (fun x => 2 ^ m ≤ iv x) = q := by
    rw [tail_eq h hm hbr (hj.trans hi) hi, hl]
    exact (cut_eq hp hq).2
  rw [schedInsert, hq'] at hd
  rw [hv]
  exact hd.drop.2.2.start_eq

omit h in
/-- The list about to be walked is still the old one. -/
theorem walk_visit : Walk k'.next 0 (k'.table (visit brE i)) (L (visit brE i)) := by
  have h32 := two_pow_le m
  refine inv.todo _ (visit_lt hm hbr hi) (fun j hj hcon => ?_)
  have hji := visit_injOn (by omega) (by omega) hcon
  omega

/-- The block of a stride begins at the current index. -/
theorem dvd_of_last {y : EdPtr} {q : ℕ} (hq : q ≤ 5) (hy : iv y = 2 ^ q) (hmq : m ≤ q)
    (hmem : y ∈ L (visit brE i)) : 2 ^ (5 - q) ∣ i := by
  by_contra hndvd
  have hpos : 0 < 2 ^ (5 - q) := by positivity
  have hi0 : 0 < i := Nat.pos_of_ne_zero (fun h0 => hndvd (h0 ▸ dvd_zero _))
  have hblock : (i - 1) / 2 ^ (5 - q) = i / 2 ^ (5 - q) := by
    have hs := Nat.succ_div_of_not_dvd (a := i - 1) (b := 2 ^ (5 - q))
      (by rwa [Nat.sub_add_cancel hi0])
    rw [Nat.sub_add_cancel hi0] at hs
    exact hs.symm
  have hprev : y ∈ L (visit brE (i - 1)) :=
    (mem_visit_iff h hm hbr hq hy hi (by omega) hmem).mpr hblock.symm
  have hle : 2 ^ m ≤ iv y := hy ▸ Nat.pow_le_pow_right (by norm_num) hmq
  exact inv.apart (i - 1) (by omega) i le_rfl hi y hprev hle hmem

variable (he0 : e ≠ 0) (he : e ∉ linked)

include he0 he

/-- **A pass that inserts at the front**: no ED of the list has an interval
of at least `2 ^ m`. -/
theorem pass_head (hq : ∀ x ∈ L (visit brE i), iv x < 2 ^ m) :
    LinkInv ((k'.setNext e (k'.table (visit brE i))).set (.table (visit brE i)) e)
      iv L e brE m (i + 1) := by
  have h32 := two_pow_le m
  have hnot : ∀ b < 32, e ∉ L b := fun b hb hx => he ((h.mem b hb e).mp hx).1
  have hlt := visit_lt hm hbr hi
  have hwi := walk_visit hm hbr inv hi
  have hne : ∀ j < i, visit brE j ≠ visit brE i := fun j hj hcon => by
    have hji := visit_injOn (by omega) (by omega) hcon
    omega
  constructor
  · intro j hj
    rcases Nat.lt_succ_iff_lt_or_eq.mp hj with hj | rfl
    · -- a list done before: the link written into `e` was there already
      have hnx := next_eq h hm hbr inv hi (p := []) hj rfl (by simp) hq rfl
      have hv : k'.table (visit brE i) = (L (visit brE i)).headD 0 := hwi.start_eq
      refine (show Walk (Function.update k'.next e _) 0
        (Function.update k'.table _ e (visit brE j)) _ from ?_)
      rw [Function.update_of_ne (hne j hj)]
      refine (inv.done j hj).congr (fun y _ => ?_)
      by_cases hy : y = e
      · rw [hy, Function.update_self, hnx, hv]
      · rw [Function.update_of_ne hy]
    · -- the list at hand
      have hins : schedInsert iv (2 ^ m) e (L (visit brE j)) = e :: L (visit brE j) :=
        schedInsert_eq (p := []) (by simp) hq
      rw [hins]
      refine (show Walk (Function.update k'.next e _) 0
        (Function.update k'.table _ e (visit brE j)) _ from ?_)
      rw [Function.update_self]
      refine ⟨rfl, he0, ?_⟩
      rw [Function.update_self]
      exact hwi.update_of_notMem (hnot _ hlt)
  · intro b hb hnd
    have hb' : visit brE i ≠ b := hnd i (Nat.lt_succ_self i)
    refine (show Walk (Function.update k'.next e _) 0 (Function.update k'.table _ e b) _ from ?_)
    rw [Function.update_of_ne (Ne.symm hb')]
    exact (inv.todo b hb (fun j hj => hnd j (Nat.lt_succ_of_lt hj))).update_of_notMem (hnot b hb)
  · intro j hj j' hj' hj'm x hx hiv
    rcases Nat.lt_succ_iff_lt_or_eq.mp hj with hj | rfl
    · exact inv.apart j hj j' (by omega) hj'm x hx hiv
    · have hlt := hq x hx
      omega
  · omega

variable {y : EdPtr} {q : ℕ} (hq : q ≤ 5) (hy : iv y = 2 ^ q) (hmq : m ≤ q)
  (hyi : y ∈ L (visit brE i))

section Block

include hq hy hmq hyi
omit he0 he

/-- **The block of `y`**: the lists that hold it are those from the current
index on, as many as its stride says. -/
theorem mem_block_iff {j : ℕ} (hj : j < 2 ^ (5 - m)) :
    y ∈ L (visit brE j) ↔ i ≤ j ∧ j < i + 2 ^ (5 - q) := by
  have hpos : 0 < 2 ^ (5 - q) := by positivity
  rw [mem_visit_iff h hm hbr hq hy hi hj hyi]
  obtain ⟨c, rfl⟩ := dvd_of_last h hm hbr inv hi hq hy hmq hyi
  rw [Nat.mul_div_cancel_left c hpos, eq_comm, Nat.div_eq_iff hpos, Nat.mul_comm c]
  omega

/-- The block of `y` ends within the branches of the new ED. -/
theorem block_le : i + 2 ^ (5 - q) ≤ 2 ^ (5 - m) := by
  obtain ⟨c, hc⟩ := dvd_of_last h hm hbr inv hi hq hy hmq hyi
  obtain ⟨d, hd⟩ := pow_dvd_pow 2 (by omega : 5 - q ≤ 5 - m)
  rw [hc, hd] at hi ⊢
  have hcd := Nat.lt_of_mul_lt_mul_left hi
  rw [← Nat.mul_succ]
  exact Nat.mul_le_mul_left _ hcd

/-- An ED before `y` is on no more lists than `y` is. -/
theorem notMem_beyond_block {x : EdPtr} {j j' : ℕ} (hj : j < 2 ^ (5 - m))
    (hyj : y ∈ L (visit brE j)) (hx : x ∈ L (visit brE j)) (hyx : iv y ≤ iv x)
    (hj' : j' < 2 ^ (5 - m)) (hout : i + 2 ^ (5 - q) ≤ j') : x ∉ L (visit brE j') := by
  intro hcon
  have h32 := two_pow_le m
  have hxl := (h.mem _ (visit_lt hm hbr hj) x).mp hx
  have hxl' := (h.mem _ (visit_lt hm hbr hj') x).mp hcon
  obtain ⟨q', -, hq'⟩ := h.interval x hxl.1
  have hdq : 2 ^ q ∣ iv x := by
    rw [hq']
    refine pow_dvd_pow 2 ((Nat.pow_le_pow_iff_right (by norm_num : 1 < 2)).mp ?_)
    rw [← hq', ← hy]
    exact hyx
  have hmod : visit brE j % 2 ^ q = visit brE j' % 2 ^ q := by
    rw [← Nat.mod_mod_of_dvd _ hdq, hxl.2, ← hxl'.2, Nat.mod_mod_of_dvd _ hdq]
  have hyj' : y ∈ L (visit brE j') :=
    (mem_visit_iff h hm hbr hq hy hj hj' hyj).mpr
      ((visit_mod_iff hq (by omega) (by omega)).mp hmod)
  have hin := (mem_block_iff h hm hbr inv hi hq hy hmq hyi hj').mp hyj'
  omega

/-- A branch that holds `y` is one of the new ED's, and in the block. -/
theorem visit_of_mem {b : ℕ} (hb : b < 32) (hyb : y ∈ L b) :
    ∃ j < i + 2 ^ (5 - q), visit brE j = b := by
  have hyl := (h.mem _ hb y).mp hyb
  have hyl' := (h.mem _ (visit_lt hm hbr hi) y).mp hyi
  have hmod : b % 2 ^ m = visit brE i % 2 ^ m := by
    have hdq : 2 ^ m ∣ iv y := hy ▸ pow_dvd_pow 2 hmq
    rw [← Nat.mod_mod_of_dvd b hdq, hyl.2, ← hyl'.2, Nat.mod_mod_of_dvd _ hdq]
  rw [visit_mod hm hi, Nat.mod_eq_of_lt hbr] at hmod
  obtain ⟨j, hj, rfl⟩ := (mod_eq_iff_exists_visit hm hbr hb).mp hmod
  exact ⟨j, ((mem_block_iff h hm hbr inv hi hq hy hmq hyi hj).mp hyb).2, rfl⟩

end Block

include hq hy hmq

/-- **A pass that inserts behind `y`**, the last ED of the list with an
interval of at least `2 ^ m`. All lists that hold `y` change, and the stride
of `y` leads past them. -/
theorem pass_behind {p r : List EdPtr} (hl : L (visit brE i) = p ++ y :: r)
    (hr : ∀ x ∈ r, iv x < 2 ^ m) :
    LinkInv ((k'.setNext e (k'.next y)).set (.next y) e) iv L e brE m (i + 2 ^ (5 - q)) := by
  have h32 := two_pow_le m
  have hnot : ∀ b < 32, e ∉ L b := fun b hb hx => he ((h.mem b hb e).mp hx).1
  have hlt : ∀ j < 2 ^ (5 - m), visit brE j < 32 := fun j hj => visit_lt hm hbr hj
  have hyi : y ∈ L (visit brE i) := by
    rw [hl]
    simp
  have hye : y ≠ e := fun hcon => hnot _ (hlt i hi) (hcon ▸ hyi)
  have hym : 2 ^ m ≤ iv y := hy ▸ Nat.pow_le_pow_right (by norm_num) hmq
  have hblock : ∀ j < 2 ^ (5 - m), (y ∈ L (visit brE j) ↔ i ≤ j ∧ j < i + 2 ^ (5 - q)) :=
    fun j hj => mem_block_iff h hm hbr inv hi hq hy hmq hyi hj
  have hbound := block_le h hm hbr inv hi hq hy hmq hyi
  have hpos : 0 < 2 ^ (5 - q) := by positivity
  have hpre : ∀ {j : ℕ} {p' r' : List EdPtr}, j < 2 ^ (5 - m) →
      L (visit brE j) = p' ++ y :: r' → ∀ x ∈ p' ++ [y], 2 ^ m ≤ iv x := by
    intro j p' r' hj hl' x hx
    rcases List.mem_append.mp hx with hx | hx
    · exact hym.trans (h.le_of_before (hlt j hj) hl' x hx)
    · rwa [List.mem_singleton.mp hx]
  have hother : ∀ z, z ≠ y → (z = e → k'.next e = k'.next y) →
      Function.update (Function.update k'.next e (k'.next y)) y e z = k'.next z := by
    intro z hzy hze
    rw [Function.update_of_ne hzy]
    by_cases hz : z = e
    · rw [hz, Function.update_self, hze hz]
    · rw [Function.update_of_ne hz]
  constructor
  · intro j hj
    by_cases hji : j < i
    · -- a list done before: it does not hold `y`
      have hyj : y ∉ L (visit brE j) := fun hcon =>
        inv.apart j hji i le_rfl hi y hcon hym hyi
      have hv : k'.next y = r.headD 0 := by
        have hw := walk_visit hm hbr inv hi
        rw [hl] at hw
        exact hw.drop.2.2.start_eq
      have hnx : k'.next e = k'.next y := next_eq h hm hbr inv hi hji
        (by rw [hl, List.append_cons]) (hpre hi hl) hr hv
      refine (inv.done j hji).congr (fun z hz => hother z ?_ (fun _ => hnx))
      rintro rfl
      exact (mem_schedInsert.mp hz).elim hye hyj
    · -- a list of the block: the ED goes behind `y`
      have hjm : j < 2 ^ (5 - m) := by omega
      obtain ⟨p', r', hl'⟩ := List.append_of_mem ((hblock j hjm).mpr ⟨by omega, hj⟩)
      have hrr : r' = r := h.tail_eq (hlt j hjm) (hlt i hi) hl' hl
      have hold : Walk k'.next 0 (k'.table (visit brE j)) (p' ++ y :: r') := by
        rw [← hl']
        refine inv.todo _ (hlt j hjm) (fun l hl'' hcon => ?_)
        have hlj := visit_injOn (by omega) (by omega) hcon
        omega
      have hins : schedInsert iv (2 ^ m) e (L (visit brE j)) = p' ++ y :: e :: r' := by
        rw [hl', List.append_cons p' y r', List.append_cons p' y (e :: r')]
        exact schedInsert_eq (hpre hjm hl') (hrr ▸ hr)
      rw [hins]
      exact walk_behind hold he0 (hl' ▸ hnot _ (hlt j hjm))
  · intro b hb hnd
    have hyb : y ∉ L b := by
      intro hcon
      obtain ⟨j, hj, hjb⟩ := visit_of_mem h hm hbr inv hi hq hy hmq hyi hb hcon
      exact hnd j hj hjb
    refine (inv.todo b hb (fun j hj => hnd j (by omega))).congr (fun z hz => hother z ?_ ?_)
    · exact fun hcon => hyb (hcon ▸ hz)
    · exact fun hcon => absurd (hcon ▸ hz) (hnot b hb)
  · intro j hj j' hj' hj'm x hx hiv
    by_cases hji : j < i
    · exact inv.apart j hji j' (by omega) hj'm x hx hiv
    · have hjm : j < 2 ^ (5 - m) := by omega
      have hyj := (hblock j hjm).mpr ⟨by omega, hj⟩
      obtain ⟨p', r', hl'⟩ := List.append_of_mem hyj
      have hrr : r' = r := h.tail_eq (hlt j hjm) (hlt i hi) hl' hl
      have hyx : iv y ≤ iv x := by
        have hx' := hx
        rw [hl', List.mem_append, List.mem_cons] at hx'
        rcases hx' with hx' | rfl | hx'
        · exact h.le_of_before (hlt j hjm) hl' x hx'
        · exact le_rfl
        · have hlt' := hr x (hrr ▸ hx')
          omega
      exact notMem_beyond_block h hm hbr inv hi hq hy hmq hyi hjm hyj hx hyx hj'm hj'
  · exact hbound

end LinkInv

namespace LinkInv

variable {k' : Links}

/-- Before the loop nothing is done. -/
theorem init (h : Schedule k iv br linked L) (he : e ∉ linked) (v : EdPtr) :
    LinkInv (k.setNext e v) iv L e brE m 0 where
  done := fun j hj => absurd hj (Nat.not_lt_zero j)
  todo := fun b hb _ =>
    (h.walk b hb).update_of_notMem (fun hx => he ((h.mem b hb e).mp hx).1)
  apart := fun j hj => absurd hj (Nat.not_lt_zero j)
  bound := Nat.zero_le _

/-- After the loop the ED is on the lists of its class, and the others are
what they were. -/
theorem final (hm : m ≤ 5) (hbr : brE < 2 ^ m) (inv : LinkInv k' iv L e brE m (2 ^ (5 - m)))
    {b : ℕ} (hb : b < 32) :
    Walk k'.next 0 (k'.table b)
      (if b % 2 ^ m = brE then schedInsert iv (2 ^ m) e (L b) else L b) := by
  by_cases hc : b % 2 ^ m = brE
  · rw [if_pos hc]
    obtain ⟨j, hj, rfl⟩ := (mod_eq_iff_exists_visit hm hbr hb).mp hc
    exact inv.done j hj
  · rw [if_neg hc]
    exact inv.todo b hb (fun j hj hcon =>
      hc ((mod_eq_iff_exists_visit hm hbr hb).mpr ⟨j, hj, hcon⟩))

variable (h : Schedule k iv br linked L) (hm : m ≤ 5) (hbr : brE < 2 ^ m) (he0 : e ≠ 0)
  (he : e ∉ linked)

include h hm hbr he0 he

/-- **One pass**: the inner loop stops at a link `c` with a stride that is
not zero, and writing the ED there re-establishes the invariant behind the
stride. -/
theorem pass (inv : LinkInv k' iv L e brE m i) (hi : i < 2 ^ (5 - m)) :
    ∃ c inter, 1 ≤ inter
      ∧ (∀ (o : Ohci) (keep : EdPtr → Bool) (fuel : ℕ),
          (∀ x ∈ linked, (o.ed x).intInterval = iv x) →
          (∀ x ∈ linked, keep x = decide (2 ^ m ≤ iv x)) →
          (L (visit brE i)).length < fuel →
          linkWalk (o.withLinks k') keep fuel (.table (visit brE i)) 1 = some (c, inter))
      ∧ k'.get c = ((L (visit brE i)).dropWhile (fun x => 2 ^ m ≤ iv x)).headD 0
      ∧ LinkInv ((k'.setNext e (k'.get c)).set c e) iv L e brE m (i + inter) := by
  have hlt := visit_lt hm hbr hi
  have hwi := walk_visit hm hbr inv hi
  have hlk : ∀ x ∈ L (visit brE i), x ∈ linked := fun x hx => ((h.mem _ hlt x).mp hx).1
  have hlen : ((L (visit brE i)).takeWhile (fun x => 2 ^ m ≤ iv x)).length
      ≤ (L (visit brE i)).length := (List.takeWhile_sublist _).length_le
  have hp : ∀ x ∈ (L (visit brE i)).takeWhile (fun x => 2 ^ m ≤ iv x), 2 ^ m ≤ iv x :=
    fun x hx => le_of_mem_takeWhile hx
  have hr : ∀ x ∈ (L (visit brE i)).dropWhile (fun x => 2 ^ m ≤ iv x), iv x < 2 ^ m :=
    fun x hx => lt_of_mem_dropWhile (h.sorted _ hlt) hx
  have hl : L (visit brE i) = _ :=
    (List.takeWhile_append_dropWhile (p := fun x => decide (2 ^ m ≤ iv x))).symm
  generalize (L (visit brE i)).takeWhile (fun x => 2 ^ m ≤ iv x) = p at hp hl hlen
  generalize (L (visit brE i)).dropWhile (fun x => 2 ^ m ≤ iv x) = r at hr hl ⊢
  -- the inner loop passes `p`
  have hwalk : ∀ (o : Ohci) (keep : EdPtr → Bool) (fuel : ℕ),
      (∀ x ∈ linked, keep x = decide (2 ^ m ≤ iv x)) → (L (visit brE i)).length < fuel →
      linkWalk (o.withLinks k') keep fuel (.table (visit brE i)) 1
        = some (stopAt (fun x => (o.ed x).intInterval) (.table (visit brE i), 1) p) := by
    intro o keep fuel hk hf
    have hlk' : ∀ x ∈ p ++ r, x ∈ linked := fun x hx => hlk x (hl ▸ hx)
    refine linkWalk_eq (q := r) (hl ▸ hwi) (fun x hx => ?_) (fun x hx => ?_) (by omega)
    · rw [hk x (hlk' x (by simp [hx]))]
      simpa using hp x hx
    · rw [hk x (hlk' x (by simp [hx]))]
      simpa using hr x hx
  rcases List.eq_nil_or_concat' p with rfl | ⟨p, y, rfl⟩
  · refine ⟨.table (visit brE i), 1, le_rfl, fun o keep fuel _ hk hf => hwalk o keep fuel hk hf,
      ?_, ?_⟩
    · exact (hl ▸ hwi).start_eq
    · exact pass_head h hm hbr inv hi he0 he (fun x hx => hr x (by rwa [hl] at hx))
  · rw [List.append_assoc, List.singleton_append] at hl
    have hy : y ∈ L (visit brE i) := by
      rw [hl]
      simp
    obtain ⟨q, hq, hiv⟩ := h.interval y (hlk y hy)
    have hmq : m ≤ q := (Nat.pow_le_pow_iff_right (by norm_num : 1 < 2)).mp
      (hiv ▸ hp y (by simp))
    refine ⟨.next y, 2 ^ (5 - q), Nat.one_le_two_pow, fun o keep fuel ho hk hf => ?_, ?_, ?_⟩
    · rw [hwalk o keep fuel hk hf, stopAt_concat, ho y (hlk y hy), hiv, epRev_six hq]
    · exact (hl ▸ hwi).drop.2.2.start_eq
    · exact pass_behind h hm hbr inv hi he0 he hq hiv hmq hl hr

/-- **The loop of the case `INT`** terminates and inserts the ED. -/
theorem linkIntLoop_eq {o : Ohci} {K : ℕ} (ho : ∀ x ∈ linked, (o.ed x).intInterval = iv x)
    (hK : ∀ b < 32, (L b).length ≤ K) {d : ℕ} :
    ∀ {i n : ℕ} {k' : Links}, 2 ^ (5 - m) - i ≤ d → LinkInv k' iv L e brE m i →
      d + K + 1 < n →
      ∃ k'', linkIntLoop e (2 ^ m) brE n i (o.withLinks k') = some (o.withLinks k'')
        ∧ LinkInv k'' iv L e brE m (2 ^ (5 - m)) := by
  -- on the number of indices left: a stride is at least one
  induction d with
  | zero =>
    intro i n k' hd inv hf
    obtain ⟨n, rfl⟩ := Nat.exists_eq_succ_of_ne_zero (by omega : n ≠ 0)
    have hi : i = 2 ^ (5 - m) := by
      have hb := inv.bound
      omega
    refine ⟨k', ?_, hi ▸ inv⟩
    rw [linkIntLoop, epRev_six hm, if_neg (by omega)]
  | succ d ih =>
    intro i n k' hd inv hf
    obtain ⟨n, rfl⟩ := Nat.exists_eq_succ_of_ne_zero (by omega : n ≠ 0)
    by_cases hi : i < 2 ^ (5 - m)
    · obtain ⟨c, inter, hinter, hwalk, -, hinv⟩ := pass h hm hbr he0 he inv hi
      have hlen := hK _ (visit_lt hm hbr hi)
      have hstop := hwalk o (fun x => decide (2 ^ m ≤ ((o.withLinks k').ed x).intInterval)) n ho
        (fun x hx => by rw [withLinks_intInterval, ho x hx]) (by omega)
      obtain ⟨k'', hk, hfin⟩ := ih (i := i + inter) (n := n) (by omega) hinv (by omega)
      refine ⟨k'', ?_, hfin⟩
      rw [linkIntLoop, epRev_six hm, if_pos hi]
      simp only [visit] at hstop
      simp only [hstop, Option.bind_eq_bind, Option.bind_some, withLinks_get,
        withLinks_modEd_next, withLinks_set]
      exact hk
    · have hb := inv.bound
      refine ⟨k', ?_, (by omega : i = 2 ^ (5 - m)) ▸ inv⟩
      rw [linkIntLoop, epRev_six hm, if_neg hi]

end LinkInv
