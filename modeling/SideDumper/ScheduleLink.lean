import SideDumper.ScheduleInsert

/-!
# Linking interrupt endpoints is exact

The loop of `ep_link` starts from a schedule with the right links and ends
with every list of the new ED's class holding it at its place. With the
branch chosen by `ep_int_ballance`, which is below the interval whatever the
loads are, this makes a schedule of a schedule: `IntSchedule` holds in every
memory that `ep_link` calls on interrupt EDs produce from an empty one.
-/

section Balance

variable {o : Ohci} {interval i : ℕ} {load : ℤ} {l : ℕ → ℤ}

theorem addLoad_total (hpos : 0 < interval) {fuel : ℕ} (hf : 32 - i < fuel) :
    ∃ l', addLoad interval load fuel i l = some l' := by
  induction fuel generalizing i l with
  | zero => omega
  | succ fuel ih =>
    rw [addLoad]
    by_cases hi : i < 32
    · rw [if_pos hi]
      exact ih (by omega)
    · rw [if_neg hi]
      exact ⟨l, rfl⟩

/-- **`ep_int_ballance`** chooses a branch below the interval and changes
the loads alone. -/
theorem epIntBallance_eq (o : Ohci) (load : ℤ) (hpos : 0 < interval) {fuel : ℕ}
    (hf : 32 < fuel) :
    ∃ branch o', epIntBallance fuel o interval load = some (branch, o') ∧ branch < interval
      ∧ o'.ed = o.ed ∧ o'.intTable = o.intTable ∧ o'.edIsotail = o.edIsotail := by
  obtain ⟨l', hl'⟩ : ∃ l', addLoad interval load fuel (leastLoaded o.ohciIntLoad % interval)
      o.ohciIntLoad = some l' := addLoad_total hpos (by omega)
  refine ⟨leastLoaded o.ohciIntLoad % interval, { o with ohciIntLoad := l' }, ?_,
    Nat.mod_lt _ hpos, rfl, rfl, rfl⟩
  simp only [epIntBallance, hl', Option.bind_eq_bind, Option.bind_some]

end Balance

section Insert

variable {k k' : Links} {iv br iv' br' : EdPtr → ℕ} {linked : List EdPtr}
variable {L : ℕ → List EdPtr} {e brE m N : ℕ} {l : List EdPtr}

theorem schedInsert_congr (h : ∀ x ∈ l, iv' x = iv x) :
    schedInsert iv' N e l = schedInsert iv N e l := by
  have htake : l.takeWhile (fun x => decide (N ≤ iv' x))
      = l.takeWhile (fun x => decide (N ≤ iv x)) := by
    induction l with
    | nil => rfl
    | cons a l ih =>
      rw [List.takeWhile_cons, List.takeWhile_cons, h a (by simp),
        ih (fun x hx => h x (by simp [hx]))]
  have hdrop : l.dropWhile (fun x => decide (N ≤ iv' x))
      = l.dropWhile (fun x => decide (N ≤ iv x)) := by
    have h₁ := List.takeWhile_append_dropWhile (p := fun x => decide (N ≤ iv' x)) (l := l)
    have h₂ := List.takeWhile_append_dropWhile (p := fun x => decide (N ≤ iv x)) (l := l)
    rw [htake] at h₁
    exact List.append_cancel_left (h₁.trans h₂.symm)
  rw [schedInsert, schedInsert, htake, hdrop]

theorem pairwise_schedInsert (hs : l.Pairwise (fun x y => iv y ≤ iv x)) (he : iv e = N) :
    (schedInsert iv N e l).Pairwise (fun x y => iv y ≤ iv x) := by
  have hsplit := hs
  rw [← List.takeWhile_append_dropWhile (p := fun x => decide (N ≤ iv x)) (l := l),
    List.pairwise_append] at hsplit
  rw [schedInsert, List.pairwise_append, List.pairwise_cons]
  refine ⟨hsplit.1, ⟨fun y hy => ?_, hsplit.2.1⟩, fun x hx y hy => ?_⟩
  · rw [he]
    exact (lt_of_mem_dropWhile hs hy).le
  · rcases List.mem_cons.mp hy with rfl | hy
    · rw [he]
      exact le_of_mem_takeWhile hx
    · exact hsplit.2.2 x hx y hy

/-- **Inserting into a schedule gives a schedule**, with the new ED on the
lists of its class. -/
theorem Schedule.insert (h : Schedule k iv br linked L) (he : e ∉ linked) (hm : m ≤ 5)
    (hiv : iv' e = 2 ^ m) (hbre : br' e % 2 ^ m = brE)
    (hold : ∀ x ∈ linked, iv' x = iv x ∧ br' x = br x)
    (hw : ∀ b < 32, Walk k'.next 0 (k'.table b)
      (if b % 2 ^ m = brE then schedInsert iv (2 ^ m) e (L b) else L b)) :
    Schedule k' iv' br' (e :: linked)
      (fun b => if b % 2 ^ m = brE then schedInsert iv (2 ^ m) e (L b) else L b) := by
  have hmem : ∀ b < 32, ∀ x ∈ L b, iv' x = iv x := fun b hb x hx =>
    (hold x ((h.mem b hb x).mp hx).1).1
  have hsorted : ∀ b < 32, (L b).Pairwise (fun x y => iv' y ≤ iv' x) := fun b hb =>
    (h.sorted b hb).imp_of_mem (fun hx hy hxy => by
      rwa [hmem b hb _ hx, hmem b hb _ hy])
  refine ⟨hw, fun b hb x => ?_, fun b hb => ?_, fun x hx => ?_⟩
  · have hne : x ∈ linked → x ≠ e := fun hx hxe => he (hxe ▸ hx)
    have hclass : x ∈ L b ↔ x ∈ linked ∧ b % iv' x = br' x % iv' x := by
      rw [h.mem b hb]
      exact and_congr_right (fun hx => by rw [(hold x hx).1, (hold x hx).2])
    by_cases hxe : x = e
    · subst hxe
      have hL : x ∉ L b := fun hx => he (hclass.mp hx).1
      rw [hiv, hbre]
      split <;> simp_all
    · split
      · rw [mem_schedInsert, List.mem_cons, hclass]
        simp [hxe]
      · rw [List.mem_cons, hclass]
        simp [hxe]
  · split
    · rw [← schedInsert_congr (hmem b hb)]
      exact pairwise_schedInsert (hsorted b hb) hiv
    · exact hsorted b hb
  · rcases List.mem_cons.mp hx with rfl | hx
    · exact ⟨m, hm, hiv⟩
    · rw [(hold x hx).1]
      exact h.interval x hx

end Insert

/-- The interval of each ED, as memory has it. -/
abbrev Ohci.interval (o : Ohci) (e : EdPtr) : ℕ := (o.ed e).intInterval

/-- The base branch of each ED, as memory has it. -/
abbrev Ohci.branch (o : Ohci) (e : EdPtr) : ℕ := (o.ed e).intBranch

/-- What `ep_link` places an ED by: its type and the period asked for. -/
def Ohci.kind (o : Ohci) (e : EdPtr) : PipeType × ℕ := ((o.ed e).type, (o.ed e).intPeriod)

theorem type_eq_of_kind {o o' : Ohci} (h : o'.kind = o.kind) (x : EdPtr) :
    (o'.ed x).type = (o.ed x).type :=
  congrArg Prod.fst (congrFun h x)

/-- **The schedule in memory**: the periodic schedule with the intervals and
branches the EDs carry. -/
def Ohci.Periodic (o : Ohci) (linked : List EdPtr) (L : ℕ → List EdPtr) : Prop :=
  Schedule o.links o.interval o.branch linked L

section LinkInt

variable {o : Ohci} {e : EdPtr} {linked : List EdPtr} {L : ℕ → List EdPtr} {m : ℕ}

/-- A bound on the lengths of the lists. -/
theorem exists_length_le (L : ℕ → List EdPtr) (n : ℕ) : ∃ K, ∀ b < n, (L b).length ≤ K := by
  induction n with
  | zero => exact ⟨0, fun b hb => absurd hb (Nat.not_lt_zero b)⟩
  | succ n ih =>
    obtain ⟨K, hK⟩ := ih
    refine ⟨max K (L n).length, fun b hb => ?_⟩
    rcases Nat.lt_succ_iff_lt_or_eq.mp hb with hb | rfl
    · exact (hK b hb).trans (le_max_left _ _)
    · exact le_max_right _ _

/-- What precedes the loop of the case `INT`: the ED gets its state, its
interval and its branch, and no link but its own is written. -/
theorem epLink_int_eq (ht : (o.ed e).type = .int) {n : ℕ} (hf : 32 < n) :
    ∃ (o₁ : Ohci) (brE : ℕ),
      epLink n o e = linkIntLoop e (ep2nInterval (o.ed e).intPeriod) brE n 0 o₁
      ∧ brE < ep2nInterval (o.ed e).intPeriod
      ∧ o₁.links = o.links.setNext e 0
      ∧ o₁.interval = Function.update o.interval e (ep2nInterval (o.ed e).intPeriod)
      ∧ o₁.branch = Function.update o.branch e brE
      ∧ o₁.edIsotail = o.edIsotail
      ∧ o₁.kind = o.kind := by
  obtain ⟨m, -, hm⟩ := ep2nInterval_eq_two_pow (o.ed e).intPeriod
  have hpos : 0 < ep2nInterval (o.ed e).intPeriod := by
    rw [hm]
    positivity
  obtain ⟨brE, o', hb, hlt, hed, htab, htail⟩ :=
    epIntBallance_eq ((o.modEd e (fun r => { r with state := .edOper, hwNextED := 0 })).modEd e
      (fun r => { r with intInterval := ep2nInterval (o.ed e).intPeriod }))
      (o.ed e).intLoad hpos hf
  refine ⟨o'.modEd e (fun r => { r with intBranch := brE }), brE, ?_, hlt, ?_, ?_, ?_,
    htail, ?_⟩
  · simp only [epLink, linkInt, Ohci.modEd_ed_self, ht, hb, Option.bind_eq_bind,
      Option.bind_some]
  · refine Links.ext htab (funext fun x => ?_)
    by_cases hx : x = e <;> simp [Ohci.links, Ohci.nextED, Links.setNext, Ohci.modEd_ed, hed, hx]
  · funext x
    by_cases hx : x = e <;> simp [Ohci.interval, Ohci.modEd_ed, hed, hx]
  · funext x
    by_cases hx : x = e <;> simp [Ohci.branch, Ohci.modEd_ed, hed, hx]
  · funext x
    by_cases hx : x = e <;> simp [Ohci.kind, Ohci.modEd_ed, hed, hx]

/-- **What `ep_link` does to the periodic schedule** for an interrupt ED:
it terminates, and the ED goes to its place on the lists of its class. -/
theorem Ohci.Periodic.epLink_int (h : o.Periodic linked L) (he0 : e ≠ 0) (he : e ∉ linked)
    (ht : (o.ed e).type = .int) :
    ∃ n o', (∀ fuel ≥ n, epLink fuel o e = some o')
      ∧ o'.interval = Function.update o.interval e (ep2nInterval (o.ed e).intPeriod)
      ∧ o'.branch e < o'.interval e
      ∧ (∀ x, x ≠ e → o'.branch x = o.branch x)
      ∧ o'.edIsotail = o.edIsotail
      ∧ o'.kind = o.kind
      ∧ o'.Periodic (e :: linked) (fun b =>
          if b % o'.interval e = o'.branch e then schedInsert o.interval (o'.interval e) e (L b)
          else L b) := by
  obtain ⟨m, hm, hN⟩ := ep2nInterval_eq_two_pow (o.ed e).intPeriod
  obtain ⟨K, hK⟩ := exists_length_le L 32
  obtain ⟨o₁, brE, heq, hbr, hlinks, hiv, hbranch, htail, hkind⟩ :=
    epLink_int_eq ht (n := K + 66) (by omega)
  rw [hN] at heq hbr hiv
  have hive : o₁.interval e = 2 ^ m := by rw [hiv, Function.update_self]
  have hbre : o₁.branch e = brE := by rw [hbranch, Function.update_self]
  have hne : ∀ x ∈ linked, x ≠ e := fun x hx hxe => he (hxe ▸ hx)
  have hivo : ∀ x ∈ linked, o₁.interval x = o.interval x := fun x hx => by
    rw [hiv, Function.update_of_ne (hne x hx)]
  have hbro : ∀ x, x ≠ e → o₁.branch x = o.branch x := fun x hx => by
    rw [hbranch, Function.update_of_ne hx]
  obtain ⟨k, hk, hinv⟩ := LinkInv.linkIntLoop_eq h hm hbr he0 he hivo hK
    (i := 0) ((Nat.sub_le _ _).trans (two_pow_le m)) (LinkInv.init h he 0)
    (by omega : 32 + K + 1 < K + 66)
  rw [← hlinks, withLinks_links] at hk
  refine ⟨_, o₁.withLinks k, fun fuel hf => epLink_fuelled.le (heq.trans hk) hf, ?_⟩
  refine ⟨hN ▸ hiv, ?_, hbro, htail, hkind, ?_⟩
  · exact lt_of_eq_of_lt hbre (lt_of_lt_of_eq hbr hive.symm)
  · have hsched := h.insert he hm hive (by rw [hbre, Nat.mod_eq_of_lt hbr])
      (fun x hx => ⟨hivo x hx, hbro x (hne x hx)⟩)
      (fun b hb => hinv.final hm hbr hb)
    refine (show Schedule k o₁.interval o₁.branch _ _ from ?_)
    rwa [← hive, ← hbre] at hsched

end LinkInt

/-! ## Schedules of interrupt endpoints alone -/

/-- **The memories reached by `ep_link` calls on interrupt EDs alone**, from
an empty schedule, with the EDs linked so far. -/
inductive IntReachable : Ohci → List EdPtr → Prop
  | empty {o : Ohci} (h : ∀ b < 32, o.intTable b = 0) : IntReachable o []
  | link {o o' : Ohci} {linked : List EdPtr} {fuel : ℕ} {e : EdPtr}
      (h : IntReachable o linked) (he0 : e ≠ 0) (he : e ∉ linked)
      (ht : (o.ed e).type = .int) (hl : epLink fuel o e = some o') :
      IntReachable o' (e :: linked)

/-- `ep_link` for one ED after the other. -/
def linkAll (fuel : ℕ) (o : Ohci) (es : List EdPtr) : Option Ohci := es.foldlM (epLink fuel) o

theorem linkAll_fuelled {o : Ohci} {es : List EdPtr} : Fuelled (fun n => linkAll n o es) :=
  foldlM_fuelled (f := fun n o e => epLink n o e) (fun _ _ => epLink_fuelled)

/-- An empty schedule, with interrupt EDs of the given periods to link. -/
def Ohci.ofPeriods (period : EdPtr → ℕ) : Ohci :=
  { (default : Ohci) with
    ed := fun e => { (default : Ed) with type := .int, intPeriod := period e } }

section Reachable

variable {o : Ohci} {e : EdPtr} {linked : List EdPtr}

/-- An empty table is a schedule of nothing. -/
theorem periodic_nil (h : ∀ b < 32, o.intTable b = 0) : o.Periodic [] (fun _ => []) where
  walk := h
  mem := by simp
  sorted := by simp
  interval := by simp

/-- **Reachable memories hold a schedule**, of interrupt EDs that have their
branches below their intervals. -/
theorem IntReachable.periodic (h : IntReachable o linked) :
    (∃ L, o.Periodic linked L)
      ∧ ∀ x ∈ linked, x ≠ 0 ∧ (o.ed x).type = .int ∧ o.branch x < o.interval x := by
  induction h with
  | empty h => exact ⟨⟨_, periodic_nil h⟩, by simp⟩
  | @link o o' linked fuel e _ he0 he ht hl ih =>
    obtain ⟨⟨L, hL⟩, hx⟩ := ih
    obtain ⟨n, o'', heq, hiv, hbr, hbro, -, hkind, hL'⟩ := hL.epLink_int he0 he ht
    obtain rfl := epLink_fuelled.unique hl (heq n le_rfl)
    refine ⟨⟨_, hL'⟩, fun x hmem => ?_⟩
    rw [type_eq_of_kind hkind]
    rcases List.mem_cons.mp hmem with rfl | hmem
    · exact ⟨he0, ht, hbr⟩
    · have hne : x ≠ e := fun hcon => he (hcon ▸ hmem)
      obtain ⟨hx0, hxt, hxb⟩ := hx x hmem
      refine ⟨hx0, hxt, ?_⟩
      rwa [hbro x hne, hiv, Function.update_of_ne hne]

/-- A run of `ep_link` calls on interrupt EDs reaches what it should. -/
theorem linkAll_intReachable (h : IntReachable o linked) {fuel : ℕ} {es : List EdPtr} {o' : Ohci}
    (hl : linkAll fuel o es = some o') (hnd : (es.reverse ++ linked).Nodup)
    (h0 : ∀ e ∈ es, e ≠ 0) (ht : ∀ e ∈ es, (o.ed e).type = .int) :
    IntReachable o' (es.reverse ++ linked) := by
  induction es generalizing o linked with
  | nil =>
    obtain rfl : o = o' := Option.some.inj hl
    exact h
  | cons e es ih =>
    obtain ⟨o₁, ho₁, hrest⟩ := Option.bind_eq_some_iff.mp hl
    rw [List.reverse_cons, List.append_assoc, List.singleton_append] at hnd ⊢
    have he : e ∉ linked := (List.nodup_cons.mp (List.nodup_append.mp hnd).2.1).1
    have hte : (o.ed e).type = .int := ht e (by simp)
    have h₁ := h.link (h0 e (by simp)) he hte ho₁
    refine ih h₁ hrest hnd (fun x hx => h0 x (by simp [hx])) (fun x hx => ?_)
    obtain ⟨⟨L, hL⟩, -⟩ := h.periodic
    obtain ⟨n, o'', heq, -, -, -, -, hkind, -⟩ := hL.epLink_int (h0 e (by simp)) he hte
    obtain rfl := epLink_fuelled.unique ho₁ (heq n le_rfl)
    rw [type_eq_of_kind hkind]
    exact ht x (by simp [hx])

/-- **`ep_link` of an interrupt ED is exact.** It terminates, the ED has the
interval that its period stands for and a branch below it, and each of
the 32 lists is the old one with the ED inserted once at its place – after
the EDs of at least its interval, before the smaller ones – or, off the
branches of its class, the old one. -/
theorem epLink_int_exact (h : IntReachable o linked) (he0 : e ≠ 0) (he : e ∉ linked)
    (ht : (o.ed e).type = .int) :
    ∃ n o', (∀ fuel ≥ n, epLink fuel o e = some o')
      ∧ o'.interval e = ep2nInterval (o.ed e).intPeriod ∧ o'.branch e < o'.interval e
      ∧ (∀ x, x ≠ e → o'.interval x = o.interval x ∧ o'.branch x = o.branch x)
      ∧ ∀ b < 32, ∃ l,
      Walk o.nextED 0 (o.intTable b) l ∧ e ∉ l
      ∧ if b % o'.interval e = o'.branch e % o'.interval e then
          ∃ l₁ l₂, l = l₁ ++ l₂ ∧ (∀ x ∈ l₁, o'.interval e ≤ o'.interval x)
            ∧ (∀ x ∈ l₂, o'.interval x < o'.interval e)
            ∧ Walk o'.nextED 0 (o'.intTable b) (l₁ ++ e :: l₂)
        else Walk o'.nextED 0 (o'.intTable b) l := by
  obtain ⟨⟨L, hL⟩, -⟩ := h.periodic
  obtain ⟨n, o', heq, hiv, hbr, hbro, -, -, hL'⟩ := hL.epLink_int he0 he ht
  refine ⟨n, o', heq, by rw [hiv, Function.update_self], hbr,
    fun x hx => ⟨by rw [hiv, Function.update_of_ne hx], hbro x hx⟩,
    fun b hb => ⟨L b, hL.walk b hb, ?_, ?_⟩⟩
  · exact fun hx => he ((hL.mem b hb e).mp hx).1
  have hw := hL'.walk b hb
  rw [Nat.mod_eq_of_lt hbr]
  by_cases hc : b % o'.interval e = o'.branch e
  · rw [if_pos hc]
    rw [if_pos hc] at hw
    have hold : ∀ x ∈ L b, o'.interval x = o.interval x := fun x hx => by
      rw [hiv, Function.update_of_ne]
      exact fun hcon => he (hcon ▸ ((hL.mem b hb x).mp hx).1)
    refine ⟨_, _, (List.takeWhile_append_dropWhile).symm, fun x hx => ?_, fun x hx => ?_, hw⟩
    · rw [hold x ((List.takeWhile_sublist _).subset hx)]
      exact le_of_mem_takeWhile hx
    · rw [hold x ((List.dropWhile_sublist _).subset hx)]
      exact lt_of_mem_dropWhile (hL.sorted b hb) hx
  · rw [if_neg hc]
    rwa [if_neg hc] at hw

/-- EDs of the periods 8, 4 and 1. -/
def periods841 (e : EdPtr) : ℕ := if e = 1 then 8 else if e = 3 then 4 else 1

/-- With an ED of period 8 and one of period 1 linked, an ED of period 4 goes between
them on the branches it shares with both, and in front of the one of period 1 on the others
of its class. -/
theorem epLink_int_exact_between :
    ∃ o n o', linkAll 66 (Ohci.ofPeriods periods841) [1, 2] = some o
    ∧ (∀ fuel ≥ n, epLink fuel o 3 = some o') ∧ o'.interval 3 = 4 ∧ o'.branch 3 = 0
    ∧ (Walk o.nextED 0 (o.intTable 0) [1, 2] ∧ Walk o'.nextED 0 (o'.intTable 0) [1, 3, 2])
    ∧ (Walk o.nextED 0 (o.intTable 4) [2] ∧ Walk o'.nextED 0 (o'.intTable 4) [3, 2])
    ∧ Walk o.nextED 0 (o.intTable 1) [2] ∧ Walk o'.nextED 0 (o'.intTable 1) [2] := by
  obtain ⟨o, ho, hobs⟩ :=
    Option.map_eq_some_iff.mp (show (linkAll 66 (Ohci.ofPeriods periods841) [1, 2]).map (fun o =>
    ((o.ed 3).type, (epLink 66 o 3).map (fun o' => o'.branch 3),
      [o.intTable 0, o.intTable 4, o.intTable 1, o.nextED 1,
      o.nextED 2, o.interval 1, o.interval 2, (o.ed 3).intPeriod]))
        = some (.int, some 0, [1, 2, 2, 2, 0, 8, 1, 4]) by
    decide +kernel)
  simp only [Prod.mk.injEq, List.cons.injEq] at hobs
  obtain ⟨htype, hbranch, h0, h4, h1, hn1, hn2, hi1, hi2, hperiod, -⟩ := hobs
  have hreach : IntReachable o [2, 1] :=
    linkAll_intReachable (.empty fun _ _ => rfl) ho (by decide) (by decide) (fun _ _ => rfl)
  obtain ⟨n, o', heq, hiv, -, hother, hlists⟩ :=
    epLink_int_exact (e := 3) hreach (by decide) (by decide) htype
  have hb : o'.branch 3 = 0 := by
    obtain ⟨o'', ho'', hb⟩ := Option.map_eq_some_iff.mp hbranch
    rw [epLink_fuelled.unique (heq n le_rfl) ho'']
    exact hb
  have hiv4 : o'.interval 3 = 4 := by
    rw [hiv, hperiod]
    rfl
  have hi1' : o'.interval 1 = 8 := by rw [(hother 1 (by decide)).1, hi1]
  have hi2' : o'.interval 2 = 1 := by rw [(hother 2 (by decide)).1, hi2]
  have hw0 : Walk o.nextED 0 (o.intTable 0) [1, 2] := ⟨h0, by decide, hn1, by decide, hn2⟩
  have hw4 : Walk o.nextED 0 (o.intTable 4) [2] := ⟨h4, by decide, hn2⟩
  have hw1 : Walk o.nextED 0 (o.intTable 1) [2] := ⟨h1, by decide, hn2⟩
  refine ⟨o, n, o', ho, heq, hiv4, hb, ⟨hw0, ?_⟩, ⟨hw4, ?_⟩, hw1, ?_⟩
  · obtain ⟨l, hl, -, hw⟩ := hlists 0 (by decide)
    rw [hiv4, hb, if_pos rfl] at hw
    obtain ⟨l₁, l₂, rfl, hfront, hbehind, hw⟩ := hw
    obtain heq := hl.unique hw0
    match l₁, heq with
    | [], heq =>
      have h := hbehind 1 (by rw [← List.nil_append l₂, heq]; decide)
      rw [hi1'] at h
      exact absurd h (by decide)
    | [x], heq =>
      obtain ⟨rfl, rfl⟩ : x = 1 ∧ l₂ = [2] := by simpa using heq
      exact hw
    | x :: y :: l₁, heq =>
      obtain ⟨-, rfl, -⟩ : x = 1 ∧ y = 2 ∧ l₁ ++ l₂ = [] := by simpa using heq
      have h := hfront 2 (by simp)
      rw [hi2'] at h
      exact absurd h (by decide)
  · obtain ⟨l, hl, -, hw⟩ := hlists 4 (by decide)
    rw [hiv4, hb, if_pos rfl] at hw
    obtain ⟨l₁, l₂, rfl, hfront, hbehind, hw⟩ := hw
    obtain heq := hl.unique hw4
    match l₁, heq with
    | [], heq =>
      obtain rfl : l₂ = [2] := heq
      exact hw
    | x :: l₁, heq =>
      obtain ⟨rfl, -⟩ : x = 2 ∧ l₁ ++ l₂ = [] := by simpa using heq
      have h := hfront 2 (by simp)
      rw [hi2'] at h
      exact absurd h (by decide)
  · obtain ⟨l, hl, -, hw⟩ := hlists 1 (by decide)
    rw [hiv4, hb, if_neg (by decide)] at hw
    rwa [hl.unique hw1] at hw

end Reachable
