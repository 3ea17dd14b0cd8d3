import SideDumper.ScheduleLink

/-!
# Interrupt and isochronous endpoints in one schedule

Isochronous EDs have interval 1: they belong on all 32 lists, behind
everything else. The first one is put there by a loop like that of interrupt
EDs (`linkIsoLoop_eq`); for the others `ep_link` follows `ed_isotail` and
writes the link of the isochronous ED linked last.

The two kinds disagree about what is last. An interrupt ED of interval 1 goes
behind all EDs of interval 1, so behind the isochronous ones, and the next
isochronous ED then overwrites the link that leads to it. What is linked is
reachable, after any sequence of links, exactly when this has not happened
(`linkAll_coexist_iff`).
-/

variable {k : Links} {iv br iv' br' : EdPtr → ℕ} {linked es : List EdPtr}
variable {L : ℕ → List EdPtr} {e t i : ℕ} {o o' : Ohci}

/-! ## The first isochronous endpoint -/

/-- No interval is zero. -/
theorem Schedule.one_le (h : Schedule k iv br linked L) {b x : ℕ} (hb : b < 32)
    (hx : x ∈ L b) : 1 ≤ iv x := by
  obtain ⟨q, -, hq⟩ := h.interval x ((h.mem b hb x).mp hx).1
  rw [hq]
  exact Nat.one_le_two_pow

/-- Interval 1 comes last. -/
theorem Schedule.schedInsert_one (h : Schedule k iv br linked L) {b : ℕ} (hb : b < 32) :
    schedInsert iv 1 e (L b) = L b ++ [e] := by
  have heq : schedInsert iv 1 e (L b ++ []) = L b ++ e :: [] :=
    schedInsert_eq (fun x hx => h.one_le hb hx) (by simp)
  rwa [List.append_nil] at heq

namespace LinkInv

variable {k' : Links} (h : Schedule k iv br linked L) (he0 : e ≠ 0) (he : e ∉ linked)

include h

/-- An ED put at the end of the lists has no successor. -/
theorem next_eq_zero (inv : LinkInv k' iv L e 0 0 i) (hi : 0 < i) : k'.next e = 0 := by
  have h32 := inv.bound
  have hw := inv.done 0 hi
  rw [pow_zero, h.schedInsert_one (visit_lt (k := 0) (by omega) (by simp) (by simp))] at hw
  exact hw.drop.2.2

include he0 he

/-- **The loop of the case `ISO`** terminates and puts the ED at the end of
all lists. The link of the ED itself stays null, so that the loop, which
never writes it, does what the loop for an interrupt ED of interval 1
would. -/
theorem linkIsoLoop_eq {K : ℕ} (ho : ∀ x ∈ linked, (o.ed x).intInterval = iv x)
    (hK : ∀ b < 32, (L b).length ≤ K) {d : ℕ} :
    ∀ {i n : ℕ} {k' : Links}, 32 - i ≤ d → LinkInv k' iv L e 0 0 i → k'.next e = 0 →
      d + K + 1 < n →
      ∃ k'', linkIsoLoop e n i (o.withLinks k') = some (o.withLinks k'')
        ∧ LinkInv k'' iv L e 0 0 32 := by
  -- on the number of indices left: a stride is at least one
  induction d with
  | zero =>
    intro i n k' hd inv _ hf
    obtain ⟨n, rfl⟩ := Nat.exists_eq_succ_of_ne_zero (by omega : n ≠ 0)
    have hb := inv.bound
    simp only [Nat.sub_zero, Nat.reducePow] at hb
    refine ⟨k', ?_, (by omega : i = 32) ▸ inv⟩
    rw [linkIsoLoop, if_neg (by omega)]
  | succ d ih =>
    intro i n k' hd inv hnext hf
    obtain ⟨n, rfl⟩ := Nat.exists_eq_succ_of_ne_zero (by omega : n ≠ 0)
    have hb := inv.bound
    simp only [Nat.sub_zero, Nat.reducePow] at hb
    by_cases hi : i < 32
    · obtain ⟨c, inter, hinter, hwalk, hget, hinv⟩ :=
        pass h (m := 0) (by omega) (by simp) he0 he inv hi
      have hlt : visit 0 i < 32 := visit_lt (k := 0) (by omega) (by simp) hi
      have hlen := hK _ hlt
      have hstop := hwalk o (fun _ => true) n ho (fun x hx => ?_) (by omega)
      · have hz : k'.get c = 0 := by
          have hall : ∀ x ∈ L (visit 0 i), 1 ≤ iv x := fun x hx => h.one_le hlt hx
          rw [hget, pow_zero, List.dropWhile_eq_nil_iff.mpr (by simpa using hall)]
          rfl
        have hsame : k'.setNext e (k'.get c) = k' := by
          rw [hz]
          exact Links.ext rfl (by rw [← hnext]; exact Function.update_eq_self e k'.next)
        rw [hsame] at hinv
        obtain ⟨k'', hk, hfin⟩ := ih (i := i + inter) (n := n) (by omega) hinv
          (hinv.next_eq_zero h (by omega)) (by omega)
        refine ⟨k'', ?_, hfin⟩
        rw [linkIsoLoop, if_pos hi]
        simp only [visit, Nat.add_zero] at hstop
        simp only [hstop, Option.bind_eq_bind, Option.bind_some, withLinks_set]
        exact hk
      · obtain ⟨q, -, hq⟩ := h.interval x hx
        simpa [hq] using Nat.one_le_two_pow
    · refine ⟨k', ?_, (by omega : i = 32) ▸ inv⟩
      rw [linkIsoLoop, if_neg hi]

end LinkInv

/-! ## The isochronous endpoints after it -/

/-- **Cutting a schedule behind `t` and putting an ED there**: what stood
behind `t` is off all lists. -/
theorem Schedule.relink {p : ℕ → List EdPtr} {behind : List EdPtr}
    (h : Schedule k iv br linked L) (he0 : e ≠ 0) (he : e ∉ linked)
    (ht : ∀ b < 32, L b = p b ++ t :: behind) (hiv : iv' e = 1)
    (hold : ∀ x ∈ linked, iv' x = iv x ∧ br' x = br x) :
    Schedule ((k.setNext e 0).setNext t e) iv' br' (e :: linked.filter (· ∉ behind))
      (fun b => p b ++ [t, e]) := by
  have hmem : ∀ b < 32, ∀ x, x ∈ p b ++ [t] ↔ x ∈ L b ∧ x ∉ behind := by
    intro b hb x
    have hnd := h.nodup hb
    rw [ht b hb, List.append_cons (p b) t behind] at hnd
    rw [ht b hb, List.append_cons (p b) t behind, List.mem_append (t := behind)]
    constructor
    · intro hx
      exact ⟨.inl hx, fun hcon => (List.nodup_append.mp hnd).2.2 x hx x hcon rfl⟩
    · rintro ⟨hx | hx, hnot⟩
      · exact hx
      · exact absurd hx hnot
  have hlinked : ∀ b < 32, ∀ x ∈ L b, x ∈ linked := fun b hb x hx => ((h.mem b hb x).mp hx).1
  have hcut : ∀ b < 32, ∀ x ∈ p b ++ [t], x ∈ L b := fun b hb x hx => ((hmem b hb x).mp hx).1
  constructor
  · intro b hb
    have hw : Walk (Function.update k.next e 0) 0 (k.table b) (L b) :=
      (h.walk b hb).update_of_notMem (fun hx => he (hlinked b hb e hx))
    have het : e ≠ t := fun hcon => he (hlinked b hb e (by rw [ht b hb, hcon]; simp))
    rw [ht b hb] at hw
    refine hw.relink ⟨rfl, he0, ?_⟩
    rw [Function.update_of_ne het, Function.update_self]
    exact rfl
  · intro b hb x
    by_cases hxe : x = e
    · subst hxe
      simp [hiv, Nat.mod_one]
    · have hx : x ∈ p b ++ [t, e] ↔ x ∈ p b ++ [t] := by simp [hxe]
      rw [hx, hmem b hb, h.mem b hb]
      simp only [List.mem_cons, List.mem_filter, hxe, false_or, decide_eq_true_eq]
      constructor
      · rintro ⟨⟨hxl, hc⟩, hnot⟩
        rw [(hold x hxl).1, (hold x hxl).2]
        exact ⟨⟨hxl, hnot⟩, hc⟩
      · rintro ⟨⟨hxl, hnot⟩, hc⟩
        rw [(hold x hxl).1, (hold x hxl).2] at hc
        exact ⟨⟨hxl, hc⟩, hnot⟩
  · intro b hb
    have hs := h.sorted b hb
    rw [ht b hb, List.append_cons, List.pairwise_append] at hs
    rw [List.append_cons (p b) t [e], List.pairwise_append]
    refine ⟨hs.1.imp_of_mem (fun hx hy hxy => ?_), by simp, fun x hx y hy => ?_⟩
    · rwa [(hold _ (hlinked b hb _ (hcut b hb _ hx))).1,
        (hold _ (hlinked b hb _ (hcut b hb _ hy))).1]
    · rw [List.mem_singleton.mp hy, hiv, (hold x (hlinked b hb x (hcut b hb x hx))).1]
      exact h.one_le hb (hcut b hb x hx)
  · intro x hx
    rcases List.mem_cons.mp hx with rfl | hx
    · exact ⟨0, by omega, hiv⟩
    · have hxl := (List.mem_filter.mp hx).1
      rw [(hold x hxl).1]
      exact h.interval x hxl

/-- What precedes the case `ISO` of `ep_link`, and what follows its loop. -/
theorem epLink_iso_eq (ht : (o.ed e).type = .iso) :
    ∃ o₁ : Ohci, (∀ fuel, epLink fuel o e
        = (linkIsoAt fuel o₁ e).map (fun o => { o with edIsotail := e }))
      ∧ o₁.links = o.links.setNext e 0
      ∧ o₁.interval = Function.update o.interval e 1
      ∧ o₁.branch = o.branch
      ∧ o₁.edIsotail = o.edIsotail
      ∧ o₁.kind = o.kind := by
  refine ⟨(o.modEd e (fun r => { r with state := .edOper, hwNextED := 0 })).modEd e
      (fun r => { r with intInterval := 1 }), fun fuel => ?_, Links.ext rfl (funext fun x => ?_),
    funext fun x => ?_, funext fun x => ?_, rfl, funext fun x => ?_⟩
  · simp only [epLink, linkIso, Ohci.modEd_ed_self, ht, Option.bind_eq_bind]
    exact Option.map_eq_bind.symm
  · by_cases hx : x = e <;> simp [Ohci.links, Ohci.nextED, Links.setNext, Ohci.modEd_ed, hx]
  · by_cases hx : x = e <;> simp [Ohci.interval, Ohci.modEd_ed, hx]
  · by_cases hx : x = e <;> simp [Ohci.branch, Ohci.modEd_ed, hx]
  · by_cases hx : x = e <;> simp [Ohci.kind, Ohci.modEd_ed, hx]

/-- The back link of an ED is no part of the schedule. -/
theorem modEd_edPrev_links (x v : EdPtr) :
    (o.modEd x (fun r => { r with edPrev := v })).links = o.links
      ∧ (o.modEd x (fun r => { r with edPrev := v })).interval = o.interval
      ∧ (o.modEd x (fun r => { r with edPrev := v })).branch = o.branch
      ∧ (o.modEd x (fun r => { r with edPrev := v })).kind = o.kind := by
  refine ⟨Links.ext rfl (funext fun y => ?_), funext fun y => ?_, funext fun y => ?_,
    funext fun y => ?_⟩
  all_goals
    by_cases hy : y = x <;> simp [Ohci.links, Ohci.nextED, Ohci.interval, Ohci.branch, Ohci.kind,
      Ohci.modEd_ed, hy]

/-- A schedule is about the 32 lists there are. -/
theorem Schedule.congr {L' : ℕ → List EdPtr} (h : Schedule k iv br linked L)
    (hL : ∀ b < 32, L' b = L b) : Schedule k iv br linked L' where
  walk := fun b hb => hL b hb ▸ h.walk b hb
  mem := fun b hb => hL b hb ▸ h.mem b hb
  sorted := fun b hb => hL b hb ▸ h.sorted b hb
  interval := h.interval

section LinkIso

variable (h : o.Periodic linked L) (he0 : e ≠ 0) (he : e ∉ linked) (ht : (o.ed e).type = .iso)

include h he0 he ht

/-- **`ep_link` of the first isochronous ED** puts it at the end of all
lists. -/
theorem Ohci.Periodic.epLink_iso_first (htail : o.edIsotail = 0) :
    ∃ n o', (∀ fuel ≥ n, epLink fuel o e = some o')
      ∧ o'.interval = Function.update o.interval e 1
      ∧ o'.edIsotail = e ∧ o'.kind = o.kind
      ∧ o'.Periodic (e :: linked) (fun b => L b ++ [e]) := by
  obtain ⟨K, hK⟩ := exists_length_le L 32
  obtain ⟨o₁, heq, hlinks, hiv, hbr, htail₁, hkind⟩ := epLink_iso_eq ht
  have hne : ∀ x ∈ linked, x ≠ e := fun x hx hxe => he (hxe ▸ hx)
  have hivo : ∀ x ∈ linked, o₁.interval x = o.interval x := fun x hx => by
    rw [hiv, Function.update_of_ne (hne x hx)]
  obtain ⟨k, hk, hinv⟩ := LinkInv.linkIsoLoop_eq h he0 he hivo hK (i := 0) (Nat.sub_le _ _)
    (LinkInv.init h he 0) (by simp [Links.setNext]) (by omega : 32 + K + 1 < K + 34)
  rw [← hlinks, withLinks_links] at hk
  have hrun : epLink (K + 34) o e = some { (o₁.withLinks k).modEd e
      (fun r => { r with edPrev := 0 }) with edIsotail := e } := by
    rw [heq, linkIsoAt, if_neg (by simp [htail₁, htail]), hk]
    rfl
  obtain ⟨hlinks', hiv', hbr', hkind'⟩ := modEd_edPrev_links (o := o₁.withLinks k) e 0
  refine ⟨_, _, fun fuel hf => epLink_fuelled.le hrun hf, hiv'.trans hiv, rfl,
    hkind'.trans hkind, ?_⟩
  have hive : o₁.interval e = 2 ^ 0 := by rw [hiv, Function.update_self, pow_zero]
  have hsched := h.insert he (by omega) hive (Nat.mod_one _)
    (fun x hx => ⟨hivo x hx, congrFun hbr x⟩) (fun b hb => hinv.final (by omega) (by simp) hb)
  rw [← links_withLinks o₁ k, ← hlinks'] at hsched
  have hsched' : Ohci.Periodic { (o₁.withLinks k).modEd e
      (fun r => { r with edPrev := 0 }) with edIsotail := e } _ _ :=
    (hiv' ▸ hbr' ▸ hsched :)
  refine Schedule.congr hsched' (fun b hb => ?_)
  rw [pow_zero, if_pos (Nat.mod_one b), h.schedInsert_one hb]

/-- **`ep_link` of a further isochronous ED** cuts all lists behind the last
one and puts it there. -/
theorem Ohci.Periodic.epLink_iso_next {p : ℕ → List EdPtr} {behind : List EdPtr}
    (htail : o.edIsotail = t) (ht0 : t ≠ 0) (hL : ∀ b < 32, L b = p b ++ t :: behind) :
    ∃ n o', (∀ fuel ≥ n, epLink fuel o e = some o')
      ∧ o'.interval = Function.update o.interval e 1
      ∧ o'.edIsotail = e ∧ o'.kind = o.kind
      ∧ o'.Periodic (e :: linked.filter (· ∉ behind)) (fun b => p b ++ [t, e]) := by
  obtain ⟨o₁, heq, hlinks, hiv, hbr, htail₁, hkind⟩ := epLink_iso_eq ht
  have hne : ∀ x ∈ linked, x ≠ e := fun x hx hxe => he (hxe ▸ hx)
  have hivo : ∀ x ∈ linked, o₁.interval x = o.interval x := fun x hx => by
    rw [hiv, Function.update_of_ne (hne x hx)]
  have hwrite : o₁.modEd t (fun r => { r with hwNextED := e })
      = o₁.withLinks ((o.links.setNext e 0).setNext t e) := by
    rw [← hlinks, ← withLinks_modEd_next, withLinks_links]
  have hrun : ∀ fuel, epLink fuel o e
      = some { (o₁.withLinks ((o.links.setNext e 0).setNext t e)).modEd e
          (fun r => { r with edPrev := t }) with edIsotail := e } := fun fuel => by
    rw [heq, linkIsoAt, htail₁, htail, if_pos ht0]
    simp only [hwrite, Option.map_some]
  obtain ⟨hlinks', hiv', hbr', hkind'⟩ :=
    modEd_edPrev_links (o := o₁.withLinks ((o.links.setNext e 0).setNext t e)) e t
  refine ⟨0, _, fun fuel _ => hrun fuel, hiv'.trans hiv, rfl, hkind'.trans hkind, ?_⟩
  have hsched := Schedule.relink h he0 he hL (by rw [hiv, Function.update_self])
    (fun x hx => ⟨hivo x hx, congrFun hbr x⟩)
  rw [← links_withLinks o₁ ((o.links.setNext e 0).setNext t e), ← hlinks'] at hsched
  exact (hiv' ▸ hbr' ▸ hsched :)

end LinkIso

/-! ## Runs of both kinds -/

/-- An interrupt ED of interval 1, which goes behind all others. -/
def Ohci.everyFrame (o : Ohci) (e : EdPtr) : Prop :=
  (o.ed e).type = .int ∧ ep2nInterval (o.ed e).intPeriod = 1

/-- An interrupt ED of interval 1 is linked after an isochronous ED. -/
def Covered (o : Ohci) (es : List EdPtr) : Prop :=
  ∃ a b, [a, b].Sublist es ∧ (o.ed a).type = .iso ∧ o.everyFrame b

/-- **No isochronous ED is linked after an interrupt ED of interval 1 that
was itself linked after an isochronous ED.** -/
def NeverOverwritten (o : Ohci) (es : List EdPtr) : Prop :=
  ¬ ∃ a b c, [a, b, c].Sublist es ∧ (o.ed a).type = .iso ∧ o.everyFrame b ∧ (o.ed c).type = .iso

/-- **Both kinds coexist**: the lists end, an isochronous ED is on all of
them and an interrupt ED on those of its class. -/
def Coexist (o : Ohci) (es : List EdPtr) : Prop :=
  ∀ b < 32, ∃ l, Walk o.nextED 0 (o.intTable b) l ∧ ∀ e ∈ es,
    ((o.ed e).type = .iso → e ∈ l)
    ∧ ((o.ed e).type = .int → (e ∈ l ↔ b % o.interval e = o.branch e % o.interval e))

/-- The interval `ep_link` gives an ED. -/
def Ohci.intervalFor (o : Ohci) (e : EdPtr) : ℕ :=
  if (o.ed e).type = .iso then 1 else ep2nInterval (o.ed e).intPeriod

theorem sublist_concat_iff {α : Type*} {p q : List α} {b c : α} :
    (p ++ [b]).Sublist (q ++ [c]) ↔ (p ++ [b]).Sublist q ∨ (b = c ∧ p.Sublist q) := by
  rw [List.sublist_append_iff]
  constructor
  · rintro ⟨l₁, l₂, hl, h₁, h₂⟩
    rcases List.sublist_singleton.mp h₂ with rfl | rfl
    · exact .inl (by simpa [hl] using h₁)
    · obtain ⟨rfl, hbc⟩ := List.append_inj' hl rfl
      exact .inr ⟨by simpa using hbc, h₁⟩
  · rintro (h | ⟨rfl, h⟩)
    · exact ⟨p ++ [b], [], by simp, h, by simp⟩
    · exact ⟨p, [b], rfl, h, by simp⟩

section Condition

variable {c : EdPtr}

theorem covered_concat : Covered o (es ++ [c])
    ↔ Covered o es ∨ (o.everyFrame c ∧ ∃ a ∈ es, (o.ed a).type = .iso) := by
  constructor
  · rintro ⟨a, b, hs, ha, hb⟩
    rcases (sublist_concat_iff (p := [a])).mp hs with hs' | ⟨rfl, hs'⟩
    · exact .inl ⟨a, b, hs', ha, hb⟩
    · exact .inr ⟨hb, a, List.singleton_sublist.mp hs', ha⟩
  · rintro (⟨a, b, hs, ha, hb⟩ | ⟨hc, a, ha, hat⟩)
    · exact ⟨a, b, (sublist_concat_iff (p := [a])).mpr (.inl hs), ha, hb⟩
    · refine ⟨a, c, (sublist_concat_iff (p := [a])).mpr (.inr ⟨rfl, ?_⟩), hat, hc⟩
      exact List.singleton_sublist.mpr ha

theorem neverOverwritten_concat : NeverOverwritten o (es ++ [c])
    ↔ NeverOverwritten o es ∧ ((o.ed c).type = .iso → ¬ Covered o es) := by
  constructor
  · refine fun h => ⟨?_, ?_⟩
    · rintro ⟨x, y, z, hs, hxyz⟩
      exact h ⟨x, y, z, (sublist_concat_iff (p := [x, y])).mpr (.inl hs), hxyz⟩
    · rintro hc ⟨x, y, hs, hx, hy⟩
      exact h ⟨x, y, c, (sublist_concat_iff (p := [x, y])).mpr (.inr ⟨rfl, hs⟩), hx, hy, hc⟩
  · rintro ⟨h, hc⟩ ⟨x, y, z, hs, hx, hy, hz⟩
    rcases (sublist_concat_iff (p := [x, y])).mp hs with hs' | ⟨rfl, hs'⟩
    · exact h ⟨x, y, z, hs', hx, hy, hz⟩
    · exact hc hz ⟨x, y, hs', hx, hy⟩

end Condition

/-- **The invariant of a run** that began in `o₀` and has linked `es`.
`linked` is what is still on the schedule, and `behind` is what stands
behind the isochronous ED linked last. -/
structure MixedInv (o₀ o : Ohci) (es linked behind : List EdPtr) (L : ℕ → List EdPtr) :
    Prop where
  periodic : o.Periodic linked L
  kind : o.kind = o₀.kind
  interval : ∀ x ∈ es, o.interval x = o₀.intervalFor x
  sub : ∀ x ∈ linked, x ∈ es
  all : (∀ x ∈ es, x ∈ linked) ↔ NeverOverwritten o₀ es
  tail : (o.edIsotail = 0 ∧ behind = [] ∧ ∀ x ∈ es, (o₀.ed x).type ≠ .iso)
    ∨ (o.edIsotail ≠ 0 ∧ o.edIsotail ∈ es ∧ (o₀.ed o.edIsotail).type = .iso
      ∧ ∃ p : ℕ → List EdPtr, ∀ b < 32, L b = p b ++ o.edIsotail :: behind)
  covered : NeverOverwritten o₀ es → (behind ≠ [] ↔ Covered o₀ es)

/-- Inserting an ED of a larger interval than `t` leaves the list from `t`
on alone. -/
theorem schedInsert_append {N : ℕ} {p r : List EdPtr} (ht : iv t < N) :
    schedInsert iv N e (p ++ t :: r) = schedInsert iv N e p ++ t :: r := by
  have hnot : ¬ N ≤ iv t := by omega
  induction p with
  | nil => simp [schedInsert, hnot]
  | cons a p ih =>
    by_cases ha : N ≤ iv a
    · simpa [schedInsert, ha] using ih
    · simp [schedInsert, ha]

namespace MixedInv

variable {o₀ : Ohci} {behind : List EdPtr}

/-- Before the first link. -/
theorem init (h : ∀ b < 32, o.intTable b = 0) (htail : o.edIsotail = 0) :
    MixedInv o o [] [] [] (fun _ => []) where
  periodic := periodic_nil h
  kind := rfl
  interval := by simp
  sub := by simp
  all := by simp [NeverOverwritten]
  tail := .inl ⟨htail, rfl, by simp⟩
  covered := by simp [Covered]

variable (h : MixedInv o₀ o es linked behind L) (he0 : e ≠ 0) (he : e ∉ es)

include h he0 he

omit he0 in
/-- The intervals after one link more. -/
theorem interval_append (hiv : o'.interval = Function.update o.interval e (o₀.intervalFor e)) :
    ∀ x ∈ es ++ [e], o'.interval x = o₀.intervalFor x := by
  intro x hx
  rw [hiv]
  rcases List.mem_append.mp hx with hx | hx
  · have hxe : x ≠ e := fun hcon => he (hcon ▸ hx)
    rw [Function.update_of_ne hxe, h.interval x hx]
  · rw [List.mem_singleton.mp hx, Function.update_self]

omit he0 in
/-- What a step that keeps all linked EDs has to show. -/
theorem extend {behind' : List EdPtr} {L' : ℕ → List EdPtr} (hper : o'.Periodic (e :: linked) L')
    (hkind : o'.kind = o.kind)
    (hiv : o'.interval = Function.update o.interval e (o₀.intervalFor e))
    (hnever : NeverOverwritten o₀ (es ++ [e]) ↔ NeverOverwritten o₀ es)
    (htail : (o'.edIsotail = 0 ∧ behind' = [] ∧ ∀ x ∈ es ++ [e], (o₀.ed x).type ≠ .iso)
      ∨ (o'.edIsotail ≠ 0 ∧ o'.edIsotail ∈ es ++ [e] ∧ (o₀.ed o'.edIsotail).type = .iso
        ∧ ∃ p : ℕ → List EdPtr, ∀ b < 32, L' b = p b ++ o'.edIsotail :: behind'))
    (hcov : NeverOverwritten o₀ es → (behind' ≠ [] ↔ Covered o₀ (es ++ [e]))) :
    MixedInv o₀ o' (es ++ [e]) (e :: linked) behind' L' := by
  refine ⟨hper, hkind.trans h.kind, h.interval_append he hiv, fun x hx => ?_, ?_, htail,
    fun hno => hcov (hnever.mp hno)⟩
  · rcases List.mem_cons.mp hx with rfl | hx
    · simp
    · simp [h.sub x hx]
  · rw [hnever, ← h.all]
    constructor
    · intro hall x hx
      have hxe : x ≠ e := fun hcon => he (hcon ▸ hx)
      simpa [hxe] using hall x (by simp [hx])
    · intro hall x hx
      rcases List.mem_append.mp hx with hx | hx
      · simp [hall x hx]
      · simp [List.mem_singleton.mp hx]

/-- **Linking an interrupt ED** loses nothing; if its interval is 1 it now
stands behind the isochronous EDs. -/
theorem link_int (ht : (o₀.ed e).type = .int) :
    ∃ n o', (∀ fuel ≥ n, epLink fuel o e = some o') ∧
      ∃ linked' behind' L', MixedInv o₀ o' (es ++ [e]) linked' behind' L' := by
  have hel : e ∉ linked := fun hx => he (h.sub e hx)
  have ht' : (o.ed e).type = .int := by rwa [type_eq_of_kind h.kind]
  have hper : (o.ed e).intPeriod = (o₀.ed e).intPeriod :=
    congrArg Prod.snd (congrFun h.kind e)
  have hfor : o₀.intervalFor e = ep2nInterval (o.ed e).intPeriod := by
    rw [hper, Ohci.intervalFor, if_neg (by simp [ht])]
  obtain ⟨n, o', heq, hiv, hbr, -, htail, hkind, hL'⟩ := h.periodic.epLink_int he0 hel ht'
  rw [← hfor] at hiv
  have hive : o'.interval e = o₀.intervalFor e := by rw [hiv, Function.update_self]
  have hcov : Covered o₀ (es ++ [e]) ↔ _ := covered_concat
  have hframe : o₀.everyFrame e ↔ o'.interval e = 1 := by
    rw [hive, Ohci.intervalFor, if_neg (by simp [ht]), Ohci.everyFrame]
    simp [ht]
  have hnever : NeverOverwritten o₀ (es ++ [e]) ↔ NeverOverwritten o₀ es := by
    rw [neverOverwritten_concat, and_iff_left]
    simp [ht]
  refine ⟨n, o', heq, e :: linked, ?_⟩
  rcases h.tail with ⟨ht0, hb, hno⟩ | ⟨ht0, hte, hti, p, hp⟩
  · -- there is no isochronous ED yet
    refine ⟨behind, _, h.extend he hL' hkind hiv hnever (.inl ⟨htail.trans ht0, hb, ?_⟩) ?_⟩
    · intro x hx
      rcases List.mem_append.mp hx with hx | hx
      · exact hno x hx
      · simp [List.mem_singleton.mp hx, ht]
    · intro hnv
      rw [h.covered hnv, hcov, or_iff_left]
      rintro ⟨-, a, ha, hat⟩
      exact hno a ha hat
  have htmem : o'.edIsotail ∈ es ++ [e] := by simp [htail, hte]
  by_cases hN : o'.interval e = 1
  · -- it goes behind everything
    refine ⟨behind ++ [e], _, h.extend he hL' hkind hiv hnever
      (.inr ⟨htail ▸ ht0, htmem, htail ▸ hti, p, fun b hb => ?_⟩) (fun _ => ?_)⟩
    · have hbr0 : o'.branch e = 0 := by omega
      rw [hN, hbr0, if_pos (Nat.mod_one b), h.periodic.schedInsert_one hb, hp b hb, htail]
      simp
    · rw [hcov]
      exact iff_of_true (by simp) (.inr ⟨hframe.mpr hN, _, hte, hti⟩)
  · -- it goes before the isochronous EDs
    have hlt : o.interval o.edIsotail < o'.interval e := by
      rw [h.interval _ hte, Ohci.intervalFor, if_pos hti]
      obtain ⟨q, -, hq⟩ := hL'.interval e (by simp)
      have hpos : 0 < o'.interval e := by
        rw [hq]
        positivity
      omega
    refine ⟨behind, _, h.extend he hL' hkind hiv hnever (.inr ⟨htail ▸ ht0, htmem, htail ▸ hti,
      fun b => if b % o'.interval e = o'.branch e
        then schedInsert o.interval (o'.interval e) e (p b) else p b, fun b hb => ?_⟩)
      (fun hnv => ?_)⟩
    · dsimp only
      rw [hp b hb, htail]
      split
      · exact schedInsert_append hlt
      · rfl
    · rw [h.covered hnv, hcov, or_iff_left]
      exact fun hcon => hN (hframe.mp hcon.1)

/-- **Linking an isochronous ED** loses what stands behind the one linked
before. -/
theorem link_iso (ht : (o₀.ed e).type = .iso) :
    ∃ n o', (∀ fuel ≥ n, epLink fuel o e = some o') ∧
      ∃ linked' behind' L', MixedInv o₀ o' (es ++ [e]) linked' behind' L' := by
  have hel : e ∉ linked := fun hx => he (h.sub e hx)
  have ht' : (o.ed e).type = .iso := by rwa [type_eq_of_kind h.kind]
  have hfor : o₀.intervalFor e = 1 := by rw [Ohci.intervalFor, if_pos ht]
  have hcov : Covered o₀ (es ++ [e]) ↔ Covered o₀ es := by
    rw [covered_concat, or_iff_left]
    simp [Ohci.everyFrame, ht]
  have hnev : NeverOverwritten o₀ (es ++ [e]) ↔ NeverOverwritten o₀ es ∧ ¬ Covered o₀ es := by
    rw [neverOverwritten_concat]
    simp [ht]
  rcases h.tail with ⟨ht0, rfl, hno⟩ | ⟨ht0, hte, hti, p, hp⟩
  · -- the first one
    have hnot : ¬ Covered o₀ es := by
      rintro ⟨a, b, hs, ha, -⟩
      exact hno a (hs.subset (by simp)) ha
    obtain ⟨n, o', heq, hiv, htail, hkind, hL'⟩ := h.periodic.epLink_iso_first he0 hel ht' ht0
    rw [← hfor] at hiv
    refine ⟨n, o', heq, e :: linked, [], _, h.extend he hL' hkind hiv ?_
      (.inr ⟨htail ▸ he0, by simp [htail], htail ▸ ht, L, fun b hb => by rw [htail]⟩) ?_⟩
    · rw [hnev, and_iff_left hnot]
    · intro _
      rw [hcov]
      exact iff_of_false (by simp) hnot
  · obtain ⟨n, o', heq, hiv, htail, hkind, hL'⟩ :=
      h.periodic.epLink_iso_next he0 hel ht' rfl ht0 hp
    rw [← hfor] at hiv
    refine ⟨n, o', heq, _, [], _, hL', hkind.trans h.kind, h.interval_append he hiv,
      fun x hx => ?_, ?_,
      .inr ⟨htail ▸ he0, by simp [htail], htail ▸ ht, fun b => p b ++ [o.edIsotail],
        fun b hb => by simp [htail]⟩, fun hnv => ?_⟩
    · rcases List.mem_cons.mp hx with rfl | hx
      · simp
      · simp [h.sub x (List.mem_filter.mp hx).1]
    · rw [hnev]
      constructor
      · intro hall
        have hkeep : ∀ x ∈ es, x ∈ linked ∧ x ∉ behind := fun x hx => by
          have hxe : x ≠ e := fun hcon => he (hcon ▸ hx)
          simpa [hxe] using hall x (by simp [hx])
        have hnv := h.all.mp (fun x hx => (hkeep x hx).1)
        refine ⟨hnv, fun hcon => ?_⟩
        -- something stood behind the last one, and it is still expected there
        obtain ⟨x, hx⟩ := List.exists_mem_of_ne_nil _ ((h.covered hnv).mpr hcon)
        have hxl : x ∈ L 0 := by
          rw [hp 0 (by omega)]
          simp [hx]
        exact (hkeep x (h.sub x ((h.periodic.mem 0 (by omega) x).mp hxl).1)).2 hx
      · rintro ⟨hnv, hnot⟩
        have hb : behind = [] := by
          by_contra hcon
          exact hnot ((h.covered hnv).mp hcon)
        subst hb
        intro x hx
        rcases List.mem_append.mp hx with hx | hx
        · simp [h.all.mpr hnv x hx]
        · simp [List.mem_singleton.mp hx]
    · rw [hcov]
      exact iff_of_false (by simp) (hnev.mp hnv).2

end MixedInv

section Runs

variable {o₀ : Ohci} {behind : List EdPtr}

/-- **Every run of links terminates**, and the invariant holds behind it. -/
theorem MixedInv.run (h : MixedInv o₀ o es linked behind L) {fs : List EdPtr}
    (hnd : (es ++ fs).Nodup) (h0 : ∀ e ∈ fs, e ≠ 0)
    (ht : ∀ e ∈ fs, (o₀.ed e).type = .int ∨ (o₀.ed e).type = .iso) :
    ∃ n o', (∀ fuel ≥ n, linkAll fuel o fs = some o') ∧
      ∃ linked' behind' L', MixedInv o₀ o' (es ++ fs) linked' behind' L' := by
  induction fs generalizing o es linked behind L with
  | nil =>
    rw [List.append_nil]
    exact ⟨0, o, fun _ _ => rfl, linked, behind, L, h⟩
  | cons e fs ih =>
    rw [List.append_cons] at hnd ⊢
    have he : e ∉ es := fun hx =>
      (List.nodup_append.mp (List.nodup_append.mp hnd).1).2.2 e hx e (by simp) rfl
    have hstep : ∃ n o', (∀ fuel ≥ n, epLink fuel o e = some o') ∧
        ∃ linked' behind' L', MixedInv o₀ o' (es ++ [e]) linked' behind' L' := by
      rcases ht e (by simp) with hint | hiso
      · exact h.link_int (h0 e (by simp)) he hint
      · exact h.link_iso (h0 e (by simp)) he hiso
    obtain ⟨n, o₁, heq, linked₁, behind₁, L₁, h₁⟩ := hstep
    obtain ⟨n', o', heq', hfin⟩ := ih h₁ hnd (fun x hx => h0 x (by simp [hx]))
      (fun x hx => ht x (by simp [hx]))
    refine ⟨max n n', o', fun fuel hf => ?_, hfin⟩
    rw [linkAll, List.foldlM_cons, heq fuel (le_trans (le_max_left _ _) hf)]
    exact heq' fuel (le_trans (le_max_right _ _) hf)

/-- What is still on the schedule is what the EDs of both kinds ask for. -/
theorem MixedInv.coexist_iff (h : MixedInv o₀ o es linked behind L)
    (ht : ∀ e ∈ es, (o₀.ed e).type = .int ∨ (o₀.ed e).type = .iso) :
    Coexist o es ↔ ∀ x ∈ es, x ∈ linked := by
  constructor
  · intro hco x hx
    -- some branch belongs to the ED, whatever its kind
    have hpos : 0 < o.interval x ∧ o.interval x ≤ 32 := by
      rw [h.interval x hx, Ohci.intervalFor]
      obtain ⟨q, hq, hN⟩ := ep2nInterval_eq_two_pow (o₀.ed x).intPeriod
      have hle : (2 : ℕ) ^ q ≤ 32 := Nat.pow_le_pow_right (by norm_num) hq
      have h1 : 1 ≤ (2 : ℕ) ^ q := Nat.one_le_two_pow
      split <;> omega
    have hb : o.branch x % o.interval x < 32 := (Nat.mod_lt _ hpos.1).trans_le hpos.2
    obtain ⟨l, hw, hl⟩ := hco _ hb
    rw [hw.unique (h.periodic.walk _ hb)] at hl
    refine ((h.periodic.mem _ hb x).mp ?_).1
    rcases ht x hx with hint | hiso
    · rw [← type_eq_of_kind h.kind] at hint
      exact ((hl x hx).2 hint).mpr (Nat.mod_mod _ _)
    · rw [← type_eq_of_kind h.kind] at hiso
      exact (hl x hx).1 hiso
  · intro hall b hb
    refine ⟨L b, h.periodic.walk b hb, fun x hx => ⟨fun hty => ?_, fun _ => ?_⟩⟩
    · have hiv : o.interval x = 1 := by
        rw [h.interval x hx, Ohci.intervalFor, if_pos (by rwa [← type_eq_of_kind h.kind])]
      refine (h.periodic.mem b hb x).mpr ⟨hall x hx, ?_⟩
      rw [hiv, Nat.mod_one, Nat.mod_one]
    · rw [h.periodic.mem b hb]
      exact and_iff_right (hall x hx)

/-- **When interrupt and isochronous EDs coexist.** Any sequence of
`ep_link` calls on them, from an empty schedule and with no ED linked twice,
terminates; and what it leaves is right if and only if no isochronous ED is
linked after an interrupt ED of interval 1 that was itself linked after an
isochronous ED. -/
theorem linkAll_coexist_iff (hempty : ∀ b < 32, o.intTable b = 0) (htail : o.edIsotail = 0)
    (hnd : es.Nodup) (h0 : ∀ e ∈ es, e ≠ 0)
    (ht : ∀ e ∈ es, (o.ed e).type = .int ∨ (o.ed e).type = .iso) :
    ∃ n o', (∀ fuel ≥ n, linkAll fuel o es = some o')
      ∧ (Coexist o' es ↔ NeverOverwritten o es) := by
  obtain ⟨n, o', heq, linked, behind, L, hinv⟩ :=
    (MixedInv.init hempty htail).run hnd h0 ht
  exact ⟨n, o', heq, (hinv.coexist_iff ht).trans hinv.all⟩

/-- An empty schedule with isochronous EDs, and one interrupt ED of period 1
at the address 2. -/
def isoPeriods : Ohci :=
  { Ohci.ofPeriods (fun _ => 1) with
    ed := fun e => { (default : Ed) with type := if e = 2 then .int else .iso, intPeriod := 1 } }

/-- Two isochronous EDs with the interrupt ED linked between them: it is
lost. -/
theorem linkAll_not_coexist : ¬ ∀ (o : Ohci) (es : List EdPtr),
    (∀ b < 32, o.intTable b = 0) → o.edIsotail = 0 → es.Nodup → (∀ e ∈ es, e ≠ 0) →
    (∀ e ∈ es, (o.ed e).type = .int ∨ (o.ed e).type = .iso) →
      ∃ n o', (∀ fuel ≥ n, linkAll fuel o es = some o') ∧ Coexist o' es := by
  intro hall
  obtain ⟨n, o', heq, hco⟩ := hall isoPeriods [1, 2, 3] (fun _ _ => rfl) rfl (by decide)
    (by decide) (by decide)
  have hrun : (linkAll 64 isoPeriods [1, 2, 3]).map (fun o => (o.intTable 0, o.nextED 1,
      o.nextED 3, (o.ed 2).type, o.interval 2)) = some (1, 3, 0, .int, 1) := by decide +kernel
  obtain ⟨o, ho, hrun⟩ := Option.map_eq_some_iff.mp hrun
  obtain rfl := linkAll_fuelled.unique ho (heq n le_rfl)
  simp only [Prod.mk.injEq] at hrun
  obtain ⟨htab, hnext₁, hnext₃, hty, hiv⟩ := hrun
  obtain ⟨l, hw, hl⟩ := hco 0 (by omega)
  -- list 0 holds the isochronous EDs alone
  have hlist : Walk o.nextED 0 (o.intTable 0) [1, 3] :=
    ⟨htab, by decide, hnext₁, by decide, hnext₃⟩
  have hmem := ((hl 2 (by simp)).2 hty).mpr (by rw [hiv, Nat.mod_one, Nat.mod_one])
  rw [hw.unique hlist] at hmem
  simp at hmem

/-- The interrupt ED linked first stays, in front of the isochronous ones. -/
theorem linkAll_coexist_int_first : ∃ n o',
    (∀ fuel ≥ n, linkAll fuel isoPeriods [2, 1, 3] = some o') ∧ Coexist o' [2, 1, 3] := by
  obtain ⟨n, o', heq, hiff⟩ := linkAll_coexist_iff (o := isoPeriods)
    (fun _ _ => rfl) rfl (by decide : [2, 1, 3].Nodup) (by decide) (by decide)
  refine ⟨n, o', heq, hiff.mpr ?_⟩
  rintro ⟨a, b, c, hs, ha, ⟨hb, -⟩, hc⟩
  have habc : [a, b, c] = [2, 1, 3] := hs.eq_of_length rfl
  simp only [List.cons.injEq, and_true] at habc
  obtain ⟨rfl, rfl, rfl⟩ := habc
  simp [isoPeriods] at ha

end Runs
