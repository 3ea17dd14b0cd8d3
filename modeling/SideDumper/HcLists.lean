import SideDumper.HcChains
import SideDumper.RunEffects

/-!
# The control and the bulk list

A control or bulk ED should be on the controller's list of its type exactly
when its state has `ED_OPER`. The state is tested with `==` in some places,
and `ED_OPER|ED_URB_DEL` passes for a state that is not linked there: the
second phase of `sohci_submit_urb` then links an ED that is on its list, and
`sohci_free_dev` leaves one there that it marks as deleted. `HcClean` says
that a step does neither – nor sets up a new control or bulk ED where one of
the periodic schedule is left over – and in runs of such steps the state and
the list agree throughout.
-/

/-- **The state of every control and bulk ED and its list agree**: the list
that starts in the head register holds each ED of its type once if its state
has `ED_OPER` and not at all otherwise, and no other EDs. -/
def HcAgrees (o : Ohci) : Prop :=
  ∀ l : HcList, ∃ xs, Walk o.nextED 0 (o.hcHead l) xs ∧
    (∀ e, e ≠ 0 → (o.ed e).type = l.type →
      xs.count e = if (o.ed e).state.oper then 1 else 0) ∧
    ∀ e ∈ xs, (o.ed e).type = l.type ∧ (o.ed e).state ≠ .edNew ∧ (o.ed e).state.del = false

/-- **What a step must not do**: link a control or bulk ED whose state has
`ED_OPER`, free one whose state has it with another flag, or set one up that
the periodic schedule still leads to. -/
def HcClean (s : Sys) : Act → Prop
  | .submitFirst u dummy _ => ∀ e, initsEd s.mem u dummy = some e →
      (s.mem.urb u).pipe.type.periodic = false → ¬ s.mem.skel.Lingers e
  | .submitSecond u buf setup => ∀ e, linksEd s.mem u buf setup = some e →
      (s.mem.ed e).type.periodic = false → (s.mem.ed e).state.oper = false
  | .freeEd e => (s.mem.ed e).type.periodic = false → (s.mem.ed e).state.oper = true →
      (s.mem.ed e).state = .edOper
  | _ => True

/-! ## The invariant -/

/-- The EDs that belong on a list. -/
def Skel.OnList (s : Skel) (l : HcList) (e : EdPtr) : Prop :=
  e ≠ 0 ∧ s.type e = l.type ∧ (s.state e).oper = true

/-- **The two lists are doubly linked and hold the right EDs**; no ED with
`ED_DEL` has `ED_OPER`; and what the periodic schedule can reach is
periodic. -/
structure Skel.HcInv (s : Skel) : Prop where
  chain : ∀ l, ∃ xs, DoublyLinked s.next s.prev 0 (s.head l) (s.tail l) xs ∧
    ∀ e, e ∈ xs ↔ s.OnList l e
  del : ∀ e, (s.state e).del = true → (s.state e).oper = false
  periodic : ∃ S, s.Holds S ∧ ∀ x ∈ S, x ≠ 0 → (s.type x).periodic = true

/-- The lists agree with the states when the invariant holds. -/
theorem HcAgrees.of_inv {o : Ohci} (h : o.skel.HcInv) : HcAgrees o := by
  intro l
  obtain ⟨xs, hx, hmem⟩ := h.chain l
  refine ⟨xs, hx.fwd, fun e h0 ht => ?_, fun e he => ?_⟩
  · have hiff := hmem e
    rw [Skel.OnList, and_iff_right h0,
      and_iff_right (show o.skel.type e = l.type from ht)] at hiff
    split
    · exact List.count_eq_one_of_mem hx.nodup (hiff.mpr ‹_›)
    · exact List.count_eq_zero_of_not_mem (fun he => ‹¬ _› (hiff.mp he))
  · obtain ⟨-, ht, hoper⟩ := (hmem e).mp he
    refine ⟨ht, fun hnew => ?_, ?_⟩
    · have hstate : o.skel.state e = .edNew := hnew
      rw [hstate] at hoper
      cases hoper
    · by_contra hdel
      have hoper' := h.del e ((Bool.not_eq_false _).mp hdel)
      rw [hoper] at hoper'
      cases hoper'

/-- The periodic schedule leads to no ED of another type. -/
theorem Skel.HcInv.not_lingers {s : Skel} {e : EdPtr} (h : s.HcInv) (h0 : e ≠ 0)
    (ht : (s.type e).periodic = false) : ¬ s.Lingers e := by
  intro hling
  obtain ⟨S, hS, hper⟩ := h.periodic
  rw [hper e (hling S hS) h0] at ht
  cases ht

theorem Ohci.Idle.hcInv {o : Ohci} (h : o.Idle) : o.skel.HcInv where
  chain := fun l => by
    refine ⟨[], ?_, fun e => ?_⟩
    · have hh : o.skel.head l = 0 := h.head l
      have ht : o.skel.tail l = 0 := h.tail l
      rw [hh, ht]
      exact DoublyLinked.nil
    · have hs : o.skel.state e = .edNew := h.state e
      simp [Skel.OnList, hs, EdState.edNew]
  del := fun e hd => by
    have hs : o.skel.state e = .edNew := h.state e
    rw [hs] at hd
    cases hd
  periodic := by
    refine ⟨{0}, ⟨⟨rfl, h.table, h.isotail, fun x hx h0 => absurd hx h0⟩, fun x _ _ hoper => ?_,
      fun x hx h0 => absurd hx h0⟩, fun x hx h0 => absurd hx h0⟩
    have hs : o.skel.state x = .edNew := h.state x
    rw [hs] at hoper
    cases hoper

namespace Skel

section Keep

variable {s s' : Skel} {e : EdPtr} {st : EdState} {ty : PipeType} {l : HcList} {S : Set EdPtr}

/-- A closed set of the periodic schedule does not see what happens
elsewhere. -/
theorem Holds.frame (h : s.Holds S) (htable : s'.table = s.table) (htail : s'.isotail = s.isotail)
    (hnext : ∀ x ∈ S, x ≠ 0 → s'.next x = s.next x)
    (hprev : ∀ x ∈ S, x ≠ 0 → (s'.state x).oper = true → s'.prev x = s.prev x)
    (htype : ∀ x, x ≠ 0 → (s'.state x).oper = true → (s'.type x).periodic = true →
      s'.type x = s.type x ∧ (s.state x).oper = true) : s'.Holds S where
  zero := h.zero
  table := htable ▸ h.table
  isotail := htail ▸ h.isotail
  next := fun x hx h0 => by
    rw [hnext x hx h0]
    exact h.next x hx h0
  linked := fun x h0 hp ho => by
    obtain ⟨ht, hoper⟩ := htype x h0 ho hp
    exact h.linked x h0 (ht ▸ hp) hoper
  prev := fun x hx h0 hiso ho => by
    obtain ⟨ht, hoper⟩ := htype x h0 ho (by rw [hiso]; rfl)
    rw [hprev x hx h0 ho]
    exact h.prev x hx h0 (ht ▸ hiso) hoper

/-- The removal lists do not matter. -/
theorem HcInv.congr (h : s.HcInv) (htable : s'.table = s.table)
    (hisotail : s'.isotail = s.isotail)
    (hhead : s'.head = s.head) (htail : s'.tail = s.tail) (hnext : s'.next = s.next)
    (hprev : s'.prev = s.prev) (hstate : s'.state = s.state) (htype : s'.type = s.type) :
    s'.HcInv where
  chain := fun l => by
    rw [hnext, hprev, hhead, htail]
    simp only [OnList, hstate, htype]
    exact h.chain l
  del := hstate ▸ h.del
  periodic := by
    obtain ⟨S, hS, hper⟩ := h.periodic
    refine ⟨S, hS.frame htable hisotail (fun x _ _ => by rw [hnext])
      (fun x _ _ _ => by rw [hprev])
      (fun x _ ho _ => ⟨by rw [htype], hstate ▸ ho⟩), htype ▸ hper⟩

theorem HcInv.rmEd (h : s.HcInv) : (s.rmEd e).HcInv := by
  unfold Skel.rmEd
  split
  · exact h
  · exact h.congr rfl rfl rfl rfl rfl rfl rfl rfl

/-- Setting the state of an ED that stays where it is. -/
theorem HcInv.setState (h : s.HcInv) (hup : st.oper = true → (s.state e).oper = true)
    (hdown : (s.type e).periodic = false → st.oper = (s.state e).oper)
    (hdel : st.del = true → st.oper = false) : (s.setState e st).HcInv where
  chain := fun l => by
    obtain ⟨xs, hx, hmem⟩ := h.chain l
    refine ⟨xs, hx, fun x => (hmem x).trans ?_⟩
    by_cases hxe : x = e
    · subst hxe
      simp only [OnList, setState_self, setState_type]
      refine and_congr_right fun _ => and_congr_right fun ht => ?_
      rw [hdown (by rw [ht, l.not_periodic])]
    · simp only [OnList, setState_of_ne _ _ _ _ hxe, setState_type]
  del := fun x hx => by
    by_cases hxe : x = e
    · subst hxe
      rw [setState_self] at hx ⊢
      exact hdel hx
    · rw [setState_of_ne _ _ _ _ hxe] at hx ⊢
      exact h.del x hx
  periodic := by
    obtain ⟨S, hS, hper⟩ := h.periodic
    refine ⟨S, hS.frame rfl rfl (fun _ _ _ => rfl) (fun _ _ _ _ => rfl)
      (fun x _ ho _ => ⟨rfl, ?_⟩), hper⟩
    by_cases hxe : x = e
    · subst hxe
      rw [setState_self] at ho
      exact hup ho
    · rwa [setState_of_ne _ _ _ _ hxe] at ho

/-- Setting up a new ED. -/
theorem HcInv.init (h : s.HcInv) (hnew : s.state e = .edNew)
    (hling : ty.periodic = false → ¬ s.Lingers e) : (s.init e ty).HcInv where
  chain := fun l => by
    obtain ⟨xs, hx, hmem⟩ := h.chain l
    refine ⟨xs, hx, fun x => (hmem x).trans ?_⟩
    by_cases hxe : x = e
    · subst hxe
      simp [OnList, hnew, EdState.edNew, EdState.edUnlink]
    · have ht : (s.init e ty).type x = s.type x := Function.update_of_ne hxe _ _
      simp only [OnList, init_of_ne _ _ _ _ hxe, ht]
  del := fun x hx => by
    by_cases hxe : x = e
    · subst hxe
      rw [init_self]
      rfl
    · rw [init_of_ne _ _ _ _ hxe] at hx ⊢
      exact h.del x hx
  periodic := by
    obtain ⟨S, hS, hper⟩ := h.periodic
    have hframe : ∀ T, s.Holds T → (s.init e ty).Holds T := by
      intro T hT
      refine hT.frame rfl rfl (fun _ _ _ => rfl) (fun _ _ _ _ => rfl) (fun x _ ho _ => ?_)
      have hxe : x ≠ e := by
        rintro rfl
        rw [init_self] at ho
        cases ho
      rw [init_of_ne _ _ _ _ hxe] at ho
      exact ⟨Function.update_of_ne hxe _ _, ho⟩
    cases hty : ty.periodic with
    | true =>
      refine ⟨S, hframe S hS, fun x hx h0 => ?_⟩
      rw [Skel.init]
      dsimp only
      rw [Function.update_apply]
      split
      · exact hty
      · exact hper x hx h0
    | false =>
      -- the new ED is taken out, by a closed set without it
      have hnot := hling hty
      unfold Lingers at hnot
      push Not at hnot
      obtain ⟨T, hT, heT⟩ := hnot
      have hboth : s.Holds (S ∩ T) :=
        { zero := ⟨hS.zero, hT.zero⟩
          table := fun i => ⟨hS.table i, hT.table i⟩
          isotail := ⟨hS.isotail, hT.isotail⟩
          next := fun x hx h0 => ⟨hS.next x hx.1 h0, hT.next x hx.2 h0⟩
          linked := fun x h0 hp ho => ⟨hS.linked x h0 hp ho, hT.linked x h0 hp ho⟩
          prev := fun x hx h0 hi ho => ⟨hS.prev x hx.1 h0 hi ho, hT.prev x hx.2 h0 hi ho⟩ }
      refine ⟨S ∩ T, hframe _ hboth, fun x hx h0 => ?_⟩
      have hxe : x ≠ e := fun hxe => heT (hxe ▸ hx.2)
      rw [Skel.init]
      dsimp only
      rw [Function.update_of_ne hxe]
      exact hper x hx.1 h0

/-- What a step does that changes the links of control and bulk EDs only, and
the states of one list. -/
theorem HcInv.of_list (h : s.HcInv) (l : HcList) (hrest : s' = { s with
      next := s'.next, prev := s'.prev, head := s'.head, tail := s'.tail, state := s'.state })
    (hlist : ∃ xs, DoublyLinked s'.next s'.prev 0 (s'.head l) (s'.tail l) xs ∧
      ∀ e, e ∈ xs ↔ s'.OnList l e)
    (hother : ∀ l', l' ≠ l → s'.head l' = s.head l' ∧ s'.tail l' = s.tail l')
    (hkeep : ∀ x, x ≠ 0 → s.type x ≠ l.type →
      s'.next x = s.next x ∧ s'.prev x = s.prev x ∧ s'.state x = s.state x)
    (hdel : ∀ e, (s'.state e).del = true → (s'.state e).oper = false) : s'.HcInv where
  chain := fun l' => by
    by_cases hl : l' = l
    · subst hl
      exact hlist
    · obtain ⟨xs, hx, hmem⟩ := h.chain l'
      obtain ⟨hhead, htail⟩ := hother l' hl
      have htype : s'.type = s.type := by rw [hrest]
      have hne : ∀ x, s.OnList l' x → s.type x ≠ l.type := fun x hon ht =>
        hl (HcList.type_injective (hon.2.1.symm.trans ht))
      refine ⟨xs, ?_, fun x => (hmem x).trans ⟨fun hon => ?_, fun hon => ?_⟩⟩
      · rw [hhead, htail]
        refine hx.congr (fun x hxs => ?_) (fun x hxs => ?_)
        · exact (hkeep x (hx.ne_stop hxs) (hne x ((hmem x).mp hxs))).1
        · exact (hkeep x (hx.ne_stop hxs) (hne x ((hmem x).mp hxs))).2.1
      · refine ⟨hon.1, htype ▸ hon.2.1, ?_⟩
        rw [(hkeep x hon.1 (hne x hon)).2.2]
        exact hon.2.2
      · have ht : s.type x = l'.type := htype ▸ hon.2.1
        have hnel : s.type x ≠ l.type := fun h => hl (HcList.type_injective (ht.symm.trans h))
        refine ⟨hon.1, ht, ?_⟩
        rw [← (hkeep x hon.1 hnel).2.2]
        exact hon.2.2
  del := hdel
  periodic := by
    obtain ⟨S, hS, hper⟩ := h.periodic
    have htype : s'.type = s.type := by rw [hrest]
    have hnel : ∀ x, (s.type x).periodic = true → s.type x ≠ l.type := by
      intro x hp ht
      rw [ht, l.not_periodic] at hp
      cases hp
    refine ⟨S, hS.frame (by rw [hrest]) (by rw [hrest]) (fun x hx h0 => ?_) (fun x hx h0 _ => ?_)
      (fun x h0 ho hp => ⟨by rw [htype], ?_⟩), htype ▸ hper⟩
    · exact (hkeep x h0 (hnel x (hper x hx h0))).1
    · exact (hkeep x h0 (hnel x (hper x hx h0))).2.1
    · rw [← (hkeep x h0 (hnel x (htype ▸ hp))).2.2]
      exact ho

/-- `ep_link` of a control or bulk ED touches EDs of its type. -/
theorem HcInv.linkHc_keeps (h : s.HcInv) (ht : s.type e = l.type) {x : EdPtr}
    (hxt : s.type x ≠ l.type) : ((s.raise e).linkHc l e).next x = s.next x ∧
      ((s.raise e).linkHc l e).prev x = s.prev x ∧ ((s.raise e).linkHc l e).state x
        = s.state x := by
  obtain ⟨xs, hx, hmem⟩ := h.chain l
  have hxe : x ≠ e := by
    rintro rfl
    exact hxt ht
  obtain ⟨hn, hp⟩ := Skel.linkHc_keeps hx hxe (fun hin => hxt ((hmem x).mp hin).2.1)
  exact ⟨hn, hp, Function.update_of_ne hxe _ _⟩

/-- **`ep_link` of a control or bulk ED** that is not on its list. -/
theorem HcInv.linkHc (h : s.HcInv) (h0 : e ≠ 0) (ht : s.type e = l.type)
    (hoper : (s.state e).oper = false) : ((s.raise e).linkHc l e).HcInv := by
  obtain ⟨xs, hx, hmem⟩ := h.chain l
  have he : e ∉ xs := fun hin => by
    have hon := (hmem e).mp hin
    rw [OnList, hoper] at hon
    exact absurd hon.2.2 (by decide)
  have hstate : ∀ x, x ≠ e → ((s.raise e).linkHc l e).state x = s.state x :=
    fun x hxe => Function.update_of_ne hxe _ _
  have hself : ((s.raise e).linkHc l e).state e = .edOper := Function.update_self _ _ _
  refine h.of_list l rfl ⟨xs ++ [e], linkHc_list hx h0 he, fun x => ?_⟩
    (fun l' hl => ⟨linkHc_head_of_ne hl, linkHc_tail_of_ne hl⟩) (fun x hx0 hxt => ?_)
    (fun x hdel => ?_)
  · rw [List.mem_append, List.mem_singleton, hmem x]
    by_cases hxe : x = e
    · subst hxe
      refine iff_of_true (.inr rfl) ⟨h0, ht, ?_⟩
      rw [hself]
      rfl
    · rw [or_iff_left hxe, OnList, OnList, hstate x hxe]
      rfl
  · exact h.linkHc_keeps ht hxt
  · by_cases hxe : x = e
    · subst hxe
      rw [hself] at hdel
      cases hdel
    · rw [hstate x hxe] at hdel ⊢
      exact h.del x hdel

/-- `ep_unlink` of a control or bulk ED touches EDs of its type. -/
theorem HcInv.unlinkHc_keeps (h : s.HcInv) (h0 : e ≠ 0) (ht : s.type e = l.type)
    (hoper : (s.state e).oper = true) {x : EdPtr} (hxt : s.type x ≠ l.type) (hx0 : x ≠ 0) :
    ((s.unlinkHc l e).setState e .edUnlink).next x = s.next x ∧
      ((s.unlinkHc l e).setState e .edUnlink).prev x = s.prev x ∧
      ((s.unlinkHc l e).setState e .edUnlink).state x = s.state x := by
  obtain ⟨xs, hx, hmem⟩ := h.chain l
  have hxe : x ≠ e := by
    rintro rfl
    exact hxt ht
  obtain ⟨hn, hp⟩ := Skel.unlinkHc_keeps hx ((hmem e).mpr ⟨h0, ht, hoper⟩)
    (fun hin => hxt ((hmem x).mp hin).2.1) hx0
  exact ⟨hn, hp, setState_of_ne _ _ _ _ hxe⟩

/-- **`ep_unlink` of a control or bulk ED** that is on its list. -/
theorem HcInv.unlinkHc (h : s.HcInv) (h0 : e ≠ 0) (ht : s.type e = l.type)
    (hoper : (s.state e).oper = true) : ((s.unlinkHc l e).setState e .edUnlink).HcInv := by
  obtain ⟨xs, hx, hmem⟩ := h.chain l
  have he : e ∈ xs := (hmem e).mpr ⟨h0, ht, hoper⟩
  refine h.of_list l rfl ⟨xs.erase e, ?_, fun x => ?_⟩
    (fun l' hl => ⟨unlinkHc_head_of_ne hl, unlinkHc_tail_of_ne hl⟩) (fun x hx0 hxt => ?_)
    (fun x hdel => ?_)
  · exact unlinkHc_erase hx he
  · by_cases hxe : x = e
    · subst hxe
      refine iff_of_false (fun hin => hx.nodup.not_mem_erase hin) (fun hon => ?_)
      rw [OnList, setState_self] at hon
      exact absurd hon.2.2 (by decide)
    · rw [List.mem_erase_of_ne hxe, hmem x, OnList, OnList, setState_of_ne _ _ _ _ hxe]
      rfl
  · exact h.unlinkHc_keeps h0 ht hoper hxt hx0
  · by_cases hxe : x = e
    · subst hxe
      rw [setState_self] at hdel
      cases hdel
    · rw [setState_of_ne _ _ _ _ hxe] at hdel ⊢
      exact h.del x hdel

/-- The two lists do not see what happens to periodic EDs. -/
theorem HcInv.chain_of_periodic (h : s.HcInv) (hhead : s'.head = s.head)
    (htail : s'.tail = s.tail)
    (htype : s'.type = s.type) (hkeep : ∀ x, x ≠ 0 → (s.type x).periodic = false →
      s'.next x = s.next x ∧ s'.prev x = s.prev x ∧ s'.state x = s.state x) (l : HcList) :
    ∃ xs, DoublyLinked s'.next s'.prev 0 (s'.head l) (s'.tail l) xs ∧ ∀ e, e ∈ xs ↔
      s'.OnList l e := by
  obtain ⟨xs, hx, hmem⟩ := h.chain l
  have hper : ∀ x, s.type x = l.type → (s.type x).periodic = false := fun x ht => by
    rw [ht, l.not_periodic]
  refine ⟨xs, ?_, fun x => (hmem x).trans ?_⟩
  · rw [hhead, htail]
    refine hx.congr (fun x hxs => ?_) (fun x hxs => ?_)
    · exact (hkeep x (hx.ne_stop hxs) (hper x ((hmem x).mp hxs).2.1)).1
    · exact (hkeep x (hx.ne_stop hxs) (hper x ((hmem x).mp hxs).2.1)).2.1
  · rw [OnList, OnList, htype]
    refine and_congr_right fun h0 => and_congr_right fun ht => ?_
    rw [(hkeep x h0 (hper x ht)).2.2]

end Keep

end Skel

/-! ## Steps -/

section Steps

variable {s s' : Sys} {a : Act} {o o' : Ohci} {e : EdPtr} {fuel : ℕ}

/-- `ep_link` keeps the invariant, for an ED that is not linked. -/
theorem epLink_hcInv (h : o.skel.HcInv) (h0 : e ≠ 0)
    (hoper : (o.skel.type e).periodic = false → (o.skel.state e).oper = false)
    (hl : epLink fuel o e = some o') : o'.skel.HcInv := by
  cases hty : (o.skel.type e).periodic with
  | false =>
    obtain ⟨l, ht⟩ := PipeType.exists_hcList hty
    rw [epLink_hc ht hl]
    exact h.linkHc h0 ht (hoper hty)
  | true =>
    obtain ⟨S, hS, hper⟩ := h.periodic
    have hraise : (o.skel.raise e).Closed (insert e S) := by
      refine ⟨.inr hS.zero, fun i => .inr (hS.table i), .inr hS.isotail, fun x hx hx0 => ?_⟩
      dsimp only [Skel.raise]
      rw [Function.update_apply]
      split
      · exact .inr hS.zero
      · rename_i hxe
        exact .inr (hS.next x (hx.resolve_left hxe) hx0)
    obtain ⟨hedit, hprev⟩ := epLink_periodic hty hraise (Set.mem_insert e S) hl
    have hT : ∀ x ∈ insert e S, x ≠ 0 → (o.skel.type x).periodic = true := by
      rintro x (rfl | hx) hx0
      · exact hty
      · exact hper x hx hx0
    have htype : o'.skel.type = o.skel.type := (epLink_reschedules hl).type
    have hstate : ∀ x, x ≠ e → o'.skel.state x = o.skel.state x := fun x hx => by
      rw [(epLink_reschedules hl).state, Function.update_of_ne hx]
    have hself : o'.skel.state e = .edOper := by
      rw [(epLink_reschedules hl).state, Function.update_self]
    refine ⟨h.chain_of_periodic (by rw [hedit.same]; rfl) (by rw [hedit.same]; rfl) htype
      (fun x hx0 hx => ?_), fun x hx => ?_, insert e S, ⟨hedit.closed, fun x hx0 hp ho => ?_,
      fun x hx hx0 hi ho => ?_⟩, htype ▸ hT⟩
    · have hxT : x ∉ insert e S := fun hin => by
        rw [hT x hin hx0] at hx
        cases hx
      have hxe : x ≠ e := fun hxe => hxT (.inl hxe)
      refine ⟨?_, hedit.prev x hxT, hstate x hxe⟩
      rw [hedit.next x hxT]
      exact Function.update_of_ne hxe _ _
    · by_cases hxe : x = e
      · subst hxe
        rw [hself] at hx
        cases hx
      · rw [hstate x hxe] at hx ⊢
        exact h.del x hx
    · by_cases hxe : x = e
      · exact .inl hxe
      · rw [htype] at hp
        rw [hstate x hxe] at ho
        exact .inr (hS.linked x hx0 hp ho)
    · rw [htype] at hi
      by_cases hxe : x = e
      · subst hxe
        exact hprev hi
      · rw [hstate x hxe] at ho
        rcases hedit.prevIn x with hp | hp
        · rw [hp]
          exact .inr (hS.prev x (hx.resolve_left hxe) hx0 hi ho)
        · exact hp

/-- `ep_unlink` keeps the invariant, for an ED that is linked. -/
theorem epUnlink_hcInv (h : o.skel.HcInv) (h0 : e ≠ 0) (hoper : (o.skel.state e).oper = true)
    (hl : epUnlink fuel o e = some o') : o'.skel.HcInv := by
  cases hty : (o.skel.type e).periodic with
  | false =>
    obtain ⟨l, ht⟩ := PipeType.exists_hcList hty
    rw [epUnlink_hc ht hl]
    exact h.unlinkHc h0 ht hoper
  | true =>
    obtain ⟨S, hS, hper⟩ := h.periodic
    have heS : e ∈ S := hS.linked e h0 hty hoper
    obtain ⟨s₁, hedit, hs'⟩ := epUnlink_periodic hty hS.toClosed heS h0
      (fun hi => hS.prev e heS h0 hi hoper) hl
    have htype : s₁.type = o.skel.type := by rw [hedit.same]
    have hstate : s₁.state = o.skel.state := by rw [hedit.same]
    have hinv : s₁.HcInv := by
      refine ⟨h.chain_of_periodic (by rw [hedit.same]) (by rw [hedit.same]) htype
        (fun x hx0 hx => ?_), fun x hx => ?_, S, ⟨hedit.closed, fun x hx0 hp ho => ?_,
        fun x hx hx0 hi ho => ?_⟩, htype ▸ hper⟩
      · have hxS : x ∉ S := fun hin => by
          rw [hper x hin hx0] at hx
          cases hx
        exact ⟨hedit.next x hxS, hedit.prev x hxS, by rw [hstate]⟩
      · rw [hstate] at hx ⊢
        exact h.del x hx
      · exact hS.linked x hx0 (htype ▸ hp) (hstate ▸ ho)
      · rcases hedit.prevIn x with hp | hp
        · rw [hp]
          exact hS.prev x hx hx0 (htype ▸ hi) (hstate ▸ ho)
        · exact hp
    rw [hs']
    refine hinv.setState (fun hup => nomatch hup) (fun hp => ?_) (fun hd => nomatch hd)
    rw [htype, hty] at hp
    cases hp

/-- **Every step that is clean keeps the lists right.** -/
theorem HcInv.effect (h : s.mem.skel.HcInv) (hok : HcClean s a) (heff : Sys.Effect s s' a) :
    s'.mem.skel.HcInv := by
  cases heff with
  | quiet a hs _ => rwa [hs]
  | frame n b hs _ =>
    rw [hs]
    exact h.congr rfl rfl rfl rfl rfl rfl rfl rfl
  | init u dummy tds e hinit h0 hnew hs _ =>
    rw [hs]
    exact h.init hnew (hok e hinit)
  | link u buf setup e fuel o o' hlinks h0 _ hs hl hs' _ =>
    rw [hs']
    refine epLink_hcInv (hs ▸ h) h0 (fun hp => ?_) hl
    rw [hs] at hp ⊢
    exact hok e hlinks hp
  | unlink e fuel h0 hoper hun _ => exact epUnlink_hcInv h h0 (by rw [hoper]; rfl) hun
  | mark u e _ _ hs _ =>
    rw [hs]
    refine h.rmEd.setState ?_ ?_ ?_
    · rw [Skel.rmEd_state]
      exact id
    · rw [Skel.rmEd_state]
      exact fun _ => rfl
    · exact h.del e
  | free e fuel o h0 hnew hun hs _ =>
    rw [hs]
    rcases hun with ⟨hoper, hun⟩ | ⟨hoper, rfl⟩
    · have hinv := epUnlink_hcInv h h0 (by rw [hoper]; rfl) hun
      refine hinv.rmEd.setState (fun hup => nomatch hup) (fun _ => ?_) (fun _ => rfl)
      rw [Skel.rmEd_state, (epUnlink_reschedules h0 hun).state, Function.update_self]
      rfl
    · refine h.rmEd.setState (fun hup => nomatch hup) (fun hp => ?_) (fun _ => rfl)
      have htype : (s.mem.skel.rmEd e).type = s.mem.skel.type := by
        unfold Skel.rmEd
        split <;> rfl
      rw [htype] at hp
      rw [Skel.rmEd_state]
      exact (Bool.eq_false_iff.mpr (fun ho => hoper (hok hp ho))).symm
  | delIrq f hs _ => rwa [hs]
  | settle f e rest _ hs _ _ =>
    rw [hs]
    have hsettled : (Skel.settled (s.mem.skel.state e)).oper = (s.mem.skel.state e).oper := by
      unfold Skel.settled
      split
      · rw [h.del e ‹_›]
        rfl
      · rfl
    refine h.setState ?_ (fun _ => hsettled) (fun hd => ?_)
    · rw [hsettled]
      exact id
    · unfold Skel.settled at hd
      split at hd
      · cases hd
      · exact absurd hd ‹_›
  | delEnd f rest hs _ _ =>
    rw [hs]
    exact h.congr rfl rfl rfl rfl rfl rfl rfl rfl

/-- The lists are right in every run of clean steps. -/
theorem hcInv_of_clean (h : s.Reach HcClean) : s.mem.skel.HcInv :=
  (Sys.Reach.of_effects (P := fun s => s.mem.skel.HcInv) (fun _ ho => ho.hcInv)
    (fun _ _ _ _ hp hok heff => HcInv.effect hp hok heff) h).2

/-- **State and list agree in every run of clean steps.** -/
theorem hcAgrees_of_clean (h : s.Reach HcClean) : HcAgrees s.mem :=
  HcAgrees.of_inv (hcInv_of_clean h)

/-- A clean first phase for an ED of another type than those of the periodic
schedule. -/
theorem Sys.Reach.submitFirst {u : UrbPtr} {dummy : TdPtr} {tds : ℕ → TdPtr}
    {fuel : ℕ} {e : EdPtr}
    (h : s.Reach HcClean) (hinit : initsEd s.mem u dummy = some e) (h0 : e ≠ 0)
    (ht : (s.mem.ed e).type.periodic = false)
    (hs : s.step fuel (.submitFirst u dummy tds) = some s') :
    s'.Reach HcClean := by
  refine .step fuel (.submitFirst u dummy tds) h (fun x hx _ => ?_) hs
  obtain rfl : e = x := Option.some.inj (hinit.symm.trans hx)
  exact (hcInv_of_clean h).not_lingers h0 ht

/-- A clean second phase for an ED that is not linked. -/
theorem Sys.Reach.submitSecond {u : UrbPtr} {buf setup fuel : ℕ} {e : EdPtr} (h : s.Reach HcClean)
    (hlinks : linksEd s.mem u buf setup = some e) (hoper : (s.mem.ed e).state.oper = false)
    (hs : s.step fuel (.submitSecond u buf setup) = some s') : s'.Reach HcClean := by
  refine .step fuel (.submitSecond u buf setup) h (fun x hx _ => ?_) hs
  obtain rfl : e = x := Option.some.inj (hlinks.symm.trans hx)
  exact hoper

end Steps

/-! ## An ED linked twice -/

/-- The second phase links the ED behind itself. -/
theorem hcLists_not_agree : ¬ ∀ s : Sys, s.Reach (fun _ _ => True) → HcAgrees s.mem := by
  intro h
  obtain ⟨s, hrun, hnext, hhead⟩ : ∃ s, Sys.run 1 ⟨twoBulkUrbs, [], [], []⟩ unlinkBetween
      = some s ∧
      s.mem.nextED 12 = 12 ∧ s.mem.hcHead .bulk = 12 := ⟨_, rfl, by decide, by decide⟩
  obtain ⟨xs, hwalk, -⟩ := h s (Sys.Reach.run (.init _ twoBulkUrbs_idle) hrun) .bulk
  rw [hhead] at hwalk
  cases xs with
  | nil => cases hwalk
  | cons x xs =>
    obtain ⟨rfl, -, hrest⟩ := id hwalk
    rw [hnext] at hrest
    have hlen := congrArg List.length (hwalk.unique hrest)
    rw [List.length_cons] at hlen
    omega

/-- A driver with a bulk URB for each endpoint of a device, whose EDs are
from the address 12 on. -/
def bulkEndpoints : Ohci :=
  { (default : Ohci) with
    usbDev := fun _ => { (default : UsbDev) with edBase := 10 }
    ed := fun _ => { (default : Ed) with type := .bulk }
    urb := fun u => { (default : Urb) with pipe := ⟨.bulk, 1, u, false, false⟩, dev := 1 } }

theorem bulkEndpoints_idle : bulkEndpoints.Idle :=
  ⟨fun _ => rfl, rfl, fun l => by cases l <;> rfl, fun l => by cases l <;> rfl, fun _ => rfl,
    fun _ => rfl, fun _ => rfl⟩

/-- A URB for a further endpoint goes through both phases of its
submission. -/
theorem bulkEndpoints_submit {s : Sys} {as : List Act} (u : UrbPtr) (dummy : TdPtr) (e f : EdPtr)
    (h : s.Reach HcClean) (hrun : Sys.run 1 ⟨bulkEndpoints, [], [], []⟩ as = some s) (h0 : e ≠ 0)
    (hinit : (Sys.run 1 ⟨bulkEndpoints, [], [], []⟩ as).map (fun s =>
      (initsEd s.mem u dummy, (s.mem.ed e).type)) = some (some e, .bulk))
    (hlinks : (Sys.run 1 ⟨bulkEndpoints, [], [], []⟩
      (as ++ [.submitFirst u dummy (fun _ => dummy + 1)])).map (fun s =>
        (linksEd s.mem u 0 0, (s.mem.ed e).state.oper)) = some (some e, false))
    (hstate : (Sys.run 1 ⟨bulkEndpoints, [], [], []⟩
      (as ++ [.submitFirst u dummy (fun _ => dummy + 1)] ++ [.submitSecond u 0 0])).map
        (fun s => (s.mem.ed f).state) = some .edOper) :
    ∃ s', Sys.run 1 ⟨bulkEndpoints, [], [], []⟩
      (as ++ [.submitFirst u dummy (fun _ => dummy + 1)] ++ [.submitSecond u 0 0]) = some s' ∧
      s'.Reach HcClean ∧ (s'.mem.ed f).state = .edOper := by
  rw [hrun] at hinit
  obtain ⟨hi, ht⟩ := Prod.mk.inj (Option.some.inj hinit)
  obtain ⟨s₁, h₁, hobs, hrun₁⟩ := Sys.run_next _ hrun hlinks
  obtain ⟨hl, ho⟩ := Prod.mk.inj hobs
  obtain ⟨s₂, h₂, hst, hrun₂⟩ := Sys.run_next _ hrun₁ hstate
  exact ⟨s₂, hrun₂, (h.submitFirst hi h0 (by rw [ht]; rfl) h₁).submitSecond hl ho h₂, hst⟩

/-- A clean run that queues URBs for three endpoints and frees the ED of the
second, in the middle of the list. -/
theorem hcAgrees_middleFreed : ∃ s : Sys,
    s.mem.hcHead .bulk = 12 ∧ s.mem.nextED 12 = 16 ∧ s.mem.nextED 16 = 0 ∧
    (s.mem.ed 14).state = .edDel ∧ HcAgrees s.mem := by
  obtain ⟨s₁, hrun₁, h₁, -⟩ := bulkEndpoints_submit 1 100 12 12 (.init _ bulkEndpoints_idle)
    (show Sys.run 1 _ [] = some _ from rfl)
    (by decide) (by decide +kernel) (by decide +kernel) (by decide +kernel)
  obtain ⟨s₂, hrun₂, h₂, -⟩ := bulkEndpoints_submit 2 200 14 14 h₁ hrun₁ (by decide)
    (by decide +kernel) (by decide +kernel) (by decide +kernel)
  obtain ⟨s₃, hrun₃, h₃, hst⟩ := bulkEndpoints_submit 3 300 16 14 h₂ hrun₂ (by decide)
    (by decide +kernel) (by decide +kernel) (by decide +kernel)
  obtain ⟨s, hs, hobs, -⟩ := Sys.run_next (.freeEd 14) hrun₃ (f := fun s =>
    (s.mem.hcHead .bulk, s.mem.nextED 12, s.mem.nextED 16, (s.mem.ed 14).state))
    (v := (12, 16, 0, .edDel)) (by decide +kernel)
  simp only [Prod.mk.injEq] at hobs
  exact ⟨s, hobs.1, hobs.2.1, hobs.2.2.1, hobs.2.2.2,
    hcAgrees_of_clean (.step 1 (.freeEd 14) h₃ (fun _ _ => hst) hs)⟩
