import SideDumper.HcLists
import SideDumper.PeriodicUnlink
import SideDumper.RemovalLists

/-!
# Releasing a device

`sohci_free_dev` takes the EDs of a device off the lists of the controller,
asks for their removal and waits on `op_wakeup`; behind the wait the memory of
the device goes. `Teardown` is the driver with the calls of `sohci_free_dev`
that wait. The wait queue is that of every unlinking URB and of every other
device, so being woken does not mean that the EDs are done with.

The memory may go if they are: `TeardownClean` asks that all EDs of the device
are `ED_NEW`, and of the other steps what the lists of EDs ask, also of the
periodic ones.
-/

/-! ## The periodic schedule -/

/-- **Every ED the periodic schedule leads to is linked.** -/
def Skel.PerInv (s : Skel) : Prop :=
  ∃ S, s.Holds S ∧ ∀ x ∈ S, x ≠ 0 → (s.type x).periodic = true ∧ (s.state x).oper = true

/-- **What a step must not do** to the periodic schedule: free an ED whose state
has `ED_OPER` with another flag, or call `ep_unlink` where it fails. -/
def PeriodicClean (s : Sys) : Act → Prop
  | .freeEd e => ((s.mem.ed e).state.oper = true → (s.mem.ed e).state = .edOper) ∧
      ((s.mem.ed e).state = .edOper → UnlinksAll s.mem e)
  | .resume => ∀ e next tasks, s.tasks = .endEd e next :: tasks →
      (s.mem.ed e).hwHeadP = (s.mem.ed e).hwTailP → (s.mem.ed e).state = .edOper →
        UnlinksAll s.mem e
  | _ => True

namespace Skel

variable {s s' : Skel} {e : EdPtr} {st : EdState} {ty : PipeType}

/-- A change of other fields, and of EDs the schedule does not lead to. -/
theorem PerInv.frame (h : s.PerInv) (htable : s'.table = s.table) (htail : s'.isotail = s.isotail)
    (htype : ∀ x, (s.state x).oper = true ∨ (s'.state x).oper = true → s'.type x = s.type x)
    (hkeep : ∀ x, x ≠ 0 → (s.type x).periodic = true →
      ((s.state x).oper = true → s'.next x = s.next x ∧ s'.prev x = s.prev x) ∧
      (s'.state x).oper = (s.state x).oper) : s'.PerInv := by
  obtain ⟨S, hS, hS'⟩ := h
  refine ⟨S, hS.frame htable htail (fun x hx h0 => ?_) (fun x hx h0 _ => ?_)
    (fun x h0 ho hp => ?_), fun x hx h0 => ?_⟩
  · exact ((hkeep x h0 (hS' x hx h0).1).1 (hS' x hx h0).2).1
  · exact ((hkeep x h0 (hS' x hx h0).1).1 (hS' x hx h0).2).2
  · have ht := htype x (.inr ho)
    refine ⟨ht, ?_⟩
    rw [ht] at hp
    rw [← (hkeep x h0 hp).2]
    exact ho
  · obtain ⟨hp, ho⟩ := hS' x hx h0
    rw [htype x (.inl ho), (hkeep x h0 hp).2]
    exact ⟨hp, ho⟩

/-- The removal lists do not matter. -/
theorem PerInv.rmEd (h : s.PerInv) : (s.rmEd e).PerInv := by
  unfold Skel.rmEd
  split
  · exact h
  · exact h.frame rfl rfl (fun _ _ => rfl) (fun _ _ _ => ⟨fun _ => ⟨rfl, rfl⟩, rfl⟩)

/-- Setting the state of an ED that stays linked, or stays not linked. -/
theorem PerInv.setState (h : s.PerInv) (ho : st.oper = (s.state e).oper) :
    (s.setState e st).PerInv := by
  refine h.frame rfl rfl (fun _ _ => rfl) (fun x _ _ => ⟨fun _ => ⟨rfl, rfl⟩, ?_⟩)
  by_cases hx : x = e
  · subst hx
    rw [setState_self, ho]
  · rw [setState_of_ne _ _ _ _ hx]

/-- Setting up a new ED. -/
theorem PerInv.init (h : s.PerInv) (hnew : s.state e = .edNew) : (s.init e ty).PerInv := by
  refine h.frame rfl rfl (fun x ho => ?_) (fun x _ _ => ⟨fun _ => ⟨rfl, rfl⟩, ?_⟩)
  · by_cases hx : x = e
    · subst hx
      rw [init_self, hnew] at ho
      exact ho.elim (fun h => nomatch h) (fun h => nomatch h)
    · exact Function.update_of_ne hx _ _
  · by_cases hx : x = e
    · subst hx
      rw [init_self, hnew]
      rfl
    · rw [init_of_ne _ _ _ _ hx]

end Skel

section Steps

variable {s s' : Sys} {a : Act} {o o' : Ohci} {e : EdPtr} {fuel : ℕ}

/-- An ED of the periodic schedule is none of a list. -/
theorem HcList.type_ne {l : HcList} {ty : PipeType} (h : ty.periodic = true) : ty ≠ l.type := by
  rintro rfl
  rw [l.not_periodic] at h
  cases h

/-- `ep_link`. -/
theorem epLink_perInv (h : o.skel.PerInv) (hc : o.skel.HcInv) (h0 : e ≠ 0)
    (hl : epLink fuel o e = some o') : o'.skel.PerInv := by
  cases hty : (o.skel.type e).periodic with
  | false =>
    obtain ⟨l, ht⟩ := PipeType.exists_hcList hty
    rw [epLink_hc ht hl]
    refine h.frame rfl rfl (fun _ _ => rfl) (fun x hx0 hp => ?_)
    obtain ⟨hnext, hprev, hstate⟩ := hc.linkHc_keeps ht (HcList.type_ne hp)
    exact ⟨fun _ => ⟨hnext, hprev⟩, congrArg EdState.oper hstate⟩
  | true =>
    obtain ⟨S, hS, hS'⟩ := h
    have hraise : (o.skel.raise e).Closed (insert e S) := by
      refine ⟨.inr hS.zero, fun i => .inr (hS.table i), .inr hS.isotail, fun x hx hx0 => ?_⟩
      dsimp only [Skel.raise]
      rw [Function.update_apply]
      split
      · exact .inr hS.zero
      · rename_i hxe
        exact .inr (hS.next x (hx.resolve_left hxe) hx0)
    obtain ⟨hedit, hprev⟩ := epLink_periodic hty hraise (Set.mem_insert e S) hl
    have htype : o'.skel.type = o.skel.type := (epLink_reschedules hl).type
    have hself : o'.skel.state e = .edOper := by
      rw [(epLink_reschedules hl).state, Function.update_self]
    have hstate : ∀ x, x ≠ e → o'.skel.state x = o.skel.state x := fun x hx => by
      rw [(epLink_reschedules hl).state, Function.update_of_ne hx]
    refine ⟨insert e S, ⟨hedit.closed, fun x hx0 hp ho => ?_, fun x hx hx0 hi ho => ?_⟩,
      fun x hx hx0 => ?_⟩
    · by_cases hxe : x = e
      · exact .inl hxe
      · rw [htype] at hp
        rw [hstate x hxe] at ho
        exact .inr (hS.linked x hx0 hp ho)
    · rw [htype] at hi
      by_cases hxe : x = e
      · subst hxe
        exact hprev hi
      · rw [hstate x hxe] at ho
        rcases hedit.prevIn x with hp | hp
        · rw [hp]
          exact .inr (hS.prev x (hx.resolve_left hxe) hx0 hi ho)
        · exact hp
    · rw [htype]
      by_cases hxe : x = e
      · subst hxe
        rw [hself]
        exact ⟨hty, rfl⟩
      · rw [hstate x hxe]
        exact hS' x (hx.resolve_left hxe) hx0

/-- `ep_unlink`, where it does not fail. -/
theorem epUnlink_perInv (h : o.skel.PerInv) (hc : o.skel.HcInv) (h0 : e ≠ 0)
    (hoper : (o.skel.state e).oper = true) (hall : UnlinksAll o e)
    (hl : epUnlink fuel o e = some o') :
    o'.skel.PerInv := by
  cases hty : (o.skel.type e).periodic with
  | false =>
    obtain ⟨l, ht⟩ := PipeType.exists_hcList hty
    rw [epUnlink_hc ht hl]
    refine h.frame rfl rfl (fun _ _ => rfl) (fun x hx0 hp => ?_)
    obtain ⟨hnext, hprev, hstate⟩ := hc.unlinkHc_keeps h0 ht hoper (HcList.type_ne hp) hx0
    exact ⟨fun _ => ⟨hnext, hprev⟩, congrArg EdState.oper hstate⟩
  | true =>
    obtain ⟨S, hS, hS'⟩ := h
    have hr := epUnlink_reschedules h0 hl
    refine ⟨_, epUnlink_holds h0 hty hoper hall hl, fun x hx hx0 => ?_⟩
    rw [hr.type, hr.state, Function.update_of_ne hx.2]
    exact hS' x (hx.1 S hS) hx0

end Steps

/-! ## Runs -/

/-- **The lists of EDs are right**, the periodic ones included. -/
structure Sys.Tidy (s : Sys) : Prop where
  base : s.Base
  hc : s.mem.skel.HcInv
  rm : s.mem.skel.RmInv s.walks
  per : s.mem.skel.PerInv

/-- What a step must not do to any of the lists. -/
def ListsClean (s : Sys) (a : Act) : Prop := HcClean s a ∧ RmClean s a ∧ PeriodicClean s a

section Steps

variable {s s' : Sys} {a : Act} {o o' : Ohci} {e : EdPtr} {fuel : ℕ} {as : List Act}

/-- One pass of an interrupt routine keeps the periodic schedule right. -/
theorem PerInv.resume (h : s.Tidy) (hok : PeriodicClean s .resume)
    (hs : s.step fuel .resume = some s') :
    s'.mem.skel.PerInv := by
  have hquiet : ∀ o : Ohci, Quiet s.mem o → o.skel.PerInv := fun o hq => by
    rw [hq.skel]
    exact h.per
  simp only [Sys.step] at hs
  split at hs
  · cases hs
  rename_i task tasks ht
  obtain ⟨⟨o, task'⟩, h₁, hs⟩ := Option.bind_eq_some_iff.mp hs
  cases hs
  cases task with
  | reverse t rev =>
    simp only [IrqTask.step] at h₁
    split at h₁ <;> cases h₁
    · exact h.per
    · exact hquiet _ quiet_reverseTd
  | done t =>
    simp only [IrqTask.step] at h₁
    split at h₁
    · cases h₁
      exact h.per
    · obtain ⟨⟨o₁, again⟩, h₂, h₁⟩ := Option.bind_eq_some_iff.mp h₁
      cases h₁
      exact hquiet _ (quiet_doneTd h₂)
  | requeue u e next =>
    obtain ⟨o₁, h₂, h₁⟩ := Option.bind_eq_some_iff.mp h₁
    cases h₁
    exact hquiet _ (quiet_requeueUrb h₂)
  | endEd e next =>
    obtain ⟨o₁, h₂, h₁⟩ := Option.bind_eq_some_iff.mp h₁
    cases h₁
    unfold doneEd at h₂
    split at h₂
    · rename_i hidle
      have hoper : s.mem.skel.state e = .edOper := hidle.2
      exact epUnlink_perInv h.per h.hc (h.base.ne_of_state (by rw [hoper]; decide))
        (by rw [hoper]; rfl)
        (hok e next tasks ht hidle.1 hidle.2) h₂
    · cases h₂
      exact h.per
  | del f e =>
    simp only [IrqTask.step] at h₁
    split at h₁
    · cases h₁
      rw [skel_delEnd]
      exact h.per.frame rfl rfl (fun _ _ => rfl) (fun _ _ _ => ⟨fun _ => ⟨rfl, rfl⟩, rfl⟩)
    · cases h₁
      exact h.per
  | delQueue f e tail fa t tdP =>
    simp only [IrqTask.step] at h₁
    split at h₁
    · cases h₁
      rw [skel_delEdEnd]
      refine h.per.setState ?_
      unfold Skel.settled
      split
      · rw [h.hc.del e ‹_›]
        rfl
      · rfl
    · obtain ⟨⟨o₁, tdP'⟩, h₂, h₁⟩ := Option.bind_eq_some_iff.mp h₁
      cases h₁
      exact hquiet _ (quiet_delTd h₂)

/-- **Every step that is clean keeps the periodic schedule right.** -/
theorem PerInv.step (h : s.Tidy) (hok : PeriodicClean s a) (hstep : s.step fuel a = some s') :
    s'.mem.skel.PerInv := by
  by_cases hres : a = .resume
  · subst hres
    exact PerInv.resume h hok hstep
  cases (Sys.step_effect h.base hstep).1 with
  | quiet a hs _ =>
    rw [hs]
    exact h.per
  | frame n b hs _ =>
    rw [hs]
    exact h.per.frame rfl rfl (fun _ _ => rfl) (fun _ _ _ => ⟨fun _ => ⟨rfl, rfl⟩, rfl⟩)
  | init u dummy tds e _ _ hnew hs _ =>
    rw [hs]
    exact h.per.init hnew
  | link u buf setup e fuel o o' _ h0 _ hs hl hs' _ =>
    rw [hs']
    exact epLink_perInv (hs ▸ h.per) (hs ▸ h.hc) h0 hl
  | unlink => exact absurd rfl hres
  | mark u e _ _ hs _ =>
    rw [hs]
    refine h.per.rmEd.setState ?_
    rw [Skel.rmEd_state]
  | free e fuel o h0 _ hun hs _ =>
    rw [hs]
    rcases hun with ⟨hoper, hun⟩ | ⟨hoper, rfl⟩
    · refine (epUnlink_perInv h.per h.hc h0 (by rw [hoper]; rfl) (hok.2 hoper) hun).rmEd.setState
        ?_
      rw [Skel.rmEd_state, (epUnlink_reschedules h0 hun).state, Function.update_self]
      rfl
    · refine h.per.rmEd.setState ?_
      rw [Skel.rmEd_state]
      exact (Bool.eq_false_iff.mpr (fun ho => hoper (hok.1 ho))).symm
  | delIrq f hs _ =>
    rw [hs]
    exact h.per
  | settle => exact absurd rfl hres
  | delEnd => exact absurd rfl hres

theorem Sys.Tidy.step (h : s.Tidy) (hok : ListsClean s a) (hs : s.step fuel a = some s') :
    s'.Tidy where
  base := Sys.step_base h.base hs
  hc := HcInv.effect h.hc hok.1 (Sys.step_effect h.base hs).1
  rm := RmInv.effect h.rm hok.2.1 (Sys.step_effect h.base hs).1
  per := PerInv.step h hok.2.2 hs

theorem Ohci.Idle.tidy (ho : o.Idle) : Sys.Tidy ⟨o, [], [], []⟩ where
  base := ho.base
  hc := ho.hcInv
  rm := ho.rmInv
  per := by
    refine ⟨{0}, ⟨⟨rfl, ho.table, ho.isotail, fun x hx h0 => absurd hx h0⟩, fun x _ _ hoper => ?_,
      fun x hx h0 => absurd hx h0⟩, fun x hx h0 => absurd hx h0⟩
    have hs : o.skel.state x = .edNew := ho.state x
    rw [hs] at hoper
    cases hoper

/-- **Several steps in a row, each of which meets a condition.** -/
def Sys.RunMeets (ok : Sys → Act → Prop) (fuel : ℕ) (s : Sys) : List Act → Prop
  | [] => True
  | a :: as => ok s a ∧ ∀ s', s.step fuel a = some s' → s'.RunMeets ok fuel as

theorem Sys.Tidy.run (h : s.Tidy) (hok : s.RunMeets ListsClean fuel as)
    (hs : s.run fuel as = some s') :
    s'.Tidy := by
  induction as generalizing s with
  | nil =>
    cases hs
    exact h
  | cons a as ih =>
    obtain ⟨s₁, h₁, hs⟩ := Option.bind_eq_some_iff.mp hs
    exact ih (h.step hok.1 h₁) (hok.2 s₁ h₁) hs

end Steps

/-! ## Devices -/

/-- **The controller gets to an ED**, along one of its lists. -/
inductive Ohci.OnChain (o : Ohci) : EdPtr → Prop
  | head (l : HcList) : o.OnChain (o.hcHead l)
  | table (i : ℕ) : i < 32 → o.OnChain (o.intTable i)
  | next (e : EdPtr) : o.OnChain e → e ≠ 0 → o.OnChain (o.nextED e)

/-- **An ED is in use**: it is on a removal list, or the controller gets to
it. -/
def Ohci.EdInUse (o : Ohci) (e : EdPtr) : Prop :=
  (∃ f xs, Walk (fun e => (o.ed e).edRmList) 0 (o.edRmList f) xs ∧ e ∈ xs) ∨ o.OnChain e

/-- The EDs of a device. -/
def Ohci.edsOf (o : Ohci) (d : DevPtr) : List EdPtr :=
  (List.range 32).map (fun i => (o.usbDev d).edBase + i)

/-- The calls of `wake_up (&op_wakeup)` so far. -/
def Ohci.wakeUps (o : Ohci) : ℕ := o.trace.count .wakeUp

/-- **The driver with the devices being freed**: for each call of
`sohci_free_dev` its device and, if it waits, the number of wake-ups there had
been. -/
structure Teardown where
  sys : Sys
  freeing : List (DevPtr × Option ℕ)

/-- What can happen next. -/
inductive TeardownAct
  /-- A step of the driver. -/
  | sys (a : Act)
  /-- `sohci_free_dev`, up to its wait. -/
  | freeDev (d : DevPtr)
  /-- `sohci_free_dev` gets to `Portable_FreeDevice`. -/
  | release (d : DevPtr) (mark : Option ℕ)

namespace Teardown

/-- **One step.** A device without EDs is released without a wait; otherwise the
wait ends when there has been a wake-up, and not within an interrupt routine. -/
def step (fuel : ℕ) (t : Teardown) : TeardownAct → Option Teardown
  | .sys a => (t.sys.step fuel a).map (fun s => { t with sys := s })
  | .freeDev d =>
    if (t.sys.mem.usbDev d).edBase = 0 then none
    else
      (freeDev fuel t.sys.mem d).map (fun o =>
        { sys := { t.sys with mem := o }
          freeing := (d, if ∀ e ∈ t.sys.mem.edsOf d, (t.sys.mem.ed e).state = .edNew then none
            else some o.wakeUps) :: t.freeing })
  | .release d mark =>
    if (t.sys.mem.usbDev d).edBase ≠ 0 ∧ (d, mark) ∈ t.freeing ∧ t.sys.tasks = [] ∧
        ∀ n ∈ mark, n < t.sys.mem.wakeUps then
      some { t with freeing := t.freeing.erase (d, mark) }
    else none

/-- **What a step must not do**: harm the lists of EDs, or release a device with
an ED that is not `ED_NEW`. -/
def Clean (fuel : ℕ) (t : Teardown) : TeardownAct → Prop
  | .sys a => ListsClean t.sys a
  | .freeDev d => t.sys.RunMeets ListsClean fuel ((t.sys.mem.edsOf d).map .freeEd)
  | .release d _ => ∀ e ∈ t.sys.mem.edsOf d, (t.sys.mem.ed e).state = .edNew

/-- The states of the runs all of whose steps meet a condition. -/
inductive Reach (ok : ℕ → Teardown → TeardownAct → Prop) : Teardown → Prop
  | init (o : Ohci) : o.Idle → Reach ok ⟨⟨o, [], [], []⟩, []⟩
  | step {t t' : Teardown} (fuel : ℕ) (a : TeardownAct) : Reach ok t → ok fuel t a →
      t.step fuel a = some t' → Reach ok t'

section Proofs

variable {t t' : Teardown} {fuel : ℕ} {a : TeardownAct}

theorem tidy_step (h : t.sys.Tidy) (hok : t.Clean fuel a) (hs : t.step fuel a = some t') :
    t'.sys.Tidy := by
  cases a with
  | sys a =>
    obtain ⟨s, h₁, rfl⟩ := Option.map_eq_some_iff.mp hs
    exact h.step hok h₁
  | freeDev d =>
    unfold step at hs
    dsimp only at hs
    split at hs
    · cases hs
    rename_i hb
    obtain ⟨o, h₁, rfl⟩ := Option.map_eq_some_iff.mp hs
    refine h.run hok ?_
    rw [Ohci.edsOf, List.map_map]
    exact freeDev_run hb h₁
  | release d mark =>
    unfold step at hs
    dsimp only at hs
    split at hs
    · cases hs
      exact h
    · cases hs

theorem Reach.tidy (h : t.Reach Clean) : t.sys.Tidy := by
  induction h with
  | init o ho => exact ho.tidy
  | step fuel a _ hok hs ih => exact tidy_step ih hok hs

end Proofs

end Teardown

section Unused

variable {s : Sys} {e : EdPtr}

/-- **The controller gets to linked EDs only.** -/
theorem Sys.Tidy.onChain (h : s.Tidy) (he : s.mem.OnChain e) (h0 : e ≠ 0) :
    (s.mem.skel.state e).oper = true := by
  choose xs hx hmem using h.hc.chain
  obtain ⟨S, hS, hS'⟩ := h.per
  have hin : e = 0 ∨ e ∈ S ∨ ∃ l, e ∈ xs l := by
    clear h0
    induction he with
    | head l =>
      by_cases h0 : s.mem.hcHead l = 0
      · exact .inl h0
      · exact .inr (.inr ⟨l, (hx l).fwd.start_mem h0⟩)
    | table i _ => exact .inr (.inl (hS.table i))
    | next x _ h0 ih =>
      obtain hx0 | hxS | ⟨l, hxl⟩ := ih
      · exact absurd hx0 h0
      · exact .inr (.inl (hS.next x hxS h0))
      · obtain ⟨as, bs, heq⟩ := List.append_of_mem hxl
        have hdl := hx l
        rw [heq] at hdl
        have hnext : s.mem.nextED x = bs.headD 0 := hdl.next_eq
        cases bs with
        | nil => exact .inl hnext
        | cons b bs =>
          refine .inr (.inr ⟨l, ?_⟩)
          rw [hnext, heq]
          simp
  obtain he0 | heS | ⟨l, hel⟩ := hin
  · exact absurd he0 h0
  · exact (hS' e heS h0).2
  · exact ((hmem l e).mp hel).2.2

/-- **A new ED is not in use.** -/
theorem Sys.Tidy.not_inUse (h : s.Tidy) (ht : s.tasks = []) (h0 : e ≠ 0)
    (hnew : (s.mem.ed e).state = .edNew) : ¬ s.mem.EdInUse e := by
  have hst : s.mem.skel.state e = .edNew := hnew
  rintro (⟨f, xs, hw, he⟩ | hchain)
  · obtain ⟨rs, hrs⟩ := h.rm.lists
    have hwalks : s.walks = [] := by rw [Sys.walks, ht]; rfl
    rw [hwalks] at hrs
    rw [hw.unique (hrs.walk f)] at he
    have hpend := ((hrs.mem e).mp (by cases f <;> simp [he])).2
    rw [hst] at hpend
    cases hpend
  · have hoper := h.onChain hchain h0
    rw [hst] at hoper
    cases hoper

end Unused

/-- **The EDs of a device that is released are not in use**, in runs of clean
steps. -/
theorem release_unused {fuel : ℕ} {t t' : Teardown} {d : DevPtr} {mark : Option ℕ}
    (h : t.Reach Teardown.Clean) (hok : t.Clean fuel (.release d mark))
    (hs : t.step fuel (.release d mark) = some t') :
    ∀ e ∈ t.sys.mem.edsOf d, ¬ t.sys.mem.EdInUse e := by
  intro e he
  unfold Teardown.step at hs
  dsimp only at hs
  split at hs
  · rename_i hready
    obtain ⟨i, -, rfl⟩ := List.mem_map.mp he
    have h0 : (t.sys.mem.usbDev d).edBase + i ≠ 0 :=
      fun h0 => hready.1 (Nat.add_eq_zero_iff.mp h0).1
    exact h.tidy.not_inUse hready.2.2.1 h0 (hok _ he)
  · cases hs

/-! ## Woken by another URB -/

/-- Several steps in a row. -/
def Teardown.run (fuel : ℕ) (t : Teardown) : List TeardownAct → Option Teardown
  | [] => some t
  | a :: as => (t.step fuel a).bind (fun t => t.run fuel as)

theorem Teardown.Reach.run {fuel : ℕ} {t t' : Teardown} {as : List TeardownAct}
    (h : t.Reach (fun _ _ _ => True)) (hr : t.run fuel as = some t') :
    t'.Reach (fun _ _ _ => True) := by
  induction as generalizing t with
  | nil =>
    cases hr
    exact h
  | cons a as ih =>
    obtain ⟨t₁, h₁, hr⟩ := Option.bind_eq_some_iff.mp hr
    exact ih (.step fuel a h trivial h₁) hr

/-- A driver with two devices, whose EDs are at the addresses from 32 and from
64 on. Each has a bulk URB, and the first an interrupt URB too. -/
def twoDevices : Ohci :=
  { (default : Ohci) with
    usbDev := fun d => { (default : UsbDev) with edBase := 32 * d }
    urb := fun u =>
      if u = 3 then
        { (default : Urb) with pipe := ⟨.int, 1, 2, false, false⟩, dev := 1, interval := 32 }
      else { (default : Urb) with pipe := ⟨.bulk, u, 1, false, false⟩, dev := u } }

theorem twoDevices_idle : twoDevices.Idle :=
  ⟨fun _ => rfl, rfl, fun l => by cases l <;> rfl, fun l => by cases l <;> rfl, fun _ => rfl,
    fun _ => rfl, fun u => by unfold twoDevices; dsimp only; split <;> rfl⟩

/-- The URB of the first device is unlinked, and in the next frame the second
device is freed; then `dl_del_list` takes the TD of the URB off its queue. -/
def wokenEarly : List TeardownAct :=
  [.sys (.submitFirst 1 1001 (fun _ => 1002)), .sys (.submitSecond 1 0 0),
    .sys (.submitFirst 2 1003 (fun _ => 1004)), .sys (.submitSecond 2 0 0), .sys (.unlink 1),
    .sys (.frame 1), .freeDev 2, .sys (.delIrq false), .sys .resume, .sys .resume, .sys .resume,
    .sys .resume]

/-- The wake-up meant for the URB ends the wait of the device. -/
theorem release_inUse : ¬ ∀ (fuel : ℕ) (t t' : Teardown) (d : DevPtr) (mark : Option ℕ),
    t.Reach (fun _ _ _ => True) → t.step fuel (.release d mark) = some t' →
      ∀ e ∈ t.sys.mem.edsOf d, ¬ t.sys.mem.EdInUse e := by
  intro hclaim
  obtain ⟨t, t', hrun, hs, hhead, hnext, hin⟩ : ∃ t t',
      Teardown.run 1 ⟨⟨twoDevices, [], [], []⟩, []⟩ wokenEarly = some t ∧
      t.step 1 (.release 2 (some 0)) = some t' ∧ t.sys.mem.edRmList true = 66 ∧
      (t.sys.mem.ed 66).edRmList = 0 ∧ 66 ∈ t.sys.mem.edsOf 2 :=
    ⟨_, _, rfl, rfl, rfl, rfl, by decide⟩
  refine hclaim 1 t t' 2 (some 0) (Teardown.Reach.run (.init _ twoDevices_idle) hrun) hs 66
    hin (.inl ?_)
  exact ⟨true, [66], ⟨hhead, by decide, hnext⟩, List.mem_singleton_self _⟩

/-! ## A device freed while another is at work -/

/-- **A step that harms no list whatever these hold**, because of the state of
the ED it is about or because the list is not walked. No periodic ED is
unlinked by it. -/
def Sys.Plain (s : Sys) : Act → Prop
  | .submitFirst _ _ _ | .frame _ => True
  | .submitSecond u buf setup => ∀ e ∈ linksEd s.mem u buf setup,
      (s.mem.ed e).state.oper = false ∧ (s.mem.ed e).state.urbDel = false
  | .freeEd e => (s.mem.ed e).state = .edNew ∨ (s.mem.ed e).state = .edOper ∧
      (s.mem.ed e).type.periodic = false ∧ ¬ s.Walking s.mem.frame
  | .delIrq f => ¬ s.Walking f
  | .resume => ∀ task ∈ s.tasks.head?, task.walk.isSome
  | _ => False

instance (s : Sys) : (a : Act) → Decidable (s.Plain a)
  | .submitFirst _ _ _ | .frame _ => isTrue trivial
  | .submitSecond u buf setup => inferInstanceAs (Decidable (∀ e ∈ linksEd s.mem u buf setup, _))
  | .freeEd _ => inferInstanceAs (Decidable (_ ∨ _))
  | .delIrq f => inferInstanceAs (Decidable (¬ s.Walking f))
  | .resume => inferInstanceAs (Decidable (∀ task ∈ s.tasks.head?, task.walk.isSome))
  | .unlink _ | .unlinkFinish _ | .doneIrq | .hcEd _ _ _ _ | .hcTd _ _ _ _ _ | .hcDone _
  | .hcData _ _ => isFalse id

section Plain

variable {s s' : Sys} {a : Act} {fuel : ℕ} {as : List Act} {e : EdPtr}

/-- The schedule leads to no new ED. -/
theorem Sys.Tidy.not_lingers (h : s.Tidy) (h0 : e ≠ 0) (hnew : (s.mem.ed e).state = .edNew) :
    ¬ s.mem.skel.Lingers e := by
  intro hling
  obtain ⟨S, hS, hS'⟩ := h.per
  have hoper := (hS' e (hling S hS) h0).2
  have hstate : s.mem.skel.state e = .edNew := hnew
  rw [hstate] at hoper
  cases hoper

theorem Sys.Tidy.listsClean (h : s.Tidy) (hp : s.Plain a) (hs : s.step fuel a = some s') :
    ListsClean s a := by
  cases a with
  | submitFirst u dummy tds =>
    refine ⟨fun e he _ => ?_, trivial, trivial⟩
    have h0 : edOf s.mem (s.mem.urb u).dev (s.mem.urb u).pipe ≠ 0 := fun h0 => by
      rw [Sys.step, if_pos h0] at hs
      cases hs
    unfold initsEd at he
    dsimp only at he
    split at he
    · rename_i hnew
      cases he
      exact h.not_lingers h0 hnew.2.2.2.1
    · cases he
  | submitSecond u buf setup =>
    exact ⟨fun e he _ => (hp e he).1, fun e he => (hp e he).2, trivial⟩
  | freeEd e =>
    obtain hnew | ⟨hoper, hty, hwalk⟩ := hp
    · refine ⟨fun _ ho => ?_, fun hne => absurd hnew hne, fun ho => ?_, fun ho => ?_⟩
      · rw [hnew] at ho
        cases ho
      · rw [hnew] at ho
        cases ho
      · rw [hnew] at ho
        cases ho
    · refine ⟨fun _ _ => hoper, fun _ _ => hwalk, fun _ => hoper, fun _ hper => ?_⟩
      rw [hty] at hper
      cases hper
  | delIrq f => exact ⟨trivial, hp, trivial⟩
  | frame n => exact ⟨trivial, trivial, trivial⟩
  | resume =>
    refine ⟨trivial, trivial, fun e next tasks ht => ?_⟩
    have hwalk := hp (.endEd e next) (by rw [ht]; rfl)
    cases hwalk
  | unlink => exact hp.elim
  | unlinkFinish => exact hp.elim
  | doneIrq => exact hp.elim
  | hcEd => exact hp.elim
  | hcTd => exact hp.elim
  | hcDone => exact hp.elim
  | hcData => exact hp.elim

/-- A run of such steps, computed. -/
def Sys.plainRun (fuel : ℕ) (s : Sys) : List Act → Option Sys
  | [] => some s
  | a :: as => if s.Plain a then (s.step fuel a).bind (fun s => s.plainRun fuel as) else none

theorem Sys.Tidy.plainRun (h : s.Tidy) (hr : s.plainRun fuel as = some s') :
    s.run fuel as = some s' ∧ s.RunMeets ListsClean fuel as := by
  induction as generalizing s with
  | nil => exact ⟨hr, trivial⟩
  | cons a as ih =>
    rw [Sys.plainRun] at hr
    split at hr
    · rename_i hp
      obtain ⟨s₁, h₁, hr⟩ := Option.bind_eq_some_iff.mp hr
      have hok := h.listsClean hp h₁
      obtain ⟨hrun, hmeets⟩ := ih (h.step hok h₁) hr
      refine ⟨?_, hok, fun s₂ h₂ => ?_⟩
      · rw [Sys.run, h₁]
        exact hrun
      · rw [h₁] at h₂
        cases h₂
        exact hmeets
    · cases hr

theorem Sys.RunMeets.append {ok : Sys → Act → Prop} {bs : List Act} (h : s.RunMeets ok fuel as)
    (hr : s.run fuel as = some s') (h' : s'.RunMeets ok fuel bs) :
    s.RunMeets ok fuel (as ++ bs) := by
  induction as generalizing s with
  | nil =>
    cases hr
    exact h'
  | cons a as ih =>
    obtain ⟨s₁, h₁, hr⟩ := Option.bind_eq_some_iff.mp hr
    refine ⟨h.1, fun s₂ h₂ => ?_⟩
    rw [h₁] at h₂
    cases h₂
    exact ih (h.2 s₁ h₁) hr

theorem Teardown.Reach.plainRun {t : Teardown} (h : t.Reach Teardown.Clean)
    (hr : t.sys.plainRun fuel as = some s') :
    Teardown.Reach Teardown.Clean { t with sys := s' } := by
  induction as generalizing t with
  | nil =>
    cases hr
    exact h
  | cons a as ih =>
    rw [Sys.plainRun] at hr
    split at hr
    · rename_i hp
      obtain ⟨s₁, h₁, hr⟩ := Option.bind_eq_some_iff.mp hr
      refine ih (t := { t with sys := s₁ })
        (.step fuel (.sys a) h (h.tidy.listsClean hp h₁) ?_) hr
      exact congrArg (Option.map _) h₁
    · cases hr

end Plain

/-- The three URBs are submitted. -/
def queueThree : List Act :=
  [.submitFirst 1 1001 (fun _ => 1002), .submitSecond 1 0 0,
    .submitFirst 2 1003 (fun _ => 1004), .submitSecond 2 0 0,
    .submitFirst 3 1005 (fun _ => 1006), .submitSecond 3 0 0]

/-- In the next frame `dl_del_list` empties the queues of the freed EDs. -/
def removeFreed : List Act := .frame 1 :: .delIrq false :: List.replicate 7 .resume

/-- The EDs of the first device in front of that of the interrupt URB, and
those behind it. -/
def freeBefore : List Act := (List.range 4).map (fun i => .freeEd (32 + i))

def freeBehind : List Act := (List.range 27).map (fun i => .freeEd (37 + i))

/-- A bound below which all addresses in use are settles a statement about all
addresses. -/
theorem forall_of_lt {P : ℕ → Prop} (n : ℕ) (h : ∀ x < n, P x) (h' : ∀ y, P (y + n)) (x : ℕ) :
    P x := by
  obtain hx | hx := Nat.lt_or_ge x n
  · exact h x hx
  · rw [← Nat.sub_add_cancel hx]
    exact h' _

/-- The two EDs of the first device are taken off, the second one off the
interrupt schedule; `dl_del_list` removes them, and the device is released when
that has woken it up. The other device keeps its ED. -/
theorem release_unused_freed : ∃ (s₁ s₂ s₃ : Sys) (t' : Teardown),
    Sys.run 64 ⟨twoDevices, [], [], []⟩ queueThree = some s₁ ∧
    s₁.mem.EdInUse 34 ∧ s₁.mem.EdInUse 36 ∧
    Teardown.step 64 ⟨s₁, []⟩ (.freeDev 1) = some ⟨s₂, [(1, some 0)]⟩ ∧
    s₂.run 64 removeFreed = some s₃ ∧
    Teardown.step 64 ⟨s₃, [(1, some 0)]⟩ (.release 1 (some 0)) = some t' ∧
    (s₃.mem.ed 66).state = .edOper ∧ ∀ e ∈ s₃.mem.edsOf 1, ¬ s₃.mem.EdInUse e := by
  -- the run, with what is to be seen of it
  have hrun : (do
      let s₁ ← Sys.plainRun 64 ⟨twoDevices, [], [], []⟩ queueThree
      let s ← s₁.plainRun 64 freeBefore
      let s' ← s.step 64 (.freeEd 36)
      let s₂' ← s'.plainRun 64 freeBehind
      let t₂ ← Teardown.step 64 ⟨s₁, []⟩ (.freeDev 1)
      let s₃ ← t₂.sys.plainRun 64 removeFreed
      let t' ← Teardown.step 64 ⟨s₃, t₂.freeing⟩ (.release 1 (some 0))
      some (decide ((s₁.mem.hcHead .bulk = 34 ∧ s₁.mem.intTable 0 = 36 ∧
          (s₁.mem.usbDev 1).edBase = 32) ∧
        (t₂.freeing = [(1, some 0)] ∧ (s₃.mem.ed 66).state = .edOper ∧
          ∀ e ∈ s₃.mem.edsOf 1, (s₃.mem.ed e).state = .edNew) ∧
        ((s.mem.ed 36).type = .int ∧ s.mem.intTable 0 = 36 ∧ s.mem.edIsotail = 0 ∧
          s.mem.interval 36 = 32 ∧ s.mem.branch 36 = 0 ∧ (s.mem.ed 36).state = .edOper ∧
          ¬ s.Walking s.mem.frame) ∧
        ∀ x ∈ List.range 128, s.mem.nextED x ≠ 36 ∧ (s.mem.ed x).edPrev ≠ 36 ∧
          (s.mem.intTable x = 36 → x = 0)))) = some true := by decide +kernel
  have hfar : ∀ y, ((Sys.plainRun 64 ⟨twoDevices, [], [], []⟩ queueThree).bind
      (Sys.plainRun 64 · freeBefore)).map (fun s => (s.mem.nextED (y + 128),
        (s.mem.ed (y + 128)).edPrev, s.mem.intTable (y + 128))) = some (0, 0, 0) := fun _ => rfl
  obtain ⟨s₁, h₁, hrun⟩ := Option.bind_eq_some_iff.mp hrun
  obtain ⟨s, hs, hrun⟩ := Option.bind_eq_some_iff.mp hrun
  obtain ⟨s', hunlink, hrun⟩ := Option.bind_eq_some_iff.mp hrun
  obtain ⟨s₂', hbehind, hrun⟩ := Option.bind_eq_some_iff.mp hrun
  obtain ⟨t₂, hfree, hrun⟩ := Option.bind_eq_some_iff.mp hrun
  obtain ⟨s₃, h₃, hrun⟩ := Option.bind_eq_some_iff.mp hrun
  obtain ⟨t', hrel, hrun⟩ := Option.bind_eq_some_iff.mp hrun
  obtain ⟨⟨hbulk, htab, hbase⟩, ⟨hfreeing, hother, hnew⟩, ⟨hty, htab', htail, hinterval, hbranch,
    hstate, hwalk⟩, hnear⟩ := of_decide_eq_true (Option.some.inj hrun)
  have hinit : Teardown.Reach Teardown.Clean ⟨⟨twoDevices, [], [], []⟩, []⟩ :=
    .init _ twoDevices_idle
  have hreach₁ : Teardown.Reach Teardown.Clean ⟨s₁, []⟩ := hinit.plainRun h₁
  -- the interrupt ED is the only one of the schedule, on one list
  have hfar : ∀ y, s.mem.nextED (y + 128) = 0 ∧ (s.mem.ed (y + 128)).edPrev = 0 ∧
      s.mem.intTable (y + 128) = 0 := fun y => by
    simpa only [h₁, Option.bind_some, hs, Option.map_some, Option.some.injEq, Prod.mk.injEq]
      using hfar y
  have hlinks : ∀ x, s.mem.nextED x ≠ 36 ∧ (s.mem.ed x).edPrev ≠ 36 ∧
      (s.mem.intTable x = 36 → x = 0) := by
    refine forall_of_lt 128 (fun x hx => hnear x (List.mem_range.mpr hx)) (fun y => ?_)
    obtain ⟨h₁, h₂, h₃⟩ := hfar y
    rw [h₁, h₂, h₃]
    exact ⟨by decide, by decide, fun h => by cases h⟩
  have hall : UnlinksAll s.mem 36 := by
    refine .of_first hty (fun x => (hlinks x).1) (fun x => (hlinks x).2.1) (by rw [htail]; decide)
      (fun b hb => ⟨0, ?_, ?_⟩) (fun i hi => ?_)
    · rw [hinterval]
      decide
    · rw [hbranch, (hlinks b).2.2 hb]
      rfl
    · rw [hinterval] at hi
      obtain rfl : i = 0 := Nat.lt_one_iff.mp hi
      rw [hbranch]
      exact htab'
  have hclean : ListsClean s (.freeEd 36) :=
    ⟨fun _ _ => hstate, fun _ _ => hwalk, fun _ => hstate, fun _ => hall⟩
  have htidy₁ : s₁.Tidy := hreach₁.tidy
  obtain ⟨hrun₁, hmeets₁⟩ := htidy₁.plainRun hs
  have htidy : s'.Tidy := (htidy₁.run hmeets₁ hrun₁).step hclean hunlink
  have hfreeClean : Teardown.Clean 64 ⟨s₁, []⟩ (.freeDev 1) := by
    have heds : (s₁.mem.edsOf 1).map Act.freeEd = freeBefore ++ .freeEd 36 :: freeBehind := by
      unfold Ohci.edsOf
      rw [hbase]
      rfl
    unfold Teardown.Clean
    dsimp only
    rw [heds]
    refine hmeets₁.append hrun₁ ⟨hclean, fun x hx => ?_⟩
    rw [hunlink] at hx
    cases hx
    exact (htidy.plainRun hbehind).2
  have hreach₂ : t₂.Reach Teardown.Clean := .step 64 _ hreach₁ hfreeClean hfree
  have hreach₃ := hreach₂.plainRun h₃
  obtain ⟨s₂, freeing⟩ := t₂
  obtain rfl : freeing = [(1, some 0)] := hfreeing
  have hin₁ : s₁.mem.EdInUse 34 := .inr (hbulk ▸ .head .bulk)
  have hin₂ : s₁.mem.EdInUse 36 := .inr (htab ▸ .table 0 (by decide))
  exact ⟨s₁, s₂, s₃, t', (hinit.tidy.plainRun h₁).1, hin₁, hin₂, hfree,
    (hreach₂.tidy.plainRun h₃).1, hrel, hother, release_unused hreach₃ hnew hrel⟩
