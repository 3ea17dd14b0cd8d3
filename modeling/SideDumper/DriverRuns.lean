import SideDumper.SkelSteps

/-!
# Runs of the driver

`Sys` is the memory together with what the driver is in the middle of: the
URBs between the two phases of `sohci_submit_urb`, the synchronous
`sohci_unlink_urb` calls that wait, and the interrupt routines that have been
entered and not left, innermost first. An interrupt routine goes on one loop
pass at a time. Between two passes anything else may happen, which covers
completion callbacks that submit and unlink, a nested `dl_del_list` of an
unlink made in interrupt context, and the controller.

The controller is described by what it can write: to the queue head of an
ED, to a TD, to `hcca.done_head`, to the memory behind the buffers.
-/

/-- An interrupt routine and where it is. -/
inductive IrqTask
  /-- `dl_reverse_done_list`, at the TD `t`. -/
  | reverse (t rev : TdPtr)
  /-- `dl_done_list`, at the TD `t`. -/
  | done (t : TdPtr)
  /-- `dl_done_list`, behind the callback of a periodic URB. -/
  | requeue (u : UrbPtr) (e : EdPtr) (next : TdPtr)
  /-- `dl_done_list`, at the end of the body of its loop. -/
  | endEd (e : EdPtr) (next : TdPtr)
  /-- `dl_del_list`, at the ED `e` of its outer loop. -/
  | del (frame : Bool) (e : EdPtr)
  /-- `dl_del_list`, at the TD `t` of its inner loop. -/
  | delQueue (frame : Bool) (e : EdPtr) (tail : TdPtr) (fa : ℕ) (t : TdPtr) (tdP : TdLink)
deriving DecidableEq

/-- The removal list that a routine walks, and the ED it has got to. -/
def IrqTask.walk : IrqTask → Option (Bool × EdPtr)
  | .del frame e | .delQueue frame e _ _ _ _ => some (frame, e)
  | _ => none

/-- **One pass of an interrupt routine**, and what is left of it. -/
def IrqTask.step (fuel : ℕ) (o : Ohci) : IrqTask → Option (Ohci × Option IrqTask)
  | .reverse t rev =>
    if t = 0 then some (o, some (.done rev))
    else
      let o := reverseTd o t rev
      some (o, some (.reverse (o.nextTD t) t))
  | .done t =>
    if t = 0 then some (o, none)
    else do
      let next := (o.td t).nextDlTd
      let u := (o.td t).urb
      let e := (o.td t).ed
      let (o, again) ← doneTd o t
      some (o, some (if again then .requeue u e next else .endEd e next))
  | .requeue u e next => do
    let o ← requeueUrb o u
    some (o, some (.endEd e next))
  | .endEd e next => do
    let o ← doneEd fuel o e
    some (o, some (.done next))
  | .del frame e =>
    if e = 0 then some (delEnd o frame, none)
    else
      let r := o.ed e
      some (o, some (.delQueue frame e r.hwTailP r.hwINFO.fa r.hwHeadP (.head e)))
  | .delQueue frame e tail fa t tdP =>
    if t = tail then
      let o := delEdEnd o e tail fa
      some (o, some (.del frame (o.ed e).edRmList))
    else do
      let next := o.nextTD t
      let (o, tdP) ← delTd o e t tdP
      some (o, some (.delQueue frame e tail fa next tdP))

/-- **The driver in the middle of a run.** -/
structure Sys where
  mem : Ohci
  /-- The URBs whose submission has had its first phase. -/
  pend : List UrbPtr
  /-- The URBs whose synchronous unlinking waits. -/
  waiting : List UrbPtr
  /-- The interrupt routines, the innermost first. -/
  tasks : List IrqTask

/-- What can happen next. -/
inductive Act
  /-- The first phase of `sohci_submit_urb`. -/
  | submitFirst (u : UrbPtr) (dummy : TdPtr) (tds : ℕ → TdPtr)
  /-- The second phase of `sohci_submit_urb`. -/
  | submitSecond (u : UrbPtr) (buf setup : ℕ)
  /-- `sohci_unlink_urb`. -/
  | unlink (u : UrbPtr)
  /-- The end of a synchronous `sohci_unlink_urb`. -/
  | unlinkFinish (u : UrbPtr)
  /-- `sohci_free_dev` gets to an ED. -/
  | freeEd (e : EdPtr)
  /-- `dl_done_list (dl_reverse_done_list)` is entered. -/
  | doneIrq
  /-- `dl_del_list` is entered. -/
  | delIrq (frame : Bool)
  /-- The innermost interrupt routine goes on. -/
  | resume
  /-- The frame counter moves. -/
  | frame (n : ℕ)
  /-- The controller writes to `hwHeadP` of an ED. -/
  | hcEd (e : EdPtr) (head : TdPtr) (halted carry : Bool)
  /-- The controller writes to a TD. -/
  | hcTd (t : TdPtr) (cc cbp : ℕ) (next : TdPtr) (psw : ℕ)
  /-- The controller writes `hcca.done_head`. -/
  | hcDone (t : TdPtr)
  /-- The controller writes to memory. -/
  | hcData (a : ℕ) (b : UInt8)

/-- **One step of a run.** EDs are not at the null address. -/
def Sys.step (fuel : ℕ) (s : Sys) : Act → Option Sys
  | .submitFirst u dummy tds =>
    if edOf s.mem (s.mem.urb u).dev (s.mem.urb u).pipe = 0 then none
    else
      let (o, more) := submitFirst s.mem u dummy tds
      some { s with mem := o, pend := if more then u :: s.pend else s.pend }
  | .submitSecond u buf setup =>
    if u ∈ s.pend then do
      let (o, _) ← submitSecond fuel s.mem u buf setup
      some { s with mem := o, pend := s.pend.erase u }
    else none
  | .unlink u =>
    let (o, wait) := unlinkUrb s.mem u
    some { s with mem := o, waiting := if wait then u :: s.waiting else s.waiting }
  | .unlinkFinish u =>
    if u ∈ s.waiting then
      some { s with mem := unlinkFinish s.mem u, waiting := s.waiting.erase u }
    else none
  | .freeEd e =>
    if e = 0 then none
    else do
      let o ← freeEd fuel s.mem e
      some { s with mem := o }
  | .doneIrq =>
    some { s with
      mem := { s.mem with doneHead := 0 }
      tasks := .reverse s.mem.doneHead 0 :: s.tasks }
  | .delIrq frame => some { s with tasks := .del frame (s.mem.edRmList frame) :: s.tasks }
  | .resume =>
    match s.tasks with
    | [] => none
    | task :: tasks => do
      let (o, task) ← task.step fuel s.mem
      some { s with mem := o, tasks := task.toList ++ tasks }
  | .frame n => some { s with mem := { s.mem with frameNo := n } }
  | .hcEd e head halted carry =>
    some { s with mem := s.mem.modEd e (fun r =>
      { r with hwHeadP := head, headHalted := halted, headCarry := carry }) }
  | .hcTd t cc cbp next psw =>
    some { s with mem := s.mem.modTd t (fun r =>
      { r with
        hwINFO := { r.hwINFO with cc := cc }
        hwCBP := cbp
        hwNextTD := next
        hwPSW := psw }) }
  | .hcDone t => some { s with mem := { s.mem with doneHead := t } }
  | .hcData a b => some { s with mem := { s.mem with iop := Function.update s.mem.iop a b } }

/-- **Nothing has happened yet**: the lists are empty, all EDs are new and no
URB is in use. -/
structure Ohci.Idle (o : Ohci) : Prop where
  table : ∀ i, o.intTable i = 0
  isotail : o.edIsotail = 0
  head : ∀ l, o.hcHead l = 0
  tail : ∀ l, o.hcTail l = 0
  rm : ∀ frame, o.edRmList frame = 0
  state : ∀ e, (o.ed e).state = .edNew
  hcpriv : ∀ u, (o.urb u).hcpriv = none

/-- **The states of the runs all of whose steps meet a condition.** -/
inductive Sys.Reach (ok : Sys → Act → Prop) : Sys → Prop
  | init (o : Ohci) : o.Idle → Sys.Reach ok ⟨o, [], [], []⟩
  | step {s s' : Sys} (fuel : ℕ) (a : Act) : Sys.Reach ok s → ok s a → s.step fuel a = some s' →
      Sys.Reach ok s'

/-- What holds at first and is kept by every step that meets the condition
holds throughout. -/
theorem Sys.Reach.invariant {ok : Sys → Act → Prop} {P : Sys → Prop} {s : Sys}
    (hinit : ∀ o : Ohci, o.Idle → P ⟨o, [], [], []⟩)
    (hstep : ∀ s s' fuel a, P s → ok s a → s.step fuel a = some s' → P s') (h : s.Reach ok) :
    P s := by
  induction h with
  | init o ho => exact hinit o ho
  | step fuel a _ hok hs ih => exact hstep _ _ fuel a ih hok hs

/-- Several steps in a row. -/
def Sys.run (fuel : ℕ) (s : Sys) : List Act → Option Sys
  | [] => some s
  | a :: as => do
    let s ← s.step fuel a
    s.run fuel as

/-- Where a run goes on. -/
theorem Sys.run_next {β : Type*} {f : Sys → β} {v : β} {fuel : ℕ} {s₀ s : Sys}
    {as : List Act} (a : Act)
    (h : s₀.run fuel as = some s) (hv : (s₀.run fuel (as ++ [a])).map f = some v) :
    ∃ s', s.step fuel a = some s' ∧ f s' = v ∧ s₀.run fuel (as ++ [a]) = some s' := by
  obtain ⟨s', hs', hf⟩ := Option.map_eq_some_iff.mp hv
  refine ⟨s', ?_, hf, hs'⟩
  clear hv
  induction as generalizing s₀ with
  | nil =>
    obtain rfl := Option.some.inj h
    obtain ⟨s₁, h₁, hnil⟩ := Option.bind_eq_some_iff.mp hs'
    rwa [← Option.some.inj hnil]
  | cons b as ih =>
    obtain ⟨s₁, h₁, h⟩ := Option.bind_eq_some_iff.mp h
    rw [List.cons_append, Sys.run, h₁] at hs'
    exact ih h hs'

/-- Where several steps lead, when nothing is asked of them. -/
theorem Sys.Reach.run {fuel : ℕ} {s s' : Sys} {as : List Act} (h : s.Reach (fun _ _ => True))
    (hr : s.run fuel as = some s') : s'.Reach (fun _ _ => True) := by
  induction as generalizing s with
  | nil =>
    cases hr
    exact h
  | cons a as ih =>
    obtain ⟨s₁, h₁, hr⟩ := Option.bind_eq_some_iff.mp hr
    exact ih (.step fuel a h trivial h₁) hr

/-- The loop of `sohci_free_dev` is one step for each ED. -/
theorem freeDev_run {fuel : ℕ} {s : Sys} {d : DevPtr} {o' : Ohci}
    (hb : (s.mem.usbDev d).edBase ≠ 0)
    (h : freeDev fuel s.mem d = some o') :
    s.run fuel ((List.range 32).map (fun i => .freeEd ((s.mem.usbDev d).edBase + i)))
      = some { s with mem := o' } := by
  have hloop : ∀ (is : List ℕ) (o : Ohci), o.usbDev = s.mem.usbDev →
      is.foldlM (fun o i => freeEd fuel o ((o.usbDev d).edBase + i)) o = some o' →
      Sys.run fuel { s with mem := o } (is.map (fun i => .freeEd ((s.mem.usbDev d).edBase + i)))
        = some { s with mem := o' } := by
    intro is
    induction is with
    | nil =>
      intro o _ h
      cases h
      rfl
    | cons i is ih =>
      intro o ho h
      rw [List.foldlM_cons] at h
      obtain ⟨o₁, h₁, h⟩ := Option.bind_eq_some_iff.mp h
      have hdev : o₁.usbDev = o.usbDev := by
        unfold freeEd at h₁
        split at h₁
        · cases h₁
          rfl
        have hrm : ∀ o₂ : Ohci, ((epRmEd o₂ ((o.usbDev d).edBase + i)).modEd
            ((o.usbDev d).edBase + i) (fun r => { r with state := .edDel })).usbDev
              = o₂.usbDev := by
          intro o₂
          unfold epRmEd
          split
          · rfl
          · dsimp only
            split <;> rfl
        split at h₁
        · obtain ⟨o₂, h₂, h₁⟩ := Option.bind_eq_some_iff.mp h₁
          cases h₁
          rw [hrm]
          exact congrArg Queues.usbDev (queues_epUnlink h₂)
        · cases h₁
          exact hrm o
      rw [ho] at h₁
      have hne : (s.mem.usbDev d).edBase + i ≠ 0 := fun h0 => hb (Nat.add_eq_zero_iff.mp h0).1
      rw [List.map_cons, Sys.run, Sys.step, if_neg hne, h₁]
      exact ih o₁ (hdev.trans ho) h
  exact hloop _ s.mem rfl h

/-! ## A run to look at -/

/-- A driver with two bulk URBs for one endpoint, whose ED is at the address
12. -/
def twoBulkUrbs : Ohci :=
  { (default : Ohci) with
    usbDev := fun _ => { (default : UsbDev) with edBase := 10 }
    urb := fun _ => { (default : Urb) with pipe := ⟨.bulk, 1, 1, false, false⟩, dev := 1 } }

theorem twoBulkUrbs_idle : twoBulkUrbs.Idle :=
  ⟨fun _ => rfl, rfl, fun l => by cases l <;> rfl, fun l => by cases l <;> rfl, fun _ => rfl,
    fun _ => rfl, fun _ => rfl⟩

/-- The first URB is queued, and unlinked between the two phases of the
submission of the second. -/
def unlinkBetween : List Act :=
  [.submitFirst 1 100 (fun _ => 101), .submitSecond 1 0 0, .submitFirst 2 0 (fun _ => 102),
    .unlink 1, .submitSecond 2 0 0]
