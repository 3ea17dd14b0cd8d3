import SideDumper.EpLink

/-!
# What linking and unlinking leaves alone

`ep_link` and `ep_unlink` write links, lists heads and the fields of an ED
that say where it is linked. The transfer queues of the EDs, the TDs, the
URBs and the rest of the memory stay as they are. `Ohci.queues` is what
stays.
-/

/-- What an ED says about its queue of TDs. -/
structure EdQueue where
  hwTailP : TdPtr
  hwHeadP : TdPtr
  headHalted : Bool
  headCarry : Bool
  type : PipeType
  lastIso : ℕ
  /-- The device address in `hwINFO`. -/
  fa : ℕ

/-- The queue of an ED. -/
def Ed.queue (r : Ed) : EdQueue :=
  ⟨r.hwTailP, r.hwHeadP, r.headHalted, r.headCarry, r.type, r.lastIso, r.hwINFO.fa⟩

/-- **The part of the memory that does not concern the lists of EDs.** -/
structure Queues where
  queue : EdPtr → EdQueue
  td : TdPtr → Td
  urb : UrbPtr → Urb
  usbDev : DevPtr → UsbDev
  iop : ℕ → UInt8
  tdAlloc : TdPtr → Bool
  trace : List Event
  doneHead : TdPtr
  regDonehead : TdPtr
  frameNo : ℕ
  disabled : Bool
  rhDevnum : ℕ
  dev : ℕ → DevPtr

/-- The part of the memory that linking leaves alone. -/
def Ohci.queues (o : Ohci) : Queues where
  queue := fun e => (o.ed e).queue
  td := o.td
  urb := o.urb
  usbDev := o.usbDev
  iop := o.iop
  tdAlloc := o.tdAlloc
  trace := o.trace
  doneHead := o.doneHead
  regDonehead := o.regDonehead
  frameNo := o.frameNo
  disabled := o.disabled
  rhDevnum := o.rhDevnum
  dev := o.dev

section Frame

variable {o o' : Ohci} {e v : EdPtr} {c : Cell} {l : HcList} {fuel : ℕ}

/-- A write to fields of an ED that do not concern its queue. -/
theorem queues_modEd {f : Ed → Ed} (hf : ∀ r, (f r).queue = r.queue) :
    (o.modEd e f).queues = o.queues := by
  have hq : (fun x => ((o.modEd e f).ed x).queue) = fun x => (o.ed x).queue := by
    funext x
    rw [Ohci.modEd_ed]
    split
    · rw [hf, ‹x = e›]
    · rfl
  have heq : (o.modEd e f).queues
      = { o.queues with queue := fun x => ((o.modEd e f).ed x).queue } := rfl
  rw [heq, hq]
  rfl

theorem queues_set : (o.set c v).queues = o.queues := by
  cases c with
  | table i => rfl
  | next x =>
    rw [Ohci.set]
    exact queues_modEd (by intro; rfl)

theorem queues_setHcHead : (o.setHcHead l v).queues = o.queues := by
  cases l <;> rfl

theorem queues_setHcTail : (o.setHcTail l v).queues = o.queues := by
  cases l <;> rfl

theorem queues_linkHc : (linkHc l o e).queues = o.queues := by
  unfold linkHc
  dsimp only
  rw [queues_setHcTail]
  refine (queues_modEd (by intro; rfl)).trans ?_
  split
  · exact queues_setHcHead
  · exact queues_modEd (by intro; rfl)

theorem queues_unlinkHc : (unlinkHc l o e).queues = o.queues := by
  have hsecond : ∀ o' : Ohci, (if o'.hcTail l = e then o'.setHcTail l (o'.ed e).edPrev
      else o'.modEd (o'.nextED e) (fun r => { r with edPrev := (o'.ed e).edPrev })).queues
      = o'.queues := by
    intro o'
    split
    · exact queues_setHcTail
    · exact queues_modEd (by intro; rfl)
  unfold unlinkHc
  dsimp only
  rw [hsecond]
  split
  · exact queues_setHcHead
  · exact queues_modEd (by intro; rfl)

theorem queues_linkIntLoop {interval intBranch i : ℕ}
    (h : linkIntLoop e interval intBranch fuel i o = some o') : o'.queues = o.queues := by
  induction fuel generalizing i o with
  | zero => cases h
  | succ fuel ih =>
    rw [linkIntLoop] at h
    split at h
    · obtain ⟨⟨c, stride⟩, -, h⟩ := Option.bind_eq_some_iff.mp h
      rw [ih h, queues_set]
      exact queues_modEd (by intro; rfl)
    · cases h
      rfl

theorem queues_linkIsoLoop {i : ℕ} (h : linkIsoLoop e fuel i o = some o') :
    o'.queues = o.queues := by
  induction fuel generalizing i o with
  | zero => cases h
  | succ fuel ih =>
    rw [linkIsoLoop] at h
    split at h
    · obtain ⟨⟨c, stride⟩, -, h⟩ := Option.bind_eq_some_iff.mp h
      rw [ih h, queues_set]
    · cases h
      rfl

theorem queues_unlinkWalk {inter inter' : ℕ}
    (h : unlinkWalk e o fuel c inter = some (o', inter')) :
    o'.queues = o.queues := by
  induction fuel generalizing c inter with
  | zero => cases h
  | succ fuel ih =>
    rw [unlinkWalk] at h
    split at h
    · split at h
      · cases h
        exact queues_set
      · exact ih h
    · cases h
      rfl

theorem queues_unlinkIntLoop {interval intBranch i : ℕ}
    (h : unlinkIntLoop e interval intBranch fuel i o = some o') : o'.queues = o.queues := by
  induction fuel generalizing i o with
  | zero => cases h
  | succ fuel ih =>
    rw [unlinkIntLoop] at h
    split at h
    · obtain ⟨⟨o₁, stride⟩, h₁, h⟩ := Option.bind_eq_some_iff.mp h
      rw [ih h, queues_unlinkWalk h₁]
    · cases h
      rfl

theorem queues_unlinkIsoWalk (h : unlinkIsoWalk e o fuel c = some o') : o'.queues = o.queues := by
  induction fuel generalizing c with
  | zero => cases h
  | succ fuel ih =>
    rw [unlinkIsoWalk] at h
    split at h
    · split at h
      · cases h
        exact queues_set
      · exact ih h
    · cases h
      rfl

/-- **`ep_link` leaves the queues alone.** -/
theorem queues_epLink (h : epLink fuel o e = some o') : o'.queues = o.queues := by
  have hraise : (o.modEd e (fun r => { r with state := .edOper, hwNextED := 0 })).queues
      = o.queues := queues_modEd (by intro; rfl)
  unfold epLink at h
  dsimp only at h
  rw [← hraise]
  generalize o.modEd e (fun r => { r with state := .edOper, hwNextED := 0 }) = o₁ at h
  split at h
  · cases h
    exact queues_linkHc
  · cases h
    exact queues_linkHc
  · obtain ⟨⟨branch, o₂⟩, h₂, h⟩ := Option.bind_eq_some_iff.mp h
    obtain ⟨loads, -, h₂⟩ := Option.bind_eq_some_iff.mp h₂
    simp only [Option.some.injEq, Prod.mk.injEq] at h₂
    obtain ⟨-, rfl⟩ := h₂
    have hinterval : (o₁.modEd e (fun r =>
        { r with intInterval := ep2nInterval (o₁.ed e).intPeriod })).queues = o₁.queues :=
      queues_modEd (by intro; rfl)
    rw [queues_linkIntLoop h]
    exact (queues_modEd (by intro; rfl)).trans hinterval
  · obtain ⟨o₂, h₂, h⟩ := Option.bind_eq_some_iff.mp h
    cases h
    have hone : (o₁.modEd e (fun r => { r with intInterval := 1 })).queues = o₁.queues :=
      queues_modEd (by intro; rfl)
    have hat : o₂.queues = o₁.queues := by
      rw [← hone]
      unfold linkIsoAt at h₂
      split at h₂
      · cases h₂
        exact (queues_modEd (by intro; rfl)).trans (queues_modEd (by intro; rfl))
      · obtain ⟨o₃, h₃, h₂⟩ := Option.bind_eq_some_iff.mp h₂
        cases h₂
        exact (queues_modEd (by intro; rfl)).trans (queues_linkIsoLoop h₃)
    exact hat

theorem queues_unlinkIso (h : unlinkIso fuel o e = some o') : o'.queues = o.queues := by
  have hnext : ∀ o' : Ohci, (if o'.nextED e ≠ 0 then
      o'.modEd (o'.nextED e) (fun r => { r with edPrev := (o'.ed e).edPrev }) else o').queues
      = o'.queues := by
    intro o'
    split
    · exact queues_modEd (by intro; rfl)
    · rfl
  have hback : (unlinkIsoBack o e).queues = o.queues := by
    unfold unlinkIsoBack
    dsimp only
    rw [hnext]
    split <;> rfl
  unfold unlinkIso at h
  dsimp only at h
  rw [← hback]
  split at h
  · cases h
    exact queues_modEd (by intro; rfl)
  · generalize unlinkIsoBack o e = o₁ at h
    generalize List.range 32 = is at h
    induction is generalizing o₁ with
    | nil =>
      cases h
      rfl
    | cons i is ih =>
      rw [List.foldlM_cons] at h
      obtain ⟨o₂, h₂, h⟩ := Option.bind_eq_some_iff.mp h
      rw [ih o₂ h, queues_unlinkIsoWalk h₂]

/-- **`ep_unlink` leaves the queues alone.** -/
theorem queues_epUnlink (h : epUnlink fuel o e = some o') : o'.queues = o.queues := by
  obtain ⟨o₂, h₂, h⟩ := Option.bind_eq_some_iff.mp h
  cases h
  refine (queues_modEd (by intro; rfl)).trans ?_
  have hskip : (o.modEd e (fun r => { r with hwINFO := { r.hwINFO with k := true } })).queues
      = o.queues := queues_modEd (by intro; rfl)
  rw [← hskip]
  unfold unlinkType at h₂
  generalize o.modEd e (fun r => { r with hwINFO := { r.hwINFO with k := true } }) = o₁ at h₂
  split at h₂
  · cases h₂
    exact queues_unlinkHc
  · cases h₂
    exact queues_unlinkHc
  · obtain ⟨o₃, h₃, h₂⟩ := Option.bind_eq_some_iff.mp h₂
    obtain ⟨loads, -, h₂⟩ := Option.bind_eq_some_iff.mp h₂
    cases h₂
    have hloop : o₃.queues = o₁.queues := queues_unlinkIntLoop h₃
    exact hloop
  · exact queues_unlinkIso h₂

end Frame
