import SideDumper.DoneList

/-!
# What the lists of EDs depend on

The lists of EDs – those of the controller and the two removal lists – are
threaded through a few fields of each ED and start in a few fields of the
driver. `Skel` is just these, and `Ohci.skel` reads them off the memory.
Everything the driver does to TDs, URBs and devices leaves them alone; that
is `Quiet`, which also says that the private parts that stay belong to the
same EDs as before. What is left are a handful of writes, and each function
that deals with EDs is one of them or a few.
-/

/-- **The skeleton of the memory**: where the lists of EDs start, and what
they run through. -/
@[ext]
structure Skel where
  frame : Bool
  table : ℕ → EdPtr
  isotail : EdPtr
  head : HcList → EdPtr
  tail : HcList → EdPtr
  rm : Bool → EdPtr
  next : EdPtr → EdPtr
  prev : EdPtr → EdPtr
  rmNext : EdPtr → EdPtr
  state : EdPtr → EdState
  type : EdPtr → PipeType

namespace Ohci

/-- The skeleton of a memory. -/
def skel (o : Ohci) : Skel where
  frame := o.frame
  table := o.intTable
  isotail := o.edIsotail
  head := o.hcHead
  tail := o.hcTail
  rm := o.edRmList
  next := o.nextED
  prev := fun e => (o.ed e).edPrev
  rmNext := fun e => (o.ed e).edRmList
  state := fun e => (o.ed e).state
  type := fun e => (o.ed e).type

/-- The ED a URB is queued on. -/
def privEd (o : Ohci) (u : UrbPtr) : Option EdPtr := (o.urb u).hcpriv.map UrbPriv.ed

section Simp

variable {o : Ohci} {e : EdPtr} {t : TdPtr} {u : UrbPtr} {d : DevPtr} {ev : Event} {v : EdPtr}
  {l : HcList}

@[simp] theorem skel_modTd (f : Td → Td) : (o.modTd t f).skel = o.skel := rfl
@[simp] theorem skel_modUrb (f : Urb → Urb) : (o.modUrb u f).skel = o.skel := rfl
@[simp] theorem skel_modPriv (f : UrbPriv → UrbPriv) : (o.modPriv u f).skel = o.skel := rfl
@[simp] theorem skel_modDev (f : UsbDev → UsbDev) : (o.modDev d f).skel = o.skel := rfl
@[simp] theorem skel_log : (o.log ev).skel = o.skel := rfl

/-- Writing one field of an ED is writing at one place of that field. -/
theorem modEd_field {β : Type*} (f : Ed → Ed) (g : Ed → β) :
    (fun x => g ((o.modEd e f).ed x))
      = Function.update (fun x => g (o.ed x)) e (g (f (o.ed e))) := by
  funext x
  rw [modEd_ed, Function.update_apply]
  split <;> rfl

/-- A write to an ED, on the skeleton. -/
theorem skel_modEd (f : Ed → Ed) : (o.modEd e f).skel =
    { o.skel with
      next := Function.update o.skel.next e (f (o.ed e)).hwNextED
      prev := Function.update o.skel.prev e (f (o.ed e)).edPrev
      rmNext := Function.update o.skel.rmNext e (f (o.ed e)).edRmList
      state := Function.update o.skel.state e (f (o.ed e)).state
      type := Function.update o.skel.type e (f (o.ed e)).type } := by
  ext1
  case next => exact modEd_field f Ed.hwNextED
  case prev => exact modEd_field f Ed.edPrev
  case rmNext => exact modEd_field f Ed.edRmList
  case state => exact modEd_field f Ed.state
  case type => exact modEd_field f Ed.type
  case head =>
    funext l
    cases l <;> rfl
  case tail =>
    funext l
    cases l <;> rfl
  all_goals rfl

@[simp] theorem skel_modEd_next : (o.modEd e (fun r => { r with hwNextED := v })).skel
    = { o.skel with next := Function.update o.skel.next e v } := by
  rw [skel_modEd]
  ext1
  case prev => exact Function.update_eq_self e o.skel.prev
  case rmNext => exact Function.update_eq_self e o.skel.rmNext
  case state => exact Function.update_eq_self e o.skel.state
  case type => exact Function.update_eq_self e o.skel.type
  all_goals rfl

@[simp] theorem skel_modEd_prev : (o.modEd e (fun r => { r with edPrev := v })).skel
    = { o.skel with prev := Function.update o.skel.prev e v } := by
  rw [skel_modEd]
  ext1
  case next => exact Function.update_eq_self e o.skel.next
  case rmNext => exact Function.update_eq_self e o.skel.rmNext
  case state => exact Function.update_eq_self e o.skel.state
  case type => exact Function.update_eq_self e o.skel.type
  all_goals rfl

@[simp] theorem skel_modEd_rmNext : (o.modEd e (fun r => { r with edRmList := v })).skel
    = { o.skel with rmNext := Function.update o.skel.rmNext e v } := by
  rw [skel_modEd]
  ext1
  case next => exact Function.update_eq_self e o.skel.next
  case prev => exact Function.update_eq_self e o.skel.prev
  case state => exact Function.update_eq_self e o.skel.state
  case type => exact Function.update_eq_self e o.skel.type
  all_goals rfl

/-- A write that sets the state and nothing else of the skeleton. -/
theorem skel_modEd_state {f : Ed → Ed} {s : EdState}
    (h : ∀ r, ((f r).hwNextED, (f r).edPrev, (f r).edRmList, (f r).type)
      = (r.hwNextED, r.edPrev, r.edRmList, r.type)) (hs : (f (o.ed e)).state = s) :
    (o.modEd e f).skel = { o.skel with state := Function.update o.skel.state e s } := by
  have h' := h (o.ed e)
  simp only [Prod.mk.injEq] at h'
  rw [skel_modEd, h'.1, h'.2.1, h'.2.2.1, h'.2.2.2, hs]
  ext1
  case next => exact Function.update_eq_self e o.skel.next
  case prev => exact Function.update_eq_self e o.skel.prev
  case rmNext => exact Function.update_eq_self e o.skel.rmNext
  case type => exact Function.update_eq_self e o.skel.type
  all_goals rfl

/-- A write to other fields. -/
theorem skel_modEd_quiet {f : Ed → Ed}
    (h : ∀ r, ((f r).hwNextED, (f r).edPrev, (f r).edRmList, (f r).type, (f r).state)
      = (r.hwNextED, r.edPrev, r.edRmList, r.type, r.state)) : (o.modEd e f).skel = o.skel := by
  have h' := h (o.ed e)
  simp only [Prod.mk.injEq] at h'
  rw [skel_modEd_state (s := (o.ed e).state) (fun r => by have := h r; simp_all) h'.2.2.2.2]
  ext1
  case state => exact Function.update_eq_self e o.skel.state
  all_goals rfl

@[simp] theorem skel_setHcHead : (o.setHcHead l v).skel
    = { o.skel with head := Function.update o.skel.head l v } := by
  cases l
  all_goals
    ext1
    case head =>
      funext l
      cases l <;> rfl
    case tail =>
      funext l
      cases l <;> rfl
    all_goals rfl

@[simp] theorem skel_setHcTail : (o.setHcTail l v).skel
    = { o.skel with tail := Function.update o.skel.tail l v } := by
  cases l
  all_goals
    ext1
    case head =>
      funext l
      cases l <;> rfl
    case tail =>
      funext l
      cases l <;> rfl
    all_goals rfl

end Simp

end Ohci

/-! ## What leaves the skeleton alone -/

/-- **The skeleton stays**, and so do the EDs of the private parts that
stay. -/
structure Quiet (o o' : Ohci) : Prop where
  skel : o'.skel = o.skel
  owner : ∀ u e, o'.privEd u = some e → o.privEd u = some e

namespace Quiet

variable {o o' o'' : Ohci} {e : EdPtr} {t : TdPtr} {u : UrbPtr} {d : DevPtr} {ev : Event}

theorem refl (o : Ohci) : Quiet o o := ⟨rfl, fun _ _ h => h⟩

theorem trans (h : Quiet o o') (h' : Quiet o' o'') : Quiet o o'' :=
  ⟨h'.skel.trans h.skel, fun u e hu => h.owner u e (h'.owner u e hu)⟩

/-- A memory with the same URBs. -/
theorem of_urb_eq (h : Quiet o o') (hs : o''.skel = o'.skel) (hu : o''.urb = o'.urb) :
    Quiet o o'' :=
  h.trans ⟨hs, fun u e h => by rwa [Ohci.privEd, hu] at h⟩

variable (h : Quiet o o')
include h

theorem modTd {f : Td → Td} : Quiet o (o'.modTd t f) := h.of_urb_eq rfl rfl

theorem modDev {f : UsbDev → UsbDev} : Quiet o (o'.modDev d f) := h.of_urb_eq rfl rfl

theorem log : Quiet o (o'.log ev) := h.of_urb_eq rfl rfl

theorem modEd {f : Ed → Ed}
    (hf : ∀ r, ((f r).hwNextED, (f r).edPrev, (f r).edRmList, (f r).type, (f r).state)
      = (r.hwNextED, r.edPrev, r.edRmList, r.type, r.state)) :
    Quiet o (o'.modEd e f) :=
  h.of_urb_eq (Ohci.skel_modEd_quiet hf) rfl

/-- Writing a URB whose private part stays with its ED, or goes. -/
theorem modHcpriv {f : Urb → Urb}
    (hf : ∀ r x, (f r).hcpriv.map UrbPriv.ed = some x → r.hcpriv.map UrbPriv.ed = some x) :
    Quiet o (o'.modUrb u f) := by
  refine h.trans ⟨rfl, fun z x hx => ?_⟩
  rw [Ohci.privEd, Ohci.modUrb_urb] at hx
  split at hx
  · subst z
    exact hf _ _ hx
  · exact hx

theorem modUrb {f : Urb → Urb} (hf : ∀ r, (f r).hcpriv = r.hcpriv) : Quiet o (o'.modUrb u f) :=
  h.modHcpriv (fun r x hx => by rwa [hf] at hx)

theorem modPriv {f : UrbPriv → UrbPriv} (hf : ∀ p, (f p).ed = p.ed) :
    Quiet o (o'.modPriv u f) := by
  refine h.modHcpriv fun r x hx => ?_
  cases hr : r.hcpriv with
  | none => simp [hr] at hx
  | some p => simpa [hr, hf] using hx

omit h

end Quiet

section QuietFunctions

variable {o o' : Ohci} {e : EdPtr} {t r : TdPtr} {u : UrbPtr} {p : UrbPriv} {tdP tdP' : TdLink}
  {buf setup cc : ℕ} {b : Bool} {s : EdState}

theorem quiet_urbRmPriv : Quiet o (urbRmPriv o u) := by
  unfold urbRmPriv
  split
  · exact Quiet.refl o
  · refine Quiet.modHcpriv ?_ ?_
    · exact (Quiet.refl o).of_urb_eq rfl rfl
    · intro _ _ hx
      cases hx

theorem quiet_decDevUse : Quiet o (decDevUse o u) := (Quiet.refl o).modDev.log

theorem quiet_incDevUse : Quiet o (incDevUse o u) := (Quiet.refl o).modDev.log

theorem quiet_callComplete : Quiet o (callComplete o u) := (Quiet.refl o).log

theorem quiet_copyIn {dst n : ℕ} {src : ℕ → UInt8} : Quiet o (copyIn o dst src n) :=
  (Quiet.refl o).of_urb_eq rfl rfl

/-- One statement of `td_fill`. -/
theorem quiet_exec (st : FillStmt) (f : Fill) : Quiet o (st.exec f o).2 := by
  have hr := Quiet.refl o
  cases st
  all_goals simp only [FillStmt.exec]
  case oldTd => exact hr
  case newTd => exact hr.modPriv (by intro; rfl)
  case cbp =>
    split
    · exact hr.modTd.modEd (by intro; rfl)
    · exact hr.modTd
  case tail => exact hr.modEd (by intro; rfl)
  all_goals exact hr.modTd

theorem quiet_execAll (ss : List FillStmt) (f : Fill) : Quiet o (execAll ss f o).2 := by
  induction ss generalizing f o with
  | nil => exact Quiet.refl o
  | cons st ss ih => exact (quiet_exec st f).trans (ih _)

theorem quiet_tdFill {c : TdCall} {index : ℕ} (h : tdFill o u c index = some o') :
    Quiet o o' := by
  obtain ⟨p, -, h⟩ := Option.bind_eq_some_iff.mp h
  split at h <;> cases h
  · exact Quiet.refl o
  · exact quiet_execAll _ _

theorem quiet_tdFills {cs : List TdCall} {index : ℕ} (h : tdFills u cs index o = some o') :
    Quiet o o' := by
  induction cs generalizing index o with
  | nil =>
    cases h
    exact Quiet.refl _
  | cons c cs ih =>
    rw [tdFills] at h
    obtain ⟨o₁, h₁, h₂⟩ := Option.bind_eq_some_iff.mp h
    exact (quiet_tdFill h₁).trans (ih h₂)

theorem quiet_tdSubmitUrb (h : tdSubmitUrb o u = some o') : Quiet o o' := by
  obtain ⟨p, -, h⟩ := Option.bind_eq_some_iff.mp h
  have hstart : Quiet o ((submitStart o u).log (.submitTds u)) :=
    ((Quiet.refl o).modDev.modPriv (by intro; rfl)).log
  exact hstart.trans (quiet_tdFills h)

theorem quiet_prepareUrbOnSubmit : Quiet o (prepareUrbOnSubmit o u buf setup).1 := by
  have hbuf : ∀ (src : ℕ → UInt8) (n : ℕ), Quiet o (if n ≠ 0 then
      copyIn (o.modPriv u (fun p => { p with transferBuffer := buf })) buf src n else o) := by
    intro src n
    split
    · exact ((Quiet.refl o).modPriv (by intro; rfl)).trans quiet_copyIn
    · exact Quiet.refl o
  unfold prepareUrbOnSubmit
  dsimp only
  split
  · exact Quiet.refl o
  split
  · exact hbuf _ _
  split
  · exact hbuf _ _
  · exact ((hbuf _ _).modPriv (by intro; rfl)).trans quiet_copyIn

theorem quiet_dlTransferLength (h : dlTransferLength o t = some o') : Quiet o o' := by
  unfold dlTransferLength at h
  dsimp only at h
  split at h
  · cases h
    refine (Quiet.refl o).modUrb fun r => ?_
    unfold countIso
    dsimp only
    split <;> rfl
  · obtain ⟨p, -, h⟩ := Option.bind_eq_some_iff.mp h
    cases h
    refine (Quiet.refl o).modUrb fun r => ?_
    unfold countGeneral
    split <;> rfl

theorem quiet_skipRest : Quiet o (skipRest o t) := by
  unfold skipRest
  dsimp only
  split
  · exact (Quiet.refl o).modEd (by intro; rfl)
  split
  · exact ((Quiet.refl o).modEd (by intro; rfl)).modPriv (by intro; rfl)
  · exact (Quiet.refl o).modEd (by intro; rfl)

theorem quiet_reverseTd : Quiet o (reverseTd o t r) := by
  unfold reverseTd
  dsimp only
  split
  · exact quiet_skipRest.modTd
  · exact (Quiet.refl o).modTd

theorem quiet_prepareUrbOnReturn : Quiet o (prepareUrbOnReturn o u p) := by
  unfold prepareUrbOnReturn
  dsimp only
  split
  · exact (Quiet.refl o).modUrb (by intro; rfl)
  · exact Quiet.refl o

theorem quiet_returnUrb : Quiet o (returnUrb o u).1 := by
  unfold returnUrb
  split
  · exact quiet_urbRmPriv.trans quiet_decDevUse
  split
  · exact Quiet.refl o
  dsimp only
  split
  · exact quiet_prepareUrbOnReturn.log.trans quiet_callComplete
  · exact quiet_prepareUrbOnReturn.log.trans
      (quiet_urbRmPriv.trans (quiet_decDevUse.trans quiet_callComplete))

theorem quiet_requeueUrb (h : requeueUrb o u = some o') : Quiet o o' := by
  obtain ⟨p, -, h⟩ := Option.bind_eq_some_iff.mp h
  have hreset : Quiet o (o.modUrb u (fun r =>
      { r with actualLength := 0, status := .einprogress })) :=
    (Quiet.refl o).modUrb (by intro; rfl)
  dsimp only at h
  split at h
  · split at h
    · cases h
      exact hreset.modUrb (by intro; rfl)
    · exact Quiet.trans ((hreset.modUrb (by intro; rfl)).modUrb (by intro; rfl))
        (quiet_tdSubmitUrb h)
  · split at h
    · cases h
      exact hreset
    · exact hreset.trans (quiet_tdSubmitUrb h)

theorem quiet_haltOnStall : Quiet o (haltOnStall o u cc) := by
  unfold haltOnStall
  dsimp only
  split
  · exact (Quiet.refl o).modDev
  · exact Quiet.refl o

theorem quiet_countTd : Quiet o (countTd o u) := (Quiet.refl o).modPriv (by intro; rfl)

theorem quiet_finishUrb : Quiet o (finishUrb o u p s cc).1 := by
  unfold finishUrb
  split
  · exact Quiet.trans ((Quiet.refl o).modUrb (by intro; rfl)) quiet_returnUrb
  · exact quiet_urbRmPriv

theorem quiet_doneTd (h : doneTd o t = some (o', b)) : Quiet o o' := by
  obtain ⟨o₁, h₁, h⟩ := Option.bind_eq_some_iff.mp h
  obtain ⟨p, -, h⟩ := Option.bind_eq_some_iff.mp h
  have hcount : Quiet o (countTd (haltOnStall o₁ (o.td t).urb (o.td t).hwINFO.cc) (o.td t).urb) :=
    (quiet_dlTransferLength h₁).trans (quiet_haltOnStall.trans quiet_countTd)
  split at h
  · have h := congrArg Prod.fst (Option.some.inj h)
    dsimp only at h
    rw [← h]
    exact hcount.trans quiet_finishUrb
  · cases h
    exact hcount

theorem quiet_reportDel : Quiet o (reportDel o u) := by
  unfold reportDel
  split
  · exact (quiet_decDevUse.modUrb (by intro; rfl)).trans quiet_callComplete
  · exact (Quiet.refl o).log

theorem quiet_setTdLink {v : TdPtr} : Quiet o (o.setTdLink tdP v) := by
  cases tdP with
  | head e =>
    rw [Ohci.setTdLink]
    exact (Quiet.refl o).modEd (by intro; rfl)
  | next t =>
    rw [Ohci.setTdLink]
    exact (Quiet.refl o).modTd

theorem quiet_delTd (h : delTd o e t tdP = some (o', tdP')) : Quiet o o' := by
  obtain ⟨p, -, ⟨-, rfl, -⟩ | ⟨-, -, o₁, o₂, ho₁, -, rfl, rfl⟩⟩ := delTd_outcome h
  · exact Quiet.refl _
  have hlen : Quiet o o₁ := by
    obtain rfl | h₁ := ho₁
    · exact Quiet.refl _
    · exact quiet_dlTransferLength h₁
  have hcount : Quiet o (countTd (o₁.setTdLink tdP (o₁.nextTD t)) (o.td t).urb) :=
    hlen.trans (quiet_setTdLink.trans quiet_countTd)
  refine Quiet.trans ?_ quiet_reportDel
  split
  · exact hcount.trans quiet_urbRmPriv
  · exact hcount

theorem quiet_unlinkNow : Quiet o (unlinkNow o u) := by
  have hrm := (quiet_decDevUse (o := o) (u := u)).trans (quiet_urbRmPriv (u := u))
  unfold unlinkNow
  dsimp only
  split
  · exact (hrm.trans quiet_callComplete).modUrb (by intro; rfl)
  · exact hrm.modUrb (by intro; rfl)

theorem quiet_unlinkFinish : Quiet o (unlinkFinish o u) :=
  Quiet.trans ((Quiet.refl o).modUrb (by intro; rfl)) quiet_decDevUse

end QuietFunctions
