import SideDumper.RunEntries
import SideDumper.Settings

/-!
# The dumps and the traffic

`sohci_submit_urb` calls `SideDumper_OnSubmit` between its two phases, when the
private part is there and before anything can go wrong with the ED or the
bounce buffers. `sohci_return_urb` calls `SideDumper_OnReturn` in front of the
completion callback, behind its check for one. A periodic request that is queued
again behind the callback passes neither hook.

`Traffic` is a run of the driver together with the dump records, the requests
that have been returned and the records of submissions that were refused. What
has been queued to the controller is read off the history of the memory.
-/

/-- The calls of `td_submit_urb`, the last one first. -/
def Ohci.submits (o : Ohci) : List UrbPtr :=
  o.trace.filterMap fun ev =>
    match ev with
    | .submitTds u => some u
    | _ => none

/-! ## What leaves them alone -/

section Submits

variable {o o' : Ohci} {e : EdPtr} {t : TdPtr} {u : UrbPtr} {p : UrbPriv} {fuel : ℕ}

theorem submits_trace (h : o'.trace = o.trace) : o'.submits = o.submits :=
  congrArg (List.filterMap _) h

theorem submits_queues (h : o'.queues = o.queues) : o'.submits = o.submits :=
  submits_trace (congrArg Queues.trace h)

theorem submits_log_submitTds : (o.log (.submitTds u)).submits = u :: o.submits := rfl

@[simp] theorem submits_modEd (f : Ed → Ed) : (o.modEd e f).submits = o.submits := rfl
@[simp] theorem submits_modTd (f : Td → Td) : (o.modTd t f).submits = o.submits := rfl
@[simp] theorem submits_modUrb (f : Urb → Urb) : (o.modUrb u f).submits = o.submits := rfl
@[simp] theorem submits_modPriv (f : UrbPriv → UrbPriv) : (o.modPriv u f).submits = o.submits :=
  rfl
@[simp] theorem submits_decDevUse : (decDevUse o u).submits = o.submits := rfl
@[simp] theorem submits_incDevUse : (incDevUse o u).submits = o.submits := rfl
@[simp] theorem submits_callComplete : (callComplete o u).submits = o.submits := rfl
@[simp] theorem submits_countTd : (countTd o u).submits = o.submits := rfl
@[simp] theorem submits_reverseTd : ∀ {r : TdPtr}, (reverseTd o t r).submits = o.submits := by
  intro r
  have hskip : (skipRest o t).submits = o.submits := by
    unfold skipRest
    dsimp only
    split
    · rfl
    · split <;> rfl
  unfold reverseTd
  dsimp only
  rw [submits_modTd]
  split
  · exact hskip
  · rfl

@[simp] theorem submits_urbRmPriv : (urbRmPriv o u).submits = o.submits := by
  unfold urbRmPriv
  split <;> rfl

@[simp] theorem submits_epRmEd : (epRmEd o e).submits = o.submits := by
  unfold epRmEd
  split
  · rfl
  · dsimp only
    split <;> rfl

theorem submits_epAddEd {d : DevPtr} {pipe : Pipe} {interval load : ℕ} {dummy : TdPtr} :
    (epAddEd o d pipe interval load dummy).2.submits = o.submits := by
  have hfill : ∀ (o₁ : Ohci) (e : EdPtr), (fillEd o₁ d e pipe interval load).submits
      = o₁.submits := fun _ _ => rfl
  have hinit : ∀ (o₁ : Ohci) (e : EdPtr), (initEd o₁ d e pipe dummy).submits = o₁.submits :=
    fun _ _ => rfl
  unfold epAddEd
  dsimp only
  split
  · rfl
  split
  · split
    · exact submits_modEd _
    · rw [hfill, hinit, submits_modEd]
  · exact hfill _ _

theorem submits_prepareUrbOnSubmit {buf setup : ℕ} :
    (prepareUrbOnSubmit o u buf setup).1.submits = o.submits := by
  have hdata : ∀ (src : ℕ → UInt8) (n : ℕ), (if n ≠ 0 then
      copyIn (o.modPriv u (fun p => { p with transferBuffer := buf })) buf src n else o).submits
        = o.submits := by
    intro src n
    split <;> rfl
  unfold prepareUrbOnSubmit
  dsimp only
  split
  · rfl
  split
  · exact hdata _ _
  split
  · exact hdata _ _
  · exact hdata _ _

theorem submits_fillTd {c : TdCall} {i : ℕ} : (fillTd o u p c i).submits = o.submits := by
  unfold fillTd
  dsimp only
  split
  · rw [submits_modTd, submits_modEd, submits_modTd, submits_modEd, submits_modTd,
      submits_modPriv]
  · rw [submits_modTd, submits_modEd, submits_modTd, submits_modTd, submits_modPriv]

theorem submits_tdFills {cs : List TdCall} {i : ℕ} (h : tdFills u cs i o = some o') :
    o'.submits = o.submits := by
  induction cs generalizing i o with
  | nil =>
    cases h
    rfl
  | cons c cs ih =>
    obtain ⟨o₁, h₁, h⟩ := Option.bind_eq_some_iff.mp h
    obtain ⟨p, hp, -⟩ := Option.bind_eq_some_iff.mp h₁
    rw [ih h]
    by_cases hi : i < p.length
    · rw [tdFill_eq hp hi, Option.some.injEq] at h₁
      rw [← h₁, submits_fillTd]
    · rw [tdFill_of_le hp (by omega), Option.some.injEq] at h₁
      rw [h₁]

/-- **`td_submit_urb`** is called once. -/
theorem submits_tdSubmitUrb (h : tdSubmitUrb o u = some o') : o'.submits = u :: o.submits := by
  obtain ⟨p, -, h⟩ := Option.bind_eq_some_iff.mp h
  rw [submits_tdFills h, submits_log_submitTds]
  rfl

theorem submits_dlTransferLength (h : dlTransferLength o t = some o') :
    o'.submits = o.submits := by
  unfold dlTransferLength at h
  dsimp only at h
  split at h
  · cases h
    rfl
  · obtain ⟨p, -, h⟩ := Option.bind_eq_some_iff.mp h
    cases h
    rfl

theorem submits_haltOnStall {cc : ℕ} : (haltOnStall o u cc).submits = o.submits := by
  unfold haltOnStall
  dsimp only
  split <;> rfl

theorem submits_returnUrb : (returnUrb o u).1.submits = o.submits := by
  have hprep : ∀ p, (prepareUrbOnReturn o u p).submits = o.submits := by
    intro p
    unfold prepareUrbOnReturn
    dsimp only
    split <;> rfl
  have hlog : ∀ (o₁ : Ohci) (st : Status) (len : ℤ), (o₁.log (.returnUrb u st len)).submits
      = o₁.submits :=
    fun _ _ _ => rfl
  unfold returnUrb
  split
  · rw [submits_decDevUse, submits_urbRmPriv]
  · split
    · rfl
    · dsimp only
      split
      · rw [submits_callComplete, hlog, hprep]
      · rw [submits_callComplete, submits_decDevUse, submits_urbRmPriv, hlog, hprep]

/-- **The call of `sohci_return_urb` in a pass of `dl_done_list`**: the memory with
which it is made, if it is made. -/
def returnCall (o : Ohci) (t : TdPtr) : Option Ohci := do
  let u := (o.td t).urb
  let e := (o.td t).ed
  let cc := (o.td t).hwINFO.cc
  let o ← dlTransferLength o t
  let o := haltOnStall o u cc
  let cc := effectiveCc (o.urb u) cc
  let o := countTd o u
  let p ← (o.urb u).hcpriv
  if p.tdCnt = p.length ∧ !p.urbDel ∧ !(o.ed e).state.del ∧ (o.ed e).state ≠ .edNew then
    some (o.modUrb u (fun r => { r with status := ccToError cc }))
  else none

/-- **A pass of `dl_done_list`** calls `sohci_return_urb`, or it does not. -/
theorem doneTd_returnCall {b : Bool} (h : doneTd o t = some (o', b)) :
    match returnCall o t with
    | some o₁ => (o', b) = returnUrb o₁ (o.td t).urb ∧ o₁.submits = o.submits
    | none => b = false ∧ o'.submits = o.submits := by
  obtain ⟨o₁, h₁, h⟩ := Option.bind_eq_some_iff.mp h
  obtain ⟨p, hp, h⟩ := Option.bind_eq_some_iff.mp h
  have hsub : (countTd (haltOnStall o₁ (o.td t).urb (o.td t).hwINFO.cc) (o.td t).urb).submits
      = o.submits := by
    rw [submits_countTd, submits_haltOnStall, submits_dlTransferLength h₁]
  unfold returnCall
  dsimp only at h ⊢
  rw [h₁, Option.bind_eq_bind, Option.bind_some, hp, Option.bind_eq_bind, Option.bind_some]
  unfold finishUrb at h
  by_cases hcnt : p.tdCnt = p.length
  · rw [if_pos hcnt] at h
    by_cases hret : !p.urbDel ∧
      !((countTd (haltOnStall o₁ (o.td t).urb (o.td t).hwINFO.cc) (o.td t).urb).ed
        (o.td t).ed).state.del ∧
          ((countTd (haltOnStall o₁ (o.td t).urb (o.td t).hwINFO.cc) (o.td t).urb).ed
        (o.td t).ed).state ≠ .edNew
    · rw [if_pos hret] at h
      rw [if_pos ⟨hcnt, hret⟩]
      exact ⟨(Option.some.inj h).symm, hsub⟩
    · rw [if_neg hret] at h
      rw [if_neg (fun hc => hret hc.2)]
      cases h
      exact ⟨rfl, submits_urbRmPriv.trans hsub⟩
  · rw [if_neg hcnt] at h
    rw [if_neg (fun hc => hcnt hc.1)]
    cases h
    exact ⟨rfl, hsub⟩

theorem submits_doneTd {b : Bool} (h : doneTd o t = some (o', b)) : o'.submits = o.submits := by
  have hcall := doneTd_returnCall h
  cases hr : returnCall o t with
  | none =>
    rw [hr] at hcall
    exact hcall.2
  | some o₁ =>
    rw [hr] at hcall
    have hfst : o' = (returnUrb o₁ (o.td t).urb).1 := congrArg Prod.fst hcall.1
    rw [hfst, submits_returnUrb, hcall.2]

/-- **`sohci_return_urb` behind the callback.** -/
theorem submits_requeueUrb (h : requeueUrb o u = some o') (hp : (o.urb u).hcpriv = some p) :
    o'.submits = if p.urbDel then o.submits else u :: o.submits := by
  unfold requeueUrb at h
  rw [hp, Option.bind_eq_bind, Option.bind_some] at h
  dsimp only at h
  have hsame : ∀ (o₁ : Ohci) (f : Urb → Urb), (o₁.modUrb u f).submits = o₁.submits :=
    fun _ _ => rfl
  cases hdel : p.urbDel with
  | false =>
    rw [if_neg Bool.false_ne_true]
    rw [hdel, if_neg Bool.false_ne_true, if_neg Bool.false_ne_true] at h
    split at h
    · rw [submits_tdSubmitUrb h, hsame, hsame, hsame]
    · rw [submits_tdSubmitUrb h, hsame]
  | true =>
    rw [if_pos rfl]
    rw [hdel, if_pos rfl, if_pos rfl] at h
    split at h
    · cases h
      rw [hsame, hsame]
    · cases h
      rw [hsame]

theorem submits_doneEd (h : doneEd fuel o e = some o') : o'.submits = o.submits := by
  unfold doneEd at h
  split at h
  · exact submits_queues (queues_epUnlink h)
  · cases h
    rfl

theorem submits_submitFirst {dummy : TdPtr} {tds : ℕ → TdPtr} :
    (submitFirst o u dummy tds).1.submits = o.submits := by
  generalize hstart : submitFirst o u dummy tds = started
  obtain ⟨o', b⟩ := started
  dsimp only
  obtain ⟨-, rfl, -⟩ | ⟨-, -, ⟨-, -, rfl⟩ | ⟨-, r, o₁, hadd, hend⟩⟩ := submitFirst_outcome hstart
  · rfl
  · rfl
  have h₁ : o₁.submits = o.submits := by
    have hsub : (epAddEd (incDevUse o u) (o.urb u).dev (o.urb u).pipe (o.urb u).interval 1
        dummy).2.submits
        = (incDevUse o u).submits := submits_epAddEd
    rwa [hadd, submits_incDevUse] at hsub
  obtain ⟨-, -, rfl⟩ | ⟨e, o₂, -, ho₂, hend⟩ := hend
  · exact submits_decDevUse.trans h₁
  have h₂ : o₂.submits = o.submits := by
    have halloc : ∀ (o₃ : Ohci) (n : ℕ), (allocTds o₃ n tds).submits = o₃.submits :=
      fun _ _ => rfl
    rw [ho₂, halloc, submits_modUrb]
    split
    · rw [submits_modUrb, h₁]
    · exact h₁
  obtain ⟨-, -, rfl⟩ | ⟨-, -, rfl⟩ := hend
  · rw [submits_urbRmPriv, submits_decDevUse, h₂]
  · exact h₂

/-- **The second phase of `sohci_submit_urb`** calls `td_submit_urb` when the request
is accepted. -/
theorem submits_submitSecond {buf setup : ℕ} {b : Bool}
    (h : submitSecond fuel o u buf setup = some (o', b)) :
    o'.submits = if b then u :: o.submits else o.submits := by
  obtain ⟨p, -, ⟨rfl, -, rfl⟩ | ⟨-, -, n, o₁, ho₁, hend⟩⟩ := submitSecond_outcome h
  · rw [submits_decDevUse, submits_urbRmPriv]
    rfl
  have hprep : o₁.submits = o.submits := by
    rw [ho₁, submits_prepareUrbOnSubmit, submits_modUrb]
  obtain ⟨rfl, -, rfl⟩ | ⟨rfl, -, h₁⟩ := hend
  · rw [submits_urbRmPriv, submits_decDevUse, hprep]
    rfl
  obtain ⟨o₂, h₂, hsub⟩ := submitLink_steps h₁
  have hlink : o₂.submits = o.submits := by
    obtain ⟨-, rfl⟩ | ⟨-, h₂⟩ := h₂
    · rw [submits_modUrb, hprep]
    · rw [submits_queues (queues_epLink h₂), submits_modUrb, hprep]
  rw [if_pos rfl, submits_tdSubmitUrb hsub, submits_modUrb, hlink]

/-! ### Unlinking -/

theorem submits_unlinkUrb : (unlinkUrb o u).1.submits = o.submits := by
  have hpending : ∀ p, (unlinkPending o u p).submits = o.submits := by
    intro p
    unfold unlinkPending
    dsimp only
    split
    · rw [submits_modUrb, submits_modEd, submits_epRmEd, submits_modPriv]
    · rw [submits_modEd, submits_epRmEd, submits_modPriv]
  have hnow : (unlinkNow o u).submits = o.submits := by
    unfold unlinkNow
    dsimp only
    split
    · rw [submits_modUrb, submits_callComplete, submits_urbRmPriv, submits_decDevUse]
    · rw [submits_modUrb, submits_urbRmPriv, submits_decDevUse]
  unfold unlinkUrb
  split
  · rfl
  · split
    · rfl
    · split
      · exact hpending _
      · exact hnow

theorem submits_freeEd (h : freeEd fuel o e = some o') : o'.submits = o.submits := by
  unfold freeEd at h
  split at h
  · cases h
    rfl
  · split at h
    · obtain ⟨o₁, h₁, h⟩ := Option.bind_eq_some_iff.mp h
      cases h
      rw [submits_modEd, submits_epRmEd, submits_queues (queues_epUnlink h₁)]
    · cases h
      rw [submits_modEd, submits_epRmEd]

theorem submits_delTd {tdP tdP' : TdLink} (h : delTd o e t tdP = some (o', tdP')) :
    o'.submits = o.submits := by
  obtain ⟨p, -, ⟨-, rfl, -⟩ | ⟨-, -, o₁, o₂, ho₁, -, rfl, rfl⟩⟩ := delTd_outcome h
  · rfl
  have hlen : o₁.submits = o.submits := by
    obtain rfl | h₁ := ho₁
    · rfl
    · exact submits_dlTransferLength h₁
  have hset : ∀ v, (o₁.setTdLink tdP v).submits = o₁.submits := by
    intro v
    cases tdP <;> rfl
  have hreport : ∀ o₂ : Ohci, (reportDel o₂ (o.td t).urb).submits = o₂.submits := by
    intro o₂
    unfold reportDel
    split
    · rw [submits_callComplete, submits_modUrb, submits_decDevUse]
    · rfl
  rw [hreport]
  split
  · rw [submits_urbRmPriv, submits_countTd, hset, hlen]
  · rw [submits_countTd, hset, hlen]

theorem submits_delEdEnd {tail : TdPtr} {fa : ℕ} :
    (delEdEnd o e tail fa).submits = o.submits := by
  unfold delEdEnd
  split
  · dsimp only
    split <;> rfl
  · rfl

theorem submits_delEnd {frame : Bool} : (delEnd o frame).submits = o.submits := by
  unfold delEnd
  dsimp only
  split <;> rfl

/-- **What a step hands to `td_submit_urb`.** -/
def Sys.queuedBy (fuel : ℕ) (s : Sys) : Act → List UrbPtr
  | .submitSecond u buf setup =>
    match submitSecond fuel s.mem u buf setup with
    | some (_, true) => [u]
    | _ => []
  | .resume =>
    match s.tasks with
    | .requeue u _ _ :: _ => if (s.mem.priv u).urbDel then [] else [u]
    | _ => []
  | _ => []

/-- **One step of an interrupt routine** calls `td_submit_urb` behind a callback alone. -/
theorem IrqTask.step_submits {task : IrqTask} {task' : Option IrqTask}
    (h : task.step fuel o = some (o', task')) :
    o'.submits = (match task with
      | .requeue u _ _ => if (o.priv u).urbDel then [] else [u]
      | _ => []) ++ o.submits := by
  cases task with
  | reverse t rev =>
    simp only [IrqTask.step] at h
    split at h
    · cases h
      rfl
    · cases h
      exact submits_reverseTd
  | done t =>
    simp only [IrqTask.step] at h
    split at h
    · cases h
      rfl
    · obtain ⟨⟨o₂, again⟩, h₂, h⟩ := Option.bind_eq_some_iff.mp h
      cases h
      exact submits_doneTd h₂
  | requeue u e next =>
    obtain ⟨o₂, h₂, h⟩ := Option.bind_eq_some_iff.mp h
    cases h
    obtain ⟨p, hp, -⟩ := Option.bind_eq_some_iff.mp h₂
    dsimp only
    rw [submits_requeueUrb h₂ hp, Ohci.priv_eq hp]
    split <;> rfl
  | endEd e next =>
    obtain ⟨o₂, h₂, h⟩ := Option.bind_eq_some_iff.mp h
    cases h
    exact submits_doneEd h₂
  | del f e =>
    simp only [IrqTask.step] at h
    split at h
    · cases h
      exact submits_delEnd
    · cases h
      rfl
  | delQueue f e tail fa t tdP =>
    simp only [IrqTask.step] at h
    split at h
    · cases h
      exact submits_delEdEnd
    · obtain ⟨⟨o₂, tdP'⟩, h₂, h⟩ := Option.bind_eq_some_iff.mp h
      cases h
      exact submits_delTd h₂

/-- **One step.** -/
theorem Sys.step_submits {s s' : Sys} {a : Act} (hs : s.step fuel a = some s') :
    s'.mem.submits = s.queuedBy fuel a ++ s.mem.submits := by
  cases a with
  | submitFirst u dummy tds =>
    simp only [Sys.step] at hs
    split at hs
    · cases hs
    · cases hs
      exact submits_submitFirst
  | submitSecond u buf setup =>
    simp only [Sys.step] at hs
    split at hs
    · obtain ⟨⟨o, b⟩, h₁, hs⟩ := Option.bind_eq_some_iff.mp hs
      cases hs
      rw [Sys.queuedBy, h₁]
      cases b with
      | false => exact submits_submitSecond h₁
      | true => exact submits_submitSecond h₁
    · cases hs
  | unlink u =>
    cases hs
    exact submits_unlinkUrb
  | unlinkFinish u =>
    simp only [Sys.step] at hs
    split at hs
    · cases hs
      rfl
    · cases hs
  | freeEd e =>
    simp only [Sys.step] at hs
    split at hs
    · cases hs
    · obtain ⟨o, h₁, hs⟩ := Option.bind_eq_some_iff.mp hs
      cases hs
      exact submits_freeEd h₁
  | resume =>
    simp only [Sys.step] at hs
    split at hs
    · cases hs
    rename_i task tasks ht
    obtain ⟨⟨o, task'⟩, h₁, hs⟩ := Option.bind_eq_some_iff.mp hs
    cases hs
    rw [Sys.queuedBy, ht]
    have htask := IrqTask.step_submits h₁
    cases task <;> exact htask
  | _ =>
    cases hs
    rfl

end Submits

/-! ## The hooks -/

/-- **What the hooks look up**: the settings, which stay as they are, and the numbers
of the devices. -/
structure DumpEnv where
  settings : DevSettings
  devnum : DevPtr → ℕ

namespace DumpEnv

variable (env : DumpEnv) (o : Ohci) (u : UrbPtr)

/-- The record that `ProcessUrb` makes when there is memory for it. -/
def processUrb : List UrbPtr :=
  let s := env.settings (env.devnum (o.urb u).dev)
  if s.oEnabled ≠ 0 ∧ s.pfnDumper ≠ 0 then [u] else []

/-- Whether a hook looks at the direction of a request: its device is enabled. -/
def looks : Bool :=
  let n := env.devnum (o.urb u).dev
  (o.urb u).dev ≠ 0 ∧ n < 16 ∧ (env.settings n).oEnabled ≠ 0

/-- The record that is made at once; `QueueUrb` leaves it to the worker. -/
def dump : List UrbPtr :=
  if (env.settings (env.devnum (o.urb u).dev)).oAsync ≠ 0 then [] else env.processUrb o u

/-- **`SideDumper_OnSubmit`.** -/
def onSubmit : List UrbPtr :=
  if env.looks o u then (if (o.urb u).pipe.out then env.dump o u else []) else []

/-- **`SideDumper_OnReturn`.** -/
def onReturn : List UrbPtr :=
  if env.looks o u then (if !(o.urb u).pipe.out then env.dump o u else []) else []

/-- The record of a call of `sohci_return_urb`. -/
def returnRecords : List UrbPtr :=
  if !(o.urb u).complete then []
  else
    match (o.urb u).hcpriv with
    | none => []
    | some _ => env.onReturn o u

/-- **A device that is dumped**, at once. -/
structure On (d : DevPtr) : Prop where
  dev : d ≠ 0
  devnum : env.devnum d < 16
  oEnabled : (env.settings (env.devnum d)).oEnabled ≠ 0
  oAsync : (env.settings (env.devnum d)).oAsync = 0
  pfnDumper : (env.settings (env.devnum d)).pfnDumper ≠ 0

variable {env} {o} {u}

theorem On.dump (h : env.On (o.urb u).dev) : env.looks o u = true ∧ env.dump o u = [u] := by
  refine ⟨decide_eq_true ⟨h.dev, h.devnum, h.oEnabled⟩, ?_⟩
  unfold DumpEnv.dump processUrb
  rw [if_neg (not_not.mpr h.oAsync), if_pos ⟨h.oEnabled, h.pfnDumper⟩]

theorem On.onSubmit (h : env.On (o.urb u).dev) :
    env.onSubmit o u = if (o.urb u).pipe.out then [u] else [] := by
  rw [DumpEnv.onSubmit, h.dump.1, h.dump.2, if_pos rfl]

theorem On.onReturn (h : env.On (o.urb u).dev) :
    env.onReturn o u = if !(o.urb u).pipe.out then [u] else [] := by
  rw [DumpEnv.onReturn, h.dump.1, h.dump.2, if_pos rfl]

/-- A record is one of the request it is made for. -/
theorem eq_of_mem_dump {z : UrbPtr} (h : z ∈ env.dump o u) : z = u := by
  unfold dump processUrb at h
  split at h
  · cases h
  · dsimp only at h
    split at h
    · exact List.mem_singleton.mp h
    · cases h

theorem eq_of_mem_onSubmit {z : UrbPtr} (h : z ∈ env.onSubmit o u) : z = u := by
  unfold onSubmit at h
  split at h
  · split at h
    · exact eq_of_mem_dump h
    · cases h
  · cases h

theorem count_onSubmit {z : UrbPtr} (h : u ≠ z) : (env.onSubmit o u).count z = 0 :=
  List.count_eq_zero_of_not_mem fun hm => h (eq_of_mem_onSubmit hm).symm

theorem eq_of_mem_returnRecords {z : UrbPtr} (h : z ∈ env.returnRecords o u) : z = u := by
  unfold returnRecords onReturn at h
  split at h
  · cases h
  split at h
  · cases h
  split at h
  · split at h
    · exact eq_of_mem_dump h
    · cases h
  · cases h

end DumpEnv

/-! ## Runs -/

/-- **The driver and what has been noted of its traffic**, the last entry first. -/
structure Traffic where
  sys : Sys
  /-- The requests of the dump records. -/
  records : List UrbPtr
  /-- The requests that `sohci_return_urb` has been called for. -/
  returned : List UrbPtr
  /-- The requests of the records of submissions that were refused. -/
  wasted : List UrbPtr

namespace Traffic

/-- The records a step makes. -/
def recordsBy (env : DumpEnv) (s : Sys) : Act → List UrbPtr
  | .submitFirst u dummy tds =>
    if (submitFirst s.mem u dummy tds).2 then env.onSubmit s.mem u else []
  | .resume =>
    match s.tasks with
    | .done t :: _ =>
      if t = 0 then [] else (returnCall s.mem t).elim []
        (fun o => env.returnRecords o (s.mem.td t).urb)
    | _ => []
  | _ => []

/-- The requests a step returns. -/
def returnedBy (s : Sys) : Act → List UrbPtr
  | .resume =>
    match s.tasks with
    | .done t :: _ =>
      if t = 0 then [] else (returnCall s.mem t).elim [] (fun _ => [(s.mem.td t).urb])
    | _ => []
  | _ => []

/-- The records that the first phase has made of a submission whose second phase
fails. -/
def wastedBy (env : DumpEnv) (fuel : ℕ) (s : Sys) : Act → List UrbPtr
  | .submitSecond u buf setup =>
    match submitSecond fuel s.mem u buf setup with
    | some (_, false) => env.onSubmit s.mem u
    | _ => []
  | _ => []

/-- **One step.** -/
def step (env : DumpEnv) (fuel : ℕ) (t : Traffic) (a : Act) : Option Traffic := do
  let s ← t.sys.step fuel a
  some {
    sys := s
    records := recordsBy env t.sys a ++ t.records
    returned := returnedBy t.sys a ++ t.returned
    wasted := wastedBy env fuel t.sys a ++ t.wasted }

/-- **The states of the runs** all of whose steps meet a condition. -/
inductive From (env : DumpEnv) (ok : Sys → Act → Prop) (o : Ohci) : Traffic → Prop
  | start : From env ok o ⟨⟨o, [], [], []⟩, [], [], []⟩
  | step {t t' : Traffic} (fuel : ℕ) (a : Act) : From env ok o t → ok t.sys a →
      t.step env fuel a = some t' →
      From env ok o t'

/-- **The dump log matches the traffic** of a device: an OUT request has a record for
each time it was queued, unless one of its submissions is still under way, an IN
request has one for each time it was returned, and a refused submission has none. -/
structure Matches (t : Traffic) (d : DevPtr) : Prop where
  out : ∀ u, (t.sys.mem.urb u).dev = d → (t.sys.mem.urb u).pipe.out = true → u ∉ t.sys.pend →
    t.records.count u = t.sys.mem.submits.count u
  inn : ∀ u, (t.sys.mem.urb u).dev = d → (t.sys.mem.urb u).pipe.out = false →
    t.records.count u = t.returned.count u
  refused : ∀ u, (t.sys.mem.urb u).dev = d → u ∉ t.wasted

end Traffic

/-- **The steps at which the hooks are right** for the requests of a device: the
second phase of the submission of an OUT request does not fail; an OUT request
is not queued again behind its callback; an IN request whose TD is settled has a
callback. -/
def DumpClean (d : DevPtr) (s : Sys) : Act → Prop
  | .submitSecond u buf setup => (s.mem.urb u).dev = d → (s.mem.urb u).pipe.out = true →
    ∀ p, (s.mem.urb u).hcpriv = some p →
      (s.mem.ed p.ed).state ≠ .edNew ∧ (s.mem.ed p.ed).state.del = false ∧
        (s.mem.urb u).buffersOk buf setup = true
  | .resume =>
    match s.tasks with
    | .requeue u _ _ :: _ =>
      (s.mem.urb u).dev = d → (s.mem.urb u).pipe.out = true → (s.mem.priv u).urbDel = true
    | .done t :: _ =>
      (s.mem.urb (s.mem.td t).urb).dev = d → (s.mem.urb (s.mem.td t).urb).pipe.out = false →
      (s.mem.urb (s.mem.td t).urb).complete = true
    | _ => True
  | _ => True

/-! ## The account -/

section Account

variable {env : DumpEnv} {d : DevPtr} {s s' : Sys} {t t' : Traffic} {a : Act} {fuel : ℕ}
    {o : Ohci} {u z : UrbPtr}

/-- **The submissions under way.** -/
theorem Sys.step_pend (hs : s.step fuel a = some s') :
    match a with
    | .submitFirst u dummy tds =>
      s'.pend = if (submitFirst s.mem u dummy tds).2 then u :: s.pend else s.pend
    | .submitSecond u _ _ => u ∈ s.pend ∧ s'.pend = s.pend.erase u
    | _ => s'.pend = s.pend := by
  cases a with
  | submitFirst u dummy tds =>
    simp only [Sys.step] at hs
    split at hs
    · cases hs
    · cases hs
      rfl
  | submitSecond u buf setup =>
    simp only [Sys.step] at hs
    split at hs
    · obtain ⟨⟨o, b⟩, -, hs⟩ := Option.bind_eq_some_iff.mp hs
      cases hs
      exact ⟨‹_›, rfl⟩
    · cases hs
  | unlinkFinish u =>
    simp only [Sys.step] at hs
    split at hs
    · cases hs
      rfl
    · cases hs
  | freeEd e =>
    simp only [Sys.step] at hs
    split at hs
    · cases hs
    · obtain ⟨o, -, hs⟩ := Option.bind_eq_some_iff.mp hs
      cases hs
      rfl
  | resume =>
    simp only [Sys.step] at hs
    split at hs
    · cases hs
    · obtain ⟨⟨o, task⟩, -, hs⟩ := Option.bind_eq_some_iff.mp hs
      cases hs
      rfl
  | _ =>
    cases hs
    rfl

/-- When the second phase fails. -/
theorem submitSecond_refused {buf setup : ℕ} {o' : Ohci}
    (h : submitSecond fuel o u buf setup = some (o', false)) :
    ∃ p, (o.urb u).hcpriv = some p ∧ ((o.ed p.ed).state = .edNew ∨ (o.ed p.ed).state.del = true ∨
      (o.urb u).buffersOk buf setup = false) := by
  obtain ⟨p, hp, ⟨-, hst, -⟩ | ⟨-, -, n, o₁, -, ⟨-, hbuf, -⟩ | ⟨hb, -⟩⟩⟩ := submitSecond_outcome h
  · exact ⟨p, hp, hst.imp_right .inl⟩
  · exact ⟨p, hp, .inr (.inr hbuf)⟩
  · cases hb

/-- `sohci_return_urb` is called for the URB of the TD, which has its private part. -/
theorem returnCall_spec {x : TdPtr} {o₁ : Ohci} (h : returnCall o x = some o₁) :
    o₁.ledger.const = o.ledger.const ∧ ∃ p, (o₁.urb (o.td x).urb).hcpriv = some p := by
  obtain ⟨o₂, h₂, h⟩ := Option.bind_eq_some_iff.mp h
  obtain ⟨p, hp, h⟩ := Option.bind_eq_some_iff.mp h
  split at h
  · cases h
    refine ⟨?_, p, ?_⟩
    · rw [Ohci.ledger_modUrb_same (by intro; rfl) (by intro; rfl), ledger_countTd,
        ledger_haltOnStall, ledger_dlTransferLength h₂]
    · rw [Ohci.modUrb_urb_self]
      exact hp
  · cases h

/-- **The record of a return** is one of an IN request that has a callback. -/
theorem returnRecords_spec {x : TdPtr} {o₁ : Ohci} (hon : env.On d) (h : returnCall o x = some o₁)
    (hcomplete : (o.urb (o.td x).urb).dev = d → (o.urb (o.td x).urb).pipe.out = false →
      (o.urb (o.td x).urb).complete = true) (hd : (o.urb u).dev = d) :
    ((o.urb u).pipe.out = true → (env.returnRecords o₁ (o.td x).urb).count u = 0) ∧
    ((o.urb u).pipe.out = false →
      (env.returnRecords o₁ (o.td x).urb).count u = [(o.td x).urb].count u) := by
  obtain ⟨hconst, p, hp⟩ := returnCall_spec h
  by_cases hz : (o.td x).urb = u
  · rw [hz] at hp hcomplete ⊢
    have hc := congrFun hconst u
    have hdev : (o₁.urb u).dev = d := (congrArg UrbConst.dev hc).trans hd
    have hpipe : (o₁.urb u).pipe = (o.urb u).pipe := congrArg UrbConst.pipe hc
    have hcomp : (o₁.urb u).complete = (o.urb u).complete := congrArg UrbConst.complete hc
    unfold DumpEnv.returnRecords
    rw [hp, hcomp, DumpEnv.On.onReturn (hdev ▸ hon), hpipe]
    dsimp only
    refine ⟨fun hout => ?_, fun hin => ?_⟩
    · rw [hout]
      split <;> rfl
    · rw [hcomplete hd hin, hin]
      rfl
  · have hrec : (env.returnRecords o₁ (o.td x).urb).count u = 0 :=
      List.count_eq_zero_of_not_mem fun hm => hz (DumpEnv.eq_of_mem_returnRecords hm).symm
    exact ⟨fun _ => hrec, fun _ => hrec.trans (List.count_eq_zero_of_not_mem fun hm => hz
      (List.mem_singleton.mp hm).symm).symm⟩

namespace Traffic

/-- **The account** of a device: the records of an OUT request are one for each time
it was queued and one for a submission under way. -/
structure Inv (d : DevPtr) (o : Ohci) (t : Traffic) : Prop where
  base : t.sys.Base
  const : t.sys.mem.ledger.const = o.ledger.const
  out : ∀ u, (o.urb u).dev = d → (o.urb u).pipe.out = true →
    t.records.count u = t.sys.mem.submits.count u + t.sys.pend.count u
  inn : ∀ u, (o.urb u).dev = d → (o.urb u).pipe.out = false →
    t.records.count u = t.returned.count u
  refused : ∀ u, (o.urb u).dev = d → u ∉ t.wasted

/-- **What is noted of a request**: the records are those of the submissions that
have got through their first phase, or those of the returns. -/
structure Noted (u : UrbPtr) (env : DumpEnv) (fuel : ℕ) (s s' : Sys) (a : Act) : Prop where
  out : (s.mem.urb u).pipe.out = true →
    (recordsBy env s a).count u + s.pend.count u = (s.queuedBy fuel a).count u + s'.pend.count u
  inn : (s.mem.urb u).pipe.out = false → (recordsBy env s a).count u = (returnedBy s a).count u
  refused : u ∉ wastedBy env fuel s a

/-- The first phase makes the record of an OUT request, which is under way from
there on. -/
theorem noted_submitFirst {dummy : TdPtr} {tds : ℕ → TdPtr} (hon : env.On d)
    (hd : (s.mem.urb u).dev = d)
    (hpend : s'.pend = if (submitFirst s.mem z dummy tds).2 then z :: s.pend else s.pend) :
    Noted u env fuel s s' (.submitFirst z dummy tds) := by
  have hrec : recordsBy env s (.submitFirst z dummy tds)
      = if (submitFirst s.mem z dummy tds).2 then env.onSubmit s.mem z else [] := rfl
  refine ⟨fun hout => ?_, fun hin => ?_, List.not_mem_nil⟩
  · rw [hrec, hpend]
    cases (submitFirst s.mem z dummy tds).2 with
    | false => rfl
    | true =>
      rw [if_pos rfl, if_pos rfl]
      by_cases hz : z = u
      · subst hz
        rw [DumpEnv.On.onSubmit (hd ▸ hon), if_pos hout, List.count_singleton_self,
          List.count_cons_self]
        exact (Nat.add_comm _ _).trans (Nat.zero_add _).symm
      · rw [DumpEnv.count_onSubmit hz, List.count_cons_of_ne hz]
        rfl
  · rw [hrec]
    cases (submitFirst s.mem z dummy tds).2 with
    | false => rfl
    | true =>
      rw [if_pos rfl]
      by_cases hz : z = u
      · subst hz
        rw [DumpEnv.On.onSubmit (hd ▸ hon), hin]
        rfl
      · rw [DumpEnv.count_onSubmit hz]
        rfl

/-- The second phase queues a request that is under way, when it is clean. -/
theorem noted_submitSecond {buf setup : ℕ} {o₁ : Ohci} {b : Bool} (hon : env.On d)
    (hd : (s.mem.urb u).dev = d)
    (hok : DumpClean d s (.submitSecond z buf setup)) (hmem : z ∈ s.pend)
    (hpend : s'.pend = s.pend.erase z)
    (h : submitSecond fuel s.mem z buf setup = some (o₁, b)) :
    Noted u env fuel s s' (.submitSecond z buf setup) := by
  have hq : s.queuedBy fuel (.submitSecond z buf setup) = if b then [z] else [] := by
    rw [Sys.queuedBy, h]
    cases b <;> rfl
  have hw : wastedBy env fuel s (.submitSecond z buf setup) =
      if b then [] else env.onSubmit s.mem z := by
    rw [wastedBy, h]
    cases b <;> rfl
  -- a clean submission of an OUT request is not refused
  have haccept : (s.mem.urb z).dev = d → (s.mem.urb z).pipe.out = true → b = true := by
    intro hd hout
    cases b with
    | true => rfl
    | false =>
      obtain ⟨p, hp, hfails⟩ := submitSecond_refused h
      obtain ⟨hnew, hdel, hbuf⟩ := hok hd hout p hp
      rw [hdel, hbuf] at hfails
      exact absurd hfails (by simp [hnew])
  have hpos : 0 < s.pend.count z := List.count_pos_iff.mpr hmem
  refine ⟨fun hout => ?_, fun _ => rfl, fun hwasted => ?_⟩
  · rw [hq, hpend]
    by_cases hz : z = u
    · subst hz
      rw [haccept hd hout, if_pos rfl, List.count_singleton_self, List.count_erase_self]
      show 0 + s.pend.count z = 1 + (s.pend.count z - 1)
      omega
    · rw [List.count_erase_of_ne (Ne.symm hz)]
      cases b with
      | false => rfl
      | true =>
        rw [if_pos rfl, List.count_cons_of_ne hz]
        rfl
  · rw [hw] at hwasted
    cases b with
    | true => cases hwasted
    | false =>
      rw [if_neg Bool.false_ne_true] at hwasted
      obtain rfl := DumpEnv.eq_of_mem_onSubmit hwasted
      rw [DumpEnv.On.onSubmit (hd ▸ hon)] at hwasted
      split at hwasted
      · cases haccept hd ‹_›
      · cases hwasted

/-- The interrupt routines note the IN requests that are returned. -/
theorem noted_resume (hon : env.On d) (hd : (s.mem.urb u).dev = d) (hok : DumpClean d s .resume)
    (hpend : s'.pend = s.pend) : Noted u env fuel s s' .resume := by
  -- a step in which nothing happens to requests
  have hsame : s.queuedBy fuel .resume = [] → recordsBy env s .resume = [] →
      returnedBy s .resume = [] →
      Noted u env fuel s s' .resume := by
    intro hq hrec hret
    refine ⟨fun _ => ?_, fun _ => ?_, List.not_mem_nil⟩
    · rw [hq, hrec, hpend]
    · rw [hrec, hret]
  cases ht : s.tasks with
  | nil =>
    refine hsame ?_ ?_ ?_
    · simp only [Sys.queuedBy, ht]
    · simp only [recordsBy, ht]
    · simp only [returnedBy, ht]
  | cons task tasks =>
    cases task with
    | done x =>
      have hq : s.queuedBy fuel .resume = [] := by simp only [Sys.queuedBy, ht]
      have hrec : recordsBy env s .resume = if x = 0 then [] else
          (returnCall s.mem x).elim [] (fun o => env.returnRecords o (s.mem.td x).urb) := by
        simp only [recordsBy, ht]
      have hret : returnedBy s .resume = if x = 0 then [] else
          (returnCall s.mem x).elim [] (fun _ => [(s.mem.td x).urb]) := by
        simp only [returnedBy, ht]
      have hclean : (s.mem.urb (s.mem.td x).urb).dev = d →
          (s.mem.urb (s.mem.td x).urb).pipe.out = false →
          (s.mem.urb (s.mem.td x).urb).complete = true := by
        simpa only [DumpClean, ht] using hok
      by_cases hx : x = 0
      · rw [if_pos hx] at hrec hret
        exact hsame hq hrec hret
      rw [if_neg hx] at hrec hret
      cases hcall : returnCall s.mem x with
      | none =>
        rw [hcall] at hrec hret
        exact hsame hq hrec hret
      | some o₁ =>
        rw [hcall] at hrec hret
        obtain ⟨hout₁, hin₁⟩ := returnRecords_spec hon hcall hclean hd
        refine ⟨fun hout => ?_, fun hin => ?_, List.not_mem_nil⟩
        · rw [hq, hrec, hpend]
          exact congrArg (· + s.pend.count u) (hout₁ hout)
        · rw [hrec, hret]
          exact hin₁ hin
    | requeue z e next =>
      have hclean : (s.mem.urb z).dev = d → (s.mem.urb z).pipe.out = true →
          (s.mem.priv z).urbDel = true := by
        simpa only [DumpClean, ht] using hok
      have hq : s.queuedBy fuel .resume = if (s.mem.priv z).urbDel then [] else [z] := by
        simp only [Sys.queuedBy, ht]
      have hrec : recordsBy env s .resume = [] := by simp only [recordsBy, ht]
      have hret : returnedBy s .resume = [] := by simp only [returnedBy, ht]
      refine ⟨fun hout => ?_, fun _ => by rw [hrec, hret], List.not_mem_nil⟩
      rw [hq, hrec, hpend]
      by_cases hz : z = u
      · subst hz
        rw [if_pos (hclean hd hout)]
      · split
        · rfl
        · rw [List.count_cons_of_ne hz]
    | _ =>
      refine hsame ?_ ?_ ?_
      · simp only [Sys.queuedBy, ht]
      · simp only [recordsBy, ht]
      · simp only [returnedBy, ht]

/-- **What a clean step notes of a request of the device.** -/
theorem noted_step (hon : env.On d) (hok : DumpClean d s a) (hs : s.step fuel a = some s')
    (hd : (s.mem.urb u).dev = d) : Noted u env fuel s s' a := by
  have hpend := Sys.step_pend hs
  cases a with
  | submitFirst z dummy tds => exact noted_submitFirst hon hd hpend
  | submitSecond z buf setup =>
    obtain ⟨hmem, hpend⟩ := hpend
    simp only [Sys.step] at hs
    rw [if_pos hmem] at hs
    obtain ⟨⟨o, b⟩, h, -⟩ := Option.bind_eq_some_iff.mp hs
    exact noted_submitSecond hon hd hok hmem hpend h
  | resume => exact noted_resume hon hd hok hpend
  | _ =>
    dsimp only at hpend
    refine ⟨fun _ => ?_, fun _ => rfl, List.not_mem_nil⟩
    rw [hpend]
    rfl

/-- **One step.** -/
theorem Inv.step (hon : env.On d) (h : t.Inv d o) (hok : DumpClean d t.sys a)
    (hs : t.step env fuel a = some t') :
    t'.Inv d o := by
  obtain ⟨s, h₁, hs⟩ := Option.bind_eq_some_iff.mp hs
  cases hs
  have hurb : ∀ u, (t.sys.mem.urb u).dev = (o.urb u).dev ∧
      (t.sys.mem.urb u).pipe = (o.urb u).pipe := fun u =>
    ⟨congrArg UrbConst.dev (congrFun h.const u), congrArg UrbConst.pipe (congrFun h.const u)⟩
  have hnoted : ∀ u, (o.urb u).dev = d → Noted u env fuel t.sys s a := fun u hd =>
    noted_step hon hok h₁ ((hurb u).1.trans hd)
  refine ⟨Sys.step_base h.base h₁, (Sys.step_entry h.base h₁).layout.2.1.trans h.const,
    fun u hd hout => ?_, fun u hd hin => ?_, fun u hd hmem => ?_⟩
  · have hout' : (t.sys.mem.urb u).pipe.out = true := (congrArg Pipe.out (hurb u).2).trans hout
    have hrec := (hnoted u hd).out hout'
    have hold := h.out u hd hout
    dsimp only
    rw [List.count_append, Sys.step_submits h₁, List.count_append]
    omega
  · have hin' : (t.sys.mem.urb u).pipe.out = false := (congrArg Pipe.out (hurb u).2).trans hin
    have hrec := (hnoted u hd).inn hin'
    have hold := h.inn u hd hin
    dsimp only
    rw [List.count_append, List.count_append]
    omega
  · obtain hmem | hmem := List.mem_append.mp hmem
    · exact (hnoted u hd).refused hmem
    · exact h.refused u hd hmem

/-- **The dump log matches the traffic** in every run of clean steps. -/
theorem matches_of_clean (hon : env.On d) (ho : o.Idle) (htrace : o.trace = [])
    (h : From env (DumpClean d) o t) : t.Matches d := by
  have hinv : t.Inv d o := by
    induction h with
    | start =>
      refine ⟨ho.base, rfl, fun u _ _ => ?_, fun _ _ _ => rfl, fun _ _ => List.not_mem_nil⟩
      rw [Ohci.submits, htrace]
      rfl
    | step fuel a _ hok hs ih => exact ih.step hon hok hs
  have hurb : ∀ u, (t.sys.mem.urb u).dev = (o.urb u).dev ∧
      (t.sys.mem.urb u).pipe = (o.urb u).pipe := fun u =>
    ⟨congrArg UrbConst.dev (congrFun hinv.const u),
      congrArg UrbConst.pipe (congrFun hinv.const u)⟩
  refine ⟨fun u hd hout hp => ?_, fun u hd hin => ?_, fun u hd => ?_⟩
  · rw [(hurb u).1] at hd
    rw [(hurb u).2] at hout
    rw [hinv.out u hd hout, List.count_eq_zero_of_not_mem hp, Nat.add_zero]
  · rw [(hurb u).1] at hd
    rw [(hurb u).2] at hin
    exact hinv.inn u hd hin
  · rw [(hurb u).1] at hd
    exact hinv.refused u hd

end Traffic

end Account

/-! ## Runs to look at -/

/-- A driver with bulk OUT requests of one byte for one endpoint. -/
def oneByteOut : Ohci :=
  { twoBulkUrbs with
    urb := fun _ =>
      { (default : Urb) with
        pipe := ⟨.bulk, 1, 1, true, false⟩
        dev := 1
        transferBufferLength := 1 } }

theorem oneByteOut_idle : oneByteOut.Idle :=
  ⟨fun _ => rfl, rfl, fun l => by cases l <;> rfl, fun l => by cases l <;> rfl, fun _ => rfl,
    fun _ => rfl, fun _ => rfl⟩

/-- All devices are dumped at once. -/
def dumpAll : DumpEnv := ⟨fun _ => ⟨⟨0, 0⟩, 1, 0, 1⟩, fun _ => 1⟩

theorem dumpAll_on : dumpAll.On 1 := ⟨by decide, by decide, by decide, by decide, by decide⟩

namespace Traffic

/-- There is a buffer for the request. -/
theorem matches_oneByteOut :
    ∃ t : Traffic, t.records = [1] ∧ t.sys.mem.submits = [1] ∧ t.Matches 1 := by
  obtain ⟨t₁, t₂, h₁, h₂, hok, hrec, hsub⟩ : ∃ t₁ t₂ : Traffic,
      step dumpAll 1 ⟨⟨oneByteOut, [], [], []⟩, [], [], []⟩ (.submitFirst 1 100 (fun _ => 101))
        = some t₁ ∧
      t₁.step dumpAll 1 (.submitSecond 1 8 0) = some t₂ ∧
        DumpClean 1 t₁.sys (.submitSecond 1 8 0) ∧
      t₂.records = [1] ∧ t₂.sys.mem.submits = [1] := by
    refine ⟨_, _, rfl, rfl, fun _ _ p hp => ?_, rfl, rfl⟩
    cases hp
    decide
  exact ⟨t₂, hrec, hsub, matches_of_clean dumpAll_on oneByteOut_idle rfl
    (.step 1 (.submitSecond 1 8 0) (.step 1 (.submitFirst 1 100 (fun _ => 101)) .start trivial h₁)
      hok h₂)⟩

/-- There is none: the request is refused, and has been dumped. -/
theorem not_matches :
    ¬ ∀ (env : DumpEnv) (d : DevPtr) (o : Ohci) (t : Traffic), env.On d → o.Idle → o.trace = [] →
    From env (fun _ _ => True) o t → t.Matches d := by
  intro h
  obtain ⟨t₁, t₂, h₁, h₂, hdev, hwasted⟩ : ∃ t₁ t₂ : Traffic,
      step dumpAll 1 ⟨⟨oneByteOut, [], [], []⟩, [], [], []⟩ (.submitFirst 1 100 (fun _ => 101))
        = some t₁ ∧
      t₁.step dumpAll 1 (.submitSecond 1 0 0) = some t₂ ∧ (t₂.sys.mem.urb 1).dev = 1 ∧
        1 ∈ t₂.wasted := by
    exact ⟨_, _, rfl, rfl, by decide, by decide⟩
  exact (h dumpAll 1 oneByteOut t₂ dumpAll_on oneByteOut_idle rfl
    (.step 1 (.submitSecond 1 0 0) (.step 1 (.submitFirst 1 100 (fun _ => 101)) .start trivial h₁)
      trivial h₂)).refused
    1 hdev hwasted

end Traffic
