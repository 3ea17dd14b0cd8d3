import SideDumper.LedgerEntries
import SideDumper.RunEffects

/-!
# What a step enters in the accounts

As for the lists of EDs, each step of a run is put into one of a few cases:
which private part comes or goes, which device is counted up or down, which ED
changes its state. `Sys.Entry` is the list of the cases. Runs start here from
a given memory, since what the accounts say depends on it.
-/

/-- **The states of the runs from a given start**, all of whose steps meet a
condition. -/
inductive Sys.From (ok : Sys → Act → Prop) (s₀ : Sys) : Sys → Prop
  | start : Sys.From ok s₀ s₀
  | step {s s' : Sys} (fuel : ℕ) (a : Act) : Sys.From ok s₀ s → ok s a → s.step fuel a = some s' →
      Sys.From ok s₀ s'

/-- **The cases of a step.** -/
inductive Sys.Entry (s s' : Sys) : Act → Prop
  /-- No entry. -/
  | same (a : Act) : s'.mem.ledger = s.mem.ledger → s'.pend = s.pend → s'.waiting = s.waiting →
      Sys.Entry s s' a
  /-- A submission stops because the controller is disabled. -/
  | stopped (u : UrbPtr) (dummy : TdPtr) (tds : ℕ → TdPtr) : s.mem.disabled = true →
      (s.mem.urb u).dev ≠ 0 →
      s.mem.ledger.priv u = none → s'.mem.ledger = s.mem.ledger.use (s.mem.urb u).dev 1 →
      s'.pend = s.pend → s'.waiting = s.waiting → Sys.Entry s s' (.submitFirst u dummy tds)
  /-- There is no dummy TD for a new ED. -/
  | noDummy (u : UrbPtr) (dummy : TdPtr) (tds : ℕ → TdPtr) (e : EdPtr) :
      s.mem.ledger.state e = .edNew →
      s'.mem.ledger = { s.mem.ledger with fa := Function.update s.mem.ledger.fa e 0 } →
      s'.pend = s.pend → s'.waiting = s.waiting → Sys.Entry s s' (.submitFirst u dummy tds)
  /-- A TD is missing for a request. -/
  | undone (u : UrbPtr) (dummy : TdPtr) (tds : ℕ → TdPtr) (e : EdPtr) (l : Ledger) :
      e = edOf s.mem (s.mem.urb u).dev (s.mem.urb u).pipe → (s.mem.urb u).dev ≠ 0 →
      s.mem.ledger.priv u = none →
      s.mem.ledger.Added l (s.mem.urb u).dev e (s.mem.urb u).pipe.device dummy →
      s'.mem.ledger = ((l.setPriv u (some (newPriv e (tdSize (s.mem.urb u)) tds).holding)).give
        (tdSize (s.mem.urb u)) tds).rmPriv u →
      s'.pend = s.pend → s'.waiting = s.waiting → Sys.Entry s s' (.submitFirst u dummy tds)
  /-- A request gets its private part. -/
  | begun (u : UrbPtr) (dummy : TdPtr) (tds : ℕ → TdPtr) (e : EdPtr) (l : Ledger) :
      e = edOf s.mem (s.mem.urb u).dev (s.mem.urb u).pipe → (s.mem.urb u).dev ≠ 0 →
      s.mem.ledger.priv u = none →
      s.mem.ledger.Added l (s.mem.urb u).dev e (s.mem.urb u).pipe.device dummy →
      (∀ i < tdSize (s.mem.urb u), tds i ≠ 0) →
      s'.mem.ledger = ((l.use (s.mem.urb u).dev 1).setPriv u
        (some (newPriv e (tdSize (s.mem.urb u)) tds).holding)).give (tdSize (s.mem.urb u)) tds →
      s'.pend = u :: s.pend → s'.waiting = s.waiting → Sys.Entry s s' (.submitFirst u dummy tds)
  /-- The second phase fails. -/
  | failed (u : UrbPtr) (buf setup : ℕ) (h : Holding) : u ∈ s.pend →
      s.mem.ledger.priv u = some h →
      s'.mem.ledger = (s.mem.ledger.rmPriv u).use (s.mem.urb u).dev (-1) →
      s'.pend = s.pend.erase u → s'.waiting = s.waiting →
        Sys.Entry s s' (.submitSecond u buf setup)
  /-- A request is queued. -/
  | queued (u : UrbPtr) (buf setup : ℕ) (h : Holding) : u ∈ s.pend →
      s.mem.ledger.priv u = some h →
      s.mem.ledger.state h.ed ≠ .edNew → (s.mem.ledger.state h.ed).del = false →
      Ledger.Swaps u (s.mem.ledger.setState h.ed .edOper) s'.mem.ledger →
      s'.pend = s.pend.erase u → s'.waiting = s.waiting →
        Sys.Entry s s' (.submitSecond u buf setup)
  /-- A pending request is marked. -/
  | mark (u : UrbPtr) (h : Holding) : (s.mem.urb u).dev ≠ 0 → s.mem.ledger.priv u = some h →
      unlinksEd s.mem u = some h.ed →
      s'.mem.ledger = (s.mem.ledger.setPriv u (some { h with urbDel := true })).setState h.ed
        { s.mem.ledger.state h.ed with urbDel := true } →
      s'.pend = s.pend → s'.waiting = (if (s.mem.urb u).asyncUnlink then s.waiting
        else u :: s.waiting) →
      Sys.Entry s s' (.unlink u)
  /-- A request that is not pending is dropped. -/
  | drop (u : UrbPtr) (h : Holding) : (s.mem.urb u).dev ≠ 0 → s.mem.ledger.priv u = some h →
      unlinksEd s.mem u = none →
      s'.mem.ledger = (s.mem.ledger.rmPriv u).use (s.mem.urb u).dev (-1) →
      s'.pend = s.pend → s'.waiting = s.waiting → Sys.Entry s s' (.unlink u)
  /-- A synchronous unlinking ends. -/
  | finish (u : UrbPtr) : u ∈ s.waiting →
      s'.mem.ledger = s.mem.ledger.use (s.mem.urb u).dev (-1) →
      s'.pend = s.pend → s'.waiting = s.waiting.erase u → Sys.Entry s s' (.unlinkFinish u)
  /-- An ED is to be removed. -/
  | free (e : EdPtr) : s.mem.ledger.state e ≠ .edNew →
      s'.mem.ledger = s.mem.ledger.setState e .edDel →
      s'.pend = s.pend → s'.waiting = s.waiting → Sys.Entry s s' (.freeEd e)
  /-- `dl_done_list` returns a request. -/
  | returned (t : TdPtr) (tasks : List IrqTask) (h : Holding) : s.tasks = .done t :: tasks →
      s.mem.ledger.priv (s.mem.td t).urb = some h → h.urbDel = false →
      (s.mem.ledger.state (s.mem.td t).ed).del = false →
        s.mem.ledger.state (s.mem.td t).ed ≠ .edNew →
      s'.mem.ledger
        = (s.mem.ledger.rmPriv (s.mem.td t).urb).use (s.mem.urb (s.mem.td t).urb).dev (-1) →
      s'.pend = s.pend → s'.waiting = s.waiting → Sys.Entry s s' .resume
  /-- `dl_done_list` clears away a request that has been unlinked, or whose ED
  has been removed. -/
  | cleared (t : TdPtr) (tasks : List IrqTask) (h : Holding) : s.tasks = .done t :: tasks →
      s.mem.ledger.priv (s.mem.td t).urb = some h →
      h.urbDel = true ∨ (s.mem.ledger.state (s.mem.td t).ed).del = true ∨
        s.mem.ledger.state (s.mem.td t).ed = .edNew →
      s'.mem.ledger = s.mem.ledger.rmPriv (s.mem.td t).urb →
      s'.pend = s.pend → s'.waiting = s.waiting → Sys.Entry s s' .resume
  /-- A periodic request is queued again. -/
  | refilled (u : UrbPtr) (e : EdPtr) (next : TdPtr) (tasks : List IrqTask) (h : Holding) :
      s.tasks = .requeue u e next :: tasks → s.mem.ledger.priv u = some h → h.urbDel = false →
      Ledger.Swaps u s.mem.ledger s'.mem.ledger →
      s'.pend = s.pend → s'.waiting = s.waiting → Sys.Entry s s' .resume
  /-- An ED that is not busy is unlinked. -/
  | idle (e : EdPtr) : s.mem.ledger.state e = .edOper →
      s'.mem.ledger = s.mem.ledger.setState e .edUnlink →
      s'.pend = s.pend → s'.waiting = s.waiting → Sys.Entry s s' .resume
  /-- `dl_del_list` takes a TD off a queue. -/
  | deleted (f : Bool) (e : EdPtr) (tail : TdPtr) (fa : ℕ) (t : TdPtr) (tdP : TdLink)
      (tasks : List IrqTask) (p : UrbPriv) : s.tasks = .delQueue f e tail fa t tdP :: tasks →
        t ≠ tail →
      (s.mem.urb (s.mem.td t).urb).hcpriv = some p →
      p.urbDel = true ∨ (s.mem.ledger.state e).del = true →
      s'.mem.ledger
        = (if (p.tdCnt + 1) % 65536 = p.length then s.mem.ledger.rmPriv (s.mem.td t).urb
        else s.mem.ledger).report (s.mem.td t).urb →
      s'.pend = s.pend → s'.waiting = s.waiting → Sys.Entry s s' .resume
  /-- An ED is removed. -/
  | removed (f : Bool) (e : EdPtr) (tail : TdPtr) (fa : ℕ) (tdP : TdLink) (tasks : List IrqTask) :
      s.tasks = .delQueue f e tail fa tail tdP :: tasks → (s.mem.ledger.state e).del = true →
      s'.mem.ledger = s.mem.ledger.removeEd e tail fa →
      s'.pend = s.pend → s'.waiting = s.waiting → Sys.Entry s s' .resume
  /-- The mark of an ED is taken away. -/
  | unmarked (f : Bool) (e : EdPtr) (tail : TdPtr) (fa : ℕ) (tdP : TdLink) (tasks :
      List IrqTask) :
      s.tasks = .delQueue f e tail fa tail tdP :: tasks → (s.mem.ledger.state e).del = false →
      s'.mem.ledger = s.mem.ledger.setState e { s.mem.ledger.state e with urbDel := false } →
      s'.pend = s.pend → s'.waiting = s.waiting → Sys.Entry s s' .resume

/-- Filling TDs leaves the counts. -/
theorem Ledger.Swaps.counts {u : UrbPtr} {l l' : Ledger} (h : Ledger.Swaps u l l') :
    (l'.edCnt, l'.base, l'.state, l'.const, l'.rhDevnum)
      = (l.edCnt, l.base, l.state, l.const, l.rhDevnum) := by
  induction h with
  | refl l => rfl
  | swap _ _ _ ih => exact ih

section Steps

variable {s s' : Sys} {a : Act} {fuel : ℕ} {ok : Sys → Act → Prop} {s₀ : Sys}

/-- What holds at the start and is kept by every step that meets the condition
holds throughout. -/
theorem Sys.From.invariant {P : Sys → Prop} (h0 : P s₀)
    (hstep : ∀ s s' fuel a, P s → ok s a → s.step fuel a = some s' → P s')
    (h : Sys.From ok s₀ s) : P s := by
  induction h with
  | start => exact h0
  | step fuel a _ hok hs ih => exact hstep _ _ fuel a ih hok hs

/-- What is at the null address can be read off the accounts. -/
theorem Sys.Base.of_ledger {o : Ohci} (hb : s.Base) (hpriv : o.ledger.priv = s.mem.ledger.priv)
    (hstate : o.ledger.state = s.mem.ledger.state) : Sys.Base { s with mem := o } where
  owner := fun u e he => by
    obtain ⟨p, hp, hpe⟩ := Option.map_eq_some_iff.mp he
    have hmap : s.mem.ledger.priv u = some p.holding := by
      rw [← hpriv]
      exact ledger_priv hp
    obtain ⟨q, hq, hqp⟩ := Option.map_eq_some_iff.mp hmap
    refine hb.owner u e (Option.map_eq_some_iff.mpr ⟨q, hq, ?_⟩)
    exact (congrArg Holding.ed hqp).trans hpe
  zero := (congrFun hstate 0).trans hb.zero
  queue := hb.queue

/-- **One pass of an interrupt routine.** -/
theorem Sys.resume_entry (hb : s.Base) (hs : s.step fuel .resume = some s') :
    Sys.Entry s s' .resume := by
  simp only [Sys.step] at hs
  split at hs
  · cases hs
  rename_i task tasks ht
  obtain ⟨⟨o, task'⟩, h₁, hs⟩ := Option.bind_eq_some_iff.mp hs
  cases hs
  cases task with
  | reverse t rev =>
    simp only [IrqTask.step] at h₁
    split at h₁ <;> cases h₁
    · exact .same _ rfl rfl rfl
    · exact .same _ ledger_reverseTd rfl rfl
  | done t =>
    simp only [IrqTask.step] at h₁
    split at h₁
    · cases h₁
      exact .same _ rfl rfl rfl
    · obtain ⟨⟨o₁, again⟩, h₂, h₁⟩ := Option.bind_eq_some_iff.mp h₁
      cases h₁
      obtain ⟨hsame, -⟩ | ⟨-, q, hq, ⟨hlive, hdel, hnew, hl⟩ | ⟨hdead, hl⟩⟩ := ledger_doneTd h₂
      · exact .same _ hsame rfl rfl
      · exact .returned t tasks q ht hq hlive hdel hnew hl rfl rfl
      · exact .cleared t tasks q ht hq hdead hl rfl rfl
  | requeue u e next =>
    obtain ⟨o₁, h₂, h₁⟩ := Option.bind_eq_some_iff.mp h₁
    cases h₁
    obtain ⟨p, hp, ⟨-, hsame⟩ | ⟨hlive, hswaps⟩⟩ := ledger_requeueUrb h₂
    · exact .same _ hsame rfl rfl
    · exact .refilled u e next tasks p.holding ht (ledger_priv hp) hlive hswaps rfl rfl
  | endEd e next =>
    obtain ⟨o₁, h₂, h₁⟩ := Option.bind_eq_some_iff.mp h₁
    cases h₁
    by_cases h0 : e = 0
    · subst h0
      have hzero : (s.mem.ed 0).state = .edNew := hb.zero
      unfold doneEd at h₂
      rw [if_neg (by rw [hzero]; simp [EdState.edNew, EdState.edOper])] at h₂
      cases h₂
      exact .same _ rfl rfl rfl
    · obtain hsame | ⟨hoper, hl⟩ := ledger_doneEd h0 h₂
      · exact .same _ hsame rfl rfl
      · exact .idle e hoper hl rfl rfl
  | del f e =>
    simp only [IrqTask.step] at h₁
    split at h₁ <;> cases h₁
    · exact .same _ ledger_delEnd rfl rfl
    · exact .same _ rfl rfl rfl
  | delQueue f e tail fa t tdP =>
    simp only [IrqTask.step] at h₁
    split at h₁
    · rename_i htail
      subst htail
      cases h₁
      obtain ⟨hdel, hl⟩ | ⟨hdel, hl⟩ := ledger_delEdEnd (o := s.mem) (e := e) t fa
      · exact .removed f e t fa tdP tasks ht hdel hl rfl rfl
      · exact .unmarked f e t fa tdP tasks ht hdel hl rfl rfl
    · rename_i htail
      obtain ⟨⟨o₁, tdP'⟩, h₂, h₁⟩ := Option.bind_eq_some_iff.mp h₁
      cases h₁
      obtain ⟨p, hp, ⟨-, rfl, -⟩ | ⟨hdel, -, hl⟩⟩ := ledger_delTd h₂
      · exact .same _ rfl rfl rfl
      · exact .deleted f e tail fa t tdP tasks p ht htail hp hdel hl rfl rfl

/-- **Every step is one of the cases.** -/
theorem Sys.step_entry (hb : s.Base) (hs : s.step fuel a = some s') : Sys.Entry s s' a := by
  cases a with
  | submitFirst u dummy tds =>
    simp only [Sys.step] at hs
    split at hs
    · cases hs
    obtain ⟨o, b, hfirst⟩ : ∃ o b, submitFirst s.mem u dummy tds = (o, b) := ⟨_, _, rfl⟩
    rw [hfirst] at hs
    cases hs
    obtain ⟨rfl, rfl, -⟩ | ⟨hdev, hnone, ⟨rfl, hdis, hl⟩ | ⟨rfl, hl⟩ | ⟨rfl, hnew, hl⟩ | ⟨l, hadd,
      ⟨rfl, -, hl⟩ | ⟨rfl, hall, hl⟩⟩⟩ := ledger_submitFirst hfirst
    · exact .same _ rfl rfl rfl
    · exact .stopped u dummy tds hdis hdev hnone hl rfl rfl
    · exact .same _ hl rfl rfl
    · exact .noDummy u dummy tds _ hnew hl rfl rfl
    · exact .undone u dummy tds _ l rfl hdev hnone hadd hl rfl rfl
    · exact .begun u dummy tds _ l rfl hdev hnone hadd hall hl rfl rfl
  | submitSecond u buf setup =>
    simp only [Sys.step] at hs
    split at hs
    · rename_i hpend
      obtain ⟨⟨o, b⟩, h₁, hs⟩ := Option.bind_eq_some_iff.mp hs
      cases hs
      obtain ⟨p, hp, ⟨-, hl⟩ | ⟨-, hnew, hdel, hswaps⟩⟩ := ledger_submitSecond h₁
      · exact .failed u buf setup p.holding hpend (ledger_priv hp) hl rfl rfl
      · exact .queued u buf setup p.holding hpend (ledger_priv hp) hnew hdel hswaps rfl rfl
    · cases hs
  | unlink u =>
    simp only [Sys.step] at hs
    obtain ⟨o, b, hun⟩ : ∃ o b, unlinkUrb s.mem u = (o, b) := ⟨_, _, rfl⟩
    rw [hun] at hs
    cases hs
    obtain ⟨rfl, rfl, -⟩ | ⟨hdev, p, hp, ⟨hpend, rfl, hl⟩ | ⟨hpend, rfl, hl⟩⟩ :=
      ledger_unlinkUrb hun
    · exact .same _ rfl rfl rfl
    · refine .mark u p.holding hdev (ledger_priv hp) ?_ hl rfl ?_
      · rw [unlinksEd, if_pos ⟨hdev, hpend.1, by rw [hpend.2]; rfl⟩, Ohci.privEd, hp]
        rfl
      · cases (s.mem.urb u).asyncUnlink <;> rfl
    · refine .drop u p.holding hdev (ledger_priv hp) ?_ hl rfl rfl
      rw [unlinksEd, if_neg]
      rintro ⟨-, hstatus, hdis⟩
      exact hpend ⟨hstatus, by simpa using hdis⟩
  | unlinkFinish u =>
    simp only [Sys.step] at hs
    split at hs
    · cases hs
      exact .finish u ‹_› ledger_unlinkFinish rfl rfl
    · cases hs
  | freeEd e =>
    simp only [Sys.step] at hs
    split at hs
    · cases hs
    rename_i h0
    obtain ⟨o, h₁, hs⟩ := Option.bind_eq_some_iff.mp hs
    cases hs
    obtain ⟨-, rfl⟩ | ⟨hnew, hl⟩ := ledger_freeEd h0 h₁
    · exact .same _ rfl rfl rfl
    · exact .free e hnew hl rfl rfl
  | resume => exact Sys.resume_entry hb hs
  | hcEd e head halted carry =>
    cases hs
    exact .same _ (Ohci.ledger_modEd_same (by intro; rfl)) rfl rfl
  | doneIrq =>
    cases hs
    exact .same _ rfl rfl rfl
  | delIrq f =>
    cases hs
    exact .same _ rfl rfl rfl
  | frame n =>
    cases hs
    exact .same _ rfl rfl rfl
  | hcTd t cc cbp next psw =>
    cases hs
    exact .same _ rfl rfl rfl
  | hcDone t =>
    cases hs
    exact .same _ rfl rfl rfl
  | hcData x b =>
    cases hs
    exact .same _ rfl rfl rfl

/-- What the driver is told never changes. -/
theorem Sys.Entry.layout (h : Sys.Entry s s' a) :
    s'.mem.ledger.base = s.mem.ledger.base ∧ s'.mem.ledger.const = s.mem.ledger.const ∧
      s'.mem.ledger.rhDevnum = s.mem.ledger.rhDevnum := by
  have hadd : ∀ {l l' : Ledger} {d e fa dummy}, l.Added l' d e fa dummy →
      l'.base = l.base ∧ l'.const = l.const ∧ l'.rhDevnum = l.rhDevnum := by
    rintro l l' d e fa dummy (⟨-, -, rfl⟩ | ⟨-, -, rfl⟩) <;> exact ⟨rfl, rfl, rfl⟩
  have hrm : ∀ (l : Ledger) u, (l.rmPriv u).base = l.base ∧ (l.rmPriv u).const = l.const ∧
      (l.rmPriv u).rhDevnum = l.rhDevnum :=
    fun l u => ⟨Ledger.rmPriv_base l u, Ledger.rmPriv_const l u, Ledger.rmPriv_rhDevnum l u⟩
  cases h with
  | same _ hl => rw [hl]; exact ⟨rfl, rfl, rfl⟩
  | stopped _ _ _ _ _ _ hl => rw [hl]; exact ⟨rfl, rfl, rfl⟩
  | noDummy _ _ _ _ _ hl => rw [hl]; exact ⟨rfl, rfl, rfl⟩
  | undone _ _ _ _ l _ _ _ ha hl =>
    rw [hl, (hrm _ _).1, (hrm _ _).2.1, (hrm _ _).2.2]
    obtain ⟨hb, hc, hr⟩ := hadd ha
    exact ⟨hb, hc, hr⟩
  | begun _ _ _ _ l _ _ _ ha _ hl =>
    rw [hl]
    obtain ⟨hb, hc, hr⟩ := hadd ha
    exact ⟨hb, hc, hr⟩
  | failed _ _ _ _ _ _ hl => rw [hl]; exact hrm _ _
  | queued _ _ _ _ _ _ _ _ hs =>
    have hc := hs.counts
    simp only [Prod.mk.injEq] at hc
    exact ⟨hc.2.1, hc.2.2.2.1, hc.2.2.2.2⟩
  | mark _ _ _ _ _ hl => rw [hl]; exact ⟨rfl, rfl, rfl⟩
  | drop _ _ _ _ _ hl => rw [hl]; exact hrm _ _
  | finish _ _ hl => rw [hl]; exact ⟨rfl, rfl, rfl⟩
  | free _ _ hl => rw [hl]; exact ⟨rfl, rfl, rfl⟩
  | returned _ _ _ _ _ _ _ _ hl => rw [hl]; exact hrm _ _
  | cleared _ _ _ _ _ _ hl => rw [hl]; exact hrm _ _
  | refilled _ _ _ _ _ _ _ _ hs =>
    have hc := hs.counts
    simp only [Prod.mk.injEq] at hc
    exact ⟨hc.2.1, hc.2.2.2.1, hc.2.2.2.2⟩
  | idle _ _ hl => rw [hl]; exact ⟨rfl, rfl, rfl⟩
  | deleted _ _ _ _ t _ _ _ _ _ _ _ hl =>
    rw [hl, Ledger.report_base, Ledger.report_const, Ledger.report_rhDevnum]
    split
    · exact hrm _ _
    · exact ⟨rfl, rfl, rfl⟩
  | removed _ _ _ _ _ _ _ _ hl => rw [hl]; exact ⟨rfl, rfl, rfl⟩
  | unmarked _ _ _ _ _ _ _ _ hl => rw [hl]; exact ⟨rfl, rfl, rfl⟩

/-- **The rule for the accounts**: to hold throughout a run it is enough to hold
at the start and to be kept by every entry. -/
theorem Sys.From.of_entries {P : Sys → Prop} (hb : s₀.Base) (h0 : P s₀)
    (hstep : ∀ s s' fuel a, s.Base → P s → ok s a → s.step fuel a = some s' →
      Sys.Entry s s' a → P s')
    (h : Sys.From ok s₀ s) : P s := by
  refine (h.invariant (P := fun s => s.Base ∧ P s) ⟨hb, h0⟩ ?_).2
  intro s s' fuel a hs hok hstp
  exact ⟨Sys.step_base hs.1 hstp, hstep s s' fuel a hs.1 hs.2 hok hstp (Sys.step_entry hs.1 hstp)⟩

end Steps

/-- Several steps in a row, when nothing is asked of them. -/
theorem Sys.From.run {fuel : ℕ} {s₀ s s' : Sys} {as : List Act}
    (h : Sys.From (fun _ _ => True) s₀ s)
    (hr : s.run fuel as = some s') : Sys.From (fun _ _ => True) s₀ s' := by
  induction as generalizing s with
  | nil =>
    cases hr
    exact h
  | cons a as ih =>
    obtain ⟨s₁, h₁, hr⟩ := Option.bind_eq_some_iff.mp hr
    exact ih (.step fuel a h trivial h₁) hr
