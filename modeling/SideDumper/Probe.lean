import SideDumper.Inevitable
import SideDumper.WorkQueueFifo

/-!
# The probe and the removal of the dumper

`hc_found_ohci` installs the dumper last, behind all that can fail, and
`hc_release_ohci` removes it. The probe calls `hc_release_ohci` itself when
`hc_reset` or `request_irq` fails, and the clean-up of the module calls it
after a probe that has returned 0, whether `kernel_thread` has started a worker
or not. `SideDumper_RemoveDumper` waits for the worker in all of these cases.

`Probe` is the driver and the dumper together. Before the installation the
dumper is what static memory is, all zero.
-/

/-- **What the calls of the probe answer**: `hc_alloc_ohci`, `hc_reset`,
`request_irq` and `kernel_thread`. -/
structure ProbeEnv where
  hcAllocOhci : Bool
  hcReset : ℤ
  requestIrq : ℤ
  kernelThread : ℤ
deriving DecidableEq, Repr

/-- Where the driver is, named by what comes next. `loaded` is the module after a
probe that has returned 0; `hc_release_ohci` and `SideDumper_RemoveDumper` go
with what is returned behind them. -/
inductive ProbePc
  | hcAllocOhci
  | hcReset
  | requestIrq
  | installDumper
  | loaded
  | hcReleaseOhci (code : ℤ)
  | removeDumper (code : ℤ)
  | returned (code : ℤ)
deriving DecidableEq, Repr

/-- `g_Inst` before the first installation. -/
def Dumper.static : Dumper where
  mem := ⟨[], false⟩
  uUrbNumGenerator := 0
  list := []
  semListAccess := 0
  semItemsQueued := 0
  semExitSignal := 0
  oContinue := false
  calls := []
  syncs := []
  worker := .absent
  remover := .idle
  appended := []
  taken := []
  leftover := []

/-- **The driver and the dumper.** -/
structure Probe where
  pc : ProbePc
  dumper : Dumper
  /-- `semExitSignal` has been initialised. -/
  exitSignalInit : Bool

namespace Probe

/-- The module is loaded. -/
def start : Probe := ⟨.hcAllocOhci, .static, false⟩

/-- **One step** of the probe, of the clean-up of the module or of the dumper.
URBs are captured when the dumper has been installed, since no device is
enabled before; `hc_release_ohci` has disconnected the devices and freed the
interrupt when it calls `SideDumper_RemoveDumper`. -/
inductive Step (env : ProbeEnv) (s : Probe) : Probe → Prop
  | allocFails (hpc : s.pc = .hcAllocOhci) (h : env.hcAllocOhci = false) :
      Step env s { s with pc := .returned (-12) }
  | alloc (hpc : s.pc = .hcAllocOhci) (h : env.hcAllocOhci = true) :
      Step env s { s with pc := .hcReset }
  | resetFails (hpc : s.pc = .hcReset) (h : env.hcReset < 0) :
      Step env s { s with pc := .hcReleaseOhci (-19) }
  | reset (hpc : s.pc = .hcReset) (h : 0 ≤ env.hcReset) : Step env s { s with pc := .requestIrq }
  | irqFails (hpc : s.pc = .requestIrq) (h : env.requestIrq ≠ 0) :
      Step env s { s with pc := .hcReleaseOhci (-16) }
  | irq (hpc : s.pc = .requestIrq) (h : env.requestIrq = 0) :
      Step env s { s with pc := .installDumper }
  | install (hpc : s.pc = .installDumper) :
      Step env s ⟨.loaded, .installDumper env.kernelThread, true⟩
  | cleanup (hpc : s.pc = .loaded) : Step env s { s with pc := .hcReleaseOhci 0 }
  | removeDumper (code : ℤ) (hpc : s.pc = .hcReleaseOhci code) (hc : s.dumper.calls = []) (hs :
      s.dumper.syncs = []) :
      Step env s { s with
        pc := .removeDumper code
        dumper := { s.dumper with remover := .upItemsQueued, oContinue := false } }
  | dumper (d : Dumper) (h : s.dumper.Step d) (hr : s.dumper.remover = .idle → d.remover = .idle)
      (hi : s.exitSignalInit = true ∨ s.dumper.remover ≠ .idle) :
        Step env s { s with dumper := d }
  | removed (code : ℤ) (hpc : s.pc = .removeDumper code) (hr : s.dumper.remover = .returned) :
      Step env s { s with pc := .returned code }

/-- **The states of the runs** with these answers. -/
inductive Reach (env : ProbeEnv) : Probe → Prop
  | start : Reach env start
  | step {s s' : Probe} (h : Reach env s) (hs : s.Step env s') : Reach env s'

/-- **The removal may wait**: what it waits for has been initialised, and has been
raised, or there is a worker that has not exited and will raise it. -/
structure MayWait (s : Probe) : Prop where
  init : s.exitSignalInit = true
  worker : 0 < s.dumper.semExitSignal ∨ s.dumper.worker ≠ .absent ∧ s.dumper.worker ≠ .exited ∧
    Inevitable Dumper.Step (fun d => 0 < d.semExitSignal) s.dumper

end Probe

/-! ## The worker of a removal -/

namespace Dumper

variable {d d' : Dumper}

/-- What the removal finds after an installation that has started a worker. -/
structure Worked (d : Dumper) : Prop where
  fifo : d.Fifo
  syncs : d.remover ≠ .idle → d.syncs = []
  worker : d.worker ≠ .absent

theorem Worked.install {pid : ℤ} (hpid : 0 ≤ pid) : (installDumper pid).Worked := by
  refine ⟨.install pid, fun _ => rfl, ?_⟩
  have hw : (installDumper pid).worker = .downItemsQueued := if_neg (by omega)
  rw [hw]
  simp

theorem Worked.step (h : d.Worked) (hs : d.Step d') : d'.Worked := by
  have hw := h.worker
  refine ⟨h.fifo.step hs, hs.syncs h.syncs, ?_⟩
  cases hs <;> simp_all

theorem Worked.stopping (h : d.Worked) (hr : d.remover = .downExitSignal) : d.Stopping := by
  have hne : d.remover ≠ .idle := by
    rw [hr]
    simp
  exact ⟨h.fifo, h.syncs hne, hne, h.worker⟩

/-- A worker that has exited has raised `semExitSignal`. -/
theorem Worked.ne_exited (h : d.Worked) (hr : d.remover = .downExitSignal)
    (hn : ¬ 0 < d.semExitSignal) :
    d.worker ≠ .exited := by
  intro hx
  have hexit := h.fifo.exit
  rw [hx, hr] at hexit
  simp only [Remover.joined, decide_true, Bool.toNat_true, Bool.toNat_false] at hexit
  omega

/-- The removal waits until `semExitSignal` is raised. -/
theorem Step.waiting (hs : d.Step d') (hr : d.remover = .downExitSignal)
    (hn : ¬ 0 < d.semExitSignal) :
    d'.remover = .downExitSignal := by
  cases hs <;> simp_all

/-- **The worker raises `semExitSignal`**, whatever happens. -/
theorem Worked.inevitable (h : d.Worked) (hr : d.remover = .downExitSignal) :
    Inevitable Step (fun d => 0 < d.semExitSignal) d := by
  refine Inevitable.of_rank (I := fun d => d.Worked ∧ d.remover = .downExitSignal) stopRank
    (fun d ⟨h, hr⟩ hn => ?_) (fun d d' ⟨h, hr⟩ hn hs => ?_) ⟨h, hr⟩
  · exact (h.stopping hr).exists_step (h.ne_exited hr hn)
  · exact ⟨⟨h.step hs, hs.waiting hr hn⟩, ((h.stopping hr).step (h.ne_exited hr hn) hs).2⟩

end Dumper

/-! ## The waits of the removal -/

namespace Probe

variable {env : ProbeEnv} {s s' : Probe}

/-- **The answers with which no removal waits in vain.** -/
def Answers (env : ProbeEnv) : Prop :=
  env.hcAllocOhci = false ∨ 0 ≤ env.hcReset ∧ env.requestIrq = 0 ∧ 0 ≤ env.kernelThread

/-- **The states of a run in which nothing fails** behind `hc_alloc_ohci`. -/
inductive Sound (env : ProbeEnv) : Probe → Prop
  | start : Sound env start
  | noDevice : Sound env ⟨.returned (-12), .static, false⟩
  | probing (pc : ProbePc) (halloc : env.hcAllocOhci = true)
      (hpc : pc = .hcReset ∨ pc = .requestIrq ∨ pc = .installDumper) :
        Sound env ⟨pc, .static, false⟩
  | installed (pc : ProbePc) (d : Dumper) (hd : d.Worked) (hr : d.remover = .idle)
      (hpc : pc = .loaded ∨ pc = .hcReleaseOhci 0) : Sound env ⟨pc, d, true⟩
  | removing (pc : ProbePc) (d : Dumper) (hd : d.Worked) (hpc : pc = .removeDumper 0 ∨
      pc = .returned 0) :
      Sound env ⟨pc, d, true⟩

/-- **One step.** -/
theorem Sound.step (henv : Answers env) (h : s.Sound env) (hs : s.Step env s') :
    s'.Sound env := by
  cases h with
  | start =>
    cases hs with
    | allocFails => exact .noDevice
    | alloc _ h => exact .probing _ h (.inl rfl)
    | dumper d _ _ hi => exact absurd hi (by simp [Probe.start, Dumper.static])
    | _ => contradiction
  | noDevice =>
    cases hs with
    | dumper d _ _ hi => exact absurd hi (by simp [Dumper.static])
    | _ => contradiction
  | probing pc halloc hpc =>
    obtain ⟨hreset, hirq, hpid⟩ : 0 ≤ env.hcReset ∧ env.requestIrq = 0 ∧
        0 ≤ env.kernelThread := by
      refine henv.resolve_left (fun h => ?_)
      rw [halloc] at h
      cases h
    cases hs with
    | resetFails _ h => omega
    | irqFails _ h => exact absurd hirq h
    | reset => exact .probing _ halloc (.inr (.inl rfl))
    | irq => exact .probing _ halloc (.inr (.inr rfl))
    | install => exact .installed _ _ (.install hpid) rfl (.inl rfl)
    | dumper d _ _ hi => exact absurd hi (by simp [Dumper.static])
    | _ => simp_all
  | installed pc d hd hr hpc =>
    cases hs with
    | cleanup => exact .installed _ _ hd hr (.inr rfl)
    | removeDumper code hpc' hc hsync =>
      obtain rfl : code = 0 := by simp_all
      exact .removing _ _ (hd.step (.removeDumper hr hc hsync)) (.inl rfl)
    | dumper d' h hr' _ => exact .installed _ _ (hd.step h) (hr' hr) hpc
    | removed code hpc' hr' =>
      rw [hr] at hr'
      cases hr'
    | _ => simp_all
  | removing pc d hd hpc =>
    cases hs with
    | dumper d' h _ _ => exact .removing _ _ (hd.step h) hpc
    | removed code hpc' =>
      obtain rfl : code = 0 := by simp_all
      exact .removing _ _ hd (.inr rfl)
    | _ => simp_all

theorem Reach.sound (henv : Answers env) (h : Reach env s) : s.Sound env := by
  induction h with
  | start => exact .start
  | step _ hs ih => exact ih.step henv hs

/-- A removal after a sound probe waits for its worker. -/
theorem Sound.mayWait (h : s.Sound env) (hr : s.dumper.remover = .downExitSignal) :
    s.MayWait := by
  have hworked : ∀ pc d, Dumper.Worked d → d.remover = .downExitSignal →
      MayWait ⟨pc, d, true⟩ := by
    intro pc d hd hr
    refine ⟨rfl, ?_⟩
    by_cases hx : d.worker = .exited
    · have hexit := hd.fifo.exit
      rw [hx, hr] at hexit
      simp only [Remover.joined, decide_true, Bool.toNat_true, Bool.toNat_false] at hexit
      exact .inl (show 0 < d.semExitSignal by omega)
    · exact .inr ⟨hd.worker, hx, hd.inevitable hr⟩
  cases h with
  | start | noDevice | probing => cases hr
  | installed pc d hd _ _ | removing pc d hd _ => exact hworked _ _ hd hr

/-- The removal gets to its wait. -/
theorem Reach.wait {code : ℤ} (h : Reach env s) (hpc : s.pc = .hcReleaseOhci code)
    (hc : s.dumper.calls = [])
    (hs : s.dumper.syncs = []) : Reach env { s with
      pc := .removeDumper code
      dumper := { s.dumper with
        remover := .downExitSignal
        oContinue := false
        semItemsQueued := s.dumper.semItemsQueued + 1 } } := by
  have hcall := h.step (.removeDumper code hpc hc hs)
  exact hcall.step (.dumper _ (.removeSignal rfl) (fun h => by cases h) (.inr (by simp)))

/-- **Exactly when the removal never waits for a worker that is not there.** -/
theorem mayWait_iff (env : ProbeEnv) :
    (∀ s, Reach env s → s.dumper.remover = .downExitSignal → s.MayWait) ↔ Answers env := by
  refine ⟨fun h => ?_, fun henv s hs hr => (hs.sound henv).mayWait hr⟩
  by_contra hnot
  rw [Answers, not_or, Bool.not_eq_false] at hnot
  obtain ⟨halloc, hfails⟩ := hnot
  have hstart : Reach env ⟨.hcReset, .static, false⟩ := Reach.start.step (.alloc rfl halloc)
  -- the first call that fails decides
  by_cases hreset : env.hcReset < 0
  · exact absurd (h _ ((hstart.step (.resetFails rfl hreset)).wait rfl rfl rfl) rfl).init
      (by simp)
  have hirq₁ : Reach env ⟨.requestIrq, .static, false⟩ := hstart.step (.reset rfl (by omega))
  by_cases hirq : env.requestIrq = 0
  · -- the worker could not be started
    have hpid : env.kernelThread < 0 := by
      by_contra hpid
      exact hfails ⟨by omega, hirq, by omega⟩
    have hloaded : Reach env ⟨.loaded, .installDumper env.kernelThread, true⟩ :=
      (hirq₁.step (.irq rfl hirq)).step (.install rfl)
    have hw : (Dumper.installDumper env.kernelThread).worker = .absent := if_pos hpid
    obtain hsem | ⟨habsent, -⟩ :=
      (h _ ((hloaded.step (.cleanup rfl)).wait rfl rfl rfl) rfl).worker
    · exact absurd hsem (by simp [Dumper.installDumper])
    · exact habsent hw
  · exact absurd (h _ ((hirq₁.step (.irqFails rfl hirq)).wait rfl rfl rfl) rfl).init (by simp)

/-- `request_irq` fails, and the removal waits although there is nothing to wait
for. -/
theorem not_mayWait :
    ¬ ∀ (env : ProbeEnv) (s : Probe), Reach env s → s.dumper.remover = .downExitSignal →
    s.MayWait := by
  intro h
  have hirq : Reach ⟨true, 0, -1, 0⟩ ⟨.hcReleaseOhci (-16), .static, false⟩ :=
    ((Reach.start.step (.alloc rfl rfl)).step (.reset rfl (by decide))).step
      (.irqFails rfl (by decide))
  exact absurd (h _ _ (hirq.wait rfl rfl rfl) rfl).init (by simp)

end Probe
