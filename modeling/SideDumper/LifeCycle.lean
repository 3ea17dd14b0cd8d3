import SideDumper.WorkQueue
import Mathlib.Logic.Function.Basic
import Mathlib.Logic.Relation

/-!
# The life cycle of the dumper

`SideDumper_InstallDumper` rejects a second call by the `pid` of the worker. It
looks at it when it has already initialised the queue, the semaphores of the
queue and the numbers, and `SideDumper_RemoveDumper` leaves it as it is. The
semaphores have their wait queues here: one that is initialised anew forgets
who sleeps on it.

Install, remove, `QueueUrb` and the worker may come in any order.
`installOk_iff` says in which states an install does what it should.
-/

/-- A semaphore: its count, and those who sleep on it. -/
structure Semaphore (α : Type) where
  count : ℕ
  sleepers : List α

namespace Semaphore

variable {α : Type}

/-- `init_MUTEX_LOCKED` for 0 and `init_MUTEX` for 1. -/
def init (n : ℕ) : Semaphore α := ⟨n, []⟩

/-- `up`. -/
def up (s : Semaphore α) : Semaphore α := { s with count := s.count + 1 }

/-- A `down` that finds the count at 0. -/
def sleep (s : Semaphore α) (t : α) : Semaphore α := { s with sleepers := s.sleepers ++ [t] }

/-- A `down` that goes through, at once or after a sleep. -/
def take [DecidableEq α] (s : Semaphore α) (t : α) : Semaphore α :=
  ⟨s.count - 1, s.sleepers.erase t⟩

/-- Who sleeps gets through when it is woken up, so when it is on the wait queue. -/
def Grants (s : Semaphore α) (t : α) (asleep : Bool) : Prop := 0 < s.count ∧
  (asleep = true → t ∈ s.sleepers)

end Semaphore

/-- The threads: the worker, the calls of `QueueUrb`, `SideDumper_RemoveDumper`. -/
inductive DumperThread
  | worker
  | queueUrb (n : ℕ)
  | remover
deriving DecidableEq

/-- The semaphores of `g_Inst`. -/
inductive DumperSem
  | listAccess
  | itemsQueued
  | exitSignal
deriving DecidableEq

/-- **`g_Inst`, its threads and what has become of it.** The last two fields are
history: a worker has been started and no removal has been completed since, and
a removal has been completed. -/
structure LifeCycle where
  uUrbNumGenerator : ℕ
  list : List WorkItem
  sem : DumperSem → Semaphore DumperThread
  pid : ℤ
  oContinue : Bool
  worker : Worker
  calls : ℕ → Option QueueUrb
  remover : Remover
  asleep : DumperThread → Bool
  /-- How many times `InstallProcFs` has been called. -/
  procFs : ℕ
  installed : Bool
  removed : Bool

namespace LifeCycle

/-- Static memory. -/
def static : LifeCycle where
  uUrbNumGenerator := 0
  list := []
  sem := fun _ => .init 0
  pid := 0
  oContinue := false
  worker := .absent
  calls := fun _ => none
  remover := .idle
  asleep := fun _ => false
  procFs := 0
  installed := false
  removed := false

/-- `up (&sem)`. -/
def up (s : LifeCycle) (x : DumperSem) : LifeCycle :=
  { s with sem := Function.update s.sem x (s.sem x).up }

/-- A `down (&sem)` that goes through. -/
def take (s : LifeCycle) (x : DumperSem) (t : DumperThread) : LifeCycle :=
  { s with
    sem := Function.update s.sem x ((s.sem x).take t)
    asleep := Function.update s.asleep t false }

/-- A `down (&sem)` that sleeps. -/
def sleep (s : LifeCycle) (x : DumperSem) (t : DumperThread) : LifeCycle :=
  { s with
    sem := Function.update s.sem x ((s.sem x).sleep t)
    asleep := Function.update s.asleep t true }

/-- The first statements of `SideDumper_InstallDumper`, in front of the check. -/
def initQueue (s : LifeCycle) : LifeCycle :=
  { s with
    uUrbNumGenerator := 1
    list := []
    sem := Function.update (Function.update s.sem .itemsQueued (.init 0)) .listAccess (.init 1) }

/-- **`SideDumper_InstallDumper`**, with what `kernel_thread` returns. -/
def installDumper (s : LifeCycle) (pid : ℤ) : LifeCycle :=
  let s := s.initQueue
  -- called twice
  if s.pid ≠ 0 then s
  else
    let s := { s with
      oContinue := true
      sem := Function.update s.sem .exitSignal (.init 0)
      pid := pid }
    if pid < 0 then { s with pid := 0 }
    else { s with
      worker := .downItemsQueued
      asleep := Function.update s.asleep .worker false
      procFs := s.procFs + 1
      installed := true
      removed := false }

/-- The semaphore that a thread is about to `down`, or sleeps on. -/
def downs (s : LifeCycle) : DumperThread → Option DumperSem
  | .worker =>
    match s.worker with
    | .downItemsQueued => some .itemsQueued
    | .downListAccess => some .listAccess
    | _ => none
  | .queueUrb n =>
    match s.calls n with
    | some (.downListAccess _) => some .listAccess
    | _ => none
  | .remover =>
    match s.remover with
    | .downExitSignal => some .exitSignal
    | _ => none

/-- A thread gets through the `down` it is at. -/
def Passes (s : LifeCycle) (x : DumperSem) (t : DumperThread) : Prop :=
  s.downs t = some x ∧ (s.sem x).Grants t (s.asleep t)

/-- A call of `QueueUrb` has got to another place. -/
def setCall (s : LifeCycle) (n : ℕ) (c : Option QueueUrb) : LifeCycle :=
  { s with calls := Function.update s.calls n c }

/-- **One step.** -/
inductive Step (s : LifeCycle) : LifeCycle → Prop
  | install (pid : ℤ) (hpid : pid ≠ 0) : Step s (s.installDumper pid)
  | sleep (x : DumperSem) (t : DumperThread) (h : s.downs t = some x) (hc : (s.sem x).count = 0)
      (ha : s.asleep t = false) : Step s (s.sleep x t)
  | queueUrb (n addr : ℕ) (h : s.calls n = none) : Step s (s.setCall n (some (.initMini addr)))
  | queueInit (n addr b : ℕ) (h : s.calls n = some (.initMini addr)) :
      Step s { s.setCall n (some (.downListAccess ⟨addr, s.uUrbNumGenerator, b⟩)) with
        uUrbNumGenerator := (s.uUrbNumGenerator + 1) % 0x100000000 }
  | queueDown (n : ℕ) (it : WorkItem) (h : s.calls n = some (.downListAccess it))
      (hp : s.Passes .listAccess (.queueUrb n)) :
      Step s ((s.take .listAccess (.queueUrb n)).setCall n (some (.listAddTail it)))
  | queueAdd (n : ℕ) (it : WorkItem) (h : s.calls n = some (.listAddTail it)) :
      Step s { s.setCall n (some .upListAccess) with list := s.list ++ [it] }
  | queueUp (n : ℕ) (h : s.calls n = some .upListAccess) :
      Step s ((s.up .listAccess).setCall n (some .upItemsQueued))
  | queueSignal (n : ℕ) (h : s.calls n = some .upItemsQueued) :
      Step s ((s.up .itemsQueued).setCall n none)
  | workerWake (hw : s.worker = .downItemsQueued) (hp : s.Passes .itemsQueued .worker) :
      Step s { s.take .itemsQueued .worker with worker := .testContinue }
  | workerStop (hw : s.worker = .testContinue) (hc : s.oContinue = false) :
      Step s { s with worker := .upExitSignal }
  | workerGo (hw : s.worker = .testContinue) (hc : s.oContinue = true) :
      Step s { s with worker := .downListAccess }
  | workerDown (hw : s.worker = .downListAccess) (hp : s.Passes .listAccess .worker) :
      Step s { s.take .listAccess .worker with worker := .testEmpty }
  | workerEmpty (hw : s.worker = .testEmpty) (hl : s.list = []) :
      Step s { s with worker := .upListEmpty }
  | workerError (hw : s.worker = .upListEmpty) :
      Step s { s.up .listAccess with worker := .downItemsQueued }
  | workerTake (it : WorkItem) (rest : List WorkItem) (hw : s.worker = .testEmpty)
      (hl : s.list = it :: rest) :
      Step s { s with worker := .upListAccess it, list := rest }
  | workerUp (it : WorkItem) (hw : s.worker = .upListAccess it) :
      Step s { s.up .listAccess with worker := .cleanMini it }
  | workerClean (it : WorkItem) (hw : s.worker = .cleanMini it) :
      Step s { s with worker := .kfree it }
  | workerFree (it : WorkItem) (hw : s.worker = .kfree it) :
      Step s { s with worker := .downItemsQueued }
  | workerExit (hw : s.worker = .upExitSignal) :
      Step s { s.up .exitSignal with worker := .exited }
  | removeDumper (hr : s.remover = .idle ∨ s.remover = .returned) :
      Step s { s with remover := .upItemsQueued, oContinue := false }
  | removeSignal (hr : s.remover = .upItemsQueued) :
      Step s { s.up .itemsQueued with remover := .downExitSignal }
  | removeWait (hr : s.remover = .downExitSignal) (hp : s.Passes .exitSignal .remover) :
      Step s { s.take .exitSignal .remover with remover := .cleanUp }
  | removeItem (it : WorkItem) (rest : List WorkItem) (hr : s.remover = .cleanUp)
      (hl : s.list = it :: rest) :
      Step s { s with list := rest }
  | removeEnd (hr : s.remover = .cleanUp) (hl : s.list = []) :
      Step s { s with remover := .returned, installed := false, removed := true }

/-- **The reachable states.** -/
inductive Reach : LifeCycle → Prop
  | static : Reach static
  | step {s s' : LifeCycle} (h : Reach s) (hs : s.Step s') : Reach s'

/-! ## What an install should do -/

/-- The queue, its semaphores, the numbers and the worker are left alone. -/
structure SameQueue (s s' : LifeCycle) : Prop where
  list : s'.list = s.list
  itemsQueued : s'.sem .itemsQueued = s.sem .itemsQueued
  listAccess : s'.sem .listAccess = s.sem .listAccess
  number : s'.uUrbNumGenerator = s.uUrbNumGenerator
  worker : s'.worker = s.worker ∧ s'.pid = s.pid

/-- **An install is part of a proper life cycle**, when `kernel_thread` works: while
the dumper is installed it changes nothing, and after a removal it starts a
worker and installs the proc entries. -/
def InstallOk (s : LifeCycle) : Prop :=
  ∀ pid : ℤ, 0 < pid → (s.installed = true → SameQueue s (s.installDumper pid)) ∧
    (s.removed = true → (s.installDumper pid).pid = pid ∧
      (s.installDumper pid).worker = .downItemsQueued ∧
      (s.installDumper pid).procFs = s.procFs + 1)

/-- **Nothing has happened to the queue** since it was initialised: nothing is on it,
nobody sleeps on its semaphores, and the next number is the first one. -/
structure Pristine (s : LifeCycle) : Prop where
  list : s.list = []
  itemsQueued : s.sem .itemsQueued = .init 0
  listAccess : s.sem .listAccess = .init 1
  number : s.uUrbNumGenerator = 1

variable {s s' : LifeCycle} {pid : ℤ}

/-! ## The `pid` of the worker -/

/-- An install while there is a `pid` is called twice. -/
theorem installDumper_twice (hpid : s.pid ≠ 0) : s.installDumper pid = s.initQueue := if_pos hpid

/-- An install that finds no `pid` and gets none. -/
theorem installDumper_fails (h0 : s.pid = 0) (hpid : pid < 0) : s.installDumper pid =
    { s.initQueue with
      oContinue := true
      sem := Function.update s.initQueue.sem .exitSignal (.init 0)
      pid := 0 } := by
  have hnot : ¬ s.initQueue.pid ≠ 0 := not_not.mpr h0
  unfold installDumper
  dsimp only
  rw [if_neg hnot, if_pos hpid]

/-- **There is a `pid` once there has been a worker.** -/
structure Blank (s : LifeCycle) : Prop where
  worker : s.worker = .absent
  exitSignal : (s.sem .exitSignal).count = 0
  remover : s.remover ≠ .cleanUp
  installed : s.installed = false
  removed : s.removed = false

/-- **One step.** -/
theorem Blank.step (hb : s.pid = 0 → s.Blank) (hs : s.Step s') (h0 : s'.pid = 0) : s'.Blank := by
  cases hs with
  | install pid hpid =>
    by_cases hs0 : s.pid = 0
    · have hb := hb hs0
      by_cases hneg : pid < 0
      · rw [installDumper_fails hs0 hneg]
        exact ⟨hb.worker, rfl, hb.remover, hb.installed, hb.removed⟩
      · have hstarts : (s.installDumper pid).pid = pid := by
          have hnot : ¬ s.initQueue.pid ≠ 0 := not_not.mpr hs0
          unfold installDumper
          dsimp only
          rw [if_neg hnot, if_neg hneg]
        exact absurd (hstarts.symm.trans h0) hpid
    · rw [installDumper_twice hs0] at h0
      exact absurd h0 hs0
  | sleep x t _ _ _ =>
    have hb := hb h0
    refine ⟨hb.worker, ?_, hb.remover, hb.installed, hb.removed⟩
    cases x <;> exact hb.exitSignal
  | workerWake hw | workerStop hw | workerGo hw | workerDown hw | workerEmpty hw | workerError hw
  | workerTake it rest hw | workerUp it hw | workerClean it hw | workerFree it hw
  | workerExit hw =>
    rw [(hb h0).worker] at hw
    cases hw
  | removeWait _ hp =>
    -- nobody has raised `semExitSignal`
    have hcount := hp.2.1
    rw [(hb h0).exitSignal] at hcount
    exact absurd hcount (Nat.lt_irrefl 0)
  | removeItem it rest hr | removeEnd hr => exact absurd hr (hb h0).remover
  | removeDumper =>
    exact ⟨(hb h0).worker, (hb h0).exitSignal, by simp, (hb h0).installed, (hb h0).removed⟩
  | removeSignal =>
    exact ⟨(hb h0).worker, (hb h0).exitSignal, by simp, (hb h0).installed, (hb h0).removed⟩
  | _ => exact ⟨(hb h0).worker, (hb h0).exitSignal, (hb h0).remover, (hb h0).installed,
      (hb h0).removed⟩

theorem Reach.blank (h : s.Reach) (h0 : s.pid = 0) : s.Blank := by
  induction h with
  | static => exact ⟨rfl, rfl, by simp [LifeCycle.static], rfl, rfl⟩
  | step _ hs ih => exact Blank.step ih hs h0

/-- Only a worker that exits raises `semExitSignal`. -/
theorem Reach.exitSignal (h : s.Reach) (hw : s.worker ≠ .exited) :
    (s.sem .exitSignal).count = 0 := by
  induction h with
  | static => rfl
  | @step s s' _ hs ih =>
    have hkeep : ∀ w, s.worker = w → w ≠ .exited → (s.sem .exitSignal).count = 0 :=
      fun w hw' hne =>
      ih (hw' ▸ hne)
    cases hs with
    | install pid _ =>
      by_cases h0 : s.pid = 0
      · have hnot : ¬ s.initQueue.pid ≠ 0 := not_not.mpr h0
        unfold installDumper
        dsimp only
        rw [if_neg hnot]
        split <;> rfl
      · rw [installDumper_twice h0] at hw ⊢
        exact hkeep _ rfl hw
    | sleep x t _ _ _ => cases x <;> exact hkeep _ rfl hw
    | workerWake hw' | workerStop hw' | workerGo hw' | workerDown hw' | workerEmpty hw'
    | workerError hw'
    | workerTake _ _ hw' | workerUp _ hw' | workerClean _ hw' | workerFree _ hw' =>
      exact hkeep _ hw' (by simp)
    | workerExit => exact absurd rfl hw
    | removeWait _ hp => exact absurd hp.2.1 (by rw [hkeep _ rfl hw]; decide)
    | _ => exact hkeep _ rfl hw

/-! ## Installing -/

/-- **When an install does what it should**: nothing has happened to the queue since
the dumper was installed, and it has never been removed. -/
theorem installOk_iff (h : s.Reach) :
    s.InstallOk ↔ (s.installed = true → s.Pristine) ∧ s.removed = false := by
  refine ⟨fun hok => ⟨fun hi => ?_, ?_⟩, fun ⟨hp, hr⟩ pid _ => ⟨fun hi => ?_, fun hrem => ?_⟩⟩
  · have hpid : s.pid ≠ 0 := fun h0 => absurd (h.blank h0).installed (by rw [hi]; decide)
    have hsame := (hok 1 (by decide)).1 hi
    rw [installDumper_twice hpid] at hsame
    exact ⟨hsame.list.symm, hsame.itemsQueued.symm, hsame.listAccess.symm, hsame.number.symm⟩
  · by_contra hrem
    rw [Bool.not_eq_false] at hrem
    have hpid : s.pid ≠ 0 := fun h0 => absurd (h.blank h0).removed (by rw [hrem]; decide)
    have hstarts := ((hok 1 (by decide)).2 hrem).2.2
    rw [installDumper_twice hpid] at hstarts
    exact absurd hstarts (Nat.ne_of_lt (Nat.lt_succ_self s.procFs))
  · have hpid : s.pid ≠ 0 := fun h0 => absurd (h.blank h0).installed (by rw [hi]; decide)
    have hp := hp hi
    rw [installDumper_twice hpid]
    exact ⟨hp.list.symm, hp.itemsQueued.symm, hp.listAccess.symm, hp.number.symm, rfl, rfl⟩
  · rw [hr] at hrem
    cases hrem

/-- The dumper when it has just been installed. -/
theorem installOk_installed : (static.installDumper 1).InstallOk :=
  (installOk_iff (.step .static (.install 1 (by decide)))).mpr
    ⟨fun _ => ⟨rfl, rfl, rfl, rfl⟩, rfl⟩

/-- The worker has gone to sleep, and a second install throws it off the wait queue. -/
theorem not_installOk : ¬ ∀ s : LifeCycle, s.Reach → s.InstallOk := by
  intro h
  have hreach : ((static.installDumper 1).sleep .itemsQueued .worker).Reach :=
    .step (.step .static (.install 1 (by decide))) (.sleep .itemsQueued .worker rfl rfl rfl)
  have hsame := ((h _ hreach) 1 (by decide)).1 rfl
  have hsleepers : ([] : List DumperThread) = [.worker] :=
    congrArg Semaphore.sleepers hsame.itemsQueued
  cases hsleepers

/-! ## A worker that is lost -/

/-- The worker sleeps on `semItemsQueued`, which does not know it, and has not raised
`semExitSignal`. -/
structure Lost (s : LifeCycle) : Prop where
  pid : s.pid ≠ 0
  worker : s.worker = .downItemsQueued
  asleep : s.asleep .worker = true
  sleepers : .worker ∉ (s.sem .itemsQueued).sleepers
  exitSignal : (s.sem .exitSignal).count = 0

/-- **One step.** -/
theorem Lost.step (h : s.Lost) (hs : s.Step s') : s'.Lost := by
  have hw := h.worker
  cases hs with
  | install pid _ =>
    rw [installDumper_twice h.pid]
    exact ⟨h.pid, hw, h.asleep, List.not_mem_nil, h.exitSignal⟩
  | sleep x t ht hc ha =>
    -- who sleeps does not go to sleep
    have hne : t ≠ .worker := by
      rintro rfl
      rw [h.asleep] at ha
      cases ha
    refine ⟨h.pid, hw, (Function.update_of_ne hne.symm _ _).trans h.asleep, ?_, ?_⟩
    swap
    · cases x <;> exact h.exitSignal
    cases x with
    | itemsQueued =>
      have hsem : (s.sleep .itemsQueued t).sem .itemsQueued = (s.sem .itemsQueued).sleep t := rfl
      rw [hsem]
      intro hmem
      obtain hmem | hmem := List.mem_append.mp hmem
      · exact h.sleepers hmem
      · exact hne (List.mem_singleton.mp hmem).symm
    | listAccess | exitSignal => exact h.sleepers
  | workerWake _ hp => exact absurd (hp.2.2 h.asleep) h.sleepers
  | workerStop hw' | workerGo hw' | workerDown hw' | workerEmpty hw' | workerError hw'
  | workerTake it rest hw' | workerUp it hw' | workerClean it hw' | workerFree it hw'
  | workerExit hw' =>
    rw [hw] at hw'
    cases hw'
  | removeWait _ hp => exact absurd hp.2.1 (by rw [h.exitSignal]; decide)
  | _ => exact ⟨h.pid, hw, h.asleep, h.sleepers, h.exitSignal⟩

/-- **A second install loses a worker that sleeps**: whatever happens afterwards, it
does not wake up, and no removal gets behind its wait for the worker's exit. -/
theorem installDumper_lost (h : s.Reach) (hi : s.installed = true)
    (hw : s.worker = .downItemsQueued)
    (ha : s.asleep .worker = true) (hrun : Relation.ReflTransGen Step (s.installDumper pid) s') :
    (s'.worker = .downItemsQueued ∧ s'.asleep .worker = true) ∧
      ¬ s'.Passes .exitSignal .remover := by
  have hpid : s.pid ≠ 0 := fun h0 => absurd (h.blank h0).installed (by rw [hi]; decide)
  have hlost : (s.installDumper pid).Lost := by
    rw [installDumper_twice hpid]
    exact ⟨hpid, hw, ha, List.not_mem_nil, h.exitSignal (by rw [hw]; simp)⟩
  have hend : s'.Lost := by
    induction hrun with
    | refl => exact hlost
    | tail _ hs ih => exact ih.step hs
  exact ⟨⟨hend.worker, hend.asleep⟩, fun hp => absurd hp.2.1 (by rw [hend.exitSignal]; decide)⟩

/-- The dumper is installed again when its worker sleeps. -/
def installedTwice : LifeCycle :=
  ((static.installDumper 1).sleep .itemsQueued .worker).installDumper 2

/-- A removal after that: the worker is signalled, and sleeps on. -/
theorem installDumper_lost_removal : ∃ s, LifeCycle.Reach s ∧ s.remover = .downExitSignal ∧
    (s.sem .itemsQueued).count = 1 ∧ s.asleep .worker = true ∧
      ¬ s.Passes .exitSignal .remover := by
  have hsleeps : ((static.installDumper 1).sleep .itemsQueued .worker).Reach :=
    .step (.step .static (.install 1 (by decide))) (.sleep .itemsQueued .worker rfl rfl rfl)
  have hcalled := Step.removeDumper (s := installedTwice) (.inl rfl)
  have hsignalled :=
    Step.removeSignal (s := { installedTwice with remover := .upItemsQueued, oContinue := false })
      rfl
  obtain ⟨⟨-, hasleep⟩, hwaits⟩ := installDumper_lost hsleeps rfl rfl rfl
    ((Relation.ReflTransGen.single hcalled).tail hsignalled)
  exact ⟨_, .step (.step (.step hsleeps (.install 2 (by decide))) hcalled) hsignalled, rfl, rfl,
    hasleep, hwaits⟩

end LifeCycle
