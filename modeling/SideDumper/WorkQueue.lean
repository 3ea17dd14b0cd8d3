import Mathlib.Data.List.Count
import Mathlib.Data.Int.Notation

/-!
# The work queue of the side dumper

A URB that is captured for asynchronous dumping becomes a `TWorkItem` on a
list, from which a worker thread takes it. `semListAccess` guards the list,
`semItemsQueued` counts the items for the worker to sleep on, and
`SideDumper_RemoveDumper` clears `oContinue` and raises the same count once
more to wake the worker for its last time.

Every access to the shared state is a step of its own: a call of `QueueUrb`
and the worker stop before each `down` and `up`, so that a run is an
interleaving in the sense of the kernel. A `down` is a step that a count of 0
does not allow.
-/

/-- `TWorkItem`: where it lies, the number of its URB, and the copy of the
transfer buffer that its `Mini` owns, 0 for none. -/
structure WorkItem where
  addr : ℕ
  uUrbNumber : ℕ
  transferBuffer : ℕ
deriving DecidableEq, Repr

/-- Where a call of `QueueUrb` is, named by what comes next. -/
inductive QueueUrb
  | initMini (addr : ℕ)
  | downListAccess (it : WorkItem)
  | listAddTail (it : WorkItem)
  | upListAccess
  | upItemsQueued
deriving DecidableEq, Repr

/-- Where the worker is, named by what comes next. `absent` is the worker
that `kernel_thread` has failed to start. -/
inductive Worker
  | absent
  | downItemsQueued
  | testContinue
  | downListAccess
  | testEmpty
  | upListEmpty
  | upListAccess (it : WorkItem)
  | cleanMini (it : WorkItem)
  | kfree (it : WorkItem)
  | upExitSignal
  | exited
deriving DecidableEq, Repr

/-- Where `SideDumper_RemoveDumper` is: not called, about to raise
`semItemsQueued`, waiting for the worker, in the loop over the items left,
or returned. -/
inductive Remover
  | idle
  | upItemsQueued
  | downExitSignal
  | cleanUp
  | returned
deriving DecidableEq, Repr

/-- The kernel's memory: the blocks that are allocated, and whether `kfree`
was ever called for something else. -/
structure Kmem where
  live : List ℕ
  badFree : Bool
deriving DecidableEq, Repr

namespace Kmem

/-- What `kmalloc` may return for a block that it has. -/
def Fresh (m : Kmem) (p : ℕ) : Prop := p ≠ 0 ∧ p ∉ m.live

/-- The block that `kmalloc` has returned, 0 when it was not called. -/
def kmalloc (m : Kmem) (p : ℕ) : Kmem := if p = 0 then m else { m with live := p :: m.live }

/-- `kfree`. -/
def kfree (m : Kmem) (p : ℕ) : Kmem :=
  if p ∈ m.live then { m with live := m.live.erase p } else { m with badFree := true }

/-- `CleanMini` of a `Mini` that owns the copy `b`. -/
def cleanMini (m : Kmem) (b : ℕ) : Kmem := if b ≠ 0 then m.kfree b else m

end Kmem

/-- **The side dumper**: `g_Inst` as far as the queue goes, the memory, and
the calls that are under way. The three lists at the end are history: the
items in the order they were appended, those the worker has taken, and those
that the removal has thrown away. -/
structure Dumper where
  mem : Kmem
  uUrbNumGenerator : ℕ
  list : List WorkItem
  semListAccess : ℕ
  semItemsQueued : ℕ
  semExitSignal : ℕ
  oContinue : Bool
  calls : List QueueUrb
  syncs : List ℕ
  worker : Worker
  remover : Remover
  appended : List WorkItem
  taken : List WorkItem
  leftover : List WorkItem

namespace Dumper

/-- `SideDumper_InstallDumper`, with what `kernel_thread` returns. -/
def installDumper (pid : ℤ) : Dumper where
  mem := ⟨[], false⟩
  uUrbNumGenerator := 1
  list := []
  semListAccess := 1
  semItemsQueued := 0
  semExitSignal := 0
  oContinue := true
  calls := []
  syncs := []
  worker := if pid < 0 then .absent else .downItemsQueued
  remover := .idle
  appended := []
  taken := []
  leftover := []

/-- **One step.** Capturing takes place while the dumper is not being
removed, synchronously by `ProcessUrb` or by `QueueUrb`; in a call that
`kmalloc` leaves without an item nothing happens. `InitMini` makes a copy for
a URB that has data and none, 0, for another. -/
inductive Step (s : Dumper) : Dumper → Prop
  | queueUrb (p : ℕ) (hr : s.remover = .idle) (hp : s.mem.Fresh p) :
      Step s { s with mem := s.mem.kmalloc p, calls := .initMini p :: s.calls }
  | queueInit (p b : ℕ) (h : .initMini p ∈ s.calls) (hb : b = 0 ∨ s.mem.Fresh b) :
      Step s { s with
        mem := s.mem.kmalloc b
        calls := .downListAccess ⟨p, s.uUrbNumGenerator, b⟩ :: s.calls.erase (.initMini p)
        uUrbNumGenerator := (s.uUrbNumGenerator + 1) % 0x100000000 }
  | queueDown (it : WorkItem) (h : .downListAccess it ∈ s.calls) (hs : 0 < s.semListAccess) :
      Step s { s with
        calls := .listAddTail it :: s.calls.erase (.downListAccess it)
        semListAccess := s.semListAccess - 1 }
  | queueAdd (it : WorkItem) (h : .listAddTail it ∈ s.calls) :
      Step s { s with
        calls := .upListAccess :: s.calls.erase (.listAddTail it)
        list := s.list ++ [it]
        appended := s.appended ++ [it] }
  | queueUp (h : .upListAccess ∈ s.calls) :
      Step s { s with
        calls := .upItemsQueued :: s.calls.erase .upListAccess
        semListAccess := s.semListAccess + 1 }
  | queueSignal (h : .upItemsQueued ∈ s.calls) :
      Step s { s with
        calls := s.calls.erase .upItemsQueued
        semItemsQueued := s.semItemsQueued + 1 }
  | processUrb (b : ℕ) (hr : s.remover = .idle) (hb : b = 0 ∨ s.mem.Fresh b) :
      Step s { s with
        mem := s.mem.kmalloc b
        syncs := b :: s.syncs
        uUrbNumGenerator := (s.uUrbNumGenerator + 1) % 0x100000000 }
  | processEnd (b : ℕ) (h : b ∈ s.syncs) :
      Step s { s with mem := s.mem.cleanMini b, syncs := s.syncs.erase b }
  | workerWake (hw : s.worker = .downItemsQueued) (hs : 0 < s.semItemsQueued) :
      Step s { s with worker := .testContinue, semItemsQueued := s.semItemsQueued - 1 }
  | workerStop (hw : s.worker = .testContinue) (hc : s.oContinue = false) :
      Step s { s with worker := .upExitSignal }
  | workerGo (hw : s.worker = .testContinue) (hc : s.oContinue = true) :
      Step s { s with worker := .downListAccess }
  | workerDown (hw : s.worker = .downListAccess) (hs : 0 < s.semListAccess) :
      Step s { s with worker := .testEmpty, semListAccess := s.semListAccess - 1 }
  | workerEmpty (hw : s.worker = .testEmpty) (hl : s.list = []) :
      Step s { s with worker := .upListEmpty }
  | workerError (hw : s.worker = .upListEmpty) :
      Step s { s with worker := .downItemsQueued, semListAccess := s.semListAccess + 1 }
  | workerTake (it : WorkItem) (rest : List WorkItem) (hw : s.worker = .testEmpty)
      (hl : s.list = it :: rest) :
      Step s { s with worker := .upListAccess it, list := rest, taken := s.taken ++ [it] }
  | workerUp (it : WorkItem) (hw : s.worker = .upListAccess it) :
      Step s { s with worker := .cleanMini it, semListAccess := s.semListAccess + 1 }
  | workerClean (it : WorkItem) (hw : s.worker = .cleanMini it) :
      Step s { s with mem := s.mem.cleanMini it.transferBuffer, worker := .kfree it }
  | workerFree (it : WorkItem) (hw : s.worker = .kfree it) :
      Step s { s with mem := s.mem.kfree it.addr, worker := .downItemsQueued }
  | workerExit (hw : s.worker = .upExitSignal) :
      Step s { s with worker := .exited, semExitSignal := s.semExitSignal + 1 }
  | removeDumper (hr : s.remover = .idle) (hc : s.calls = []) (hs : s.syncs = []) :
      Step s { s with remover := .upItemsQueued, oContinue := false }
  | removeSignal (hr : s.remover = .upItemsQueued) :
      Step s { s with remover := .downExitSignal, semItemsQueued := s.semItemsQueued + 1 }
  | removeWait (hr : s.remover = .downExitSignal) (hs : 0 < s.semExitSignal) :
      Step s { s with remover := .cleanUp, semExitSignal := s.semExitSignal - 1 }
  | removeItem (it : WorkItem) (rest : List WorkItem) (hr : s.remover = .cleanUp)
      (hl : s.list = it :: rest) :
      Step s { s with
        mem := s.mem.kfree it.addr
        list := rest
        leftover := s.leftover ++ [it] }
  | removeEnd (hr : s.remover = .cleanUp) (hl : s.list = []) :
      Step s { s with remover := .returned }

/-- **A run** from one state to another. -/
inductive Run (s : Dumper) : Dumper → Prop
  | refl : Run s s
  | tail {s' s'' : Dumper} (h : Run s s') (hs : s'.Step s'') : Run s s''

/-- **The reachable states**: after one `SideDumper_InstallDumper`, any
interleaving. -/
def Reach (s : Dumper) : Prop := ∃ pid, (installDumper pid).Run s

/-- What holds after the installation and is kept by each step holds in every
reachable state. -/
theorem Reach.of_step {P : Dumper → Prop} (hinit : ∀ pid, P (installDumper pid))
    (hstep : ∀ s s', P s → s.Step s' → P s') {s : Dumper} (h : s.Reach) : P s := by
  obtain ⟨pid, hrun⟩ := h
  induction hrun with
  | refl => exact hinit pid
  | tail _ hs ih => exact hstep _ _ ih hs

theorem Reach.run {s s' : Dumper} (h : s.Reach) (hr : s.Run s') : s'.Reach := by
  obtain ⟨pid, hrun⟩ := h
  refine ⟨pid, ?_⟩
  induction hr with
  | refl => exact hrun
  | tail _ hs ih => exact .tail ih hs

end Dumper
