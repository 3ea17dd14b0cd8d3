import SideDumper.CallList
import SideDumper.Inevitable
import SideDumper.WorkQueue
import Mathlib.Tactic.Cases

/-!
# The work queue is a lossless FIFO

`semItemsQueued` counts the items that the worker may take. It lags behind
the list by the calls of `QueueUrb` that have appended and not yet raised it,
and by the item whose token the worker holds between its `down` and its
`list_del`; the removal raises it once more for no item. `Fifo` puts the
account together, and the worker's error branch is out of reach because a
worker that has passed the test of `oContinue` holds a token that is not the
one of the removal.
-/

/-- A call of `QueueUrb` that holds `semListAccess`. -/
def QueueUrb.holds : QueueUrb → Bool
  | .listAddTail _ | .upListAccess => true
  | _ => false

/-- A call of `QueueUrb` that has appended and not yet raised
`semItemsQueued`. -/
def QueueUrb.unsignalled : QueueUrb → Bool
  | .upListAccess | .upItemsQueued => true
  | _ => false

namespace Worker

/-- The worker holds `semListAccess`. -/
def holds : Worker → Bool
  | .testEmpty | .upListEmpty | .upListAccess _ => true
  | _ => false

/-- The worker is between its test of `oContinue` and its `list_del`. -/
def inside : Worker → Bool
  | .downListAccess | .testEmpty => true
  | _ => false

/-- The worker has taken a token of `semItemsQueued` and no item for it. -/
def token : Worker → Bool
  | .testContinue | .downListAccess | .testEmpty | .upExitSignal | .exited => true
  | _ => false

/-- How many steps the worker is away from its exit at most, once
`oContinue` is cleared. -/
def rank : Worker → ℕ
  | .absent | .exited => 0
  | .upExitSignal => 1
  | .testContinue => 2
  | .downItemsQueued => 3
  | .kfree _ => 4
  | .cleanMini _ => 5
  | .upListAccess _ | .upListEmpty => 6
  | .testEmpty => 7
  | .downListAccess => 8

end Worker

namespace Remover

/-- The removal has raised `semItemsQueued`. -/
def signalled : Remover → Bool
  | .downExitSignal | .cleanUp | .returned => true
  | _ => false

/-- The removal has seen the worker's exit. -/
def joined : Remover → Bool
  | .cleanUp | .returned => true
  | _ => false

end Remover

namespace Dumper

/-- **The account of the queue.** -/
structure Fifo (s : Dumper) : Prop where
  history : s.taken ++ s.leftover ++ s.list = s.appended
  access : s.semListAccess + s.calls.countP QueueUrb.holds + s.worker.holds.toNat = 1
  tokens : s.remover.joined = false →
    s.semItemsQueued + s.calls.countP QueueUrb.unsignalled + s.worker.token.toNat
      = s.list.length + s.remover.signalled.toNat
  signal : s.worker.inside = true → s.remover.signalled.toNat ≤ s.semItemsQueued
  stopped : s.oContinue = decide (s.remover = .idle)
  quiet : s.remover ≠ .idle → s.calls = []
  exit : s.semExitSignal + s.remover.joined.toNat = (decide (s.worker = .exited)).toNat
  leftover : s.remover.joined = false → s.leftover = []
  noError : s.worker ≠ .upListEmpty

variable {s s' : Dumper}

theorem Fifo.install (pid : ℤ) : (installDumper pid).Fifo := by
  have hw : (installDumper pid).worker = .absent ∨
      (installDumper pid).worker = .downItemsQueued := by
    unfold installDumper
    dsimp only
    split
    · exact .inl rfl
    · exact .inr rfl
  constructor
  case access => rcases hw with hw | hw <;> rw [hw] <;> rfl
  case tokens => rcases hw with hw | hw <;> rw [hw] <;> exact fun _ => rfl
  case signal => exact fun _ => Nat.zero_le _
  case exit => rcases hw with hw | hw <;> rw [hw] <;> rfl
  case noError => rcases hw with hw | hw <;> rw [hw] <;> simp
  case quiet => exact fun _ => rfl
  case leftover => exact fun _ => rfl
  all_goals rfl

/-- The worker has exited when the removal has seen it exit. -/
theorem Fifo.exited_of_joined (h : s.Fifo) (hj : s.remover.joined = true) :
    s.worker = .exited := by
  have he := h.exit
  rw [hj] at he
  by_contra hne
  rw [decide_eq_false hne] at he
  simp at he

/-- The removal has not begun while a call of `QueueUrb` is under way. -/
theorem Fifo.idle_of_mem (h : s.Fifo) {c : QueueUrb} (hc : c ∈ s.calls) : s.remover = .idle := by
  by_contra hne
  rw [h.quiet hne] at hc
  exact absurd hc List.not_mem_nil

/-- The worker that has passed its test finds an item. -/
theorem Fifo.list_ne_nil (h : s.Fifo) (hw : s.worker = .testEmpty) : s.list ≠ [] := by
  intro hl
  have hj : s.remover.joined = false := by
    by_contra hj
    have hex := h.exited_of_joined ((Bool.not_eq_false _).mp hj)
    rw [hw] at hex
    cases hex
  have ht := h.tokens hj
  have hsig := h.signal (by rw [hw]; rfl)
  rw [hl, hw] at ht
  simp only [Worker.token, Bool.toNat_true, List.length_nil] at ht
  omega

/-- **One step keeps the account.** -/
theorem Fifo.step (h : s.Fifo) (hs : s.Step s') : s'.Fifo := by
  cases hs with
  | queueUrb p hr hp =>
    exact { h with
      access := by
        rw [List.countP_cons_of_neg (by simp [QueueUrb.holds])]
        exact h.access
      tokens := by
        rw [List.countP_cons_of_neg (by simp [QueueUrb.unsignalled])]
        exact h.tokens
      quiet := fun hne => absurd hr hne }
  | queueInit p b hc hb =>
    have hi := h.idle_of_mem hc
    have ha :=
      List.countP_cons_erase QueueUrb.holds (.downListAccess ⟨p, s.uUrbNumGenerator, b⟩) hc
    have hu := List.countP_cons_erase QueueUrb.unsignalled
      (.downListAccess ⟨p, s.uUrbNumGenerator, b⟩) hc
    exact { h with
      access := by rw [Nat.add_right_cancel ha]; exact h.access
      tokens := by rw [Nat.add_right_cancel hu]; exact h.tokens
      quiet := fun hne => absurd hi hne }
  | queueDown it hc hpos =>
    have hi := h.idle_of_mem hc
    have ha := List.countP_cons_erase QueueUrb.holds (.listAddTail it) hc
    have hu := List.countP_cons_erase QueueUrb.unsignalled (.listAddTail it) hc
    exact { h with
      access := by
        have := h.access
        simp only [QueueUrb.holds, Bool.toNat_true, Bool.toNat_false] at ha ⊢
        omega
      tokens := by rw [Nat.add_right_cancel hu]; exact h.tokens
      quiet := fun hne => absurd hi hne }
  | queueAdd it hc =>
    have hi := h.idle_of_mem hc
    have ha := List.countP_cons_erase QueueUrb.holds .upListAccess hc
    have hu := List.countP_cons_erase QueueUrb.unsignalled .upListAccess hc
    exact { h with
      history := by
        rw [← h.history, List.append_assoc _ s.list]
      access := by rw [Nat.add_right_cancel ha]; exact h.access
      tokens := fun hj => by
        have := h.tokens hj
        simp only [QueueUrb.unsignalled, Bool.toNat_true, Bool.toNat_false] at hu
        rw [List.length_append, List.length_singleton]
        dsimp only
        omega
      quiet := fun hne => absurd hi hne }
  | queueUp hc =>
    have hi := h.idle_of_mem hc
    have ha := List.countP_cons_erase QueueUrb.holds .upItemsQueued hc
    have hu := List.countP_cons_erase QueueUrb.unsignalled .upItemsQueued hc
    exact { h with
      access := by
        have := h.access
        simp only [QueueUrb.holds, Bool.toNat_true, Bool.toNat_false] at ha ⊢
        omega
      tokens := by rw [Nat.add_right_cancel hu]; exact h.tokens
      quiet := fun hne => absurd hi hne }
  | queueSignal hc =>
    have hi := h.idle_of_mem hc
    have ha := List.countP_erase_add QueueUrb.holds hc
    have hu := List.countP_erase_add QueueUrb.unsignalled hc
    exact { h with
      access := by
        have := h.access
        simp only [QueueUrb.holds, Bool.toNat_false] at ha
        dsimp only
        omega
      tokens := fun hj => by
        have := h.tokens hj
        simp only [QueueUrb.unsignalled, Bool.toNat_true] at hu
        dsimp only
        omega
      signal := fun hw => Nat.le_succ_of_le (h.signal hw)
      quiet := fun hne => absurd hi hne }
  | processUrb b hr hb => exact { h with }
  | processEnd b hb => exact { h with }
  | workerWake hw hpos =>
    obtain ⟨h1, h2, h3, h4, h5, h6, h7, h8, h9⟩ := h
    rw [hw] at h2 h3 h7
    refine ⟨h1, h2, fun hj => ?_, nofun, h5, h6, h7, h8, nofun⟩
    have := h3 hj
    simp only [Worker.token, Bool.toNat_true, Bool.toNat_false] at this ⊢
    omega
  | workerStop hw hc =>
    obtain ⟨h1, h2, h3, h4, h5, h6, h7, h8, h9⟩ := h
    rw [hw] at h2 h3 h7
    exact ⟨h1, h2, h3, nofun, h5, h6, h7, h8, nofun⟩
  | workerGo hw hc =>
    obtain ⟨h1, h2, h3, h4, h5, h6, h7, h8, h9⟩ := h
    rw [hw] at h2 h3 h7
    have hi : s.remover = .idle := by rw [hc] at h5; exact of_decide_eq_true h5.symm
    refine ⟨h1, h2, h3, fun _ => ?_, h5, h6, h7, h8, nofun⟩
    rw [hi]
    exact Nat.zero_le _
  | workerDown hw hpos =>
    obtain ⟨h1, h2, h3, h4, h5, h6, h7, h8, h9⟩ := h
    rw [hw] at h2 h3 h4 h7
    refine ⟨h1, ?_, h3, h4, h5, h6, h7, h8, nofun⟩
    simp only [Worker.holds, Bool.toNat_true, Bool.toNat_false] at h2 ⊢
    omega
  | workerEmpty hw hl => exact absurd hl (h.list_ne_nil hw)
  | workerError hw => exact absurd hw h.noError
  | workerTake it rest hw hl =>
    obtain ⟨h1, h2, h3, h4, h5, h6, h7, h8, h9⟩ := h
    rw [hw] at h2 h3 h7
    rw [hl] at h1 h3
    have hj : s.remover.joined = false := by
      cases hr : s.remover.joined with
      | false => rfl
      | true =>
        rw [hr] at h7
        simp at h7
    refine ⟨?_, h2, fun _ => ?_, nofun, h5, h6, h7, h8, nofun⟩
    · rw [h8 hj] at h1 ⊢
      simpa using h1
    · have := h3 hj
      simp only [Worker.token, Bool.toNat_true, Bool.toNat_false, List.length_cons] at this ⊢
      omega
  | workerUp it hw =>
    obtain ⟨h1, h2, h3, h4, h5, h6, h7, h8, h9⟩ := h
    rw [hw] at h2 h3 h7
    refine ⟨h1, ?_, h3, nofun, h5, h6, h7, h8, nofun⟩
    simp only [Worker.holds, Bool.toNat_true, Bool.toNat_false] at h2 ⊢
    omega
  | workerClean it hw =>
    obtain ⟨h1, h2, h3, h4, h5, h6, h7, h8, h9⟩ := h
    rw [hw] at h2 h3 h7
    exact ⟨h1, h2, h3, nofun, h5, h6, h7, h8, nofun⟩
  | workerFree it hw =>
    obtain ⟨h1, h2, h3, h4, h5, h6, h7, h8, h9⟩ := h
    rw [hw] at h2 h3 h7
    exact ⟨h1, h2, h3, nofun, h5, h6, h7, h8, nofun⟩
  | workerExit hw =>
    obtain ⟨h1, h2, h3, h4, h5, h6, h7, h8, h9⟩ := h
    rw [hw] at h2 h3 h7
    refine ⟨h1, h2, h3, nofun, h5, h6, ?_, h8, nofun⟩
    simp only [reduceCtorEq, decide_false, Bool.toNat_false] at h7
    simp only [decide_true, Bool.toNat_true]
    omega
  | removeDumper hr hc hsync =>
    obtain ⟨h1, h2, h3, h4, h5, h6, h7, h8, h9⟩ := h
    rw [hr] at h3 h4 h7 h8
    exact ⟨h1, h2, h3, h4, rfl, fun _ => hc, h7, h8, h9⟩
  | removeSignal hr =>
    obtain ⟨h1, h2, h3, h4, h5, h6, h7, h8, h9⟩ := h
    rw [hr] at h3 h4 h5 h6 h7 h8
    refine ⟨h1, h2, fun _ => ?_, fun _ => Nat.le_add_left _ _, h5, fun _ => h6 nofun, h7, h8, h9⟩
    have := h3 rfl
    simp only [Remover.signalled, Bool.toNat_true, Bool.toNat_false] at this ⊢
    omega
  | removeWait hr hpos =>
    obtain ⟨h1, h2, h3, h4, h5, h6, h7, h8, h9⟩ := h
    rw [hr] at h4 h5 h6 h7
    refine ⟨h1, h2, nofun, h4, h5, fun _ => h6 nofun, ?_, nofun, h9⟩
    simp only [Remover.joined, Bool.toNat_true, Bool.toNat_false] at h7 ⊢
    omega
  | removeItem it rest hr hl =>
    obtain ⟨h1, h2, h3, h4, h5, h6, h7, h8, h9⟩ := h
    rw [hr] at h3 h4 h5 h6 h7 h8
    refine ⟨?_, h2, ?_, ?_, ?_, ?_, ?_, ?_, h9⟩ <;> dsimp only <;> (try rw [hr])
    · rw [hl] at h1
      simpa using h1
    · nofun
    · exact h4
    · exact h5
    · exact fun _ => h6 nofun
    · exact h7
    · nofun
  | removeEnd hr hl =>
    obtain ⟨h1, h2, h3, h4, h5, h6, h7, h8, h9⟩ := h
    rw [hr] at h4 h5 h6 h7
    exact ⟨h1, h2, nofun, h4, h5, fun _ => h6 nofun, h7, nofun, h9⟩

/-! ## Taking and exiting -/

/-- Only the step of the worker that has seen the list takes an item, and it
takes the first one. -/
theorem Step.taken (hs : s.Step s') : s'.taken = s.taken ∨
    s.worker = .testEmpty ∧ ∃ it rest, s.list = it :: rest ∧ s'.taken = s.taken ++ [it] := by
  cases hs with
  | workerTake it rest hw hl => exact .inr ⟨hw, it, rest, hl, rfl⟩
  | _ => exact .inl rfl

/-- Once `oContinue` is cleared, a worker that is not on its way to an item
never gets there. -/
theorem Step.outside (hs : s.Step s') (hc : s.oContinue = false) (hw : s.worker.inside = false) :
    s'.oContinue = false ∧ s'.worker.inside = false := by
  cases hs with
  | workerGo hg hc' =>
    rw [hc] at hc'
    cases hc'
  | workerDown hg => rw [hg] at hw; cases hw
  | removeDumper => exact ⟨rfl, hw⟩
  | queueUrb | queueInit | queueDown | queueAdd | queueUp | queueSignal | processUrb | processEnd
  | removeSignal | removeWait | removeItem | removeEnd => exact ⟨hc, hw⟩
  | _ => exact ⟨hc, rfl⟩

/-- It takes nothing more. -/
theorem Run.taken_eq (h : s.Run s') (hc : s.oContinue = false) (hw : s.worker.inside = false) :
    s'.taken = s.taken := by
  have key : s'.oContinue = false ∧ s'.worker.inside = false ∧ s'.taken = s.taken := by
    induction h with
    | refl => exact ⟨hc, hw, rfl⟩
    | tail _ hs ih =>
      obtain ⟨hc₁, hw₁, ht₁⟩ := ih
      obtain ⟨hc₂, hw₂⟩ := hs.outside hc₁ hw₁
      refine ⟨hc₂, hw₂, ?_⟩
      rcases hs.taken with ht | ⟨hw', -⟩
      · exact ht.trans ht₁
      · rw [hw'] at hw₁
        cases hw₁
  exact key.2.2

/-- Nothing is captured while the removal goes on. -/
theorem Step.syncs (hs : s.Step s') (h : s.remover ≠ .idle → s.syncs = []) :
    s'.remover ≠ .idle → s'.syncs = [] := by
  intro hr
  cases hs with
  | processUrb b hidle hb => exact absurd hidle hr
  | processEnd b hb =>
    rw [h hr] at hb
    cases hb
  | removeDumper hidle hc hsyncs => exact hsyncs
  | removeSignal hr' | removeWait hr' _ | removeItem _ _ hr' _ | removeEnd hr' _ =>
    exact h (by rw [hr']; simp)
  | _ => exact h hr

/-- **The removal has begun**, and there is a worker for it to stop. -/
structure Stopping (s : Dumper) : Prop where
  fifo : s.Fifo
  syncs : s.syncs = []
  removing : s.remover ≠ .idle
  worker : s.worker ≠ .absent

theorem Stopping.stopped (h : s.Stopping) : s.oContinue = false := by
  rw [h.fifo.stopped]
  exact decide_eq_false h.removing

/-- How many steps are left at most until the worker has exited. -/
def stopRank (s : Dumper) : ℕ := s.worker.rank + (decide (s.remover = .upItemsQueued)).toNat

/-- **The worker is never stuck** for good: it can take a step, or the removal
can that wakes it. -/
theorem Stopping.exists_step (h : s.Stopping) (hx : s.worker ≠ .exited) : ∃ s', s.Step s' := by
  have hcalls := h.fifo.quiet h.removing
  have haccess := h.fifo.access
  rw [hcalls, List.countP_nil] at haccess
  cases hw : s.worker with
  | absent => exact absurd hw h.worker
  | exited => exact absurd hw hx
  | downItemsQueued =>
    cases hr : s.remover with
    | idle => exact absurd hr h.removing
    | upItemsQueued => exact ⟨_, .removeSignal hr⟩
    | downExitSignal =>
      have ht := h.fifo.tokens (by rw [hr]; rfl)
      rw [hcalls, hw, hr] at ht
      simp only [List.countP_nil, Worker.token, Remover.signalled, Bool.toNat_true,
        Bool.toNat_false] at ht
      exact ⟨_, .workerWake hw (by omega)⟩
    | cleanUp | returned => exact absurd (h.fifo.exited_of_joined (by rw [hr]; rfl)) hx
  | testContinue => exact ⟨_, .workerStop hw h.stopped⟩
  | downListAccess =>
    rw [hw] at haccess
    simp only [Worker.holds, Bool.toNat_false] at haccess
    exact ⟨_, .workerDown hw (by omega)⟩
  | testEmpty =>
    cases hl : s.list with
    | nil => exact absurd hl (h.fifo.list_ne_nil hw)
    | cons it rest => exact ⟨_, .workerTake it rest hw hl⟩
  | upListEmpty => exact absurd hw h.fifo.noError
  | upListAccess it => exact ⟨_, .workerUp it hw⟩
  | cleanMini it => exact ⟨_, .workerClean it hw⟩
  | kfree it => exact ⟨_, .workerFree it hw⟩
  | upExitSignal => exact ⟨_, .workerExit hw⟩

/-- **Each step brings the worker closer to its exit.** -/
theorem Stopping.step (h : s.Stopping) (hx : s.worker ≠ .exited) (hs : s.Step s') :
    s'.Stopping ∧ s'.stopRank < s.stopRank := by
  have hcalls := h.fifo.quiet h.removing
  have hf := h.fifo.step hs
  have hsyncs := hs.syncs fun _ => h.syncs
  have hj : s.remover.joined = false := by
    by_contra hj
    exact hx (h.fifo.exited_of_joined ((Bool.not_eq_false _).mp hj))
  cases hs with
  | workerGo hw hc =>
    rw [h.stopped] at hc
    cases hc
  | processEnd b hb =>
    rw [h.syncs] at hb
    cases hb
  | queueInit p b hm _ | queueDown it hm _ | queueAdd it hm | queueUp hm | queueSignal hm =>
    rw [hcalls] at hm
    cases hm
  | queueUrb p hidle | processUrb b hidle | removeDumper hidle => exact absurd hidle h.removing
  | removeItem it rest hr | removeEnd hr =>
    rw [hr] at hj
    cases hj
  | removeWait hr hpos =>
    -- the worker alone raises what the removal waits for
    have hexit := h.fifo.exit
    rw [hr, decide_eq_false hx] at hexit
    simp only [Remover.joined, Bool.toNat_false] at hexit
    omega
  | removeSignal hr =>
    refine ⟨⟨hf, hsyncs (by simp), by simp, h.worker⟩, ?_⟩
    rw [stopRank, stopRank, hr]
    exact Nat.lt_succ_self _
  | workerWake hw | workerStop hw | workerDown hw | workerEmpty hw | workerError hw
  | workerTake it rest hw
  | workerUp it hw | workerClean it hw | workerFree it hw | workerExit hw =>
    refine ⟨⟨hf, hsyncs h.removing, h.removing, by simp⟩, ?_⟩
    rw [stopRank, stopRank, hw]
    exact Nat.add_lt_add_right (by dsimp only [Worker.rank]; omega) _

/-- **The worker exits**, whatever happens. -/
theorem Stopping.inevitable (h : s.Stopping) : Inevitable Step (fun s => s.worker = .exited) s :=
  Inevitable.of_rank stopRank (fun _ => Stopping.exists_step) (fun _ _ => Stopping.step) h

/-- The account holds in every reachable state. -/
theorem Reach.fifo (h : s.Reach) : s.Fifo :=
  Reach.of_step Fifo.install (fun _ _ => Fifo.step) h

theorem Reach.syncs (h : s.Reach) : s.remover ≠ .idle → s.syncs = [] :=
  h.of_step (P := fun s => s.remover ≠ .idle →
    s.syncs = []) (fun _ _ => rfl) (fun _ _ h hs => hs.syncs h)

/-- A reachable state in which the removal has begun. -/
theorem Reach.stopping (h : s.Reach) (hc : s.oContinue = false) (ha : s.worker ≠ .absent) :
    s.Stopping := by
  have hr : s.remover ≠ .idle := of_decide_eq_false (h.fifo.stopped.symm.trans hc)
  exact ⟨h.fifo, h.syncs hr, hr, ha⟩

/-- **The work queue is a lossless FIFO.** Until the removal the count does
not exceed the length of the list, and is equal to it when neither a call of
`QueueUrb` nor an iteration of the worker is under way. What was appended is
what was taken, what the removal threw away and what is on the list, in this
order, and the worker takes the first item of the list. It never finds the
list empty. Once `oContinue` is cleared, a worker that has not yet passed its
test of it takes nothing more, and the worker exits on every path. -/
theorem workQueue_fifo (h : s.Reach) :
    (s.remover = .idle → s.semItemsQueued ≤ s.list.length ∧
      (s.calls = [] → s.worker = .downItemsQueued ∨ s.worker = .absent →
        s.semItemsQueued = s.list.length)) ∧
    (s.taken ++ s.leftover ++ s.list = s.appended ∧
      (s.remover.joined = false → s.leftover = [])) ∧
    (∀ s', s.Step s' → s'.taken = s.taken ∨
      ∃ it rest, s.list = it :: rest ∧ s'.taken = s.taken ++ [it]) ∧
    s.worker ≠ .upListEmpty ∧
    (s.oContinue = false → s.worker.inside = false → ∀ s', s.Run s' → s'.taken = s.taken) ∧
    (s.oContinue = false → s.worker ≠ .absent →
      Inevitable Step (fun s => s.worker = .exited) s) := by
  have hf := h.fifo
  refine ⟨fun hr => ?_, ⟨hf.history, hf.leftover⟩, fun s' hs => hs.taken.imp_right And.right,
    hf.noError, fun hc hw s' hrun => hrun.taken_eq hc hw, fun hc ha =>
      (h.stopping hc ha).inevitable⟩
  have ht := hf.tokens (by rw [hr]; rfl)
  rw [hr] at ht
  simp only [Remover.signalled, Bool.toNat_false] at ht
  refine ⟨by omega, fun hc hw => ?_⟩
  have htoken : s.worker.token = false := by
    rcases hw with hw | hw <;> rw [hw] <;> rfl
  rw [hc, htoken, List.countP_nil, Bool.toNat_false] at ht
  omega

/-- One item on the list. -/
def oneItem : Dumper :=
  { installDumper 1 with
    mem := ⟨[101, 100], false⟩
    uUrbNumGenerator := 2
    list := [⟨100, 1, 101⟩]
    semItemsQueued := 1
    appended := [⟨100, 1, 101⟩] }

theorem oneItem_reach : oneItem.Reach := by
  refine ⟨1, ?_⟩
  have h₁ := Run.refl.tail (Step.queueUrb (s := installDumper 1) 100 rfl ⟨by decide, by decide⟩)
  have h₂ := h₁.tail (.queueInit 100 101 (by decide) (.inr ⟨by decide, by decide⟩))
  have h₃ := h₂.tail (.queueDown ⟨100, 1, 101⟩ (by decide) (by decide))
  have h₄ := h₃.tail (.queueAdd ⟨100, 1, 101⟩ (by decide))
  have h₅ := h₄.tail (.queueUp (by decide))
  exact h₅.tail (.queueSignal (by decide))

/-- Two items, the second without data, of which the worker has taken the
first. -/
def oneTaken : Dumper :=
  { installDumper 1 with
    mem := ⟨[102], false⟩
    uUrbNumGenerator := 3
    list := [⟨102, 2, 0⟩]
    semItemsQueued := 1
    appended := [⟨100, 1, 101⟩, ⟨102, 2, 0⟩]
    taken := [⟨100, 1, 101⟩] }

theorem oneTaken_reach : oneTaken.Reach := by
  have h₁ := Run.refl.tail (Step.queueUrb (s := oneItem) 102 rfl ⟨by decide, by decide⟩)
  have h₂ := h₁.tail (.queueInit 102 0 (by decide) (.inl rfl))
  have h₃ := h₂.tail (.queueDown ⟨102, 2, 0⟩ (by decide) (by decide))
  have h₄ := h₃.tail (.queueAdd ⟨102, 2, 0⟩ (by decide))
  have h₅ := h₄.tail (.queueUp (by decide))
  have h₆ := h₅.tail (.queueSignal (by decide))
  have h₇ := h₆.tail (.workerWake rfl (by decide))
  have h₈ := h₇.tail (.workerGo rfl rfl)
  have h₉ := h₈.tail (.workerDown rfl (by decide))
  have h₁₀ := h₉.tail (.workerTake ⟨100, 1, 101⟩ [⟨102, 2, 0⟩] rfl rfl)
  have h₁₁ := h₁₀.tail (.workerUp ⟨100, 1, 101⟩ rfl)
  have h₁₂ := h₁₁.tail (.workerClean ⟨100, 1, 101⟩ rfl)
  exact oneItem_reach.run (h₁₂.tail (.workerFree ⟨100, 1, 101⟩ rfl))

/-- The removal has begun, with the second item still on the list. -/
def removalBegun : Dumper :=
  { oneTaken with oContinue := false, semItemsQueued := 2, remover := .downExitSignal }

theorem removalBegun_reach : removalBegun.Reach := by
  have h₁ := Run.refl.tail (Step.removeDumper (s := oneTaken) rfl rfl rfl)
  exact oneTaken_reach.run (h₁.tail (.removeSignal rfl))

/-- The worker has taken one of two items; then the removal begins, and it
exits without the other. -/
theorem workQueue_fifo_oneTaken :
    oneTaken.semItemsQueued = oneTaken.list.length ∧
    removalBegun.taken ++ removalBegun.leftover ++ removalBegun.list
      = [⟨100, 1, 101⟩, ⟨102, 2, 0⟩] ∧
    (∀ s', removalBegun.Run s' → s'.taken = [⟨100, 1, 101⟩]) ∧
    Inevitable Step (fun s => s.worker = .exited) removalBegun := by
  obtain ⟨-, ⟨hall, -⟩, -, -, hnone, hexit⟩ := workQueue_fifo removalBegun_reach
  exact ⟨((workQueue_fifo oneTaken_reach).1 rfl).2 rfl (.inl rfl), hall, hnone rfl rfl,
    hexit rfl (by simp [removalBegun, oneTaken, installDumper])⟩

end Dumper
