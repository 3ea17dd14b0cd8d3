import SideDumper.RootHubStatus
import SideDumper.Throughout

/-!
# The timer of the root hub

An interrupt request to the root hub is served by `rh_int_timer`, which
`rh_int_timer_do` arms again when it ends. In between it calls the completion
function of the request, and that may call `rh_unlink_urb`. There is nothing
to remove then, since a timer that has expired is not pending any more, and
afterwards the timer is armed for a request that has been unlinked.

An expiration is in progress between two steps: the one that begins it goes up
to the completion call, and the one that ends it arms the timer. A request that is
submitted in between arms it too, so that `rh_init_int_timer` then meets a timer
that is pending. What `init_timer` does to the kernel's list of timers there is left
out; the timer counts as armed once, for the request named last.
-/

/-- **The root hub with its timer.** `rh.timer` says whether the timer is
armed, and `running` is the request of the expiration in progress. -/
structure RhTimerSys where
  rh : VirtRootHub
  mem : Ohci
  /-- `rh_int_timer.data`. -/
  data : UrbPtr
  running : Option UrbPtr

/-- The steps: an interrupt request is submitted, the timer expires, the
expiration in progress ends, `rh_unlink_urb` is called, from a completion
function or from elsewhere, and something else writes to the memory. -/
inductive RhTimerAct
  | submit (u : UrbPtr)
  | expire (regs : RootHubRegs) (stale : ℕ → UInt8)
  | rearm
  | unlink (u : UrbPtr)
  | other (mem : Ohci)

namespace RhTimerSys

/-- A hub without a request. -/
def start (o : Ohci) : RhTimerSys := ⟨default, o, 0, none⟩

/-- `rh_init_int_timer`. -/
def rhInitIntTimer (s : RhTimerSys) (u : UrbPtr) : RhTimerSys :=
  { s with rh := { s.rh with interval := (s.mem.urb u).interval, timer := true }, data := u }

/-- **A step**, if it is possible. A request is submitted when no other is
active. -/
def step (s : RhTimerSys) : RhTimerAct → Option RhTimerSys
  | .submit u =>
    if s.rh.send = false ∧ (s.mem.urb u).pipe.type = .int then
      let r := rhSubmitUrb s.rh s.mem u 0 .ok
      some { s with rh := r.1, mem := r.2, data := u }
    else none
  | .expire regs stale =>
    if s.rh.timer = true ∧ s.running = none then
      let s := { s with rh := { s.rh with timer := false } }
      if s.mem.disabled then some s
      else some
        { s with mem := rhIntTimerSend s.rh regs stale s.mem s.data, running := some s.data }
    else none
  | .rearm => s.running.map fun u => { s.rhInitIntTimer u with running := none }
  | .unlink u => some { s with rh := rhUnlinkUrb s.rh u }
  | .other mem => some { s with mem := mem }

/-- **The active request**: the one submitted last, until it is unlinked. -/
def Active (s : RhTimerSys) (u : UrbPtr) : Prop := s.rh.send = true ∧ s.rh.urb = u

/-- **The timer follows the active request**: when no expiration is in progress
it is armed for that request or not at all. -/
def Follows (s : RhTimerSys) : Prop := s.running = none → s.rh.timer = true → s.Active s.data

/-- `rh_int_timer_do` is entered for the active request. -/
def EntersActive (s : RhTimerSys) (a : RhTimerAct) : Prop :=
  ∀ regs stale, a = .expire regs stale → s.rh.timer = true → s.running = none → s.Active s.data

/-- The expiration that ends is one of the active request. -/
def RearmsActive (s : RhTimerSys) (a : RhTimerAct) : Prop := a = .rearm →
  ∀ u, s.running = some u → s.Active u

section Runs

variable {s s' : RhTimerSys} {a : RhTimerAct}

theorem Follows.enters (h : s.Follows) (a : RhTimerAct) : s.EntersActive a :=
  fun _ _ _ htimer hrun => h hrun htimer

/-- **One step** keeps the timer with the active request exactly when it does
not arm it for another one. -/
theorem follows_step_iff (h : s.Follows) (hs : s.step a = some s') :
    s'.Follows ↔ s.RearmsActive a := by
  cases a with
  | submit u =>
    refine iff_of_true ?_ (fun ha => by cases ha)
    unfold step at hs
    dsimp only at hs
    split at hs
    · rename_i hready
      cases hs
      intro _ _
      unfold Active rhSubmitUrb
      dsimp only
      rw [if_pos hready.2]
      exact ⟨rfl, rfl⟩
    · cases hs
  | expire regs stale =>
    refine iff_of_true ?_ (fun ha => by cases ha)
    unfold step at hs
    dsimp only at hs
    split at hs
    · split at hs
      · cases hs
        intro _ htimer
        cases htimer
      · cases hs
        intro hrun
        cases hrun
    · cases hs
  | rearm =>
    obtain ⟨u, hu, rfl⟩ := Option.map_eq_some_iff.mp hs
    constructor
    · intro hs' _ v hv
      rw [hu, Option.some.injEq] at hv
      subst hv
      exact hs' rfl rfl
    · exact fun hc _ _ => hc rfl u hu
  | unlink u =>
    refine iff_of_true ?_ (fun ha => by cases ha)
    cases hs
    intro hrun htimer
    unfold rhUnlinkUrb Active at *
    dsimp only at *
    by_cases hu : s.rh.urb = u
    · rw [if_pos hu] at htimer
      cases htimer
    · rw [if_neg hu] at htimer ⊢
      exact h hrun htimer
  | other mem =>
    refine iff_of_true ?_ (fun ha => by cases ha)
    cases hs
    exact h

/-- **When the timer follows the active request in a run**: no expiration
ends, and arms the timer, for a request that is not active any more. Then
`rh_int_timer_do` is never entered for a request that has been unlinked, unless
it has been submitted again. -/
theorem follows_iff (o : Ohci) (as : List RhTimerAct) :
    Throughout step Follows EntersActive (start o) as ↔
      EachAction step RearmsActive (start o) as := by
  refine throughout_iff (fun s a s' h hs => ?_) (fun s a h hs => ⟨h.enters a, ?_⟩)
    (fun _ htimer => by cases htimer)
  · rw [and_iff_right (h.enters a)]
    exact follows_step_iff h hs
  · rintro rfl u hu
    rw [step, hu] at hs
    cases hs

/-- A memory with an interrupt request that has a completion function. -/
def hubInterrupt : Ohci :=
  { (default : Ohci) with
    urb := fun _ => { (default : Urb) with
      pipe := ⟨.int, 1, 1, false, true⟩, complete := true, transferBufferLength := 2 } }

/-- The completion function unlinks the request, and the timer is armed. -/
theorem not_follows :
    ¬ ∀ (o : Ohci) (as : List RhTimerAct), Throughout step Follows EntersActive (start o) as := by
  intro h
  have h₀ := h hubInterrupt [.submit 1, .expire connected (fun _ => 0), .unlink 1, .rearm]
  have h₁ := h₀.2.2 _ rfl
  have h₂ := h₁.2.2 _ rfl
  have h₃ := h₂.2.2 _ rfl
  have h₄ := h₃.2.2 _ rfl
  exact absurd (h₄ rfl rfl).1 (by decide)

end Runs

end RhTimerSys
