import SideDumper.DriverRuns
import SideDumper.SubmitFailures

/-!
# Who holds `usb_ed_lock`

`Locked` is the memory with the lock; the functions of the driver are given
here once more, with what they do to it, and `LockRun` is one chain of calls:
an entry point, a completion callback it makes, the entry points the callback
calls, and so on. Whatever others do to the memory in the meantime is a step
of its own. A function is balanced when it returns as it was entered, with the
lock or without.
-/

/-- **The memory and the lock.** -/
structure Locked where
  mem : Ohci
  rh : VirtRootHub
  held : Bool
  /-- The lock has been taken while it was held. -/
  twice : Bool

namespace Locked

/-- `spin_lock`. -/
def lock (s : Locked) : Locked := { s with held := true, twice := s.twice || s.held }

/-- `spin_unlock`. -/
def unlock (s : Locked) : Locked := { s with held := false }

/-- A write to the memory. -/
def write (s : Locked) (o : Ohci) : Locked := { s with mem := o }

@[simp] theorem write_held (s : Locked) (o : Ohci) : (s.write o).held = s.held := rfl
@[simp] theorem write_twice (s : Locked) (o : Ohci) : (s.write o).twice = s.twice := rfl

/-- **`ep_add_ed`.** It answers null with the lock held. -/
def addEd (s : Locked) (d : DevPtr) (pipe : Pipe) (interval load : ℕ) (dummy : TdPtr) :
    Option EdPtr × Locked :=
  let s := s.lock
  match epAddEd s.mem d pipe interval load dummy with
  | (none, o) => (none, s.write o)
  | (some e, o) => (some e, (s.write o).unlock)

/-- **`sohci_submit_urb`** up to its second phase. -/
def sohciSubmitBegin (s : Locked) (u : UrbPtr) (a : Allocs) (len : ℕ) (status : Status) :
    Locked × Option Ret :=
  let r := s.mem.urb u
  if r.dev = 0 ∨ r.hcpriv.isSome then (s, some .einval)
  else
    let s := s.write (incDevUse s.mem u)
    if r.pipe.device = s.mem.rhDevnum then
      let (rh, o) := rhSubmitUrb s.rh s.mem u len status
      ({ s with mem := o, rh := rh }, some .ok)
    else if s.mem.disabled then (s, some .eshutdown)
    else
      match s.addEd r.dev r.pipe r.interval 1 a.dummy with
      | (none, s) => (s.write (decDevUse s.mem u), some .enomem)
      | (some e, s) =>
        let size := tdSize r
        let s := s.write (if r.pipe.type = .iso then s.mem.modUrb u resetPackets else s.mem)
        if !a.kmalloc then (s.write (decDevUse s.mem u), some .enomem)
        else
          let s :=
            s.write (s.mem.modUrb u (fun r =>
              { r with hcpriv := some (newPriv e size (a.tds size)) }))
          let s := s.write (allocTds s.mem size (a.tds size))
          if a.got size < size then (s.write (urbRmPriv (decDevUse s.mem u) u), some .enomem)
          else (s, none)

/-- **The second phase of `sohci_submit_urb`.** -/
def sohciSubmitEnd (fuel : ℕ) (s : Locked) (u : UrbPtr) (a : Allocs) : Option Locked := do
  let s := s.lock
  let (o, _) ← submitSecond fuel s.mem u a.buf a.setup
  some (s.write o).unlock

/-- The branch of `sohci_unlink_urb` for a pending request. -/
def sohciUnlinkPending (s : Locked) (u : UrbPtr) (p : UrbPriv) : Locked :=
  let s := s.write (s.mem.modPriv u (fun p => { p with urbDel := true }))
  let s := s.lock
  let s := s.write (epRmEd s.mem p.ed)
  let s :=
    s.write (s.mem.modEd p.ed (fun r => { r with state := { r.state with urbDel := true } }))
  let s := s.unlock
  if (s.mem.urb u).asyncUnlink then s.write
    (s.mem.modUrb u (fun r => { r with status := .einprogress })) else s

/-- **`sohci_free_dev`**, up to its wait. -/
def sohciFreeDev (fuel : ℕ) (s : Locked) (d : DevPtr) : Option Locked := do
  let s := s.lock
  let o ← freeDev fuel s.mem d
  some (s.write o).unlock

end Locked

/-! ## A chain of calls -/

/-- A function that has been called, and where it is. -/
inductive LockFrame
  /-- `sohci_submit_urb` behind its first phase. -/
  | submit (u : UrbPtr) (a : Allocs)
  /-- A synchronous `sohci_unlink_urb` asleep. -/
  | unlinkSleep (u : UrbPtr)
  /-- A synchronous `sohci_unlink_urb` in an interrupt, which has seen `n` frames
  start. -/
  | unlinkBusy (u : UrbPtr) (n : ℕ)
  /-- `hc_interrupt`, with what is left to be looked at. -/
  | hcInterrupt (wdh sf : Bool)
  /-- `dl_reverse_done_list`, `dl_done_list` or `dl_del_list`. -/
  | task (t : IrqTask)
  /-- A completion callback. -/
  | callback
  /-- A function about to return. -/
  | leave

/-- Whether a pass of an interrupt routine takes the lock. -/
def IrqTask.takesLock (o : Ohci) : IrqTask → Bool
  | .requeue u _ _ => (o.urb u).pipe.type = .iso
  | .endEd _ _ => true
  | _ => false

/-- Whether it gives the lock back: the loops of `dl_reverse_done_list` and
`dl_del_list` do when they end. -/
def IrqTask.givesLock (o : Ohci) : IrqTask → Bool
  | .reverse t _ => t = 0
  | .del _ e => e = 0
  | t => t.takesLock o

/-- What is left of an interrupt routine after a pass. -/
def LockFrame.ofTask : Option IrqTask → LockFrame
  | some t => .task t
  | none => .leave

/-- `dl_del_list` in the middle of its loops. -/
def LockFrame.inDel : LockFrame → Bool
  | .task (.del _ _) | .task (.delQueue _ _ _ _ _ _) => true
  | _ => false

/-- The lock is held while a function is there. -/
def LockFrame.holds : LockFrame → Bool
  | .task (.reverse _ _) => true
  | f => f.inDel

/-- **A chain of calls**, the last call first, each with whether the lock was held
on entry. -/
structure LockRun where
  locked : Locked
  stack : List (LockFrame × Bool)
  /-- A function has not returned as it was entered. -/
  unbalanced : Bool

namespace LockRun

/-- Entry points are called from outside, and by callbacks. -/
def callable (s : LockRun) : Bool :=
  match s.stack with
  | [] => true
  | (.callback, _) :: _ => true
  | _ => false

/-- The number of callbacks that have been made. -/
def completions (o : Ohci) : ℕ :=
  o.trace.countP (fun ev => match ev with | .complete _ _ _ => true | _ => false)

/-- A function goes on as `f`, or in the callback it has made. -/
def goOn (s : LockRun) (l : Locked) (f : LockFrame) (entered : Bool)
    (stack : List (LockFrame × Bool)) : LockRun :=
  { s with
    locked := l
    stack :=
      if completions s.locked.mem < completions l.mem then (.callback, l.held) :: (f,
        entered) :: stack
      else (f, entered) :: stack }

/-- **An entry point is called.** -/
def enter (s : LockRun) (l : Locked) (f : LockFrame) : LockRun := s.goOn l f s.locked.held s.stack

/-- **`dl_del_list` is called.** -/
def callDel (s : LockRun) (frame : Bool) (below : LockFrame) (entered : Bool)
    (stack : List (LockFrame × Bool)) :
    LockRun :=
  { s with
    locked := s.locked.lock
    stack := (.task (.del frame (s.locked.mem.edRmList frame)), s.locked.held) :: (below,
      entered) :: stack }

/-- **One pass of an interrupt routine**, with what it does to the lock. -/
def taskStep (fuel : ℕ) (l : Locked) (t : IrqTask) : Option (Locked × Option IrqTask) :=
  (t.step fuel l.mem).map (fun (o, t') =>
    let l' := if t.takesLock l.mem then l.lock else l
    let l' := l'.write o
    (if t.givesLock l.mem then l'.unlock else l', t'))

/-- **`sohci_unlink_urb`**, up to its wait. -/
def unlink (s : LockRun) (u : UrbPtr) (irq : Bool) : LockRun :=
  let l := s.locked
  let r := l.mem.urb u
  if r.dev = 0 then s.enter l .leave
  else if r.pipe.device = l.mem.rhDevnum then
    s.enter { l with mem := decDevUse l.mem u, rh := rhUnlinkUrb l.rh u } .leave
  else
    match r.hcpriv with
    | none => s.enter l .leave
    | some p =>
      if r.status = .einprogress ∧ !l.mem.disabled then
        s.enter (l.sohciUnlinkPending u p)
          (if r.asyncUnlink then .leave else if irq then .unlinkBusy u 0 else .unlinkSleep u)
      else s.enter (l.write (unlinkNow l.mem u)) .leave

/-- **The last function that has been called goes on.** -/
def go (fuel : ℕ) (s : LockRun) : Option LockRun :=
  let l := s.locked
  match s.stack with
  | [] => none
  | (.callback, entered) :: stack | (.leave, entered) :: stack =>
    some { s with stack := stack, unbalanced := s.unbalanced || (l.held != entered) }
  | (.submit u a, entered) :: stack => do
    let l ← l.sohciSubmitEnd fuel u a
    some (s.goOn l .leave entered stack)
  | (.unlinkSleep u, entered) :: stack =>
    some (s.goOn (l.write (unlinkFinish l.mem u)) .leave entered stack)
  | (.unlinkBusy u n, entered) :: stack =>
    if n < 2 then
      let frame := !l.mem.frame
      if l.mem.edRmList frame ≠ 0 then
        some (s.callDel frame (.unlinkBusy u (n + 1)) entered stack)
      else some { s with stack := (.unlinkBusy u (n + 1), entered) :: stack }
    else some (s.goOn (l.write (unlinkFinish l.mem u)) .leave entered stack)
  | (.hcInterrupt wdh sf, entered) :: stack =>
    if wdh then
      let l' := l.lock
      let o := { l'.mem with doneHead := 0 }
      some { s with
        locked := l'.write o
        stack := (.task (.reverse l.mem.doneHead 0), l.held) :: (.hcInterrupt false sf,
          entered) :: stack }
    else
      let frame := !l.mem.frame
      if sf ∧ l.mem.edRmList frame ≠ 0 then some (s.callDel frame .leave entered stack)
      else some { s with stack := (.leave, entered) :: stack }
  | (.task t, entered) :: stack => do
    let (l, t) ← taskStep fuel l t
    some (s.goOn l (.ofTask t) entered stack)

end LockRun

/-- What can happen next. -/
inductive LockAct
  /-- `sohci_submit_urb` is called. -/
  | submit (u : UrbPtr) (a : Allocs) (len : ℕ) (status : Status)
  /-- `sohci_unlink_urb` is called, in an interrupt or not. -/
  | unlink (u : UrbPtr) (irq : Bool)
  /-- `sohci_free_dev` is called. -/
  | freeDev (d : DevPtr)
  /-- `hc_interrupt` is called, for the done list and the start of a frame. -/
  | interrupt (wdh sf : Bool)
  /-- The last function that has been called goes on. -/
  | go
  /-- The memory is written by others. -/
  | other (o : Ohci)

/-- **One step of a chain of calls.** -/
def LockRun.step (fuel : ℕ) (s : LockRun) : LockAct → Option LockRun
  | .submit u a len status =>
    if s.callable then
      match s.locked.sohciSubmitBegin u a len status with
      | (l, some _) => some (s.enter l .leave)
      | (l, none) => some (s.enter l (.submit u a))
    else none
  | .unlink u irq => if s.callable then some (s.unlink u irq) else none
  | .freeDev d =>
    if s.callable then
      if (s.locked.mem.usbDev d).edBase = 0 then some (s.enter s.locked .leave)
      else do
        let l ← s.locked.sohciFreeDev fuel d
        some (s.enter l .leave)
    else none
  | .interrupt wdh sf =>
    if s.stack = [] then some (s.enter s.locked (.hcInterrupt wdh sf)) else none
  | .go => s.go fuel
  | .other o => some { s with locked := s.locked.write o }

/-- **The states of the chains of calls** all of whose steps meet a condition. At
first the lock is free. -/
inductive LockRun.Reach (ok : LockRun → LockAct → Prop) : LockRun → Prop
  | init (o : Ohci) (rh : VirtRootHub) : LockRun.Reach ok ⟨⟨o, rh, false, false⟩, [], false⟩
  | step {s s' : LockRun} (fuel : ℕ) (a : LockAct) : LockRun.Reach ok s → ok s a →
      s.step fuel a = some s' →
      LockRun.Reach ok s'

/-- `sohci_submit_urb` gets to `ep_add_ed`. -/
def Ohci.addsEd (o : Ohci) (u : UrbPtr) : Prop :=
  (o.urb u).dev ≠ 0 ∧ (o.urb u).hcpriv = none ∧ (o.urb u).pipe.device ≠ o.rhDevnum ∧
    o.disabled = false

/-- **What a call must not do**: get to `ep_add_ed` for an ED whose removal is
pending, or without a dummy TD for a new ED; or, in a callback `dl_del_list` has
made, get to where the lock is taken. -/
def LockClean (s : LockRun) : LockAct → Prop
  | .submit u a _ _ => s.locked.mem.addsEd u → s.stack.any (fun f => f.1.inDel) = false ∧
      (s.locked.mem.ed (edOf s.locked.mem (s.locked.mem.urb u).dev
        (s.locked.mem.urb u).pipe)).state.pending = false ∧
      ((s.locked.mem.ed (edOf s.locked.mem (s.locked.mem.urb u).dev
        (s.locked.mem.urb u).pipe)).state = .edNew →
        a.dummy ≠ 0)
  | .unlink u _ =>
    (s.locked.mem.urb u).dev ≠ 0 → (s.locked.mem.urb u).pipe.device ≠ s.locked.mem.rhDevnum →
      (s.locked.mem.urb u).hcpriv.isSome → (s.locked.mem.urb u).status = .einprogress →
        s.locked.mem.disabled = false →
      s.stack.any (fun f => f.1.inDel) = false
  | .freeDev d => (s.locked.mem.usbDev d).edBase ≠ 0 → s.stack.any (fun f => f.1.inDel) = false
  | _ => True

/-! ## The functions and the lock -/

section Functions

variable {s s' : Locked} {u : UrbPtr} {a : Allocs} {len fuel : ℕ} {status : Status}
    {ret : Option Ret} {p : UrbPriv}

/-- A submission that does not get to `ep_add_ed` returns with the lock as it
was. -/
theorem Locked.sohciSubmitBegin_refused (a : Allocs) (len : ℕ) (status : Status)
    (h : ¬ s.mem.addsEd u) :
    (s.sohciSubmitBegin u a len status).1.held = s.held ∧
      (s.sohciSubmitBegin u a len status).1.twice = s.twice ∧
      (s.sohciSubmitBegin u a len status).2 ≠ none := by
  unfold Locked.sohciSubmitBegin
  dsimp only [Locked.write]
  split
  · exact ⟨rfl, rfl, nofun⟩
  rename_i hskip
  split
  · exact ⟨rfl, rfl, nofun⟩
  rename_i hrh
  split
  · exact ⟨rfl, rfl, nofun⟩
  rename_i hdis
  have henabled : s.mem.disabled = false := Bool.eq_false_iff.mpr hdis
  refine absurd ⟨fun h0 => hskip (.inl h0), ?_, hrh, henabled⟩ h
  exact Option.not_isSome_iff_eq_none.mp (fun hsome => hskip (.inr hsome))

/-- **A submission that gets an ED** returns from its first phase without the
lock. -/
theorem Locked.sohciSubmitBegin_added (len : ℕ) (status : Status) (h : s.mem.addsEd u)
    (hfree : s.held = false)
    (hpend : (s.mem.ed (edOf s.mem (s.mem.urb u).dev (s.mem.urb u).pipe)).state.pending = false)
    (hdummy : (s.mem.ed (edOf s.mem (s.mem.urb u).dev (s.mem.urb u).pipe)).state = .edNew →
      a.dummy ≠ 0) :
    (s.sohciSubmitBegin u a len status).1.held = false ∧
      (s.sohciSubmitBegin u a len status).1.twice = s.twice := by
  obtain ⟨hdev, hnone, hrh, hdis⟩ := h
  have hof : edOf (incDevUse s.mem u) (s.mem.urb u).dev (s.mem.urb u).pipe
      = edOf s.mem (s.mem.urb u).dev (s.mem.urb u).pipe := by
    simp [edOf, incDevUse, Ohci.log, Ohci.modDev]
  have hsome := epAddEd_isSome (o := incDevUse s.mem u) (s.mem.urb u).dev (s.mem.urb u).pipe
    (s.mem.urb u).interval 1
    a.dummy
  have hin : (decide ((s.mem.ed (edOf s.mem (s.mem.urb u).dev (s.mem.urb u).pipe)).state ≠ .edNew)
      || decide (a.dummy ≠ 0)) = true := by
    rw [Bool.or_eq_true, decide_eq_true_eq, decide_eq_true_eq]
    exact (em _).elim (fun hnew => .inr (hdummy hnew)) .inl
  rw [hof, incDevUse_ed, hpend, hin] at hsome
  obtain ⟨e, o, hadd⟩ : ∃ e o, epAddEd (incDevUse s.mem u) (s.mem.urb u).dev (s.mem.urb u).pipe
      (s.mem.urb u).interval 1 a.dummy = (some e, o) := by
    obtain ⟨e, he⟩ := Option.isSome_iff_exists.mp hsome
    exact ⟨e, _, Prod.ext he rfl⟩
  unfold Locked.sohciSubmitBegin
  dsimp only [Locked.write]
  rw [if_neg (by simp [hdev, hnone]), if_neg (show ¬ _ = (incDevUse s.mem u).rhDevnum from hrh),
    if_neg (show ¬ (incDevUse s.mem u).disabled = true from Bool.eq_false_iff.mp hdis)]
  unfold Locked.addEd
  dsimp only [Locked.lock]
  rw [hadd]
  dsimp only [Locked.write, Locked.unlock]
  have htwice : (s.twice || s.held) = s.twice := by rw [hfree, Bool.or_false]
  split
  · exact ⟨rfl, htwice⟩
  split
  · exact ⟨rfl, htwice⟩
  · exact ⟨rfl, htwice⟩

/-- The second phase takes the lock and gives it back. -/
theorem Locked.sohciSubmitEnd_lock (hfree : s.held = false)
    (h : s.sohciSubmitEnd fuel u a = some s') :
    s'.held = false ∧ s'.twice = s.twice := by
  obtain ⟨⟨o, b⟩, -, h⟩ := Option.bind_eq_some_iff.mp h
  cases h
  exact ⟨rfl, by rw [Locked.unlock, Locked.write, Locked.lock]; simp [hfree]⟩

/-- `sohci_unlink_urb` takes the lock and gives it back. -/
theorem Locked.sohciUnlinkPending_lock (hfree : s.held = false) :
    (s.sohciUnlinkPending u p).held = false ∧ (s.sohciUnlinkPending u p).twice = s.twice := by
  have htwice : (s.twice || s.held) = s.twice := by rw [hfree, Bool.or_false]
  unfold Locked.sohciUnlinkPending
  dsimp only [Locked.write, Locked.lock, Locked.unlock]
  split <;> exact ⟨rfl, htwice⟩

/-- `sohci_free_dev` takes the lock and gives it back. -/
theorem Locked.sohciFreeDev_lock {d : DevPtr} (hfree : s.held = false)
    (h : s.sohciFreeDev fuel d = some s') :
    s'.held = false ∧ s'.twice = s.twice := by
  obtain ⟨o, -, h⟩ := Option.bind_eq_some_iff.mp h
  cases h
  exact ⟨rfl, by rw [Locked.unlock, Locked.write, Locked.lock]; simp [hfree]⟩

end Functions

/-! ## The stack and the lock -/

/-- A function that does nothing with the lock any more. -/
def LockFrame.idle : LockFrame → Bool
  | .callback | .leave => true
  | _ => false

/-- The lock is held by one of the functions. -/
def holding (stack : List (LockFrame × Bool)) : Bool := stack.any (fun f => f.1.holds)

/-- `dl_del_list` is one of the functions. -/
def deleting (stack : List (LockFrame × Bool)) : Bool := stack.any (fun f => f.1.inDel)

/-- **What is on the stack**: each function knows whether the lock was held on
entry, and over `dl_del_list` in its loops there is only what does nothing with
the lock. -/
inductive Disciplined : List (LockFrame × Bool) → Prop
  | nil : Disciplined []
  | cons {f : LockFrame} {entered : Bool} {stack : List (LockFrame × Bool)} : Disciplined stack →
      entered = holding stack → (entered = true → f.idle = true ∧ deleting stack = true) →
      Disciplined ((f, entered) :: stack)

/-- **The invariant**: the lock is held exactly if a function on the stack holds it,
and nothing has gone wrong so far. -/
structure LockRun.Inv (s : LockRun) : Prop where
  stack : Disciplined s.stack
  held : s.locked.held = holding s.stack
  twice : s.locked.twice = false
  balanced : s.unbalanced = false

section Stack

variable {s s' : LockRun} {l l' : Locked} {f : LockFrame} {entered : Bool}
    {stack : List (LockFrame × Bool)}
  {fuel : ℕ} {a : LockAct} {u : UrbPtr}

@[simp] theorem holding_cons : holding ((f, entered) :: stack) = (f.holds || holding stack) := rfl

@[simp] theorem deleting_cons : deleting ((f, entered) :: stack) = (f.inDel || deleting stack) :=
  rfl

/-- Only a function that does nothing with the lock any more is over one that
holds it. -/
theorem Disciplined.entered_eq (h : Disciplined ((f, entered) :: stack)) (hf : f.idle = false) :
    entered = false := by
  cases h with
  | cons _ _ hidle =>
    refine Bool.eq_false_iff.mpr (fun he => ?_)
    rw [(hidle he).1] at hf
    cases hf

/-- **A function goes on**, or makes a callback. -/
theorem LockRun.Inv.goOn (hs : Disciplined stack) (he : entered = holding stack)
    (hidle : entered = true → f.idle = true ∧ deleting stack = true)
    (hheld : l.held = (f.holds || holding stack))
    (hcall : LockRun.completions s.locked.mem < LockRun.completions l.mem → l.held = true →
      (f.inDel || deleting stack) = true)
    (htwice : l.twice = false) (hbal : s.unbalanced = false) :
    (s.goOn l f entered stack).Inv := by
  unfold LockRun.goOn
  split
  · rename_i hlt
    exact ⟨.cons (.cons hs he hidle) hheld (fun h => ⟨rfl, hcall hlt h⟩), hheld, htwice, hbal⟩
  · exact ⟨.cons hs he hidle, hheld, htwice, hbal⟩

/-- The lock is held at a call only in a callback `dl_del_list` has made. -/
theorem LockRun.Inv.deleting_of_callable (h : s.Inv) (hc : s.callable = true)
    (hheld : s.locked.held = true) :
    deleting s.stack = true := by
  have hstack := h.stack
  have hhold := h.held
  rw [hheld] at hhold
  unfold LockRun.callable at hc
  split at hc
  · rename_i hnil
    rw [hnil] at hhold
    cases hhold
  · rename_i entered rest hcons
    rw [hcons] at hstack hhold ⊢
    cases hstack with
    | cons _ he hidle =>
      have hrest : holding rest = true := hhold.symm
      exact (hidle (he.trans hrest)).2
  · cases hc

/-- **A call that leaves the lock as it is**, and returns at once. -/
theorem LockRun.Inv.enter_leave (h : s.Inv) (hc : s.callable = true)
    (hheld : l.held = s.locked.held)
    (htwice : l.twice = s.locked.twice) : (s.enter l .leave).Inv := by
  have hdel : s.locked.held = true → deleting s.stack = true := h.deleting_of_callable hc
  refine .goOn h.stack h.held (fun hh => ⟨rfl, hdel hh⟩) (hheld.trans h.held) (fun _ hh => ?_)
    (htwice.trans h.twice) h.balanced
  exact hdel (hheld ▸ hh)

/-- **A call while the lock is free**, by a function that gives it back. -/
theorem LockRun.Inv.enter_free (h : s.Inv) (hfree : s.locked.held = false)
    (hheld : l.held = false)
    (htwice : l.twice = false) (hf : f.holds = false) : (s.enter l f).Inv := by
  refine .goOn h.stack h.held (fun hh => ?_) ?_ (fun _ hh => ?_) htwice h.balanced
  · rw [hfree] at hh
    cases hh
  · rw [hheld, hf, Bool.false_or, ← h.held, hfree]
  · rw [hheld] at hh
    cases hh

/-- At a call that is clean the lock is free. -/
theorem LockRun.Inv.free_of_clean (h : s.Inv) (hc : s.callable = true)
    (hdel : deleting s.stack = false) :
    s.locked.held = false := by
  refine Bool.eq_false_iff.mpr (fun hh => ?_)
  rw [h.deleting_of_callable hc hh] at hdel
  cases hdel

/-- **`dl_del_list` is called** by a function that is not over another. -/
theorem LockRun.Inv.callDel {frame : Bool} {below : LockFrame} (hs : Disciplined stack)
    (he : entered = false)
    (hhold : holding stack = false) (hbelow : below.holds = false) (hfree : s.locked.held = false)
    (htwice : s.locked.twice = false) (hbal : s.unbalanced = false) :
    (s.callDel frame below entered stack).Inv := by
  have hrest : s.locked.held = holding ((below, entered) :: stack) := by
    rw [holding_cons, hbelow, hhold, hfree]
    rfl
  refine ⟨.cons (.cons hs (he.trans hhold.symm) (fun hh => ?_)) hrest (fun hh => ?_),
    rfl, ?_, hbal⟩
  · rw [he] at hh
    cases hh
  · rw [hfree] at hh
    cases hh
  · have : (s.locked.twice || s.locked.held) = false := by rw [htwice, hfree]; rfl
    exact this

/-- Reversing the done list makes no callback. -/
theorem reverseTd_trace {o : Ohci} {t r : TdPtr} : (reverseTd o t r).trace = o.trace := by
  have hskip : (skipRest o t).trace = o.trace := by
    unfold skipRest
    dsimp only
    split
    · rfl
    · split <;> rfl
  unfold reverseTd
  dsimp only
  split
  · exact hskip
  · rfl

/-- What is left of an interrupt routine holds the lock unless it has been given
back. -/
theorem IrqTask.step_holds {t : IrqTask} {t' : Option IrqTask} {o o' : Ohci}
    (h : t.step fuel o = some (o', t')) :
    (LockFrame.ofTask t').holds = ((LockFrame.task t).holds && !t.givesLock o) ∧
      ((LockFrame.ofTask t').holds = true → (LockFrame.ofTask t').inDel = true ∨
        o'.trace = o.trace) := by
  cases t with
  | reverse t rev =>
    simp only [IrqTask.step] at h
    split at h
    · rename_i h0
      cases h
      refine ⟨?_, nofun⟩
      rw [IrqTask.givesLock, decide_eq_true h0]
      rfl
    · rename_i h0
      cases h
      refine ⟨?_, fun _ => .inr reverseTd_trace⟩
      rw [IrqTask.givesLock, decide_eq_false h0]
      rfl
  | done t =>
    simp only [IrqTask.step] at h
    split at h
    · cases h
      exact ⟨rfl, nofun⟩
    · obtain ⟨⟨o₁, again⟩, -, h⟩ := Option.bind_eq_some_iff.mp h
      cases again <;> cases h <;> exact ⟨rfl, nofun⟩
  | requeue u e next =>
    obtain ⟨o₁, -, h⟩ := Option.bind_eq_some_iff.mp h
    cases h
    exact ⟨rfl, nofun⟩
  | endEd e next =>
    obtain ⟨o₁, -, h⟩ := Option.bind_eq_some_iff.mp h
    cases h
    exact ⟨rfl, nofun⟩
  | del f e =>
    simp only [IrqTask.step] at h
    split at h
    · rename_i h0
      cases h
      refine ⟨?_, nofun⟩
      rw [IrqTask.givesLock, decide_eq_true h0]
      rfl
    · rename_i h0
      cases h
      refine ⟨?_, fun _ => .inl rfl⟩
      rw [IrqTask.givesLock, decide_eq_false h0]
      rfl
  | delQueue f e tail fa t tdP =>
    simp only [IrqTask.step] at h
    split at h
    · cases h
      exact ⟨rfl, fun _ => .inl rfl⟩
    · obtain ⟨⟨o₁, tdP'⟩, -, h⟩ := Option.bind_eq_some_iff.mp h
      cases h
      exact ⟨rfl, fun _ => .inl rfl⟩

/-- A routine that takes the lock gives it back, and has not held it. -/
theorem IrqTask.gives_of_takes {t : IrqTask} {o : Ohci} (h : t.takesLock o = true) :
    t.givesLock o = true ∧ (LockFrame.task t).holds = false := by
  cases t with
  | requeue u e next => exact ⟨h, rfl⟩
  | endEd e next => exact ⟨rfl, rfl⟩
  | reverse | done | del | delQueue => cases h

/-- **One pass of an interrupt routine** leaves the lock held exactly if the routine
goes on holding it. -/
theorem LockRun.taskStep_lock {t : IrqTask} {t' : Option IrqTask}
    (hs : LockRun.taskStep fuel l t = some (l', t'))
    (hheld : l.held = (LockFrame.task t).holds) (htwice : l.twice = false) :
    l'.held = (LockFrame.ofTask t').holds ∧ l'.twice = false ∧
      (LockRun.completions l.mem < LockRun.completions l'.mem → l'.held = true →
        (LockFrame.ofTask t').inDel = true) := by
  obtain ⟨⟨o, t₁⟩, h₁, hs⟩ := Option.map_eq_some_iff.mp hs
  obtain ⟨hholds, hcall⟩ := IrqTask.step_holds h₁
  cases hs
  have hmem :
      (if t.givesLock l.mem then ((if t.takesLock l.mem then l.lock else l).write o).unlock
      else (if t.takesLock l.mem then l.lock else l).write o).mem = o := by
    split <;> rfl
  have hheld' :
      (if t.givesLock l.mem then ((if t.takesLock l.mem then l.lock else l).write o).unlock
      else (if t.takesLock l.mem then l.lock else l).write o).held
        = (LockFrame.ofTask t').holds := by
    rw [hholds, ← hheld]
    cases hg : t.givesLock l.mem with
    | true =>
      rw [Bool.not_true, Bool.and_false]
      rfl
    | false =>
      cases htk : t.takesLock l.mem with
      | true =>
        rw [(IrqTask.gives_of_takes htk).1] at hg
        cases hg
      | false => exact (Bool.and_true _).symm
  refine ⟨hheld', ?_, fun hlt hh => ?_⟩
  · have hlock : (if t.takesLock l.mem then l.lock else l).twice = false := by
      cases htk : t.takesLock l.mem with
      | true =>
        have hfree : l.held = false := hheld.trans (IrqTask.gives_of_takes htk).2
        have hor : (l.twice || l.held) = false := by rw [htwice, hfree]; rfl
        exact hor
      | false => exact htwice
    split <;> exact hlock
  · rw [hheld'] at hh
    rw [hmem] at hlt
    obtain hin | hsame := hcall hh
    · exact hin
    · rw [LockRun.completions, LockRun.completions, hsame] at hlt
      exact absurd hlt (lt_irrefl _)

/-- **The last function that has been called goes on.** -/
theorem LockRun.Inv.go (h : s.Inv) (hs : s.go fuel = some s') : s'.Inv := by
  obtain ⟨hstack, hheld, htwice, hbal⟩ := h
  unfold LockRun.go at hs
  dsimp only at hs
  -- a function that is not over another finds the lock free
  have hfree : ∀ {f entered stack}, s.stack = (f, entered) :: stack → f.idle = false →
      f.holds = false →
      entered = false ∧ holding stack = false ∧ s.locked.held = false ∧ Disciplined stack := by
    intro f entered stack hcons hidle hholds
    rw [hcons] at hstack hheld
    have he := hstack.entered_eq hidle
    cases hstack with
    | cons hrest heq _ =>
      have hhold : holding stack = false := heq.symm.trans he
      rw [holding_cons, hholds, hhold] at hheld
      exact ⟨he, hhold, hheld, hrest⟩
  -- and goes on without it
  have hgo : ∀ {f entered stack l}, entered = false → holding stack = false → Disciplined stack →
      l.held = false → l.twice = false → f.holds = false → (s.goOn l f entered stack).Inv := by
    intro f entered stack l he hhold hrest hl ht hf
    refine .goOn hrest (he.trans hhold.symm) (fun hh => ?_) (by rw [hl, hf, hhold]; rfl)
      (fun _ hh => ?_) ht hbal
    · rw [he] at hh
      cases hh
    · rw [hl] at hh
      cases hh
  have hback : ∀ (f : LockFrame) {entered stack}, entered = false → holding stack = false →
      s.locked.held = false →
      Disciplined stack → f.holds = false →
      Disciplined ((f, entered) :: stack) ∧ s.locked.held = holding ((f, entered) :: stack) := by
    intro f entered stack he hhold hf hrest hfh
    refine ⟨.cons hrest (he.trans hhold.symm) (fun hh => ?_), ?_⟩
    · rw [he] at hh
      cases hh
    · rw [hf, holding_cons, hfh, hhold]
      rfl
  have hpop : ∀ {f entered stack}, s.stack = (f, entered) :: stack → f.holds = false →
      LockRun.Inv
        { s with stack := stack, unbalanced := s.unbalanced || (s.locked.held != entered) } := by
    intro f entered stack hcons hholds
    rw [hcons] at hstack hheld
    rw [holding_cons, hholds, Bool.false_or] at hheld
    cases hstack with
    | cons hrest heq _ =>
      refine ⟨hrest, hheld, htwice, ?_⟩
      dsimp only
      rw [hbal, hheld, heq, bne_self_eq_false]
      rfl
  split at hs
  · cases hs
  · cases hs
    exact hpop ‹_› rfl
  · cases hs
    exact hpop ‹_› rfl
  · obtain ⟨l, hl, hs⟩ := Option.bind_eq_some_iff.mp hs
    cases hs
    obtain ⟨he, hhold, hf, hrest⟩ := hfree ‹_› rfl rfl
    obtain ⟨hlheld, hltwice⟩ := Locked.sohciSubmitEnd_lock hf hl
    exact hgo he hhold hrest hlheld (hltwice.trans htwice) rfl
  · rename_i u entered stack hcons
    cases hs
    obtain ⟨he, hhold, hf, hrest⟩ := hfree hcons rfl rfl
    have hl : (s.locked.write (unlinkFinish s.locked.mem u)).held = false :=
      (Locked.write_held _ _).trans hf
    have ht : (s.locked.write (unlinkFinish s.locked.mem u)).twice = false :=
      (Locked.write_twice _ _).trans htwice
    exact hgo he hhold hrest hl ht rfl
  · rename_i u n entered stack hcons
    obtain ⟨he, hhold, hf, hrest⟩ := hfree hcons rfl rfl
    have hl : (s.locked.write (unlinkFinish s.locked.mem u)).held = false :=
      (Locked.write_held _ _).trans hf
    have ht : (s.locked.write (unlinkFinish s.locked.mem u)).twice = false :=
      (Locked.write_twice _ _).trans htwice
    split at hs
    · split at hs
      · cases hs
        exact .callDel hrest he hhold rfl hf htwice hbal
      · cases hs
        obtain ⟨hd, hh⟩ := hback (.unlinkBusy u (n + 1)) he hhold hf hrest rfl
        exact ⟨hd, hh, htwice, hbal⟩
    · cases hs
      exact hgo he hhold hrest hl ht rfl
  · rename_i wdh sf entered stack hcons
    obtain ⟨he, hhold, hf, hrest⟩ := hfree hcons rfl rfl
    split at hs
    · cases hs
      obtain ⟨hd, hh⟩ := hback (.hcInterrupt false sf) he hhold hf hrest rfl
      refine ⟨.cons hd hh (fun hx => ?_), rfl, ?_, hbal⟩
      · rw [hf] at hx
        cases hx
      · have hor : (s.locked.twice || s.locked.held) = false := by rw [htwice, hf]; rfl
        exact hor
    · split at hs
      · cases hs
        exact .callDel hrest he hhold rfl hf htwice hbal
      · cases hs
        obtain ⟨hd, hh⟩ := hback .leave he hhold hf hrest rfl
        exact ⟨hd, hh, htwice, hbal⟩
  · rename_i t entered stack hcons
    obtain ⟨⟨l, t'⟩, hl, hs⟩ := Option.bind_eq_some_iff.mp hs
    cases hs
    rw [hcons] at hstack hheld
    have he := hstack.entered_eq rfl
    cases hstack with
    | cons hrest heq _ =>
      have hhold : holding stack = false := heq.symm.trans he
      rw [holding_cons, hhold, Bool.or_false] at hheld
      obtain ⟨hlheld, hltwice, hcall⟩ := LockRun.taskStep_lock hl hheld htwice
      refine .goOn hrest heq (fun hh => ?_) (by rw [hlheld, hhold, Bool.or_false])
        (fun hlt hh => ?_) hltwice hbal
      · rw [he] at hh
        cases hh
      · rw [hcall hlt hh]
        rfl

/-- **Every clean step keeps the discipline.** -/
theorem LockRun.Inv.step (h : s.Inv) (hok : LockClean s a) (hs : s.step fuel a = some s') :
    s'.Inv := by
  cases a with
  | submit u a len status =>
    simp only [LockRun.step] at hs
    split at hs
    · rename_i hc
      by_cases hadd : s.locked.mem.addsEd u
      · obtain ⟨hdel, hpend, hdummy⟩ := hok hadd
        have hfree := h.free_of_clean hc hdel
        have hlock := Locked.sohciSubmitBegin_added len status hadd hfree hpend hdummy
        split at hs <;> rename_i hbegin <;> rw [hbegin] at hlock <;> cases hs
        · exact h.enter_free hfree hlock.1 (hlock.2.trans h.twice) rfl
        · exact h.enter_free hfree hlock.1 (hlock.2.trans h.twice) rfl
      · have hlock := Locked.sohciSubmitBegin_refused a len status hadd
        split at hs <;> rename_i hbegin <;> rw [hbegin] at hlock <;> cases hs
        · exact h.enter_leave hc hlock.1 hlock.2.1
        · exact absurd rfl hlock.2.2
    · cases hs
  | unlink u irq =>
    simp only [LockRun.step] at hs
    split at hs
    · rename_i hc
      cases hs
      unfold LockRun.unlink
      dsimp only
      split
      · exact h.enter_leave hc rfl rfl
      rename_i hdev
      split
      · exact h.enter_leave hc rfl rfl
      rename_i hrh
      split
      · exact h.enter_leave hc rfl rfl
      rename_i p hp
      split
      · rename_i hpend
        have hfree :=
          h.free_of_clean hc (hok hdev hrh (by rw [hp]; rfl) hpend.1 (by simpa using hpend.2))
        obtain ⟨hheld, htwice⟩ := Locked.sohciUnlinkPending_lock (u := u) (p := p) hfree
        refine h.enter_free hfree hheld (htwice.trans h.twice) ?_
        split
        · rfl
        · split <;> rfl
      · exact h.enter_leave hc rfl rfl
    · cases hs
  | freeDev d =>
    simp only [LockRun.step] at hs
    split at hs
    · rename_i hc
      split at hs
      · cases hs
        exact h.enter_leave hc rfl rfl
      · rename_i hbase
        obtain ⟨l, hl, hs⟩ := Option.bind_eq_some_iff.mp hs
        cases hs
        have hfree := h.free_of_clean hc (hok hbase)
        obtain ⟨hheld, htwice⟩ := Locked.sohciFreeDev_lock hfree hl
        exact h.enter_free hfree hheld (htwice.trans h.twice) rfl
    · cases hs
  | interrupt wdh sf =>
    simp only [LockRun.step] at hs
    split at hs
    · rename_i hnil
      cases hs
      have hfree : s.locked.held = false := by
        rw [h.held, hnil]
        rfl
      exact h.enter_free hfree hfree h.twice rfl
    · cases hs
  | go => exact h.go hs
  | other o =>
    cases hs
    exact ⟨h.stack, h.held, h.twice, h.balanced⟩

/-- **The lock is never taken twice, and every function returns as it was entered**,
in every chain of clean calls; when the outermost has returned the lock is free. -/
theorem lock_balanced_of_clean (h : s.Reach LockClean) :
    s.locked.twice = false ∧ s.unbalanced = false ∧ (s.stack = [] → s.locked.held = false) := by
  have hinv : s.Inv := by
    induction h with
    | init o rh => exact ⟨.nil, rfl, rfl, rfl⟩
    | step fuel a _ hok hs ih => exact ih.step hok hs
  refine ⟨hinv.twice, hinv.balanced, fun hnil => ?_⟩
  rw [hinv.held, hnil]
  rfl

end Stack

/-! ## An ED whose removal is pending -/

/-- A submission that gets a new ED and no private part returns without the lock. -/
theorem lock_balanced_of_clean_submit :
    ∃ s : LockRun, s.stack = [(.leave, false)] ∧ s.locked.twice = false ∧
    s.unbalanced = false := by
  obtain ⟨s, hs, hstack⟩ : ∃ s, LockRun.step 0 ⟨⟨(Heap.ofRequest false).mem, default, false,
      false⟩, [], false⟩
      (.submit 1 .noKmalloc 0 .ok) = some s ∧ s.stack = [(.leave, false)] := ⟨_, rfl, rfl⟩
  have hclean : LockClean ⟨⟨(Heap.ofRequest false).mem, default, false, false⟩, [], false⟩
      (.submit 1 .noKmalloc 0 .ok) := fun _ => ⟨rfl, rfl, fun _ => by decide⟩
  obtain ⟨htwice, hbal, -⟩ := lock_balanced_of_clean (.step 0 _ (.init _ _) hclean hs)
  exact ⟨s, hstack, htwice, hbal⟩

/-- Memory with one request; the EDs of its device are to be removed. -/
def pendingRemoval : Ohci :=
  { (Heap.ofRequest false).mem with ed := fun _ => { (default : Ed) with state := .edDel } }

/-- `ep_add_ed` answers null, and `sohci_submit_urb` returns with the lock. -/
theorem lock_kept :
    ¬ ∀ s : LockRun, s.Reach (fun _ _ => True) → s.locked.twice = false ∧
    s.unbalanced = false := by
  intro hclaim
  obtain ⟨s, s', h₁, h₂, hbal⟩ : ∃ s s', LockRun.step 0 ⟨⟨pendingRemoval, default, false, false⟩,
      [], false⟩
      (.submit 1 .noKmalloc 0 .ok) = some s ∧ s.step 0 .go = some s' ∧ s'.unbalanced = true :=
    ⟨_, _, rfl, rfl, rfl⟩
  have h := (hclaim s' (.step 0 .go (.step 0 _ (.init _ _) trivial h₁) trivial h₂)).2
  rw [hbal] at h
  cases h
