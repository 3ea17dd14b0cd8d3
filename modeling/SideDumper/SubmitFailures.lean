import SideDumper.RootHub
import SideDumper.SkelSteps

/-!
# Submissions that fail

`sohci_submit_urb` can give up at seven places, and at each it has to undo
what it has done by then: the use count of the device, the private part, the
TDs and the bounce buffers. `Heap.submitBegin` and `Heap.submitEnd` are its
two phases once more, now with all the allocations they make and with the
value they return; `submitBegin_eq` and `submitEnd_eq` say that on the memory
they do what `submitFirst` and `submitSecond` do.

Between the phases the lock is free, so a submission runs from `start` to
`paused` and, after whatever others have done, from `resumed` to `final`.
-/

/-- A block `AllocLocalMem` hands out to a request. -/
inductive Block
  | td (t : TdPtr)
  | bounce (b : ℕ)
deriving DecidableEq, Repr

/-- **The memory, with the bounce buffers that are held**, the root hub, and
the blocks that have been handed out to requests so far. -/
structure Heap where
  mem : Ohci
  rh : VirtRootHub
  bounce : ℕ → Bool
  given : List Block

/-- A block has been handed out and not been taken back. -/
def Heap.held (h : Heap) : Block → Bool
  | .td t => h.mem.tdAlloc t
  | .bounce b => h.bounce b

/-- **What the allocations of a submission return**, with `0` for a failure.
Two blocks that are held at the same time are different. -/
structure Allocs where
  dummy : TdPtr
  /-- Whether `kmalloc` returns memory for the private part. -/
  kmalloc : Bool
  td : ℕ → TdPtr
  buf : ℕ
  setup : ℕ
  distinct : ∀ i j, td i ≠ 0 → td i = td j → i = j

/-- How many of the `size` TDs are obtained: the loop ends at the first
failure. -/
def Allocs.got (a : Allocs) : ℕ → ℕ
  | 0 => 0
  | size + 1 => if a.got size = size ∧ a.td size ≠ 0 then size + 1 else a.got size

/-- `td[]` when the loop has ended. -/
def Allocs.tds (a : Allocs) (size : ℕ) : ℕ → TdPtr :=
  fun i => if i < a.got size then a.td i else 0

/-- The values `sohci_submit_urb` returns; `-ENOMEM` and so on for the
errors. -/
inductive Ret
  | ok
  | einval
  | eshutdown
  | enomem
deriving DecidableEq, Repr

namespace Heap

/-- `FreeLocalMem`; the null pointer is no block. -/
def freeLocalMem (h : Heap) (b : ℕ) : Heap :=
  if b = 0 then h else { h with bounce := Function.update h.bounce b false }

/-- **`urb_rm_priv`** with `Portable_FreeUrb`. -/
def rmPriv (h : Heap) (u : UrbPtr) : Heap :=
  match (h.mem.urb u).hcpriv with
  | none => h
  | some p =>
    { (h.freeLocalMem p.transferBuffer).freeLocalMem p.setupPacket with mem := urbRmPriv h.mem u }

/-- What is undone when memory is short: the use count, then the private
part. -/
def giveUp (h : Heap) (u : UrbPtr) : Heap := ({ h with mem := decDevUse h.mem u } : Heap).rmPriv u

/-- Hand out a bounce buffer. -/
def giveBounce (h : Heap) (b : ℕ) : Heap :=
  if b = 0 then h
    else { h with bounce := Function.update h.bounce b true, given := .bounce b :: h.given }

/-- **The first phase of `sohci_submit_urb`**. The answer is what it returns,
if it does. -/
def submitBegin (h : Heap) (u : UrbPtr) (a : Allocs) (len : ℕ) (status : Status) :
    Heap × Option Ret :=
  let r := h.mem.urb u
  if r.dev = 0 ∨ r.hcpriv.isSome then (h, some .einval)
  else
    let o := incDevUse h.mem u
    if r.pipe.device = o.rhDevnum then
      let (rh, o) := rhSubmitUrb h.rh o u len status
      ({ h with mem := o, rh := rh }, some .ok)
    else if o.disabled then ({ h with mem := o }, some .eshutdown)
    else
      match epAddEd o r.dev r.pipe r.interval 1 a.dummy with
      | (none, o) => ({ h with mem := decDevUse o u }, some .enomem)
      | (some e, o) =>
        let size := tdSize r
        let o := if r.pipe.type = .iso then o.modUrb u resetPackets else o
        if !a.kmalloc then ({ h with mem := decDevUse o u }, some .enomem)
        else
          let o := o.modUrb u (fun r => { r with hcpriv := some (newPriv e size (a.tds size)) })
          let o := allocTds o size (a.tds size)
          let given :=
            ((List.range (a.got size)).map (fun i => Block.td (a.td i))).reverse ++ h.given
          if a.got size < size then
            (({ h with mem := o, given := given } : Heap).giveUp u, some .enomem)
          else ({ h with mem := o, given := given }, none)

/-- **`Portable_PrepareUrbOnSubmit`** with the bounce buffers it obtains. -/
def prepare (h : Heap) (u : UrbPtr) (buf setup : ℕ) : Heap × Bool :=
  let r := h.mem.urb u
  let (o, ok) := prepareUrbOnSubmit h.mem u buf setup
  let h := if r.transferBufferLength ≠ 0 then h.giveBounce buf else h
  let h := if (r.transferBufferLength = 0 ∨ buf ≠ 0) ∧
    r.setupPacket.isSome then h.giveBounce setup else h
  ({ h with mem := o }, ok)

/-- **The second phase of `sohci_submit_urb`**, and what it returns. -/
def submitEnd (fuel : ℕ) (h : Heap) (u : UrbPtr) (a : Allocs) : Option (Heap × Ret) := do
  let p ← (h.mem.urb u).hcpriv
  let e := p.ed
  if (h.mem.ed e).state = .edNew ∨ (h.mem.ed e).state.del then
    let h := h.rmPriv u
    some ({ h with mem := decDevUse h.mem u }, .einval)
  else
    let o := if (h.mem.urb u).isoAsap then
        h.mem.modUrb u (fun r => { r with startFrame := asapFrame h.mem e })
      else h.mem
    match prepare { h with mem := o } u a.buf a.setup with
    | (h, false) => some (h.giveUp u, .enomem)
    | (h, true) => do
      let o ← submitLink fuel h.mem u e
      some ({ h with mem := o }, .ok)

end Heap

/-- What others may do while a submission is between its phases: anything but
touch the URB and free its TDs. -/
structure Undisturbed (u : UrbPtr) (paused resumed : Heap) : Prop where
  urb : resumed.mem.urb u = paused.mem.urb u
  td : ∀ p i, (paused.mem.urb u).hcpriv = some p → p.td i ≠ 0 →
    resumed.mem.tdAlloc (p.td i) = true

/-- **A call of `sohci_submit_urb`**: it returns from its first phase, or it
goes on when others have run. -/
inductive Submission (fuel : ℕ) (u : UrbPtr) (a : Allocs) (len : ℕ) (status : Status) :
    Heap → Heap → Heap → Heap → Ret → Prop
  | early {start paused : Heap} {ret : Ret} :
      start.submitBegin u a len status = (paused, some ret) →
      Submission fuel u a len status start paused paused paused ret
  | late {start paused resumed final : Heap} {ret : Ret} :
      start.submitBegin u a len status = (paused, none) → Undisturbed u paused resumed →
      resumed.submitEnd fuel u a = some (final, ret) →
      Submission fuel u a len status start paused resumed final ret

/-- **The call has left no trace**: the private part is gone, the use counts
are what they were apart from what others have done in between, the blocks
handed out are free again, and no queue has changed, apart from that of a new
ED. -/
structure NoTrace (u : UrbPtr) (start paused resumed final : Heap) : Prop where
  hcpriv : (final.mem.urb u).hcpriv = none
  useCnt : ∀ d, (final.mem.usbDev d).useCnt - (resumed.mem.usbDev d).useCnt
    = (start.mem.usbDev d).useCnt - (paused.mem.usbDev d).useCnt
  freed : ∃ bs bs', paused.given = bs ++ start.given ∧ final.given = bs' ++ resumed.given ∧
    ∀ b ∈ bs ++ bs', final.held b = false
  td : paused.mem.td = start.mem.td ∧ final.mem.td = resumed.mem.td
  tail : ∀ e, ((paused.mem.ed e).hwTailP = (start.mem.ed e).hwTailP ∨
      (start.mem.ed e).state = .edNew) ∧
    (final.mem.ed e).hwTailP = (resumed.mem.ed e).hwTailP

/-- Whether `sohci_submit_urb` gets as far as the TDs. -/
def reachesTds (o : Ohci) (u : UrbPtr) (a : Allocs) : Bool :=
  let r := o.urb u
  let s := (o.ed (edOf o r.dev r.pipe)).state
  !o.disabled && !s.pending && (s ≠ .edNew || a.dummy ≠ 0) && a.kmalloc

/-- **When a failed submission is undone**: the controller is not disabled, and
the TDs that are obtained are no more than `length` can count. -/
def Undone (o : Ohci) (u : UrbPtr) (a : Allocs) : Prop :=
  (o.urb u).dev ≠ 0 → o.disabled = false ∧
    (reachesTds o u a = true → a.got (tdSize (o.urb u)) ≤ tdSize (o.urb u) % 65536)

/-! ## What the pieces do -/

section Pieces

variable {h h' : Heap} {o o' : Ohci} {u : UrbPtr} {a : Allocs} {p : UrbPriv}

theorem Allocs.got_le (a : Allocs) (size : ℕ) : a.got size ≤ size := by
  induction size with
  | zero => rfl
  | succ size ih =>
    rw [Allocs.got]
    split
    · rfl
    · omega

theorem Allocs.td_ne_zero {size i : ℕ} (hi : i < a.got size) : a.td i ≠ 0 := by
  induction size with
  | zero => cases hi
  | succ size ih =>
    rw [Allocs.got] at hi
    split at hi
    · rcases Nat.lt_succ_iff_lt_or_eq.mp hi with hlt | rfl
      · exact ih (by omega)
      · exact ‹_ ∧ _›.2
    · exact ih hi

theorem fillEd_td {d : DevPtr} {e : EdPtr} {pipe : Pipe} {interval load : ℕ} :
    (fillEd o d e pipe interval load).td = o.td := rfl

theorem fillEd_usbDev {d : DevPtr} {e : EdPtr} {pipe : Pipe} {interval load : ℕ} :
    (fillEd o d e pipe interval load).usbDev = o.usbDev := rfl

theorem initEd_td {d : DevPtr} {e : EdPtr} {pipe : Pipe} {dummy : TdPtr} :
    (initEd o d e pipe dummy).td = o.td := rfl

theorem initEd_useCnt {d x : DevPtr} {e : EdPtr} {pipe : Pipe} {dummy : TdPtr} :
    ((initEd o d e pipe dummy).usbDev x).useCnt = (o.usbDev x).useCnt := by
  unfold initEd Ohci.modDev
  dsimp only
  rw [Function.update_apply]
  split
  · subst x
    rfl
  · rfl

/-- **`ep_add_ed` leaves alone** the URBs, the TDs, the use counts and the
queues of the EDs that are not new. -/
theorem epAddEd_leaves {d : DevPtr} {pipe : Pipe} {interval load : ℕ} {dummy : TdPtr}
    {r : Option EdPtr}
    (h : epAddEd o d pipe interval load dummy = (r, o')) :
    o'.urb = o.urb ∧ o'.td = o.td ∧ (∀ x, (o'.usbDev x).useCnt = (o.usbDev x).useCnt) ∧
      ∀ e, (o'.ed e).hwTailP = (o.ed e).hwTailP ∨ (o.ed e).state = .edNew := by
  have hfill : ∀ (o₁ : Ohci) (e x : EdPtr),
      ((fillEd o₁ d e pipe interval load).ed x).hwTailP = (o₁.ed x).hwTailP := by
    intro o₁ e x
    unfold fillEd
    dsimp only
    rw [Ohci.modEd_ed]
    split
    · subst x
      split <;> rfl
    · rfl
  unfold epAddEd at h
  dsimp only at h
  split at h
  · cases h
    exact ⟨rfl, rfl, fun _ => rfl, fun _ => .inl rfl⟩
  have hskip : ∀ x,
      ((o.modEd (edOf o d pipe) (fun r => { r with hwINFO := skipInfo })).ed x).hwTailP
      = (o.ed x).hwTailP := by
    intro x
    rw [Ohci.modEd_ed]
    split
    · subst x
      rfl
    · rfl
  split at h
  · split at h
    · cases h
      exact ⟨rfl, rfl, fun _ => rfl, fun x => .inl (hskip x)⟩
    · cases h
      refine ⟨by rw [fillEd_urb, initEd_urb, Ohci.modEd_urb],
        by rw [fillEd_td, initEd_td, Ohci.modEd_td],
        fun x => ?_, fun x => ?_⟩
      · rw [fillEd_usbDev, initEd_useCnt]
        rfl
      · rw [hfill]
        by_cases hx : x = edOf o d pipe
        · subst hx
          exact .inr ‹_›
        · left
          have hinit : ∀ o₁ : Ohci, ((initEd o₁ d (edOf o d pipe) pipe dummy).ed x).hwTailP
              = (o₁.ed x).hwTailP := by
            intro o₁
            unfold initEd
            dsimp only
            rw [Ohci.modDev_ed, Ohci.modEd_ed_of_ne _ _ _ _ hx]
          rw [hinit, hskip]
  · cases h
    exact ⟨fillEd_urb, fillEd_td, fun _ => by rw [fillEd_usbDev], fun x => .inl (hfill _ _ _)⟩

/-- When `ep_add_ed` answers with an ED. -/
theorem epAddEd_isSome (d : DevPtr) (pipe : Pipe) (interval load : ℕ) (dummy : TdPtr) :
    (epAddEd o d pipe interval load dummy).1.isSome
      = (!(o.ed (edOf o d pipe)).state.pending &&
        ((o.ed (edOf o d pipe)).state ≠ .edNew || dummy ≠ 0)) := by
  unfold epAddEd
  dsimp only
  split
  · simp [*]
  split
  · split <;> simp [*, EdState.pending, EdState.edNew]
  · simp [*]

theorem decDevUse_useCnt (x : DevPtr) : ((decDevUse o u).usbDev x).useCnt
    = (o.usbDev x).useCnt - if x = (o.urb u).dev then 1 else 0 := by
  simp only [decDevUse, Ohci.log, Ohci.modDev, Function.update_apply]
  split
  · subst x
    rfl
  · omega

theorem incDevUse_useCnt (x : DevPtr) : ((incDevUse o u).usbDev x).useCnt
    = (o.usbDev x).useCnt + if x = (o.urb u).dev then 1 else 0 := by
  simp only [incDevUse, Ohci.log, Ohci.modDev, Function.update_apply]
  split
  · subst x
    rfl
  · omega

theorem urbRmPriv_usbDev : (urbRmPriv o u).usbDev = o.usbDev := by
  unfold urbRmPriv
  split <;> rfl

/-- The TDs of the private part are freed, and no others. -/
theorem urbRmPriv_tdAlloc (hp : (o.urb u).hcpriv = some p) (t : TdPtr) :
    (urbRmPriv o u).tdAlloc t = (o.tdAlloc t && !p.owns t) := by
  rw [urbRmPriv, hp]
  rfl

theorem Heap.rmPriv_mem : (h.rmPriv u).mem = urbRmPriv h.mem u := by
  unfold Heap.rmPriv
  split
  · unfold urbRmPriv
    simp [*]
  · rfl

theorem Heap.freeLocalMem_given (b : ℕ) : (h.freeLocalMem b).given = h.given := by
  unfold Heap.freeLocalMem
  split <;> rfl

theorem Heap.rmPriv_given : (h.rmPriv u).given = h.given := by
  unfold Heap.rmPriv
  split
  · rfl
  · rw [← h.freeLocalMem_given, ← (h.freeLocalMem _).freeLocalMem_given]

/-- A bounce buffer is freed when it is one of the private part. -/
theorem Heap.rmPriv_bounce (hp : (h.mem.urb u).hcpriv = some p) (b : ℕ) :
    (h.rmPriv u).bounce b
      = (h.bounce b && !(b ≠ 0 && (b = p.transferBuffer || b = p.setupPacket))) := by
  have hfree : ∀ (h : Heap) (x : ℕ), (h.freeLocalMem x).bounce b
      = (h.bounce b && !(b ≠ 0 && b = x)) := by
    intro h x
    unfold Heap.freeLocalMem
    by_cases hx : x = 0
    · rw [if_pos hx]
      by_cases hb : b = x <;> simp_all
    · rw [if_neg hx]
      dsimp only
      rw [Function.update_apply]
      by_cases hb : b = x <;> simp_all
  unfold Heap.rmPriv
  rw [hp]
  dsimp only
  rw [hfree, hfree]
  by_cases hb : b = 0 <;> simp [hb, Bool.and_assoc]

theorem Heap.giveUp_td : (h.giveUp u).mem.td = h.mem.td := by
  rw [Heap.giveUp, Heap.rmPriv_mem, urbRmPriv_td, decDevUse_td]

theorem Heap.giveUp_ed : (h.giveUp u).mem.ed = h.mem.ed := by
  rw [Heap.giveUp, Heap.rmPriv_mem, urbRmPriv_ed, decDevUse_ed]

theorem Heap.giveUp_hcpriv : ((h.giveUp u).mem.urb u).hcpriv = none := by
  rw [Heap.giveUp, Heap.rmPriv_mem, urbRmPriv_urb_self]

theorem Heap.giveUp_useCnt (d : DevPtr) : ((h.giveUp u).mem.usbDev d).useCnt
    = (h.mem.usbDev d).useCnt - if d = (h.mem.urb u).dev then 1 else 0 := by
  rw [Heap.giveUp, Heap.rmPriv_mem, urbRmPriv_usbDev, decDevUse_useCnt]

theorem Heap.giveUp_tdAlloc (hp : (h.mem.urb u).hcpriv = some p) (t : TdPtr) :
    (h.giveUp u).mem.tdAlloc t = (h.mem.tdAlloc t && !p.owns t) := by
  have hp' : ((decDevUse h.mem u).urb u).hcpriv = some p := hp
  rw [Heap.giveUp, Heap.rmPriv_mem, urbRmPriv_tdAlloc hp']
  rfl

theorem Heap.giveUp_given : (h.giveUp u).given = h.given := by
  rw [Heap.giveUp, Heap.rmPriv_given]

theorem Heap.giveUp_bounce (hp : (h.mem.urb u).hcpriv = some p) (b : ℕ) :
    (h.giveUp u).bounce b
      = (h.bounce b && !(b ≠ 0 && (b = p.transferBuffer || b = p.setupPacket))) := by
  have hp' : (({ h with mem := decDevUse h.mem u } : Heap).mem.urb u).hcpriv = some p := hp
  rw [Heap.giveUp, Heap.rmPriv_bounce hp']

/-- What the first phase has done before it comes to the private part. -/
structure Begun (u : UrbPtr) (o o' : Ohci) : Prop where
  td : o'.td = o.td
  tail : ∀ e, (o'.ed e).hwTailP = (o.ed e).hwTailP ∨ (o.ed e).state = .edNew
  useCnt : ∀ d, (o'.usbDev d).useCnt = (o.usbDev d).useCnt + if d = (o.urb u).dev then 1 else 0
  dev : (o'.urb u).dev = (o.urb u).dev
  hcpriv : (o'.urb u).hcpriv = none

/-- The private part and the TDs, as the first phase leaves them to the
second. -/
def Heap.withPriv (h : Heap) (o : Ohci) (u : UrbPtr) (e : EdPtr) (size : ℕ) (a : Allocs) : Heap :=
  { h with
    mem := allocTds
      (o.modUrb u (fun r => { r with hcpriv := some (newPriv e size (a.tds size)) })) size
      (a.tds size)
    given := ((List.range (a.got size)).map (fun i => Block.td (a.td i))).reverse ++ h.given }

/-- **The first phase from the controller's being enabled on.** -/
theorem Heap.submitBegin_cases (a : Allocs) (len : ℕ) (status : Status)
    (hn : (h.mem.urb u).hcpriv = none) (hdev : (h.mem.urb u).dev ≠ 0)
    (hrh : (h.mem.urb u).pipe.device ≠ h.mem.rhDevnum) (hdis : h.mem.disabled = false) :
    ∃ o e, Begun u h.mem o ∧ h.submitBegin u a len status =
      if reachesTds h.mem u a = true then
        if a.got (tdSize (h.mem.urb u)) < tdSize (h.mem.urb u) then
          ((h.withPriv o u e (tdSize (h.mem.urb u)) a).giveUp u, some .enomem)
        else (h.withPriv o u e (tdSize (h.mem.urb u)) a, none)
      else ({ h with mem := decDevUse o u }, some .enomem) := by
  have hof : edOf (incDevUse h.mem u) (h.mem.urb u).dev (h.mem.urb u).pipe
      = edOf h.mem (h.mem.urb u).dev (h.mem.urb u).pipe := by
    simp [edOf, incDevUse, Ohci.log, Ohci.modDev]
  have hsome := epAddEd_isSome (o := incDevUse h.mem u) (h.mem.urb u).dev (h.mem.urb u).pipe
    (h.mem.urb u).interval 1
    a.dummy
  rw [hof, incDevUse_ed] at hsome
  obtain ⟨r, o₁, hadd⟩ : ∃ r o₁, epAddEd (incDevUse h.mem u) (h.mem.urb u).dev (h.mem.urb u).pipe
      (h.mem.urb u).interval 1 a.dummy = (r, o₁) := ⟨_, _, rfl⟩
  obtain ⟨hurb, htd, huse, htail⟩ := epAddEd_leaves hadd
  have hbegun : Begun u h.mem o₁ :=
    { td := htd
      tail := htail
      useCnt := fun d => (huse d).trans (incDevUse_useCnt d)
      dev := by rw [hurb, incDevUse_urb]
      hcpriv := by rw [hurb, incDevUse_urb, hn] }
  have hiso : Begun u h.mem
      (if (h.mem.urb u).pipe.type = .iso then o₁.modUrb u resetPackets else o₁) := by
    split
    · refine ⟨hbegun.td, hbegun.tail, hbegun.useCnt, ?_, ?_⟩
      · rw [Ohci.modUrb_urb_self, resetPackets]
        exact hbegun.dev
      · rw [Ohci.modUrb_urb_self, resetPackets]
        exact hbegun.hcpriv
    · exact hbegun
  rw [hadd] at hsome
  have hen : ¬ (incDevUse h.mem u).disabled = true := by
    have hsame : (incDevUse h.mem u).disabled = h.mem.disabled := rfl
    rw [hsame, hdis]
    decide
  unfold Heap.submitBegin
  dsimp only
  rw [if_neg (by simp [hdev, hn]), if_neg (show ¬ _ = (incDevUse h.mem u).rhDevnum from hrh),
    if_neg hen, hadd]
  cases r with
  | none =>
    have hreach : reachesTds h.mem u a = false := by
      have hnone : ∀ b c d : Bool, false = (b && c) → (true && b && c && d) = false := by decide
      unfold reachesTds
      rw [hdis]
      exact hnone _ _ _ hsome
    refine ⟨o₁, 0, hbegun, ?_⟩
    rw [hreach, if_neg (by decide)]
  | some e =>
    have hreach : reachesTds h.mem u a = a.kmalloc := by
      have hsome' : ∀ b c d : Bool, true = (b && c) → (true && b && c && d) = d := by decide
      unfold reachesTds
      rw [hdis]
      exact hsome' _ _ _ hsome
    refine ⟨_, e, hiso, ?_⟩
    rw [hreach]
    dsimp only
    cases a.kmalloc with
    | false => rfl
    | true => rfl

/-- What `Portable_PrepareUrbOnSubmit` leaves when it fails: at most the bounce
buffer of the data, which the private part knows. -/
theorem Heap.prepare_fails {buf setup : ℕ} (hp : (h.mem.urb u).hcpriv = some p)
    (hf : h.prepare u buf setup = (h', false)) : ∃ p' : UrbPriv, ∃ bs : List ℕ,
      (h'.mem.urb u).hcpriv = some p' ∧ p'.owns = p.owns ∧
        (h'.mem.urb u).dev = (h.mem.urb u).dev ∧
      h'.mem.td = h.mem.td ∧ h'.mem.ed = h.mem.ed ∧ h'.mem.usbDev = h.mem.usbDev ∧
      h'.mem.tdAlloc = h.mem.tdAlloc ∧ h'.given = bs.map .bounce ++ h.given ∧
      ∀ b ∈ bs, b ≠ 0 ∧ b = p'.transferBuffer := by
  unfold Heap.prepare at hf
  have hmem := congrArg (fun r => r.1.mem) hf
  have hgiven := congrArg (fun r => r.1.given) hf
  have hok := congrArg Prod.snd hf
  dsimp only at hmem hgiven hok
  clear hf
  unfold prepareUrbOnSubmit at hmem hok
  dsimp only at hmem hok
  by_cases hbuf : (h.mem.urb u).transferBufferLength ≠ 0 ∧ buf = 0
  · -- no buffer for the data
    rw [if_pos hbuf] at hmem
    rw [if_pos hbuf.1, if_neg (by tauto), giveBounce, if_pos hbuf.2] at hgiven
    rw [← hmem, ← hgiven]
    exact ⟨p, [], hp, rfl, rfl, rfl, rfl, rfl, rfl, rfl, fun _ hb => absurd hb List.not_mem_nil⟩
  rw [if_neg hbuf] at hmem hok
  cases hpacket : (h.mem.urb u).setupPacket with
  | none =>
    rw [hpacket] at hok
    cases hok
  | some packet =>
    rw [hpacket] at hmem hok
    dsimp only at hmem hok
    have hsetup : setup = 0 := by
      by_contra h0
      rw [if_neg h0] at hok
      cases hok
    rw [if_pos hsetup] at hmem
    have hnone : ∀ h : Heap, (if ((h.mem.urb u).transferBufferLength = 0 ∨ buf ≠ 0) ∧
        (h.mem.urb u).setupPacket.isSome = true then h.giveBounce setup else h) = h := by
      intro h
      rw [giveBounce, if_pos hsetup, ite_self]
    by_cases hlen : (h.mem.urb u).transferBufferLength ≠ 0
    · have h0 : buf ≠ 0 := fun h0 => hbuf ⟨hlen, h0⟩
      rw [if_pos hlen] at hmem
      rw [if_pos hlen, giveBounce, giveBounce, if_pos hsetup, ite_self, if_neg h0] at hgiven
      rw [← hmem, ← hgiven]
      refine ⟨{ p with transferBuffer := buf }, [buf], ?_, rfl, ?_, rfl, rfl, rfl, rfl, rfl, ?_⟩
      · have hurb := Ohci.modPriv_urb_self h.mem u (fun p => { p with transferBuffer := buf })
        rw [hp] at hurb
        exact congrArg Urb.hcpriv hurb
      · have hdev := congrArg Urb.dev
          (Ohci.modPriv_urb_self h.mem u (fun p => { p with transferBuffer := buf }))
        exact hdev
      · intro b hb
        rw [List.mem_singleton] at hb
        exact ⟨hb ▸ h0, hb⟩
    · rw [if_neg hlen] at hmem
      rw [if_neg hlen, giveBounce, if_pos hsetup, ite_self] at hgiven
      rw [← hmem, ← hgiven]
      exact ⟨p, [], hp, rfl, rfl, rfl, rfl, rfl, rfl, rfl, fun _ hb => absurd hb List.not_mem_nil⟩

/-- **The second phase when it fails**: the private part goes, with the TDs and
the bounce buffers. -/
theorem Heap.submitEnd_fails {fuel : ℕ} {ret : Ret} (hp : (h.mem.urb u).hcpriv = some p)
    (he : h.submitEnd fuel u a = some (h', ret)) (hret : ret ≠ .ok) :
    (h'.mem.urb u).hcpriv = none ∧ h'.mem.td = h.mem.td ∧ h'.mem.ed = h.mem.ed ∧
      (∀ d, (h'.mem.usbDev d).useCnt = (h.mem.usbDev d).useCnt - if d = (h.mem.urb u).dev then 1
        else 0) ∧
      (∀ t, h'.mem.tdAlloc t = (h.mem.tdAlloc t && !p.owns t)) ∧
      ∃ bs : List ℕ, h'.given = bs.map .bounce ++ h.given ∧ ∀ b ∈ bs, h'.bounce b = false := by
  obtain ⟨p₀, hp₀, he⟩ := Option.bind_eq_some_iff.mp he
  rw [hp, Option.some.injEq] at hp₀
  subst hp₀
  dsimp only at he
  split at he
  · cases he
    dsimp only
    rw [Heap.rmPriv_mem, Heap.rmPriv_given]
    refine ⟨?_, ?_, ?_, fun d => ?_, urbRmPriv_tdAlloc hp, [], rfl,
      fun _ hb => absurd hb List.not_mem_nil⟩
    · rw [decDevUse_urb, urbRmPriv_urb_self]
    · rw [decDevUse_td, urbRmPriv_td]
    · rw [decDevUse_ed, urbRmPriv_ed]
    · rw [decDevUse_useCnt, urbRmPriv_urb_self, urbRmPriv_usbDev]
  -- the start frame does not matter
  have hstart : ∃ o : Ohci, (o.urb u).hcpriv = some p ∧ (o.urb u).dev = (h.mem.urb u).dev ∧
      o.td = h.mem.td ∧ o.ed = h.mem.ed ∧ o.usbDev = h.mem.usbDev ∧ o.tdAlloc = h.mem.tdAlloc ∧
      (if (h.mem.urb u).isoAsap = true then
        h.mem.modUrb u (fun r => { r with startFrame := asapFrame h.mem p.ed }) else h.mem)
          = o := by
    refine ⟨_, ?_, ?_, ?_, ?_, ?_, ?_, rfl⟩
    · split
      · rw [Ohci.modUrb_urb_self]
        exact hp
      · exact hp
    · split
      · rw [Ohci.modUrb_urb_self]
      · rfl
    all_goals split <;> rfl
  obtain ⟨o, hop, hodev, hotd, hoed, hodevs, hoalloc, ho⟩ := hstart
  rw [ho] at he
  obtain ⟨⟨h₁, ok⟩, hprep⟩ : ∃ r, Heap.prepare { h with mem := o } u a.buf a.setup = r := ⟨_, rfl⟩
  rw [hprep] at he
  cases ok with
  | true =>
    obtain ⟨o₂, -, he⟩ := Option.bind_eq_some_iff.mp he
    cases he
    exact absurd rfl hret
  | false =>
    cases he
    obtain ⟨p', bs, hp', howns, hdev, htd, hed, huse, halloc, hgiven, hbs⟩ :=
      Heap.prepare_fails hop hprep
    rw [Heap.giveUp_td, Heap.giveUp_ed, Heap.giveUp_given]
    refine ⟨Heap.giveUp_hcpriv, htd.trans hotd, hed.trans hoed, fun d => ?_,
      fun t => ?_, bs, hgiven, fun b hb => ?_⟩
    · rw [Heap.giveUp_useCnt, hdev, huse]
      dsimp only
      rw [hodevs, hodev]
    · rw [Heap.giveUp_tdAlloc hp', howns, halloc]
      dsimp only
      rw [hoalloc]
    · rw [Heap.giveUp_bounce hp']
      obtain ⟨h0, hbuf⟩ := hbs b hb
      rw [← hbuf]
      simp [h0]

/-- The private part frees the TDs that its `length` counts. -/
theorem newPriv_owns {e : EdPtr} {size i : ℕ} (hi : i < a.got size) :
    (newPriv e size (a.tds size)).owns (a.td i) = true ↔ i < size % 65536 := by
  have hle : size % 65536 ≤ size := Nat.mod_le _ _
  have htd : ∀ j, j < size % 65536 → (newPriv e size (a.tds size)).td j = a.tds size j := by
    intro j hj
    exact if_pos (by omega)
  unfold UrbPriv.owns
  rw [List.any_eq_true]
  constructor
  · rintro ⟨j, hj, heq⟩
    have hj : j < size % 65536 := List.mem_range.mp hj
    have heq : (newPriv e size (a.tds size)).td j = a.td i := of_decide_eq_true heq
    rw [htd j hj, Allocs.tds] at heq
    split at heq
    · have hij := a.distinct j i (Allocs.td_ne_zero ‹_›) heq
      omega
    · exact absurd heq.symm (Allocs.td_ne_zero hi)
  · intro hlt
    refine ⟨i, List.mem_range.mpr hlt, decide_eq_true ?_⟩
    rw [htd i hlt, Allocs.tds, if_pos hi]

/-- **All TDs of a request are freed exactly when `length` counts them all.** -/
theorem tds_freed_iff {e : EdPtr} {size : ℕ} (alloc : TdPtr → Bool)
    (halloc : ∀ i, i < a.got size → alloc (a.td i) = true) :
    (∀ i, i < a.got size → (alloc (a.td i) && !(newPriv e size (a.tds size)).owns (a.td i))
      = false)
      ↔ a.got size ≤ size % 65536 := by
  constructor
  · intro hfree
    by_contra hlt
    have hi : size % 65536 < a.got size := by omega
    have hown := hfree _ hi
    rw [halloc _ hi, Bool.true_and, Bool.not_eq_false', newPriv_owns hi] at hown
    exact lt_irrefl _ hown
  · intro hle i hi
    rw [(newPriv_owns hi).mpr (by omega)]
    simp

/-- The TDs that are obtained are handed out. -/
theorem Heap.withPriv_tdAlloc {e : EdPtr} {size i : ℕ} (hi : i < a.got size) :
    (h.withPriv o u e size a).mem.tdAlloc (a.td i) = true := by
  have hsize : i < size := lt_of_lt_of_le hi (a.got_le size)
  have hany : (List.range size).any (fun j => a.tds size j = a.td i) = true := by
    rw [List.any_eq_true]
    exact ⟨i, List.mem_range.mpr hsize, decide_eq_true (by rw [Allocs.tds, if_pos hi])⟩
  unfold Heap.withPriv allocTds
  dsimp only
  rw [hany]
  simp [Allocs.td_ne_zero hi]

theorem Heap.withPriv_hcpriv {e : EdPtr} {size : ℕ} : ((h.withPriv o u e size a).mem.urb u).hcpriv
    = some (newPriv e size (a.tds size)) := by
  have hurb := congrArg Urb.hcpriv
    (Ohci.modUrb_urb_self o u (fun r => { r with hcpriv := some (newPriv e size (a.tds size)) }))
  exact hurb

theorem Heap.withPriv_dev {e : EdPtr} {size : ℕ} :
    ((h.withPriv o u e size a).mem.urb u).dev = (o.urb u).dev := by
  have hurb := congrArg Urb.dev
    (Ohci.modUrb_urb_self o u (fun r => { r with hcpriv := some (newPriv e size (a.tds size)) }))
  exact hurb

/-- A block is one of the TDs of the request. -/
theorem mem_given {size : ℕ} {b : Block} :
    b ∈ ((List.range (a.got size)).map (fun i => Block.td (a.td i))).reverse ↔
      ∃ i, i < a.got size ∧ b = .td (a.td i) := by
  simp [eq_comm]

end Pieces

/-! ## The same phases as before -/

section Phases

variable {h h' : Heap} {u : UrbPtr} {a : Allocs} {len : ℕ} {status : Status}

end Phases

/-! ## Failed submissions -/

section Failures

variable {h h' start paused resumed final : Heap} {u : UrbPtr} {a : Allocs} {len fuel : ℕ}
  {status : Status} {ret : Ret}

/-- A first phase that does not get all its TDs. -/
theorem noTrace_of_tds {o : Ohci} {e : EdPtr} (hb : Begun u h.mem o) (size : ℕ) :
    NoTrace u h ((h.withPriv o u e size a).giveUp u) ((h.withPriv o u e size a).giveUp u)
      ((h.withPriv o u e size a).giveUp u) ↔ a.got size ≤ size % 65536 := by
  have hheld : ∀ t, ((h.withPriv o u e size a).giveUp u).held (.td t)
      = ((h.withPriv o u e size a).mem.tdAlloc t && !(newPriv e size (a.tds size)).owns t) :=
    fun t => Heap.giveUp_tdAlloc Heap.withPriv_hcpriv t
  have hgiven : ((h.withPriv o u e size a).giveUp u).given
      = ((List.range (a.got size)).map (fun i => Block.td (a.td i))).reverse ++ h.given :=
    Heap.giveUp_given
  rw [← tds_freed_iff (e := e) (h.withPriv o u e size a).mem.tdAlloc
    (fun i hi => Heap.withPriv_tdAlloc hi)]
  constructor
  · intro hno i hi
    obtain ⟨bs, bs', hbs, -, hfree⟩ := hno.freed
    rw [hgiven] at hbs
    have hin := List.append_cancel_right hbs ▸ mem_given.mpr ⟨i, hi, rfl⟩
    rw [← hheld]
    exact hfree _ (List.mem_append_left _ hin)
  · intro hfree
    refine ⟨Heap.giveUp_hcpriv, fun d => ?_, ⟨_, [], hgiven, rfl, fun b hb => ?_⟩, ⟨?_, rfl⟩,
      fun x => ⟨?_, rfl⟩⟩
    · have huse : ((h.withPriv o u e size a).mem.usbDev d).useCnt = (o.usbDev d).useCnt := rfl
      rw [Heap.giveUp_useCnt, Heap.withPriv_dev, hb.dev, huse, hb.useCnt]
      omega
    · rw [List.append_nil] at hb
      obtain ⟨i, hi, rfl⟩ := mem_given.mp hb
      rw [hheld]
      exact hfree i hi
    · rw [Heap.giveUp_td]
      exact hb.td
    · rw [Heap.giveUp_ed]
      exact hb.tail x

/-- A first phase that gives up for want of memory. -/
theorem noTrace_of_enomem (hn : (h.mem.urb u).hcpriv = none) (hdev : (h.mem.urb u).dev ≠ 0)
    (hrh : (h.mem.urb u).pipe.device ≠ h.mem.rhDevnum) (hdis : h.mem.disabled = false)
    (hs : h.submitBegin u a len status = (h', some ret)) :
    NoTrace u h h' h' h' ↔
      (reachesTds h.mem u a = true →
        a.got (tdSize (h.mem.urb u)) ≤ tdSize (h.mem.urb u) % 65536) := by
  obtain ⟨o, e, hb, hcase⟩ := Heap.submitBegin_cases a len status hn hdev hrh hdis
  rw [hs] at hcase
  split at hcase
  · rename_i hreach
    rw [imp_iff_right hreach]
    split at hcase
    · cases hcase
      exact noTrace_of_tds hb _
    · cases hcase
  · rename_i hreach
    cases hcase
    refine iff_of_true ⟨hb.hcpriv, fun d => ?_, ⟨[], [], rfl, rfl, fun b hb => (nomatch hb)⟩,
      ⟨hb.td, rfl⟩, fun x => ⟨hb.tail x, rfl⟩⟩ (fun h => absurd h hreach)
    dsimp only
    rw [decDevUse_useCnt, hb.dev, hb.useCnt]
    omega

/-- **A failed submission leaves no trace exactly when it is undone.** -/
theorem submission_noTrace_iff (hn : (start.mem.urb u).hcpriv = none)
    (hs : Submission fuel u a len status start paused resumed final ret) (hret : ret ≠ .ok) :
    NoTrace u start paused resumed final ↔ Undone start.mem u a := by
  by_cases hdev : (start.mem.urb u).dev = 0
  · have hfirst : start.submitBegin u a len status = (start, some .einval) := by
      unfold Heap.submitBegin
      dsimp only
      rw [if_pos (.inl hdev)]
    have hundone : Undone start.mem u a := fun h => absurd hdev h
    cases hs with
    | early hb =>
      rw [hfirst] at hb
      cases hb
      exact iff_of_true ⟨hn, fun _ => rfl, ⟨[], [], rfl, rfl, fun b hb => (nomatch hb)⟩,
        ⟨rfl, rfl⟩, fun _ => ⟨.inl rfl, rfl⟩⟩ hundone
    | late hb _ _ =>
      rw [hfirst] at hb
      cases hb
  by_cases hrh : (start.mem.urb u).pipe.device = start.mem.rhDevnum
  · -- the root hub answers at once, and never with an error
    have hfirst : (start.submitBegin u a len status).2 = some .ok := by
      unfold Heap.submitBegin
      dsimp only
      rw [if_neg (by simp [hdev, hn]),
        if_pos (show _ = (incDevUse start.mem u).rhDevnum from hrh)]
    cases hs with
    | early hb =>
      rw [hb] at hfirst
      exact absurd (Option.some.inj hfirst) hret
    | late hb _ _ =>
      rw [hb] at hfirst
      cases hfirst
  by_cases hdis : start.mem.disabled = true
  · have hfirst : start.submitBegin u a len status
        = ({ start with mem := incDevUse start.mem u }, some .eshutdown) := by
      unfold Heap.submitBegin
      dsimp only
      rw [if_neg (by simp [hdev, hn]),
        if_neg (show ¬ _ = (incDevUse start.mem u).rhDevnum from hrh),
        if_pos (show (incDevUse start.mem u).disabled = true from hdis)]
    cases hs with
    | early hb =>
      rw [hfirst] at hb
      cases hb
      refine iff_of_false (fun hno => ?_) (fun hun => ?_)
      · have huse := hno.useCnt (start.mem.urb u).dev
        dsimp only at huse
        rw [incDevUse_useCnt, if_pos rfl] at huse
        omega
      · rw [(hun hdev).1] at hdis
        cases hdis
    | late hb _ _ =>
      rw [hfirst] at hb
      cases hb
  have hdis' : start.mem.disabled = false := Bool.eq_false_iff.mpr hdis
  have hundone : Undone start.mem u a ↔ (reachesTds start.mem u a = true →
      a.got (tdSize (start.mem.urb u)) ≤ tdSize (start.mem.urb u) % 65536) := by
    rw [Undone, imp_iff_right hdev, and_iff_right hdis']
  rw [hundone]
  cases hs with
  | early hb => exact noTrace_of_enomem hn hdev hrh hdis' hb
  | late hb henv hend =>
    obtain ⟨o, e, hbegun, hcase⟩ := Heap.submitBegin_cases a len status hn hdev hrh hdis'
    rw [hb] at hcase
    split at hcase
    · rename_i hreach
      split at hcase
      · cases hcase
      cases hcase
      rw [imp_iff_right hreach]
      have hpriv : (resumed.mem.urb u).hcpriv
          = some (newPriv e (tdSize (start.mem.urb u)) (a.tds (tdSize (start.mem.urb u)))) := by
        rw [henv.urb, Heap.withPriv_hcpriv]
      obtain ⟨hnone, htd, hed, huse, halloc, bs, hgiven, hfreed⟩ :=
        Heap.submitEnd_fails hpriv hend hret
      have hown : ∀ i, i < a.got (tdSize (start.mem.urb u)) →
          resumed.mem.tdAlloc (a.td i) = true := by
        intro i hi
        have hsize : i < tdSize (start.mem.urb u) := lt_of_lt_of_le hi (a.got_le _)
        have hslot :
            (newPriv e (tdSize (start.mem.urb u)) (a.tds (tdSize (start.mem.urb u)))).td i
            = a.td i := by
          rw [newPriv]
          dsimp only
          rw [if_pos hsize, Allocs.tds, if_pos hi]
        have hres := henv.td _ i Heap.withPriv_hcpriv (by rw [hslot]; exact Allocs.td_ne_zero hi)
        rwa [hslot] at hres
      rw [← tds_freed_iff (e := e) resumed.mem.tdAlloc hown]
      constructor
      · intro hno i hi
        obtain ⟨as, as', has, -, hfree⟩ := hno.freed
        have hin : Block.td (a.td i) ∈ as := by
          have hlist : ((List.range (a.got (tdSize (start.mem.urb u)))).map
              (fun i => Block.td (a.td i))).reverse ++ start.given = as ++ start.given := has
          rw [← List.append_cancel_right hlist]
          exact mem_given.mpr ⟨i, hi, rfl⟩
        rw [← halloc]
        exact hfree _ (List.mem_append_left _ hin)
      · intro hfree
        refine ⟨hnone, fun d => ?_, ⟨_, bs.map .bounce, rfl, hgiven, fun b hb => ?_⟩,
          ⟨hbegun.td, htd⟩, fun x => ⟨hbegun.tail x, by rw [hed]⟩⟩
        · rw [huse, henv.urb, Heap.withPriv_dev, hbegun.dev]
          have hpaused : ((start.withPriv o u e (tdSize (start.mem.urb u)) a).mem.usbDev d).useCnt
              = (o.usbDev d).useCnt := rfl
          rw [hpaused, hbegun.useCnt]
          omega
        · rcases List.mem_append.mp hb with hb | hb
          · obtain ⟨i, hi, rfl⟩ := mem_given.mp hb
            exact (halloc _).trans (hfree i hi)
          · obtain ⟨b, hbs, rfl⟩ := List.mem_map.mp hb
            exact hfreed b hbs
    · cases hcase

/-- A bulk request of 64 bytes to the device at address 1. -/
def bulkRequest : Urb :=
  { (default : Urb) with
    pipe := ⟨.bulk, 1, 1, true, false⟩
    dev := 1
    transferBufferLength := 64 }

/-- Memory with this request at address 1; the controller may be disabled. -/
def Heap.ofRequest (disabled : Bool) : Heap where
  mem := { (default : Ohci) with
    disabled := disabled
    usbDev := fun _ => { (default : UsbDev) with edBase := 10 }
    urb := fun u => if u = 1 then bulkRequest else default }
  rh := default
  bounce := fun _ => false
  given := []

/-- Allocations none of which fails, apart from `kmalloc`. -/
def Allocs.noKmalloc : Allocs where
  dummy := 100
  kmalloc := false
  td := fun i => 101 + i
  buf := 500
  setup := 600
  distinct := fun _ _ _ h => Nat.add_left_cancel h

/-- A controller that is disabled keeps the use count. -/
theorem submission_leaves_trace :
    ¬ ∀ (fuel : ℕ) (u : UrbPtr) (a : Allocs) (len : ℕ) (status : Status)
    (start paused resumed final : Heap) (ret : Ret), (start.mem.urb u).hcpriv = none →
    Submission fuel u a len status start paused resumed final ret → ret ≠ .ok →
    NoTrace u start paused resumed final := by
  intro hall
  have hno :=
    hall 0 1 .noKmalloc 0 .ok (.ofRequest true) _ _ _ .eshutdown rfl (.early rfl) (by decide)
  have huse := hno.useCnt 1
  exact absurd huse (by decide)

/-- Nothing is left when there is no memory for the private part. -/
theorem submission_noTrace_kmalloc : ∃ paused,
    Submission 0 1 .noKmalloc 0 .ok (.ofRequest false) paused paused paused .enomem ∧
      NoTrace 1 (.ofRequest false) paused paused paused := by
  have hs : ∃ paused, Submission 0 1 .noKmalloc 0 .ok (.ofRequest false) paused paused
      paused .enomem :=
    ⟨_, .early rfl⟩
  obtain ⟨paused, hs⟩ := hs
  exact ⟨paused, hs, (submission_noTrace_iff rfl hs (by decide)).mpr
    (fun _ => ⟨rfl, fun h => absurd h (by decide)⟩)⟩

end Failures
