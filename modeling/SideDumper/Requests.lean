import SideDumper.EpLink
import SideDumper.Transfer

/-!
# Requests

The interface functions of the driver: submitting and unlinking a URB and
freeing a device. `sohci_submit_urb` takes the lock twice, once in
`ep_add_ed` and once for linking the ED and filling the TDs; in between it
allocates, and anything may happen. It is therefore two functions,
`submitFirst` and `submitSecond`. A synchronous `sohci_unlink_urb` waits, so
it is `unlinkUrb` up to the wait and `unlinkFinish` after it.

What an allocation returns is an argument, with `0` for a failure. Requests
to the virtual root hub take another path and are not modelled.
-/

/-! ## Private parts -/

/-- `usb_dec_dev_use (urb->dev)`. -/
def decDevUse (o : Ohci) (u : UrbPtr) : Ohci :=
  (o.modDev (o.urb u).dev (fun d => { d with useCnt := d.useCnt - 1 })).log (.decDevUse u)

/-- `usb_inc_dev_use (urb->dev)`. -/
def incDevUse (o : Ohci) (u : UrbPtr) : Ohci :=
  (o.modDev (o.urb u).dev (fun d => { d with useCnt := d.useCnt + 1 })).log (.incDevUse u)

/-- `urb->complete (urb)`. -/
def callComplete (o : Ohci) (u : UrbPtr) : Ohci :=
  o.log (.complete u (o.urb u).status (o.urb u).actualLength)

/-- Whether a TD is one of those of a private part. -/
def UrbPriv.owns (p : UrbPriv) (t : TdPtr) :
    Bool := (List.range p.length).any (fun i => p.td i = t)

/-- **`urb_rm_priv`**: free the TDs and the private part. -/
def urbRmPriv (o : Ohci) (u : UrbPtr) : Ohci :=
  match (o.urb u).hcpriv with
  | none => o
  | some p =>
    ({ o with tdAlloc := fun t => o.tdAlloc t && !p.owns t } : Ohci).modUrb u
      (fun r => { r with hcpriv := none })

section Simp

variable (o : Ohci) (u z : UrbPtr)

/-- What `urb_rm_priv` does to the URBs. -/
theorem urbRmPriv_urb :
    (urbRmPriv o u).urb = Function.update o.urb u { o.urb u with hcpriv := none } := by
  rw [urbRmPriv]
  cases hp : (o.urb u).hcpriv with
  | some p => rfl
  | none =>
    have hsame : ({ o.urb u with hcpriv := none } : Urb) = o.urb u := by rw [← hp]
    rw [hsame, Function.update_eq_self]

@[simp] theorem urbRmPriv_urb_self :
    (urbRmPriv o u).urb u = { o.urb u with hcpriv := none } := by
  rw [urbRmPriv_urb, Function.update_self]

@[simp] theorem urbRmPriv_ed : (urbRmPriv o u).ed = o.ed := by
  unfold urbRmPriv
  split <;> rfl

@[simp] theorem urbRmPriv_td : (urbRmPriv o u).td = o.td := by
  unfold urbRmPriv
  split <;> rfl

@[simp] theorem urbRmPriv_iop : (urbRmPriv o u).iop = o.iop := by
  unfold urbRmPriv
  split <;> rfl

@[simp] theorem decDevUse_ed : (decDevUse o u).ed = o.ed := rfl
@[simp] theorem decDevUse_td : (decDevUse o u).td = o.td := rfl
@[simp] theorem decDevUse_urb : (decDevUse o u).urb = o.urb := rfl
@[simp] theorem decDevUse_iop : (decDevUse o u).iop = o.iop := rfl
@[simp] theorem incDevUse_ed : (incDevUse o u).ed = o.ed := rfl
@[simp] theorem incDevUse_td : (incDevUse o u).td = o.td := rfl
@[simp] theorem incDevUse_urb : (incDevUse o u).urb = o.urb := rfl
@[simp] theorem callComplete_ed : (callComplete o u).ed = o.ed := rfl
@[simp] theorem callComplete_td : (callComplete o u).td = o.td := rfl
@[simp] theorem callComplete_urb : (callComplete o u).urb = o.urb := rfl
@[simp] theorem callComplete_iop : (callComplete o u).iop = o.iop := rfl

end Simp

/-! ## Endpoints -/

/-- The ED of a pipe. -/
def edOf (o : Ohci) (d : DevPtr) (pipe : Pipe) : EdPtr :=
  (o.usbDev d).edBase + (2 * pipe.endpoint + if pipe.type ≠ .ctrl ∧ pipe.out then 1 else 0)

/-- The `hwINFO` word `ep_add_ed` makes for a pipe. -/
def edInfo (o : Ohci) (d : DevPtr) (pipe : Pipe) : EdInfo where
  fa := pipe.device
  en := pipe.endpoint
  d := if pipe.type = .ctrl then 0 else if pipe.out then 1 else 2
  s := pipe.slow
  k := false
  f := pipe.type = .iso
  mps := (o.usbDev d).maxpacket pipe.endpoint pipe.out

/-- A `hwINFO` word with `OHCI_ED_SKIP` alone. -/
def skipInfo : EdInfo := ⟨0, 0, 0, false, true, false, 0⟩

/-- The part of `ep_add_ed` for an ED in the state `ED_NEW`: it gets a dummy
TD. -/
def initEd (o : Ohci) (d : DevPtr) (e : EdPtr) (pipe : Pipe) (dummy : TdPtr) : Ohci :=
  let o := { o with tdAlloc := Function.update o.tdAlloc dummy true }
  let o := o.modEd e (fun r =>
    { r with
      hwTailP := dummy
      hwHeadP := dummy
      headHalted := false
      headCarry := false
      state := .edUnlink
      type := pipe.type })
  o.modDev d (fun r => { r with edCnt := r.edCnt + 1 })

/-- The part of `ep_add_ed` for every ED: the device and the ED are told
about the pipe. -/
def fillEd (o : Ohci) (d : DevPtr) (e : EdPtr) (pipe : Pipe) (interval load : ℕ) : Ohci :=
  let o := { o with dev := Function.update o.dev pipe.device d }
  let info := edInfo o d pipe
  o.modEd e (fun r =>
    let r := { r with hwINFO := info }
    if r.type = .int ∧ r.state = .edUnlink then
      { r with intPeriod := interval % 256, intLoad := load % 256 }
    else r)

/-- **`ep_add_ed`**: find the ED of a pipe and fill it in. The answer is null
while its removal is pending, and when there is no memory for a dummy TD. -/
def epAddEd (o : Ohci) (d : DevPtr) (pipe : Pipe) (interval load : ℕ) (dummy : TdPtr) :
    Option EdPtr × Ohci :=
  let e := edOf o d pipe
  if (o.ed e).state.pending then (none, o)
  else if (o.ed e).state = .edNew then
    let o := o.modEd e (fun r => { r with hwINFO := skipInfo })
    if dummy = 0 then (none, o)
    else (some e, fillEd (initEd o d e pipe dummy) d e pipe interval load)
  else (some e, fillEd o d e pipe interval load)

/-- **`ep_rm_ed`**: put an ED on the list of the EDs to be looked at when the
next frame starts. -/
def epRmEd (o : Ohci) (e : EdPtr) : Ohci :=
  if (o.ed e).state.pending then o
  else
    let o := o.modEd e (fun r => { r with hwINFO := { r.hwINFO with k := true } })
    let o := { o with intrSf := true }
    let o := o.modEd e (fun r => { r with edRmList := o.edRmList o.frame })
    let o := { o with edRmList := Function.update o.edRmList o.frame e }
    match (o.ed e).type with
    | .ctrl => { o with cle := false }
    | .bulk => { o with ble := false }
    | _ => o

/-! ## Submitting -/

/-- The number of TDs a request asks for. -/
def tdSize (r : Urb) : ℕ :=
  match r.pipe.type with
  | .bulk => (r.transferBufferLength - 1) / 4096 + 1
  | .iso => r.numberOfPackets
  | .ctrl => if r.transferBufferLength = 0 then 2 else (r.transferBufferLength - 1) / 4096 + 3
  | .int => 1

/-- Packets as `sohci_submit_urb` and `sohci_return_urb` reset them. -/
def resetPackets (r : Urb) : Urb :=
  { r with isoFrameDesc := fun i =>
      if i < r.numberOfPackets then { r.isoFrameDesc i with actualLength := 0, status := .exdev }
      else r.isoFrameDesc i }

/-- The private part of a request: `memset`, then the fields that are set. -/
def newPriv (e : EdPtr) (size : ℕ) (tds : ℕ → TdPtr) : UrbPriv where
  ed := e
  length := size % 65536
  tdCnt := 0
  urbDel := false
  transferBuffer := 0
  setupPacket := 0
  td := fun i => if i < size then tds i else 0

/-- The TDs `OHCI_ALLOC` has returned for a request are handed out. -/
def allocTds (o : Ohci) (size : ℕ) (tds : ℕ → TdPtr) : Ohci :=
  { o with tdAlloc := fun t => o.tdAlloc t || (t ≠ 0 && (List.range size).any (tds · = t)) }

/-- **The first phase of `sohci_submit_urb`**: the checks, the ED and the private
part with its TDs. The answer says whether the second phase follows. -/
def submitFirst (o : Ohci) (u : UrbPtr) (dummy : TdPtr) (tds : ℕ → TdPtr) : Ohci × Bool :=
  let r := o.urb u
  if r.dev = 0 ∨ r.hcpriv.isSome then (o, false)
  else
    let o := incDevUse o u
    if o.disabled then (o, false)
    else
      match epAddEd o r.dev r.pipe r.interval 1 dummy with
      | (none, o) => (decDevUse o u, false)
      | (some e, o) =>
        let size := tdSize r
        let o := if r.pipe.type = .iso then o.modUrb u resetPackets else o
        let o := o.modUrb u (fun r => { r with hcpriv := some (newPriv e size tds) })
        let o := allocTds o size tds
        if (List.range size).any (fun i => tds i = 0) then (urbRmPriv (decDevUse o u) u, false)
        else (o, true)

/-- **How the first phase of `sohci_submit_urb` ends**: the URB cannot be used; the
controller is disabled; there is no ED; a TD is missing; or all is there. `o₁` is
the memory behind `ep_add_ed` and `o₂` the one with the private part. -/
theorem submitFirst_outcome {o o' : Ohci} {u : UrbPtr} {b : Bool} {dummy : TdPtr}
    {tds : ℕ → TdPtr}
    (h : submitFirst o u dummy tds = (o', b)) :
    b = false ∧ o' = o ∧ ((o.urb u).dev = 0 ∨ (o.urb u).hcpriv.isSome = true) ∨
      (o.urb u).dev ≠ 0 ∧ (o.urb u).hcpriv = none ∧
        (b = false ∧ o.disabled = true ∧ o' = incDevUse o u ∨
          o.disabled = false ∧ ∃ r o₁,
            epAddEd (incDevUse o u) (o.urb u).dev (o.urb u).pipe (o.urb u).interval 1 dummy
              = (r, o₁) ∧
            (r = none ∧ b = false ∧ o' = decDevUse o₁ u ∨ ∃ e o₂, r = some e ∧
              o₂ = allocTds ((if (o.urb u).pipe.type = .iso then o₁.modUrb u resetPackets
                else o₁).modUrb u
                (fun r => { r with hcpriv := some (newPriv e (tdSize (o.urb u)) tds) }))
                  (tdSize (o.urb u)) tds ∧
              (b = false ∧ (∃ i < tdSize (o.urb u), tds i = 0) ∧
                o' = urbRmPriv (decDevUse o₂ u) u ∨
                b = true ∧ (∀ i < tdSize (o.urb u), tds i ≠ 0) ∧ o' = o₂))) := by
  unfold submitFirst at h
  dsimp only at h
  split at h
  · cases h
    exact .inl ⟨rfl, rfl, ‹_›⟩
  rename_i hbeg
  push Not at hbeg
  refine .inr ⟨hbeg.1, by simpa using hbeg.2, ?_⟩
  split at h
  · cases h
    exact .inl ⟨rfl, ‹_›, rfl⟩
  rename_i hdis
  refine .inr ⟨Bool.eq_false_iff.mpr hdis, ?_⟩
  generalize epAddEd (incDevUse o u) (o.urb u).dev (o.urb u).pipe (o.urb u).interval 1 dummy
    = added at h
  obtain ⟨r, o₁⟩ := added
  refine ⟨r, o₁, rfl, ?_⟩
  cases r with
  | none =>
    cases h
    exact .inl ⟨rfl, rfl, rfl⟩
  | some e =>
    refine .inr ⟨e, _, rfl, rfl, ?_⟩
    dsimp only at h
    split at h
    · rename_i hany
      cases h
      exact .inl ⟨rfl, by simpa using hany, rfl⟩
    · rename_i hany
      cases h
      exact .inr ⟨rfl, by simpa using hany, rfl⟩

/-- Copy `n` bytes into the memory the controller reaches. -/
def copyIn (o : Ohci) (dst : ℕ) (src : ℕ → UInt8) (n : ℕ) : Ohci :=
  { o with iop := fun a => if dst ≤ a ∧ a < dst + n then src (a - dst) else o.iop a }

/-- **`Portable_PrepareUrbOnSubmit`**: allocate the bounce buffers and fill
them. -/
def prepareUrbOnSubmit (o : Ohci) (u : UrbPtr) (buf setup : ℕ) : Ohci × Bool :=
  let r := o.urb u
  if r.transferBufferLength ≠ 0 ∧ buf = 0 then (o, false)
  else
    let o := if r.transferBufferLength ≠ 0 then
        copyIn (o.modPriv u (fun p => { p with transferBuffer := buf })) buf r.transferBuffer
          r.transferBufferLength
      else o
    match r.setupPacket with
    | none => (o, true)
    | some packet =>
      if setup = 0 then (o, false)
      else (copyIn (o.modPriv u (fun p => { p with setupPacket := setup })) setup packet 8, true)

/-- `urb->start_frame` for `USB_ISO_ASAP`. -/
def asapFrame (o : Ohci) (e : EdPtr) : ℕ :=
  (if (o.ed e).state = .edOper then (o.ed e).lastIso + 1 else o.frameNo + 10) % 65536

/-- The last part of `sohci_submit_urb`: link the ED unless its state is
`ED_OPER`, and fill the TDs. -/
def submitLink (fuel : ℕ) (o : Ohci) (u : UrbPtr) (e : EdPtr) : Option Ohci := do
  let o := o.modUrb u (fun r => { r with status := .einprogress, actualLength := 0 })
  let o ← if (o.ed e).state ≠ .edOper then epLink fuel o e else some o
  let o := o.modUrb u (fun r => { r with status := .einprogress })
  tdSubmitUrb o u

/-- **The second phase of `sohci_submit_urb`**, under the lock. The answer
says whether the request has been accepted. -/
def submitSecond (fuel : ℕ) (o : Ohci) (u : UrbPtr) (buf setup : ℕ) : Option (Ohci × Bool) := do
  let p ← (o.urb u).hcpriv
  let e := p.ed
  if (o.ed e).state = .edNew ∨ (o.ed e).state.del then
    some (decDevUse (urbRmPriv o u) u, false)
  else
    let o := if (o.urb u).isoAsap then
        o.modUrb u (fun r => { r with startFrame := asapFrame o e })
      else o
    match prepareUrbOnSubmit o u buf setup with
    | (o, false) => some (urbRmPriv (decDevUse o u) u, false)
    | (o, true) => do
      let o ← submitLink fuel o u e
      some (o, true)

/-! ## Unlinking -/

/-- The branch of `sohci_unlink_urb` for a pending request: mark the URB and
its ED. -/
def unlinkPending (o : Ohci) (u : UrbPtr) (p : UrbPriv) : Ohci :=
  let o := o.modPriv u (fun p => { p with urbDel := true })
  let o := epRmEd o p.ed
  let o := o.modEd p.ed (fun r => { r with state := { r.state with urbDel := true } })
  if (o.urb u).asyncUnlink then o.modUrb u (fun r => { r with status := .einprogress }) else o

/-- The branch of `sohci_unlink_urb` for a request that is not pending: its
private part is removed at once. -/
def unlinkNow (o : Ohci) (u : UrbPtr) : Ohci :=
  let o := urbRmPriv (decDevUse o u) u
  if (o.urb u).complete ∧ (o.urb u).asyncUnlink then
    (callComplete o u).modUrb u (fun r => { r with status := .ok })
  else o.modUrb u (fun r => { r with status := .enoent })

/-- **`sohci_unlink_urb`**, up to the wait of a synchronous call. The answer
says whether the wait follows. -/
def unlinkUrb (o : Ohci) (u : UrbPtr) : Ohci × Bool :=
  if (o.urb u).dev = 0 then (o, false)
  else
    match (o.urb u).hcpriv with
    | none => (o, false)
    | some p =>
      if (o.urb u).status = .einprogress ∧ !o.disabled then
        (unlinkPending o u p, !(o.urb u).asyncUnlink)
      else (unlinkNow o u, false)

/-- What a synchronous `sohci_unlink_urb` does after its wait. -/
def unlinkFinish (o : Ohci) (u : UrbPtr) : Ohci :=
  decDevUse (o.modUrb u (fun r => { r with status := .enoent })) u

/-! ## Freeing a device -/

/-- The body of the loop of `sohci_free_dev`. -/
def freeEd (fuel : ℕ) (o : Ohci) (e : EdPtr) : Option Ohci :=
  if (o.ed e).state = .edNew then some o
  else do
    let o ← if (o.ed e).state = .edOper then epUnlink fuel o e else some o
    some ((epRmEd o e).modEd e (fun r => { r with state := .edDel }))

/-- **`sohci_free_dev`**, up to its wait. -/
def freeDev (fuel : ℕ) (o : Ohci) (d : DevPtr) : Option Ohci :=
  (List.range 32).foldlM (fun o i => freeEd fuel o ((o.usbDev d).edBase + i)) o
