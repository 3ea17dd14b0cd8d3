import SideDumper.Requests

/-!
# Retired transfers

The controller puts the TDs it is done with on a list, the last one first,
and hands the list over in `hcca.done_head`. `dl_reverse_done_list` turns it
around, on the way skipping the rest of a request that failed, and
`dl_done_list` settles one TD after the other and returns the requests that
are complete. `dl_del_list` looks at the EDs of one removal list when a frame
starts, and takes the TDs of unlinked requests off their queues.

Each loop is given by its body – `reverseTd`, `doneTd` with `doneEd`,
`delTd` with `delEdEnd` – because a body may call completion callbacks, and
with them anything, and because the controller runs between two passes.
-/

/-! ## `dl_reverse_done_list` -/

/-- Skip what is left of a request whose TD failed, when the ED is halted:
the queue goes on behind its last TD, which are counted as done. The halt is
cleared, the toggle carry is kept. -/
def skipRest (o : Ohci) (t : TdPtr) : Ohci :=
  let td := o.td t
  let restart (o : Ohci) : Ohci := o.modEd td.ed (fun r => { r with headHalted := false })
  match (o.urb td.urb).hcpriv with
  | none => restart o
  | some p =>
    if td.index + 1 < p.length then
      let head := (o.td (p.td (p.length - 1))).hwNextTD
      (o.modEd td.ed (fun r => { r with hwHeadP := head, headHalted := false })).modPriv td.urb
        (fun p => { p with tdCnt := (p.tdCnt + (p.length - td.index - 1)) % 65536 })
    else restart o

/-- **The body of the loop of `dl_reverse_done_list`**, for the TD at hand
and the list reversed so far. -/
def reverseTd (o : Ohci) (t tdRev : TdPtr) : Ohci :=
  let o := if (o.td t).hwINFO.cc ≠ 0 ∧ (o.ed (o.td t).ed).headHalted then skipRest o t else o
  o.modTd t (fun r => { r with nextDlTd := tdRev })

/-! ## `dl_done_list` -/

/-- **`Portable_PrepareUrbOnReturn`**: copy what came in to the caller. -/
def prepareUrbOnReturn (o : Ohci) (u : UrbPtr) (p : UrbPriv) : Ohci :=
  let r := o.urb u
  if !r.pipe.out ∧ r.actualLength ≠ 0 then
    o.modUrb u (fun r => { r with transferBuffer := fun i =>
      if (i : ℤ) < r.actualLength then o.iop (p.transferBuffer + i) else r.transferBuffer i })
  else o

/-- `sohci_return_urb` up to and including the completion callback. The
answer says whether the request is queued again behind it. -/
def returnUrb (o : Ohci) (u : UrbPtr) : Ohci × Bool :=
  if !(o.urb u).complete then (decDevUse (urbRmPriv o u) u, false)
  else
    match (o.urb u).hcpriv with
    | none => (o, false)
    | some p =>
      let o := prepareUrbOnReturn o u p
      let o := o.log (.returnUrb u (o.urb u).status (o.urb u).actualLength)
      if (o.urb u).pipe.type = .int ∨ (o.urb u).pipe.type = .iso ∧ (o.urb u).ring then
        (callComplete o u, true)
      else (callComplete (decDevUse (urbRmPriv o u) u) u, false)

/-- **`sohci_return_urb` behind the callback** of a periodic request: queue
it again, unless it has been unlinked. -/
def requeueUrb (o : Ohci) (u : UrbPtr) : Option Ohci := do
  let p ← (o.urb u).hcpriv
  let o := o.modUrb u (fun r => { r with actualLength := 0, status := .einprogress })
  if (o.urb u).pipe.type = .iso then
    let o := o.modUrb u (fun r => { r with startFrame := (o.ed p.ed).lastIso + 1 })
    if p.urbDel then some o else tdSubmitUrb (o.modUrb u resetPackets) u
  else if p.urbDel then some o
  else tdSubmitUrb o u

/-- The condition code that counts: a short packet is no error unless
`USB_DISABLE_SPD` is set. -/
def effectiveCc (r : Urb) (cc : ℕ) : ℕ := if !r.disableSpd ∧ cc = 9 then 0 else cc

/-- `usb_endpoint_halt` for a stalled pipe. -/
def haltOnStall (o : Ohci) (u : UrbPtr) (cc : ℕ) : Ohci :=
  let pipe := (o.urb u).pipe
  if cc = 4 then
    o.modDev (o.urb u).dev (fun d => { d with halted := fun ep out =>
      if ep = pipe.endpoint ∧ out = pipe.out then true else d.halted ep out })
  else o

/-- `++(urb_priv->td_cnt)`. -/
def countTd (o : Ohci) (u : UrbPtr) : Ohci :=
  o.modPriv u (fun p => { p with tdCnt := (p.tdCnt + 1) % 65536 })

/-- What `dl_done_list` does with a request all of whose TDs are settled. -/
def finishUrb (o : Ohci) (u : UrbPtr) (p : UrbPriv) (s : EdState) (cc : ℕ) : Ohci × Bool :=
  if !p.urbDel ∧ !s.del ∧ s ≠ .edNew then
    returnUrb (o.modUrb u (fun r => { r with status := ccToError cc })) u
  else (urbRmPriv o u, false)

/-- **The body of the loop of `dl_done_list`**, up to the completion
callback. The answer says whether `requeueUrb` follows. -/
def doneTd (o : Ohci) (t : TdPtr) : Option (Ohci × Bool) := do
  let u := (o.td t).urb
  let e := (o.td t).ed
  let cc := (o.td t).hwINFO.cc
  let o ← dlTransferLength o t
  let o := haltOnStall o u cc
  let cc := effectiveCc (o.urb u) cc
  let o := countTd o u
  let p ← (o.urb u).hcpriv
  if p.tdCnt = p.length then some (finishUrb o u p (o.ed e).state cc)
  else some (o, false)

/-- **The end of the body of the loop of `dl_done_list`**: unlink the ED when
it is not busy. -/
def doneEd (fuel : ℕ) (o : Ohci) (e : EdPtr) : Option Ohci :=
  if (o.ed e).hwHeadP = (o.ed e).hwTailP ∧ (o.ed e).state = .edOper then epUnlink fuel o e
  else some o

/-! ## `dl_del_list` -/

/-- The address of a link of a TD queue, what `td_p` points to: the
`hwHeadP` of an ED or the `hwNextTD` of a TD. -/
inductive TdLink
  | head (e : EdPtr)
  | next (t : TdPtr)
deriving DecidableEq, Repr

/-- `*td_p = v | (*td_p & 3)`. -/
def Ohci.setTdLink (o : Ohci) (l : TdLink) (v : TdPtr) : Ohci :=
  match l with
  | .head e => o.modEd e (fun r => { r with hwHeadP := v })
  | .next t => o.modTd t (fun r => { r with hwNextTD := v })

/-- The report `dl_del_list` makes for each TD it removes. -/
def reportDel (o : Ohci) (u : UrbPtr) : Ohci :=
  if (o.urb u).asyncUnlink then
    callComplete ((decDevUse o u).modUrb u (fun r => { r with status := .econnreset })) u
  else o.log .wakeUp

/-- **The body of the inner loop of `dl_del_list`**, for the TD `t` that
`td_p` leads to. The answer is the new `td_p`. -/
def delTd (o : Ohci) (e : EdPtr) (t : TdPtr) (tdP : TdLink) : Option (Ohci × TdLink) := do
  let u := (o.td t).urb
  let p ← (o.urb u).hcpriv
  if p.urbDel ∨ (o.ed e).state.del then
    let o ← if (o.td t).hwINFO.cc < 14 then dlTransferLength o t else some o
    let o := o.setTdLink tdP (o.nextTD t)
    let o := countTd o u
    let p ← (o.urb u).hcpriv
    let o := if p.tdCnt = p.length then urbRmPriv o u else o
    some (reportDel o u, tdP)
  else some (o, .next t)

/-- What `dl_del_list` does with an ED behind its TDs; `tail` is the dummy and
`fa` the device address it has read before. -/
def delEdEnd (o : Ohci) (e : EdPtr) (tail : TdPtr) (fa : ℕ) : Ohci :=
  if (o.ed e).state.del then
    let d := o.dev fa
    let o := { o with tdAlloc := Function.update o.tdAlloc tail false }
    let o := o.modEd e (fun r => { r with hwINFO := skipInfo, state := .edNew })
    let o := o.modDev d (fun r => { r with edCnt := r.edCnt - 1 })
    if (o.usbDev d).edCnt = 0 then o.log .wakeUp else o
  else
    o.modEd e (fun r =>
      { r with
        state := { r.state with urbDel := false }
        hwINFO := { r.hwINFO with k := false } })

/-- The end of `dl_del_list`: the control and bulk lists are enabled again
if nothing else is pending, and the removal list is cleared. -/
def delEnd (o : Ohci) (frame : Bool) : Ohci :=
  let o := if o.edRmList (!frame) = 0 then { o with cle := true, ble := true } else o
  { o with edRmList := Function.update o.edRmList frame 0 }

/-- The inner loop of `dl_del_list`, without interruption. -/
def delTds (e : EdPtr) (tail : TdPtr) : ℕ → Ohci → TdPtr → TdLink → Option Ohci
  | 0, _, _, _ => none
  | fuel + 1, o, t, tdP =>
    if t = tail then some o
    else do
      let next := o.nextTD t
      let (o, tdP) ← delTd o e t tdP
      delTds e tail fuel o next tdP

/-- The outer loop of `dl_del_list`, without interruption. -/
def delEds : ℕ → Ohci → EdPtr → Option Ohci
  | 0, _, _ => none
  | fuel + 1, o, e =>
    if e = 0 then some o
    else do
      let tail := (o.ed e).hwTailP
      let fa := (o.ed e).hwINFO.fa
      let o ← delTds e tail fuel o (o.ed e).hwHeadP (.head e)
      let o := delEdEnd o e tail fa
      delEds fuel o (o.ed e).edRmList

/-- **`dl_del_list`**, without interruption. -/
def dlDelList (fuel : ℕ) (o : Ohci) (frame : Bool) : Option Ohci := do
  let o ← delEds fuel o (o.edRmList frame)
  some (delEnd o frame)

/-! ## What the bodies do -/

/-- What `dl_transfer_length` counts of a TD. -/
def countLength (r : Urb) (p : UrbPriv) (td : Td) : Urb :=
  if td.hwINFO.iso then countIso r td else countGeneral r p td

/-- The memory behind the count of a TD that `dl_del_list` removes. -/
def countMoved (o : Ohci) (t : TdPtr) (p : UrbPriv) : Ohci :=
  if (o.td t).hwINFO.cc < 14 then o.modUrb (o.td t).urb (fun r => countLength r p (o.td t)) else o

section Bodies

variable {o o' : Ohci} {u : UrbPtr} {p : UrbPriv} {e : EdPtr} {t : TdPtr}
    {tdP : TdLink} {b : Bool}

@[simp] theorem setTdLink_urb (v : TdPtr) : (o.setTdLink tdP v).urb = o.urb := by
  cases tdP <;> rfl

@[simp] theorem setTdLink_iop (v : TdPtr) : (o.setTdLink tdP v).iop = o.iop := by
  cases tdP <;> rfl

/-- Counting a TD touches the private part alone. -/
theorem countTd_urb_self (hp : (o.urb u).hcpriv = some p) :
    (countTd o u).urb u
      = { o.urb u with hcpriv := some { p with tdCnt := (p.tdCnt + 1) % 65536 } } := by
  rw [countTd, Ohci.modPriv_urb_self, hp]
  rfl

/-- **What `dl_done_list` does with a TD**: it counts it, and finishes the request when it was
the last one. `o₁` is the memory behind `dl_transfer_length` and `o₂` the one behind the
count. -/
theorem doneTd_outcome (h : doneTd o t = some (o', b)) :
    ∃ p o₁ o₂, (o.urb (o.td t).urb).hcpriv = some p ∧
    dlTransferLength o t = some o₁ ∧
      ((haltOnStall o₁ (o.td t).urb (o.td t).hwINFO.cc).urb (o.td t).urb).hcpriv = some p ∧
    o₂ = countTd (haltOnStall o₁ (o.td t).urb (o.td t).hwINFO.cc) (o.td t).urb ∧
    (o₂.urb (o.td t).urb).hcpriv = some { p with tdCnt := (p.tdCnt + 1) % 65536 } ∧
    ((p.tdCnt + 1) % 65536 ≠ p.length ∧ b = false ∧ o' = o₂ ∨
      (p.tdCnt + 1) % 65536 = p.length ∧
        ∃ cc, finishUrb o₂ (o.td t).urb { p with tdCnt := (p.tdCnt + 1) % 65536 }
          (o₂.ed (o.td t).ed).state cc = (o', b)) := by
  obtain ⟨o₁, h₁, h⟩ := Option.bind_eq_some_iff.mp h
  obtain ⟨q, hq, h⟩ := Option.bind_eq_some_iff.mp h
  have hhalt : ((haltOnStall o₁ (o.td t).urb (o.td t).hwINFO.cc).urb (o.td t).urb).hcpriv
      = (o.urb (o.td t).urb).hcpriv := by
    rw [← dlTransferLength_hcpriv h₁]
    unfold haltOnStall
    dsimp only
    split <;> rfl
  obtain ⟨p, hp⟩ : ∃ p, (o.urb (o.td t).urb).hcpriv = some p := by
    cases hp : (o.urb (o.td t).urb).hcpriv with
    | some p => exact ⟨p, rfl⟩
    | none =>
      rw [countTd, Ohci.modPriv_urb_self, hhalt, hp] at hq
      cases hq
  have hpriv := countTd_urb_self (hhalt.trans hp)
  rw [hpriv, Option.some.injEq] at hq
  subst hq
  refine ⟨p, o₁, _, hp, h₁, hhalt.trans hp, rfl, by rw [hpriv], ?_⟩
  dsimp only at h
  split at h
  · exact .inr ⟨‹_›, _, Option.some.inj h⟩
  · cases h
    exact .inl ⟨‹_›, rfl, rfl⟩

/-- `dl_transfer_length` counts in the URB alone. -/
theorem dlTransferLength_eq (hu : (o.td t).urb = u) (hp : (o.urb u).hcpriv = some p) :
    dlTransferLength o t = some (o.modUrb u (fun r => countLength r p (o.td t))) := by
  unfold dlTransferLength countLength
  dsimp only
  rw [hu, hp]
  split <;> rfl

/-- **A TD that `dl_del_list` removes.** The controller may have got to it, and
what it has moved is counted then. -/
theorem delTd_eq (hu : (o.td t).urb = u) (hp : (o.urb u).hcpriv = some p)
    (hdel : p.urbDel = true ∨ (o.ed e).state.del = true) :
    delTd o e t tdP = some (reportDel
      (if (p.tdCnt + 1) % 65536 = p.length
        then urbRmPriv (countTd ((countMoved o t p).setTdLink tdP (o.nextTD t)) u) u
        else countTd ((countMoved o t p).setTdLink tdP (o.nextTD t)) u) u, tdP) := by
  have hmoved : (o.td t).hwINFO.cc < 14 → dlTransferLength o t = some (countMoved o t p) := by
    intro hcc
    rw [countMoved, dlTransferLength_eq hu hp, hu, if_pos hcc]
  have hpriv : ((countMoved o t p).urb u).hcpriv = some p := by
    by_cases hcc : (o.td t).hwINFO.cc < 14
    · rw [← hp]
      exact dlTransferLength_hcpriv (hmoved hcc) u
    · rw [countMoved, if_neg hcc, hp]
  have hnext : (countMoved o t p).nextTD t = o.nextTD t := by
    unfold countMoved
    split <;> rfl
  have hc :=
    countTd_urb_self (o := (countMoved o t p).setTdLink tdP (o.nextTD t)) (p := p) (u := u)
    (by rw [setTdLink_urb, hpriv])
  rw [delTd, hu, hp]
  by_cases hcc : (o.td t).hwINFO.cc < 14
  · simp only [Option.bind_eq_bind, Option.bind_some, if_pos hdel, if_pos hcc,
      hmoved hcc, hnext, hc]
  · rw [countMoved, if_neg hcc] at hc
    simp only [Option.bind_eq_bind, Option.bind_some, if_pos hdel, countMoved, if_neg hcc, hc]

/-- **What `dl_del_list` does with a TD**: it passes over it, or takes it off the queue
and counts it. `o₁` is the memory behind `dl_transfer_length` and `o₂` the one
behind the count. -/
theorem delTd_outcome {o' : Ohci} {tdP' : TdLink} (h : delTd o e t tdP = some (o', tdP')) :
    ∃ p, (o.urb (o.td t).urb).hcpriv = some p ∧
      (¬ (p.urbDel = true ∨ (o.ed e).state.del = true) ∧ o' = o ∧ tdP' = .next t ∨
        (p.urbDel = true ∨ (o.ed e).state.del = true) ∧ tdP' = tdP ∧ ∃ o₁ o₂,
          (o₁ = o ∨ dlTransferLength o t = some o₁) ∧ (o₁.urb (o.td t).urb).hcpriv = some p ∧
          o₂ = countTd (o₁.setTdLink tdP (o₁.nextTD t)) (o.td t).urb ∧
          o' = reportDel (if (p.tdCnt + 1) % 65536 = p.length then urbRmPriv o₂ (o.td t).urb
            else o₂)
            (o.td t).urb) := by
  obtain ⟨p, hp, h⟩ := Option.bind_eq_some_iff.mp h
  refine ⟨p, hp, ?_⟩
  dsimp only at h
  by_cases hdel : p.urbDel = true ∨ (o.ed e).state.del = true
  · rw [if_pos hdel] at h
    refine .inr ⟨hdel, ?_⟩
    split at h
    · obtain ⟨o₁, h₁, h⟩ := Option.bind_eq_some_iff.mp h
      have hp₁ := (dlTransferLength_hcpriv h₁ (o.td t).urb).trans hp
      rw [countTd_urb_self (by rw [setTdLink_urb, hp₁]), Option.bind_eq_bind,
        Option.bind_some] at h
      cases h
      exact ⟨rfl, o₁, _, .inr h₁, hp₁, rfl, rfl⟩
    · rw [Option.bind_eq_bind, Option.bind_some, countTd_urb_self (by rw [setTdLink_urb, hp]),
        Option.bind_eq_bind, Option.bind_some] at h
      cases h
      exact ⟨rfl, o, _, .inl rfl, hp, rfl, rfl⟩
  · rw [if_neg hdel] at h
    cases h
    exact .inl ⟨hdel, rfl, rfl⟩

end Bodies
