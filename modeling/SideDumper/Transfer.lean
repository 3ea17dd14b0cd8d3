import SideDumper.Ohci
import Mathlib.Data.List.Range

/-!
# Transfers

`td_submit_urb` turns a request into a sequence of `td_fill` calls, one for
each TD. The queue of an ED always ends in a dummy TD that belongs to no
request: `td_fill` writes the transfer into the dummy, makes the TD the
request brought along the new dummy, and lets the controller see it by
moving `hwTailP`. The controller runs meanwhile, so `td_fill` is given
statement by statement: `FillStmt` are its statements, `tdFillStmts` their
order, and `tdFill` is what they do without interruption.

`dl_transfer_length` reads off a TD that came back how much it has moved.
-/

/-- What one call of `td_fill` is given besides the URB and the index. -/
structure TdCall where
  info : TdInfo
  data : ℕ
  len : ℕ
deriving DecidableEq, Repr, Inhabited

/-- `cc_to_error`. -/
def ccToError (cc : ℕ) : Status :=
  match cc with
  | 0 => .ok
  | 1 => .eilseq
  | 2 => .eproto
  | 3 => .eilseq
  | 4 => .epipe
  | 5 => .etimedout
  | 6 => .eproto
  | 7 => .eproto
  | 8 => .eoverflow
  | 9 => .eremoteio
  | 10 => .etimedout
  | 11 => .etimedout
  | 12 => .ecomm
  | 13 => .ecomm
  | _ => .etimedout

/-- The private part of a URB that has one. -/
def Ohci.priv (o : Ohci) (u : UrbPtr) : UrbPriv := (o.urb u).hcpriv.getD default

/-! ## Filling a TD -/

/-- The statements of `td_fill` after the check of the index, named by what
they write. -/
inductive FillStmt
  /-- `td_pt = urb_priv->td [index]` -/
  | oldTd
  /-- `td = urb_priv->td [index] = hwTailP` -/
  | newTd
  /-- `td->ed = urb_priv->ed` -/
  | ed
  /-- `td->index = index` -/
  | index
  /-- `td->urb = urb` -/
  | urb
  /-- `td->hwINFO = info` -/
  | info
  /-- `td->hwCBP = data`, and `ed->last_iso` of an isochronous ED. -/
  | cbp
  /-- `td->hwBE = data + len - 1` -/
  | be
  /-- `td->hwNextTD = td_pt` -/
  | next
  /-- `td->hwPSW [0] = ...` -/
  | psw
  /-- `td_pt->hwNextTD = 0` -/
  | endNext
  /-- `td->ed->hwTailP = td->hwNextTD` -/
  | tail
  /-- `td->next_dl_td = NULL` -/
  | dl
deriving DecidableEq, Repr

/-- The arguments and the local variables of `td_fill`. -/
structure Fill where
  urb : UrbPtr
  index : ℕ
  call : TdCall
  td : TdPtr
  tdPt : TdPtr
deriving DecidableEq, Repr, Inhabited

/-- `(!data || !len)? 0 : data`. -/
def TdCall.start (c : TdCall) : ℕ := if c.data = 0 ∨ c.len = 0 then 0 else c.data

/-- `hwCBP` as it is filled in. -/
def TdCall.cbp (c : TdCall) (type : PipeType) : ℕ :=
  if type = .iso then c.start - c.start % 4096 else c.start

/-- `hwBE` as it is filled in. -/
def TdCall.be (c : TdCall) : ℕ := if c.data = 0 ∨ c.len = 0 then 0 else c.data + c.len - 1

/-- `hwPSW [0]` as it is filled in. -/
def TdCall.psw (c : TdCall) : ℕ := c.data % 4096 + 0xE000

namespace FillStmt

/-- **One statement of `td_fill`.** -/
def exec (s : FillStmt) (f : Fill) (o : Ohci) : Fill × Ohci :=
  match s with
  | oldTd => ({ f with tdPt := (o.priv f.urb).td f.index }, o)
  | newTd =>
    let td := (o.ed (o.priv f.urb).ed).hwTailP
    ({ f with td := td },
      o.modPriv f.urb (fun p => { p with td := Function.update p.td f.index td }))
  | ed => (f, o.modTd f.td (fun r => { r with ed := (o.priv f.urb).ed }))
  | index => (f, o.modTd f.td (fun r => { r with index := f.index % 256 }))
  | urb => (f, o.modTd f.td (fun r => { r with urb := f.urb }))
  | info => (f, o.modTd f.td (fun r => { r with hwINFO := f.call.info }))
  | cbp =>
    let e := (o.td f.td).ed
    let type := (o.ed e).type
    let o := o.modTd f.td (fun r => { r with hwCBP := f.call.cbp type })
    (f, if type = .iso then o.modEd e (fun r => { r with lastIso := f.call.info.frame }) else o)
  | be => (f, o.modTd f.td (fun r => { r with hwBE := f.call.be }))
  | next => (f, o.modTd f.td (fun r => { r with hwNextTD := f.tdPt }))
  | psw => (f, o.modTd f.td (fun r => { r with hwPSW := f.call.psw }))
  | endNext => (f, o.modTd f.tdPt (fun r => { r with hwNextTD := 0 }))
  | tail => (f, o.modEd (o.td f.td).ed (fun r => { r with hwTailP := (o.td f.td).hwNextTD }))
  | dl => (f, o.modTd f.td (fun r => { r with nextDlTd := 0 }))

end FillStmt

/-- The statements of `td_fill`, in order. -/
def tdFillStmts : List FillStmt :=
  [.oldTd, .newTd, .ed, .index, .urb, .info, .cbp, .be, .next, .psw, .endNext, .tail, .dl]

/-- Execute statements one after the other. -/
def execAll (ss : List FillStmt) (f : Fill) (o : Ohci) : Fill × Ohci :=
  ss.foldl (fun s st => st.exec s.1 s.2) (f, o)

/-- **`td_fill`**; a null private part is dereferenced. -/
def tdFill (o : Ohci) (u : UrbPtr) (c : TdCall) (index : ℕ) : Option Ohci := do
  let p ← (o.urb u).hcpriv
  if p.length ≤ index then some o
  else some (execAll tdFillStmts ⟨u, index, c, 0, 0⟩ o).2

/-- The TD that `td_fill` fills, up to the last statement. -/
def filledTd (u : UrbPtr) (p : UrbPriv) (type : PipeType) (c : TdCall) (index : ℕ) (r : Td) :
    Td :=
  { r with
    ed := p.ed
    index := index % 256
    urb := u
    hwINFO := c.info
    hwCBP := c.cbp type
    hwBE := c.be
    hwNextTD := p.td index
    hwPSW := c.psw }

/-- What the statements of `td_fill` do together. -/
def fillTd (o : Ohci) (u : UrbPtr) (p : UrbPriv) (c : TdCall) (index : ℕ) : Ohci :=
  let td := (o.ed p.ed).hwTailP
  let type := (o.ed p.ed).type
  let o := o.modPriv u (fun p => { p with td := Function.update p.td index td })
  let o := o.modTd td (filledTd u p type c index)
  let o := if type = .iso then o.modEd p.ed (fun r => { r with lastIso := c.info.frame }) else o
  let o := o.modTd (p.td index) (fun r => { r with hwNextTD := 0 })
  let o := o.modEd p.ed (fun r => { r with hwTailP := (o.td td).hwNextTD })
  o.modTd td (fun r => { r with nextDlTd := 0 })

section FillTd

variable {o o' : Ohci} {u z : UrbPtr} {p : UrbPriv} {c : TdCall} {index : ℕ}

theorem Ohci.priv_eq (hp : (o.urb u).hcpriv = some p) : o.priv u = p := by
  rw [Ohci.priv, hp]
  rfl

/-- Ending the queue leaves the ED of every TD. -/
theorem endNext_ed (o : Ohci) (t x : TdPtr) :
    ((o.modTd t (fun r => { r with hwNextTD := 0 })).td x).ed = (o.td x).ed := by
  rw [Ohci.modTd_td]
  split
  · subst x
    rfl
  · rfl

/-- **`td_fill`, in one piece.** -/
theorem tdFill_eq (hp : (o.urb u).hcpriv = some p) (hi : index < p.length) :
    tdFill o u c index = some (fillTd o u p c index) := by
  have hpriv :
      (o.modPriv u (fun q =>
        { q with td := Function.update q.td index (o.ed p.ed).hwTailP })).priv u
      = { p with td := Function.update p.td index (o.ed p.ed).hwTailP } := by
    rw [Ohci.priv, Ohci.modPriv_urb_self, hp]
    rfl
  rw [tdFill, hp, Option.bind_eq_bind, Option.bind_some, if_neg (by omega), Option.some.injEq]
  unfold fillTd
  simp only [execAll, tdFillStmts, List.foldl_cons, List.foldl_nil, FillStmt.exec,
    Ohci.priv_eq hp, hpriv]
  by_cases hty : (o.ed p.ed).type = .iso
  · simp only [Ohci.modTd_modTd, Ohci.modTd_td_self, Ohci.modTd_ed, Ohci.modPriv_ed, if_pos hty,
      Ohci.modEd_modTd, endNext_ed, Ohci.modEd_td]
    rfl
  · simp only [Ohci.modTd_modTd, Ohci.modTd_td_self, Ohci.modTd_ed, Ohci.modPriv_ed,
      if_neg hty, endNext_ed]
    rfl

/-- A call with an index that is too large does nothing. -/
theorem tdFill_of_le (hp : (o.urb u).hcpriv = some p) (hi : p.length ≤ index) :
    tdFill o u c index = some o := by
  rw [tdFill, hp, Option.bind_eq_bind, Option.bind_some, if_pos hi]

/-- The URBs, but for the slot, stay. -/
theorem fillTd_urb : (fillTd o u p c index).urb
    = (o.modPriv u (fun q =>
      { q with td := Function.update q.td index (o.ed p.ed).hwTailP })).urb := by
  unfold fillTd
  dsimp only
  split <;> rfl

end FillTd

/-- `td_fill` for one call after the other, with the index counted up. -/
def tdFills (u : UrbPtr) : List TdCall → ℕ → Ohci → Option Ohci
  | [], _, o => some o
  | c :: cs, index, o => do
    let o ← tdFill o u c index
    tdFills u cs (index + 1) o

/-! ## The TDs of a request -/

/-- The condition code, direction, toggle and rounding bits of a general
TD. -/
def genInfo (dp : TdDp) (t : TdToggle) (r : Bool) : TdInfo := ⟨15, dp, t, r, false, 0⟩

/-- The case `PIPE_BULK` of `td_submit_urb`: the `while` loop runs
`(data_len - 1) / 4096` times, and the rest goes into one more TD. -/
def bulkCalls (out : Bool) (first : TdToggle) (data dataLen : ℕ) : List TdCall :=
  let dp := if out then TdDp.out else TdDp.in
  let n := (dataLen - 1) / 4096
  (List.range n).map (fun cnt =>
      ⟨genInfo dp (if cnt = 0 then first else .toggle) false, data + 4096 * cnt, 4096⟩)
    ++ [⟨genInfo dp (if n = 0 then first else .toggle) (!out), data + 4096 * n,
      dataLen - 4096 * n⟩]

/-- The case `PIPE_INTERRUPT`. -/
def intCalls (out : Bool) (first : TdToggle) (data dataLen : ℕ) : List TdCall :=
  [⟨genInfo (if out then .out else .in) first (!out), data, dataLen⟩]

/-- The case `PIPE_CONTROL`: setup, data if there are any, status. -/
def controlCalls (out : Bool) (ctrl data dataLen : ℕ) : List TdCall :=
  ⟨genInfo .setup .data0 false, ctrl, 8⟩
    :: ((if dataLen = 0 then []
        else [⟨genInfo (if out then .out else .in) .data1 true, data, dataLen⟩])
      ++ [⟨genInfo (if out then .in else .out) .data1 false, 0, 0⟩])

/-- The case `PIPE_ISOCHRONOUS`: one TD for each packet. -/
def isoCalls (startFrame packets data : ℕ) (desc : ℕ → IsoFrame) : List TdCall :=
  (List.range packets).map (fun cnt =>
    ⟨⟨15, .setup, .toggle, false, true, (startFrame + cnt) % 65536⟩, data + (desc cnt).offset,
      (desc cnt).length⟩)

/-- The `td_fill` calls of `td_submit_urb`. -/
def tdCalls (r : Urb) (p : UrbPriv) (first : TdToggle) : List TdCall :=
  match r.pipe.type with
  | .bulk => bulkCalls r.pipe.out first p.transferBuffer r.transferBufferLength
  | .int => intCalls r.pipe.out first p.transferBuffer r.transferBufferLength
  | .ctrl => controlCalls r.pipe.out p.setupPacket p.transferBuffer r.transferBufferLength
  | .iso => isoCalls r.startFrame r.numberOfPackets p.transferBuffer r.isoFrameDesc

/-- The toggle of the first TD, read off the toggle bits of the device. -/
def Ohci.toggleOf (o : Ohci) (r : Urb) : TdToggle :=
  if (o.usbDev r.dev).toggle r.pipe.endpoint r.pipe.out then .toggle else .data0

/-- What `td_submit_urb` does before it fills the TDs: set the toggle bit
and clear `td_cnt`. -/
def submitStart (o : Ohci) (u : UrbPtr) : Ohci :=
  let pipe := (o.urb u).pipe
  (o.modDev (o.urb u).dev (fun d =>
      { d with toggle := fun ep out =>
          if ep = pipe.endpoint ∧ out = pipe.out then true else d.toggle ep out })).modPriv u
    (fun p => { p with tdCnt := 0 })

/-- **`td_submit_urb`.** -/
def tdSubmitUrb (o : Ohci) (u : UrbPtr) : Option Ohci := do
  let p ← (o.urb u).hcpriv
  tdFills u (tdCalls (o.urb u) p (o.toggleOf (o.urb u))) 0
    ((submitStart o u).log (.submitTds u))

/-! ## The length of a transfer -/

/-- The branch of `dl_transfer_length` for an isochronous TD. -/
def countIso (r : Urb) (td : Td) : Urb :=
  let cc := td.hwPSW / 4096 % 16
  if cc < 14 then
    let dlen := if r.pipe.out then (r.isoFrameDesc td.index).length else td.hwPSW % 1024
    let cc := if !r.disableSpd ∧ cc = 9 then 0 else cc
    { r with
      actualLength := r.actualLength + dlen
      isoFrameDesc := Function.update r.isoFrameDesc td.index
        { r.isoFrameDesc td.index with actualLength := dlen, status := ccToError cc } }
  else r

/-- Whether `dl_transfer_length` counts a general TD: the setup and the
status TD of a control request carry no data, nor does a TD of length 0. -/
def countsData (r : Urb) (p : UrbPriv) (td : Td) : Prop :=
  ¬ (r.pipe.type = .ctrl ∧ (td.index = 0 ∨ td.index + 1 = p.length)) ∧ td.hwBE ≠ 0

instance (r : Urb) (p : UrbPriv) (td : Td) : Decidable (countsData r p td) :=
  inferInstanceAs (Decidable (_ ∧ _))

/-- The branch of `dl_transfer_length` for the TDs of other requests. -/
def countGeneral (r : Urb) (p : UrbPriv) (td : Td) : Urb :=
  if countsData r p td then
    { r with
      actualLength :=
        if td.hwCBP = 0 then (td.hwBE : ℤ) - p.transferBuffer + 1
        else (td.hwCBP : ℤ) - p.transferBuffer }
  else r

/-- **`dl_transfer_length`**: update the lengths of the URB for a TD that
came back. -/
def dlTransferLength (o : Ohci) (t : TdPtr) : Option Ohci :=
  let td := o.td t
  if td.hwINFO.iso then some (o.modUrb td.urb (fun r => countIso r td))
  else do
    let p ← (o.urb td.urb).hcpriv
    some (o.modUrb td.urb (fun r => countGeneral r p td))

/-- `dl_transfer_length` leaves the private parts. -/
theorem dlTransferLength_hcpriv {o o' : Ohci} {t : TdPtr} (h : dlTransferLength o t = some o')
    (u : UrbPtr) :
    (o'.urb u).hcpriv = (o.urb u).hcpriv := by
  have hiso : ∀ r td, (countIso r td).hcpriv = r.hcpriv := by
    intro r td
    unfold countIso
    dsimp only
    split <;> rfl
  have hgen : ∀ r p td, (countGeneral r p td).hcpriv = r.hcpriv := by
    intro r p td
    unfold countGeneral
    split <;> rfl
  unfold dlTransferLength at h
  dsimp only at h
  split at h
  · cases h
    rw [Ohci.modUrb_urb]
    split
    · rw [hiso, ‹u = _›]
    · rfl
  · obtain ⟨p, -, h⟩ := Option.bind_eq_some_iff.mp h
    cases h
    rw [Ohci.modUrb_urb]
    split
    · rw [hgen, ‹u = _›]
    · rfl
