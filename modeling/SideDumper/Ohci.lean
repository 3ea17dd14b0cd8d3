import Mathlib.Logic.Function.Basic
import Mathlib.Data.Int.Notation
import Mathlib.Data.Nat.Notation

/-!
# The memory of the OHCI driver

The driver and the host controller share endpoint descriptors (EDs),
transfer descriptors (TDs) and the communications area; the driver adds URBs
with their private parts and a few list heads. `Ohci` is that memory: one
total map per kind of object, from addresses to records, and the fields of
`ohci_t`, of the HCCA and of the controller's registers that the driver
code reads.

An address is a natural number and the null pointer is `0`. Bus and virtual
addresses are identified, so `virt_to_bus` and `bus_to_virt` disappear – and
with them the null test on a converted pointer, which is why reading through
`0` is a read of the record at address `0` and not an error: on this machine
bus address `0` is mapped.

Machine words that hold several values are records with a field for each:
an ED's state byte is its four flags, `hwHeadP` is a pointer with the halt
and toggle-carry bits beside it, a TD's `hwINFO` has its condition code, its
direction and so on. Fields narrower than the values stored into them are
truncated where they are stored.
-/

/-- The address of an endpoint descriptor, `0` for none. -/
abbrev EdPtr := ℕ

/-- The address of a transfer descriptor, `0` for none. -/
abbrev TdPtr := ℕ

/-- The address of a request block, `0` for none. -/
abbrev UrbPtr := ℕ

/-- The address of a `struct usb_device`, `0` for none. -/
abbrev DevPtr := ℕ

/-- The pipe types `usb_pipetype` tells apart, which are also the types of
EDs: `ISO`, `INT`, `CTRL` and `BULK`, in the order of their codes. -/
inductive PipeType
  | iso
  | int
  | ctrl
  | bulk
deriving DecidableEq, Repr, Inhabited

/-- **The state byte of an ED.** It is read both as an enumeration, with
`==`, and as a set of flags, with `&`; a flag set serves both. -/
@[ext]
structure EdState where
  /-- `ED_UNLINK`. -/
  unlink : Bool
  /-- `ED_OPER`. -/
  oper : Bool
  /-- `ED_DEL`. -/
  del : Bool
  /-- `ED_URB_DEL`. -/
  urbDel : Bool
deriving DecidableEq, Repr, Inhabited

namespace EdState

/-- `ED_NEW`: no flag at all. -/
def edNew : EdState := ⟨false, false, false, false⟩

/-- `ED_UNLINK`. -/
def edUnlink : EdState := ⟨true, false, false, false⟩

/-- `ED_OPER`. -/
def edOper : EdState := ⟨false, true, false, false⟩

/-- `ED_DEL`. -/
def edDel : EdState := ⟨false, false, true, false⟩

/-- `(state & ED_DEL) || (state & ED_URB_DEL)`: a removal is pending. -/
def pending (s : EdState) : Bool := s.del || s.urbDel

end EdState

/-- The fields of an ED's `hwINFO` word, under the names of the hardware
manual. -/
structure EdInfo where
  /-- The device address, bits 0 to 6. -/
  fa : ℕ
  /-- The endpoint number, bits 7 to 10. -/
  en : ℕ
  /-- The direction, bits 11 and 12: `0` from the TD, `1` OUT, `2` IN. -/
  d : ℕ
  /-- Low speed, bit 13. -/
  s : Bool
  /-- `OHCI_ED_SKIP`, bit 14. -/
  k : Bool
  /-- Isochronous format, bit 15. -/
  f : Bool
  /-- The maximum packet size, from bit 16 on. -/
  mps : ℕ
deriving DecidableEq, Repr, Inhabited

/-- **An endpoint descriptor**, `ed_t`. -/
structure Ed where
  hwINFO : EdInfo
  hwTailP : TdPtr
  /-- The pointer bits of `hwHeadP`. -/
  hwHeadP : TdPtr
  /-- Bit 0 of `hwHeadP`: the controller halted the endpoint. -/
  headHalted : Bool
  /-- Bit 1 of `hwHeadP`: the toggle carry. -/
  headCarry : Bool
  hwNextED : EdPtr
  edPrev : EdPtr
  intPeriod : ℕ
  intBranch : ℕ
  intLoad : ℕ
  intInterval : ℕ
  state : EdState
  type : PipeType
  lastIso : ℕ
  edRmList : EdPtr
deriving DecidableEq, Repr, Inhabited

/-- The token of a TD, `TD_DP`. -/
inductive TdDp
  | setup
  | out
  | in
deriving DecidableEq, Repr, Inhabited

/-- The data toggle of a TD, `TD_T`. -/
inductive TdToggle
  | toggle
  | data0
  | data1
deriving DecidableEq, Repr, Inhabited

/-- The fields of a TD's `hwINFO` word. -/
structure TdInfo where
  /-- The condition code `TD_CC_GET` reads. -/
  cc : ℕ
  dp : TdDp
  t : TdToggle
  /-- `TD_R`: a short packet is no error. -/
  r : Bool
  /-- `TD_ISO`: the word belongs to an isochronous TD, and its low half is
  the frame number. -/
  iso : Bool
  frame : ℕ
deriving DecidableEq, Repr, Inhabited

/-- **A transfer descriptor**, `td_t`. -/
structure Td where
  hwINFO : TdInfo
  hwCBP : ℕ
  hwNextTD : TdPtr
  hwBE : ℕ
  /-- The one status word `hwPSW[0]`. -/
  hwPSW : ℕ
  index : ℕ
  ed : EdPtr
  nextDlTd : TdPtr
  urb : UrbPtr
deriving DecidableEq, Repr, Inhabited

/-- The values of `urb->status`: `0` and the error codes the driver stores,
without their minus sign. -/
inductive Status
  | ok
  | eilseq
  | eproto
  | epipe
  | etimedout
  | eoverflow
  | eremoteio
  | ecomm
  | einprogress
  | enoent
  | econnreset
  | exdev
deriving DecidableEq, Repr, Inhabited

/-- What the code reads of a `pipe` word. -/
structure Pipe where
  type : PipeType
  device : ℕ
  endpoint : ℕ
  out : Bool
  slow : Bool
deriving DecidableEq, Repr, Inhabited

/-- One packet of an isochronous request, `iso_frame_desc[i]`. -/
structure IsoFrame where
  offset : ℕ
  length : ℕ
  actualLength : ℕ
  status : Status
deriving DecidableEq, Repr, Inhabited

/-- **The private part of a URB**, `urb_priv_t`, with the two pointers of
`Portable_Extra_t`. -/
structure UrbPriv where
  ed : EdPtr
  length : ℕ
  tdCnt : ℕ
  /-- `state == URB_DEL`. -/
  urbDel : Bool
  /-- `portable.transfer_buffer`: the bounce buffer, in the memory the
  controller reaches. -/
  transferBuffer : ℕ
  /-- `portable.setup_packet`. -/
  setupPacket : ℕ
  /-- `td[]`. -/
  td : ℕ → TdPtr
deriving Inhabited

/-- **A request block**, `urb_t`. -/
structure Urb where
  pipe : Pipe
  dev : DevPtr
  /-- Whether `urb->complete` is set. -/
  complete : Bool
  /-- Whether following `urb->next` leads back to the URB itself. -/
  ring : Bool
  /-- `USB_ASYNC_UNLINK` in `transfer_flags`. -/
  asyncUnlink : Bool
  /-- `USB_DISABLE_SPD` in `transfer_flags`. -/
  disableSpd : Bool
  /-- `USB_ISO_ASAP` in `transfer_flags`. -/
  isoAsap : Bool
  interval : ℕ
  transferBufferLength : ℕ
  /-- The contents of the caller's `transfer_buffer`. -/
  transferBuffer : ℕ → UInt8
  /-- The contents of the caller's `setup_packet`, when there is one. -/
  setupPacket : Option (ℕ → UInt8)
  status : Status
  actualLength : ℤ
  startFrame : ℕ
  numberOfPackets : ℕ
  isoFrameDesc : ℕ → IsoFrame
  /-- `hcpriv`, `none` for the null pointer. -/
  hcpriv : Option UrbPriv
deriving Inhabited

/-- What the driver reads and writes of a `struct usb_device` and of the
`struct ohci_device` behind its `hcpriv`. -/
structure UsbDev where
  /-- Where the array `ed[NUM_EDS]` of the `ohci_device` begins. -/
  edBase : EdPtr
  edCnt : ℤ
  /-- The use count `usb_inc_dev_use` and `usb_dec_dev_use` maintain. -/
  useCnt : ℤ
  /-- The toggle bits, by endpoint and direction. -/
  toggle : ℕ → Bool → Bool
  /-- `usb_maxpacket`, by endpoint and direction. -/
  maxpacket : ℕ → Bool → ℕ
  /-- The bits `usb_endpoint_halt` sets. -/
  halted : ℕ → Bool → Bool
deriving Inhabited

/-- What the outside sees of a run: the calls the driver makes to the USB
core and to the drivers above it. -/
inductive Event
  /-- `sohci_return_urb (urb)`, with the status and length it hands over. -/
  | returnUrb (u : UrbPtr) (status : Status) (len : ℤ)
  /-- `urb->complete (urb)`. -/
  | complete (u : UrbPtr) (status : Status) (len : ℤ)
  /-- `usb_inc_dev_use (urb->dev)`. -/
  | incDevUse (u : UrbPtr)
  /-- `usb_dec_dev_use (urb->dev)`. -/
  | decDevUse (u : UrbPtr)
  /-- `td_submit_urb (urb)`. -/
  | submitTds (u : UrbPtr)
  /-- `wake_up (&op_wakeup)`. -/
  | wakeUp
deriving DecidableEq, Repr

/-- **The memory shared by the driver and the controller**: the HCCA, the
registers and the fields of `ohci_t`, then one map for each kind of
object. -/
structure Ohci where
  /-- `hcca.int_table`, of which the entries below 32 exist. -/
  intTable : ℕ → EdPtr
  /-- `hcca.frame_no`. -/
  frameNo : ℕ
  /-- `hcca.done_head`. -/
  doneHead : TdPtr
  /-- The register `ed_controlhead`. -/
  edControlhead : EdPtr
  /-- The register `ed_bulkhead`. -/
  edBulkhead : EdPtr
  /-- The register `donehead`: the controller's own done queue. -/
  regDonehead : TdPtr
  /-- Whether the SF interrupt is enabled in `intrenable`. -/
  intrSf : Bool
  /-- `OHCI_CTRL_CLE` of `hc_control`. -/
  cle : Bool
  /-- `OHCI_CTRL_BLE` of `hc_control`. -/
  ble : Bool
  disabled : Bool
  /-- `rh.devnum`. -/
  rhDevnum : ℕ
  ohciIntLoad : ℕ → ℤ
  /-- `ed_rm_list`, indexed by the parity of a frame number. -/
  edRmList : Bool → EdPtr
  edBulktail : EdPtr
  edControltail : EdPtr
  edIsotail : EdPtr
  /-- `dev[]`, by device address. -/
  dev : ℕ → DevPtr
  ed : EdPtr → Ed
  td : TdPtr → Td
  urb : UrbPtr → Urb
  usbDev : DevPtr → UsbDev
  /-- The memory the controller reaches. -/
  iop : ℕ → UInt8
  /-- Which TD blocks `OHCI_ALLOC` has handed out and `OHCI_FREE` not taken
  back. -/
  tdAlloc : TdPtr → Bool
  /-- The calls made so far, the latest first. -/
  trace : List Event
deriving Inhabited

namespace Ohci

/-! ## Reading and writing memory -/

/-- Write fields of an ED. -/
def modEd (o : Ohci) (e : EdPtr) (f : Ed → Ed) : Ohci :=
  { o with ed := Function.update o.ed e (f (o.ed e)) }

/-- Write fields of a TD. -/
def modTd (o : Ohci) (t : TdPtr) (f : Td → Td) : Ohci :=
  { o with td := Function.update o.td t (f (o.td t)) }

/-- Write fields of a URB. -/
def modUrb (o : Ohci) (u : UrbPtr) (f : Urb → Urb) : Ohci :=
  { o with urb := Function.update o.urb u (f (o.urb u)) }

/-- Write fields of a device. -/
def modDev (o : Ohci) (d : DevPtr) (f : UsbDev → UsbDev) : Ohci :=
  { o with usbDev := Function.update o.usbDev d (f (o.usbDev d)) }

/-- Write fields of the private part of a URB, if it has one. -/
def modPriv (o : Ohci) (u : UrbPtr) (f : UrbPriv → UrbPriv) : Ohci :=
  o.modUrb u (fun r => { r with hcpriv := r.hcpriv.map f })

/-- Record a call. -/
def log (o : Ohci) (ev : Event) : Ohci := { o with trace := ev :: o.trace }

/-- The link that chains EDs for the controller. -/
abbrev nextED (o : Ohci) (e : EdPtr) : EdPtr := (o.ed e).hwNextED

/-- The link that chains TDs for the controller. -/
abbrev nextTD (o : Ohci) (t : TdPtr) : TdPtr := (o.td t).hwNextTD

/-- The parity of the current frame number, `frame_no & 1`. -/
def frame (o : Ohci) : Bool := o.frameNo % 2 = 1

section Simp

variable (o : Ohci) (e x : EdPtr) (t y : TdPtr) (u z : UrbPtr) (d w : DevPtr)
  (f : Ed → Ed) (g : Td → Td) (h : Urb → Urb) (k : UsbDev → UsbDev) (ev : Event)

theorem modEd_ed : (o.modEd e f).ed x = if x = e then f (o.ed e) else o.ed x := by
  simp only [modEd, Function.update_apply]

@[simp] theorem modEd_ed_self : (o.modEd e f).ed e = f (o.ed e) := by
  rw [modEd_ed, if_pos rfl]

theorem modEd_ed_of_ne (hx : x ≠ e) : (o.modEd e f).ed x = o.ed x := by
  rw [modEd_ed, if_neg hx]

theorem modTd_td : (o.modTd t g).td y = if y = t then g (o.td t) else o.td y := by
  simp only [modTd, Function.update_apply]

@[simp] theorem modTd_td_self : (o.modTd t g).td t = g (o.td t) := by
  rw [modTd_td, if_pos rfl]

theorem modTd_td_of_ne (hy : y ≠ t) : (o.modTd t g).td y = o.td y := by
  rw [modTd_td, if_neg hy]

theorem modUrb_urb : (o.modUrb u h).urb z = if z = u then h (o.urb u) else o.urb z := by
  simp only [modUrb, Function.update_apply]

@[simp] theorem modUrb_urb_self : (o.modUrb u h).urb u = h (o.urb u) := by
  rw [modUrb_urb, if_pos rfl]

/-- Writing back what is there. -/
theorem modUrb_eq_self (hself : h (o.urb u) = o.urb u) : o.modUrb u h = o := by
  unfold modUrb
  rw [hself, Function.update_eq_self]

@[simp] theorem modEd_td : (o.modEd e f).td = o.td := rfl
@[simp] theorem modEd_urb : (o.modEd e f).urb = o.urb := rfl
@[simp] theorem modTd_ed : (o.modTd t g).ed = o.ed := rfl
@[simp] theorem modTd_urb : (o.modTd t g).urb = o.urb := rfl
@[simp] theorem modUrb_ed : (o.modUrb u h).ed = o.ed := rfl
@[simp] theorem modUrb_td : (o.modUrb u h).td = o.td := rfl
@[simp] theorem modDev_ed : (o.modDev d k).ed = o.ed := rfl
@[simp] theorem modDev_td : (o.modDev d k).td = o.td := rfl
@[simp] theorem modDev_urb : (o.modDev d k).urb = o.urb := rfl
@[simp] theorem modEd_iop : (o.modEd e f).iop = o.iop := rfl
@[simp] theorem modTd_iop : (o.modTd t g).iop = o.iop := rfl
@[simp] theorem modUrb_iop : (o.modUrb u h).iop = o.iop := rfl
@[simp] theorem log_iop : (o.log ev).iop = o.iop := rfl
@[simp] theorem log_ed : (o.log ev).ed = o.ed := rfl
@[simp] theorem log_td : (o.log ev).td = o.td := rfl
@[simp] theorem log_urb : (o.log ev).urb = o.urb := rfl

theorem modPriv_urb_self (p : UrbPriv → UrbPriv) :
    (o.modPriv u p).urb u = { o.urb u with hcpriv := (o.urb u).hcpriv.map p } := by
  rw [modPriv, modUrb_urb_self]

@[simp] theorem modPriv_ed (p : UrbPriv → UrbPriv) : (o.modPriv u p).ed = o.ed := rfl
@[simp] theorem modPriv_td (p : UrbPriv → UrbPriv) : (o.modPriv u p).td = o.td := rfl

/-- Two writes to one TD are one. -/
theorem modTd_modTd (g' : Td → Td) :
    (o.modTd t g).modTd t g' = o.modTd t (fun r => g' (g r)) := by
  simp only [modTd, Function.update_self, Function.update_idem]

/-- Writes to EDs and to TDs commute. -/
theorem modEd_modTd : (o.modEd e f).modTd t g = (o.modTd t g).modEd e f := rfl

end Simp

end Ohci
