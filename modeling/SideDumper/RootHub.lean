import SideDumper.Requests

/-!
# The virtual root hub

Requests to the root hub never reach the controller. A control request is
answered on the spot, from the port registers; an interrupt request is kept in
`ohci->rh`, and a timer looks at the ports for it. What the request table of
`rh_submit_urb` makes of a setup packet is an argument here: the length of the
answer and the status.
-/

/-- What the driver keeps of the root hub, `struct virt_root_hub`. -/
structure VirtRootHub where
  urb : UrbPtr
  send : Bool
  interval : ℕ
  /-- Whether `rh_int_timer` is running. -/
  timer : Bool
deriving DecidableEq, Repr, Inhabited

/-- **`rh_submit_urb`.** It returns 0 in all cases. -/
def rhSubmitUrb (rh : VirtRootHub) (o : Ohci) (u : UrbPtr) (len : ℕ) (status : Status) :
    VirtRootHub × Ohci :=
  if (o.urb u).pipe.type = .int then
    ({ urb := u, send := true, interval := (o.urb u).interval, timer := true },
      o.modUrb u (fun r => { r with status := .ok }))
  else
    let o := o.modUrb u (fun r => { r with actualLength := len, status := status })
    (rh, if (o.urb u).complete then callComplete o u else o)

/-- **`rh_unlink_urb`.** -/
def rhUnlinkUrb (rh : VirtRootHub) (u : UrbPtr) : VirtRootHub :=
  if rh.urb = u then { rh with send := false, timer := false } else rh
