import SideDumper.RootHubStatus

/-!
# Requests to the root hub

`rh_submit_urb` answers a control request from the registers of the root hub.
A request to a port takes the port from `wIndex`, whose numbers begin with 1,
and uses `portstatus[wIndex-1]` without looking whether there is such a port;
with `wIndex` 0 that is the register `status`.
-/

/-- An access to a register. -/
inductive HubAccess
  | readl (r : HubReg)
  | writel (v : UInt32) (r : HubReg)
deriving DecidableEq, Repr

/-- The register of an access. -/
def HubAccess.reg : HubAccess → HubReg
  | .readl r => r
  | .writel _ r => r

/-- **`devrequest`**, a setup packet. -/
structure DevRequest where
  bmRTypeBReq : ℕ
  wValue : ℕ
  wIndex : ℕ
  wLength : ℕ
deriving DecidableEq, Repr

/-- The fields of a setup packet, of which those of 16 bits are little-endian. -/
def devRequest (packet : ℕ → UInt8) : DevRequest where
  bmRTypeBReq := (packet 0).toNat ||| (packet 1).toNat <<< 8
  wValue := (packet 2).toNat + 256 * (packet 3).toNat
  wIndex := (packet 4).toNat + 256 * (packet 5).toNat
  wLength := (packet 6).toNat + 256 * (packet 7).toNat

/-- **The requests that `rh_submit_urb` knows.** -/
inductive RhRequest
  | getStatus
  | getStatusInterface
  | getStatusEndpoint
  | getStatusClass
  | getStatusOther
  | clearFeatureEndpoint
  | clearFeatureClass
  | clearFeatureOther
  | setFeatureOther
  | setAddress
  | getDescriptor
  | getDescriptorClass
  | getConfiguration
  | setConfiguration
deriving DecidableEq, Repr

/-- The cases of the `switch`. -/
def rhRequest : ℕ → Option RhRequest
  | 0x0080 => some .getStatus
  | 0x0081 => some .getStatusInterface
  | 0x0082 => some .getStatusEndpoint
  | 0x00a0 => some .getStatusClass
  | 0x00a3 => some .getStatusOther
  | 0x0102 => some .clearFeatureEndpoint
  | 0x0120 => some .clearFeatureClass
  | 0x0123 => some .clearFeatureOther
  | 0x0323 => some .setFeatureOther
  | 0x0500 => some .setAddress
  | 0x0680 => some .getDescriptor
  | 0x06a0 => some .getDescriptorClass
  | 0x0880 => some .getConfiguration
  | 0x0900 => some .setConfiguration
  | _ => none

/-- A request to a port: the destination is `RH_OTHER | RH_CLASS`. -/
def RhRequest.port : RhRequest → Bool
  | .getStatusOther | .clearFeatureOther | .setFeatureOther => true
  | _ => false

/-- **`usb_root_hub_string`**, which is not part of the driver: the bytes it
writes to a buffer of some length for the index of a string. -/
structure RootHubString where
  string : ℕ → ℕ → List UInt8
  length_le : ∀ id len, (string id len).length ≤ len

/-- **What a request is answered with**: the bytes prepared for it, whether
they are in the buffer of the URB already, `len`, `status`, the accesses to the
registers, and the new `rh.devnum` if there is one. -/
structure RhAnswer where
  response : List UInt8 := []
  inPlace : Bool := false
  len : ℕ := 0
  status : ℕ := 0
  accesses : List HubAccess := []
  devnum : Option ℕ := none
deriving DecidableEq, Repr

/-- `TD_CC_STALL`. -/
def tdCcStall : ℕ := 4

/-- `cpu_to_le32`, as bytes. -/
def le32 (w : UInt32) : List UInt8 :=
  [w.toUInt8, (w >>> 8).toUInt8, (w >>> 16).toUInt8, (w >>> 24).toUInt8]

/-- `root_hub_dev_des`. -/
def rootHubDevDes : List UInt8 :=
  [0x12, 0x01, 0x10, 0x01, 0x09, 0x00, 0x00, 0x08, 0x00, 0x00, 0x00, 0x00, 0x00, 0x00, 0x00,
    0x02, 0x01, 0x01]

/-- `root_hub_config_des`. -/
def rootHubConfigDes : List UInt8 :=
  [0x09, 0x02, 0x19, 0x00, 0x01, 0x01, 0x00, 0x40, 0x00,
    0x09, 0x04, 0x00, 0x00, 0x01, 0x09, 0x00, 0x00, 0x00,
    0x07, 0x05, 0x81, 0x03, 0x02, 0x00, 0xff]

/-- The hub descriptor, from `roothub.a` and `roothub.b`. -/
def hubDescriptor (a b : UInt32) : List UInt8 :=
  let ports := (a &&& 0xff).toUInt8
  let switching : UInt8 := if a &&& 0x100 ≠ 0 then 0x1 else 0
  let overcurrent : UInt8 := if a &&& 0x1000 ≠ 0 then 0x10 else if a &&& 0x800 ≠ 0 then 0x8 else 0
  let front := [0x29, ports, switching ||| overcurrent, 0, ((a &&& 0xff000000) >>> 24).toUInt8, 0,
    (b &&& 0xffff).toUInt8]
  if ports < 7 then 9 :: front ++ [0xff] else 11 :: front ++ [((b &&& 0xffff) >>> 8).toUInt8,
    0xff, 0xff]

/-- What a `ClearPortFeature` writes. -/
def clearPortFeature : ℕ → Option UInt32
  | 0x01 => some 0x00000001
  | 0x02 => some 0x00000008
  | 0x08 => some 0x00000200
  | 0x10 => some 0x00010000
  | 0x11 => some 0x00020000
  | 0x12 => some 0x00040000
  | 0x13 => some 0x00080000
  | 0x14 => some 0x00100000
  | _ => none

/-- What a `SetPortFeature` writes, and whether it does so only when
`RH_PS_CCS` is set. -/
def setPortFeature : ℕ → Option (UInt32 × Bool)
  | 0x02 => some (0x00000004, false)
  | 0x04 => some (0x00000010, true)
  | 0x08 => some (0x00000100, false)
  | 0x01 => some (0x00000002, true)
  | _ => none

/-- **The `switch` of `rh_submit_urb`**, for a transfer buffer of `leni`
bytes. -/
def rhSwitch (regs : RootHubRegs) (hubString : RootHubString) (leni : ℕ) (cmd : DevRequest) :
    RhAnswer :=
  -- `RD_RH_PORTSTAT` and `WR_RH_PORTSTAT`
  let port : HubReg := .portstatus ((cmd.wIndex : ℤ) - 1)
  match rhRequest cmd.bmRTypeBReq with
  | some .getStatus => { response := [1, 0], len := 2 }
  | some .getStatusInterface | some .getStatusEndpoint => { response := [0, 0], len := 2 }
  | some .getStatusClass =>
    { response := le32 (regs.readl .status &&& ~~~(0x80000000 ||| 0x00008000)), len := 4,
      accesses := [.readl .status] }
  | some .getStatusOther =>
    { response := le32 (regs.readl port), len := 4, accesses := [.readl port] }
  | some .clearFeatureEndpoint => {}
  | some .clearFeatureClass =>
    if cmd.wValue = 0x01 then { accesses := [.writel 0x00020000 .status] } else {}
  | some .clearFeatureOther =>
    match clearPortFeature cmd.wValue with
    | some v => { accesses := [.writel v port] }
    | none => {}
  | some .setFeatureOther =>
    match setPortFeature cmd.wValue with
    | some (v, false) => { accesses := [.writel v port] }
    | some (v, true) =>
      { accesses :=
          .readl port :: if regs.readl port &&& 0x00000001 ≠ 0 then [.writel v port] else [] }
    | none => {}
  | some .setAddress => { devnum := some cmd.wValue }
  | some .getDescriptor =>
    match cmd.wValue / 256 with
    | 0x01 =>
      { response := rootHubDevDes, len := min leni (min rootHubDevDes.length cmd.wLength) }
    | 0x02 =>
      { response := rootHubConfigDes, len := min leni (min rootHubConfigDes.length cmd.wLength) }
    | 0x03 =>
      let string := hubString.string (cmd.wValue % 256) cmd.wLength
      if 0 < string.length then
        { response := string, inPlace := true, len := min leni string.length }
      else { status := tdCcStall }
    | _ => { status := tdCcStall }
  | some .getDescriptorClass =>
    let response := hubDescriptor (regs.readl .a) (regs.readl .b)
    { response := response, len := min leni (min (response.headD 0).toNat cmd.wLength),
      accesses := [.readl .a, .readl .b] }
  | some .getConfiguration => { response := [1], len := 1 }
  | some .setConfiguration => { accesses := [.writel 0x10000 .status] }
  | none => { status := tdCcStall }

/-- **`rh_submit_urb` for a control request**, whose setup packet is
`packet`. -/
def rhSubmitControl (regs : RootHubRegs) (hubString : RootHubString) (rh : VirtRootHub) (o : Ohci)
    (u : UrbPtr)
    (packet : ℕ → UInt8) : VirtRootHub × Ohci :=
  let leni := (o.urb u).transferBufferLength
  let answer := rhSwitch regs hubString leni (devRequest packet)
  let len := min answer.len leni
  -- A string has been written to the buffer already, as far as it goes.
  let copied := if answer.inPlace then answer.response else answer.response.take len
  let o := { o with rhDevnum := answer.devnum.getD o.rhDevnum }
  let o :=
    o.modUrb u (fun r => { r with transferBuffer := fun k => copied.getD k (r.transferBuffer k) })
  rhSubmitUrb rh o u len (ccToError answer.status)

/-! ## What is touched -/

/-- A request to a port. -/
def DevRequest.ToPort (cmd : DevRequest) : Prop := ∃ q, rhRequest cmd.bmRTypeBReq = some q ∧
  q.port = true

/-- The port that `wIndex` names is there. -/
def DevRequest.PortExists (regs : RootHubRegs) (cmd : DevRequest) : Prop :=
  1 ≤ cmd.wIndex ∧ cmd.wIndex ≤ regs.numPorts

/-- **A request touches only what exists**: the registers of ports that are
there, none for a request to another port, which is answered with a stall, and
as many bytes as the response and the buffer of the URB have, which becomes
`actual_length`. -/
def TouchesExisting (regs : RootHubRegs) (hubString : RootHubString) (rh : VirtRootHub) (o : Ohci)
    (u : UrbPtr)
    (packet : ℕ → UInt8) : Prop :=
  let cmd := devRequest packet
  let leni := (o.urb u).transferBufferLength
  let answer := rhSwitch regs hubString leni cmd
  let o' := (rhSubmitControl regs hubString rh o u packet).2
  (∀ k, ∀ x ∈ answer.accesses, x.reg = .portstatus k → 0 ≤ k ∧ k < regs.numPorts) ∧
    (cmd.ToPort → ¬ cmd.PortExists regs → (o'.urb u).status = ccToError tdCcStall ∧
      ∀ v r, .writel v r ∉ answer.accesses) ∧
    0 ≤ (o'.urb u).actualLength ∧ (o'.urb u).actualLength ≤ leni ∧
      (o'.urb u).actualLength ≤ answer.response.length

section Requests

variable {regs : RootHubRegs} {hubString : RootHubString} {leni : ℕ} {cmd : DevRequest}
    {rh : VirtRootHub}
  {o : Ohci} {u : UrbPtr} {packet : ℕ → UInt8}

theorem length_hubDescriptor (a b : UInt32) :
    (hubDescriptor a b).length = ((hubDescriptor a b).headD 0).toNat := by
  unfold hubDescriptor
  dsimp only
  split <;> rfl

/-- **No more is copied than has been prepared.** -/
theorem rhSwitch_len_le (regs : RootHubRegs) (hubString : RootHubString) (leni : ℕ)
    (cmd : DevRequest) :
    (rhSwitch regs hubString leni cmd).len
      ≤ (rhSwitch regs hubString leni cmd).response.length := by
  unfold rhSwitch
  dsimp only
  cases rhRequest cmd.bmRTypeBReq with
  | none => exact Nat.le_refl 0
  | some q =>
    cases q with
    | getStatus | getStatusInterface | getStatusEndpoint | getConfiguration => exact Nat.le_refl _
    | getStatusClass | getStatusOther => exact Nat.le_refl 4
    | clearFeatureEndpoint | setAddress | setConfiguration => exact Nat.le_refl 0
    | clearFeatureClass => dsimp only; split <;> exact Nat.le_refl 0
    | clearFeatureOther => dsimp only; split <;> exact Nat.le_refl 0
    | setFeatureOther => dsimp only; split <;> exact Nat.le_refl 0
    | getDescriptor =>
      dsimp only
      split
      · exact (Nat.min_le_right _ _).trans (Nat.min_le_left _ _)
      · exact (Nat.min_le_right _ _).trans (Nat.min_le_left _ _)
      · split
        · exact Nat.min_le_right _ _
        · exact Nat.le_refl 0
      · exact Nat.le_refl 0
    | getDescriptorClass =>
      dsimp only
      rw [length_hubDescriptor]
      exact (Nat.min_le_right _ _).trans (Nat.min_le_left _ _)

/-- **The registers of ports** are used for requests to a port alone, and only
that of the port named. -/
theorem rhSwitch_portstatus {k : ℤ} {x : HubAccess}
    (hx : x ∈ (rhSwitch regs hubString leni cmd).accesses)
    (hk : x.reg = .portstatus k) : cmd.ToPort ∧ k = (cmd.wIndex : ℤ) - 1 := by
  have hport : ∀ {q}, rhRequest cmd.bmRTypeBReq = some q → q.port = true →
      x.reg = .portstatus ((cmd.wIndex : ℤ) - 1) → cmd.ToPort ∧ k = (cmd.wIndex : ℤ) - 1 := by
    intro q hq hp hreg
    rw [hk, HubReg.portstatus.injEq] at hreg
    exact ⟨⟨q, hq, hp⟩, hreg⟩
  have hone : ∀ {y : HubAccess}, x ∈ [y] → x.reg = y.reg :=
    fun hy => congrArg _ (List.mem_singleton.mp hy)
  unfold rhSwitch at hx
  dsimp only at hx
  cases hq : rhRequest cmd.bmRTypeBReq with
  | none =>
    rw [hq] at hx
    cases hx
  | some q =>
    rw [hq] at hx
    cases q with
    | getStatus | getStatusInterface | getStatusEndpoint | getConfiguration => cases hx
    | clearFeatureEndpoint | setAddress => cases hx
    | getStatusClass | setConfiguration =>
      rw [hone hx] at hk
      cases hk
    | getStatusOther => exact hport hq rfl (hone hx)
    | clearFeatureClass =>
      dsimp only at hx
      split at hx
      · rw [hone hx] at hk
        cases hk
      · cases hx
    | clearFeatureOther =>
      dsimp only at hx
      split at hx
      · exact hport hq rfl (hone hx)
      · cases hx
    | setFeatureOther =>
      dsimp only at hx
      split at hx
      · exact hport hq rfl (hone hx)
      · rcases List.mem_cons.mp hx with rfl | hx
        · exact hport hq rfl rfl
        · split at hx
          · exact hport hq rfl (hone hx)
          · cases hx
      · cases hx
    | getDescriptor =>
      dsimp only at hx
      split at hx
      · cases hx
      · cases hx
      · split at hx <;> cases hx
      · cases hx
    | getDescriptorClass =>
      rcases List.mem_cons.mp hx with rfl | hx
      · cases hk
      · rw [hone hx] at hk
        cases hk

/-- A request to a port is never answered with a stall. -/
theorem rhSwitch_status_of_toPort (h : cmd.ToPort) :
    (rhSwitch regs hubString leni cmd).status = 0 := by
  obtain ⟨q, hq, hp⟩ := h
  unfold rhSwitch
  rw [hq]
  cases q with
  | getStatusOther => rfl
  | clearFeatureOther => dsimp only; split <;> rfl
  | setFeatureOther => dsimp only; split <;> rfl
  | _ => cases hp

/-- What `rh_submit_urb` enters in the URB of a control request. -/
theorem rhSubmitUrb_control {len : ℕ} {status : Status} (hpipe : (o.urb u).pipe.type ≠ .int) :
    (rhSubmitUrb rh o u len status).2.urb u
      = { o.urb u with actualLength := len, status := status } := by
  unfold rhSubmitUrb
  rw [if_neg hpipe]
  dsimp only
  split
  · rw [callComplete_urb, Ohci.modUrb_urb_self]
  · rw [Ohci.modUrb_urb_self]

/-- What is in the URB afterwards. -/
theorem rhSubmitControl_urb (regs : RootHubRegs) (hubString : RootHubString) (rh : VirtRootHub)
    (packet : ℕ → UInt8) (hpipe : (o.urb u).pipe.type ≠ .int) :
    (((rhSubmitControl regs hubString rh o u packet).2.urb u).actualLength
        = ((min (rhSwitch regs hubString (o.urb u).transferBufferLength (devRequest packet)).len
          (o.urb u).transferBufferLength : ℕ) : ℤ)) ∧
      ((rhSubmitControl regs hubString rh o u packet).2.urb u).status
        = ccToError (rhSwitch regs hubString (o.urb u).transferBufferLength
          (devRequest packet)).status := by
  unfold rhSubmitControl
  dsimp only
  rw [rhSubmitUrb_control (by rw [Ohci.modUrb_urb_self]; exact hpipe)]
  exact ⟨rfl, rfl⟩

/-- **When a request touches only what exists**: it is not one to a port, or
`wIndex` names a port that is there. -/
theorem touchesExisting_iff (regs : RootHubRegs) (hubString : RootHubString)
    (rh : VirtRootHub) (o : Ohci)
    (u : UrbPtr) (packet : ℕ → UInt8) (hpipe : (o.urb u).pipe.type ≠ .int) :
    TouchesExisting regs hubString rh o u packet ↔
      ((devRequest packet).ToPort → (devRequest packet).PortExists regs) := by
  obtain ⟨hlen, hstatus⟩ := rhSubmitControl_urb regs hubString rh packet hpipe
  have hle := rhSwitch_len_le regs hubString (o.urb u).transferBufferLength (devRequest packet)
  unfold TouchesExisting
  dsimp only
  rw [hlen, hstatus]
  constructor
  · rintro ⟨-, hstall, -⟩ hto
    by_contra hnot
    have h := (hstall hto hnot).1
    rw [rhSwitch_status_of_toPort hto] at h
    exact absurd h (by decide)
  · intro hexists
    refine ⟨fun k x hx hk => ?_, fun hto hnot =>
      absurd (hexists hto) hnot, by omega, by omega, by omega⟩
    obtain ⟨hto, rfl⟩ := rhSwitch_portstatus hx hk
    obtain ⟨h1, hn⟩ := hexists hto
    omega

end Requests

/-- A URB for a control request with a buffer of some length. -/
def Ohci.hubControl (leni : ℕ) : Ohci :=
  { (default : Ohci) with
    urb := fun _ =>
      { (default : Urb) with pipe := ⟨.ctrl, 1, 0, false, true⟩, transferBufferLength := leni } }

/-- A hub without strings. -/
def noStrings : RootHubString := ⟨fun _ _ => [], fun _ _ => Nat.zero_le _⟩

/-- `GetHubDescriptor` with 15 bytes at most. -/
def getHubDescriptor : ℕ → UInt8 :=
  fun k => [0xa0, 0x06, 0x00, 0x29, 0x00, 0x00, 0x0f, 0x00].getD k 0

/-- `ClearPortFeature(C_PORT_CONNECTION)` for port 0, which is none. -/
def clearPortZero : ℕ → UInt8 :=
  fun k => [0x23, 0x01, 0x10, 0x00, 0x00, 0x00, 0x00, 0x00].getD k 0

theorem touchesExisting_hubDescriptor :
    TouchesExisting connected noStrings default (Ohci.hubControl 8) 1 getHubDescriptor := by
  refine (touchesExisting_iff connected noStrings default (Ohci.hubControl 8) 1 getHubDescriptor
    (by decide)).mpr ?_
  rintro ⟨q, hq, hp⟩
  cases hq
  cases hp

/-- `RH_PS_CSC` is written to the register in front of `portstatus`. -/
theorem not_touchesExisting :
    ¬ ∀ (regs : RootHubRegs) (hubString : RootHubString) (rh : VirtRootHub) (o : Ohci)
    (u : UrbPtr) (packet : ℕ → UInt8), (o.urb u).pipe.type ≠ .int →
    TouchesExisting regs hubString rh o u packet := by
  intro h
  have htouch :=
    (h connected noStrings default (Ohci.hubControl 8) 1 clearPortZero (by decide)).1 (-1)
    (.writel 0x00010000 (.portstatus (-1))) (by decide) rfl
  exact absurd htouch.1 (by decide)
