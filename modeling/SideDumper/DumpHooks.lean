import SideDumper.DumpTraffic
import SideDumper.LogReader

/-!
# What the hooks capture

`SideDumper_OnSubmit` and `SideDumper_OnReturn` look up the device of a request
and capture it, if it goes in their direction, as a `SideDumper_TMiniUrb`:
`InitMini` copies what is of interest, with the transfer buffer, because the
request may be gone when it is dumped. Without `oAsync` it is dumped at once; with
it, it becomes a work item, and the worker dumps it later, with the settings that
are there by then.

Here are both hooks with all they copy, and `sohci_return_urb` with its hook.
`DumpTraffic` has the same hooks without the data.
-/

/-- **`SideDumper_TMiniUrb`** with its copy, `none` for the null pointer. -/
structure TMiniUrb extends MiniUrb where
  transferBuffer : Option Bytes

/-- What `g_Inst` holds that the hooks and the worker use, with the dumps that
have been made, the first one first. -/
structure Inst where
  uUrbNumGenerator : ℕ
  aDevSettings : DevSettings
  /-- The work items of `Queue.list`. -/
  queue : List TMiniUrb
  dumps : List UrbDump

/-- **What a hook meets**: the numbers of the devices, and what `kmalloc` has. -/
structure HookEnv where
  devnum : DevPtr → ℕ
  /-- Whether there is memory for a work item. -/
  item : Bool
  /-- What the memory of the `Mini` holds where the setup packet goes. -/
  left : Bytes
  /-- The memory for the copy, with what it holds. -/
  heap : Option Bytes
  /-- The passes of the loop over the descriptors. -/
  passes : ℕ

/-- An `int` that is taken as an `unsigned int`. -/
def asUnsigned (z : ℤ) : ℕ := (z % 0x100000000).toNat

/-- **`InitMini`**, for a request that has a transfer buffer. There is no answer
when `kmalloc` has no memory: the copy then goes to the null pointer. -/
def initMini (number : ℕ) (env : HookEnv) (r : Urb) : Option TMiniUrb :=
  let m : MiniUrb := {
    uUrbNumber := number
    devnum := env.devnum r.dev
    pipe := r.pipe
    transferBufferLength := r.transferBufferLength
    actualLength := asUnsigned r.actualLength
    setupPacket := fun i =>
      match r.setupPacket with
      | some packet => if i < 8 then packet i else env.left i
      | none => env.left i }
  let uTbBytes := if r.pipe.out then r.transferBufferLength else asUnsigned r.actualLength
  if uTbBytes ≠ 0 then
    env.heap.map fun heap => ⟨m, some fun j => if j < uTbBytes then r.transferBuffer j
      else heap j⟩
  else some ⟨m, none⟩

/-- The dump of a `Mini`. Where the copy is missing it has no bytes. -/
def TMiniUrb.dump (c : TMiniUrb) (passes : ℕ) (s : DeviceSettings) : UrbDump :=
  ⟨passes, s, c.toMiniUrb, c.transferBuffer.getD fun _ => 0⟩

namespace Inst

/-- **`ProcessMini`**: the dumper function is called if there is one. -/
def processMini (g : Inst) (passes : ℕ) (c : TMiniUrb) : Inst :=
  let s := g.aDevSettings c.devnum
  if s.oEnabled ≠ 0 ∧ s.pfnDumper ≠ 0 then
    { g with dumps := g.dumps ++ [c.dump passes s.toDeviceSettings] }
  else g

/-- **`QueueUrb`.** -/
def queueUrb (g : Inst) (env : HookEnv) (r : Urb) : Option Inst :=
  if !env.item then some g
  else do
    let c ← initMini g.uUrbNumGenerator env r
    some { g with
      uUrbNumGenerator := (g.uUrbNumGenerator + 1) % 0x100000000
      queue := g.queue ++ [c] }

/-- **`ProcessUrb`.** -/
def processUrb (g : Inst) (env : HookEnv) (r : Urb) : Option Inst := do
  let c ← initMini g.uUrbNumGenerator env r
  some ({ g with uUrbNumGenerator := (g.uUrbNumGenerator + 1) % 0x100000000 }.processMini
    env.passes c)

/-- What the two hooks have in common; they are for one direction each. -/
def hook (out : Bool) (g : Inst) (env : HookEnv) (r : Urb) : Option Inst :=
  let n := env.devnum r.dev
  if r.dev ≠ 0 ∧ n < 16 ∧ (g.aDevSettings n).oEnabled ≠ 0 then
    if r.pipe.out = out then
      if (g.aDevSettings n).oAsync ≠ 0 then g.queueUrb env r else g.processUrb env r
    else some g
  else some g

/-- **`SideDumper_OnSubmit`.** -/
def onSubmit : Inst → HookEnv → Urb → Option Inst := hook true

/-- **`SideDumper_OnReturn`.** -/
def onReturn : Inst → HookEnv → Urb → Option Inst := hook false

/-- A pass of the worker: the first work item is dumped. -/
def workerPass (g : Inst) (passes : ℕ) : Inst :=
  match g.queue with
  | [] => g
  | c :: cs => { g with queue := cs }.processMini passes c

end Inst

/-- **`sohci_return_urb`** up to and including the completion callback, with its
hook. -/
def sohciReturnUrb (g : Inst) (env : HookEnv) (o : Ohci) (u : UrbPtr) :
    Option (Inst × Ohci × Bool) :=
  if !(o.urb u).complete then some (g, decDevUse (urbRmPriv o u) u, false)
  else
    match (o.urb u).hcpriv with
    | none => some (g, o, false)
    | some p => do
      let o := prepareUrbOnReturn o u p
      let g ← g.onReturn env (o.urb u)
      let o := o.log (.returnUrb u (o.urb u).status (o.urb u).actualLength)
      if (o.urb u).pipe.type = .int ∨ (o.urb u).pipe.type = .iso ∧ (o.urb u).ring then
        some (g, callComplete o u, true)
      else some (g, callComplete (decDevUse (urbRmPriv o u) u) u, false)

/-! ## What is captured -/

/-- **What a dump has of a request.** The bytes are those of the transfer buffer;
behind them, and in place of a setup packet that is missing, there may be
anything. -/
structure UrbDump.Captures (d : UrbDump) (r : Urb) : Prop where
  pipe : d.m.pipe = r.pipe
  length : d.m.transferBufferLength = r.transferBufferLength
  actual : d.m.actualLength = asUnsigned r.actualLength
  packet : ∀ packet, r.setupPacket = some packet → ∀ i < 8, d.m.setupPacket i = packet i
  copy : ∀ j < d.m.uTbBytes, d.buf j = r.transferBuffer j

section Captured

variable {g g' : Inst} {env : HookEnv} {r : Urb} {c : TMiniUrb} {out : Bool} {number : ℕ}

/-- **`InitMini` copies the request**, whatever it is dumped with. -/
theorem initMini_captures (h : initMini number env r = some c) :
    (c.devnum = env.devnum r.dev ∧ c.uUrbNumber = number) ∧
      ∀ passes s, (c.dump passes s).Captures r := by
  have hpacket : ∀ packet, r.setupPacket = some packet → ∀ i < 8, (match r.setupPacket with
      | some packet => if i < 8 then packet i else env.left i
      | none => env.left i) = packet i := by
    intro packet hpacket i hi
    rw [hpacket]
    exact if_pos hi
  unfold initMini at h
  dsimp only at h
  by_cases hbytes : (if r.pipe.out then r.transferBufferLength else asUnsigned r.actualLength) ≠ 0
  · rw [if_pos hbytes] at h
    obtain ⟨heap, -, rfl⟩ := Option.map_eq_some_iff.mp h
    exact ⟨⟨rfl, rfl⟩, fun passes s => ⟨rfl, rfl, rfl, hpacket, fun j hj => if_pos hj⟩⟩
  · rw [if_neg hbytes, Option.some.injEq] at h
    subst h
    refine ⟨⟨rfl, rfl⟩, fun passes s => ⟨rfl, rfl, rfl, hpacket, fun j hj => ?_⟩⟩
    exact absurd (Nat.ne_zero_of_lt hj) hbytes

/-- **A device that is dumped.** -/
structure Inst.Dumps (g : Inst) (env : HookEnv) (d : DevPtr) : Prop where
  dev : d ≠ 0
  devnum : env.devnum d < 16
  oEnabled : (g.aDevSettings (env.devnum d)).oEnabled ≠ 0
  pfnDumper : (g.aDevSettings (env.devnum d)).pfnDumper ≠ 0

/-- **A request of a device has been captured**: it has been dumped at once, or it is
the last work item. -/
structure Inst.Takes (g g' : Inst) (env : HookEnv) (d : DevPtr) (c : TMiniUrb) : Prop where
  devnum : c.devnum = env.devnum d
  number : c.uUrbNumber = g.uUrbNumGenerator ∧
    g'.uUrbNumGenerator = (g.uUrbNumGenerator + 1) % 0x100000000
  settings : g'.aDevSettings = g.aDevSettings
  sync : (g.aDevSettings (env.devnum d)).oAsync = 0 → g'.queue = g.queue ∧
    g'.dumps = g.dumps ++ [c.dump env.passes (g.aDevSettings (env.devnum d)).toDeviceSettings]
  async : (g.aDevSettings (env.devnum d)).oAsync ≠ 0 → g'.queue = g.queue ++ [c] ∧
    g'.dumps = g.dumps

theorem processMini_dumps (passes : ℕ)
    (hon : (g.aDevSettings c.devnum).oEnabled ≠ 0 ∧ (g.aDevSettings c.devnum).pfnDumper ≠ 0) :
    g.processMini passes c
      = { g with
          dumps := g.dumps ++ [c.dump passes (g.aDevSettings c.devnum).toDeviceSettings] } :=
  if_pos hon

/-- **A hook captures the requests of its direction.** -/
theorem hook_takes (hg : g.Dumps env r.dev) (hout : r.pipe.out = out)
    (hitem : (g.aDevSettings (env.devnum r.dev)).oAsync ≠ 0 → env.item = true)
    (h : Inst.hook out g env r = some g') :
    ∃ c, g.Takes g' env r.dev c ∧ ∀ passes s, (c.dump passes s).Captures r := by
  unfold Inst.hook at h
  rw [if_pos ⟨hg.dev, hg.devnum, hg.oEnabled⟩, if_pos hout] at h
  split at h
  · rename_i hasync
    rw [Inst.queueUrb, hitem hasync, Bool.not_true, if_neg Bool.false_ne_true] at h
    obtain ⟨c, hc, h⟩ := Option.bind_eq_some_iff.mp h
    cases h
    obtain ⟨⟨hdevnum, hnumber⟩, hcaptures⟩ := initMini_captures hc
    exact ⟨c, ⟨hdevnum, ⟨hnumber, rfl⟩, rfl, fun hsync => absurd hsync hasync,
      fun _ => ⟨rfl, rfl⟩⟩, hcaptures⟩
  · rename_i hsync
    obtain ⟨c, hc, h⟩ := Option.bind_eq_some_iff.mp h
    cases h
    obtain ⟨⟨hdevnum, hnumber⟩, hcaptures⟩ := initMini_captures hc
    have hprocess :=
      processMini_dumps (g :=
        { g with uUrbNumGenerator := (g.uUrbNumGenerator + 1) % 0x100000000 })
      env.passes (c := c) (by rw [hdevnum]; exact ⟨hg.oEnabled, hg.pfnDumper⟩)
    rw [hprocess, hdevnum]
    exact ⟨c, ⟨hdevnum, ⟨hnumber, rfl⟩, rfl, fun _ => ⟨rfl, rfl⟩,
      fun hasync => absurd hasync hsync⟩, hcaptures⟩

/-- **The worker dumps a work item** of an enabled device, with the settings of the
day. -/
theorem workerPass_dumps {cs : List TMiniUrb} (passes : ℕ) (hq : g.queue = c :: cs)
    (hon : (g.aDevSettings c.devnum).oEnabled ≠ 0 ∧ (g.aDevSettings c.devnum).pfnDumper ≠ 0) :
    g.workerPass passes = { g with
      queue := cs
      dumps := g.dumps ++ [c.dump passes (g.aDevSettings c.devnum).toDeviceSettings] } := by
  unfold Inst.workerPass
  rw [hq]
  exact processMini_dumps passes hon

/-- **The hook changes nothing for the driver.** -/
theorem returnUrb_of_hook {o o' : Ohci} {u : UrbPtr} {b : Bool}
    (h : sohciReturnUrb g env o u = some (g', o', b)) :
    returnUrb o u = (o', b) := by
  unfold sohciReturnUrb at h
  unfold returnUrb
  split at h
  · cases h
    rw [if_pos ‹_›]
  rw [if_neg ‹_›]
  cases hp : (o.urb u).hcpriv with
  | none =>
    rw [hp] at h
    cases h
    rfl
  | some p =>
    rw [hp] at h
    obtain ⟨g₁, -, h⟩ := Option.bind_eq_some_iff.mp h
    dsimp only at h ⊢
    split at h
    · cases h
      rw [if_pos ‹_›]
    · cases h
      rw [if_neg ‹_›]

/-- It is called with the memory in front of the callback. -/
theorem onReturn_of_hook {o : Ohci} {u : UrbPtr} {p : UrbPriv} {a : Ohci × Bool}
    (hc : (o.urb u).complete = true)
    (hp : (o.urb u).hcpriv = some p) (h : sohciReturnUrb g env o u = some (g', a)) :
    g.onReturn env ((prepareUrbOnReturn o u p).urb u) = some g' := by
  unfold sohciReturnUrb at h
  rw [hc, hp, Bool.not_true, if_neg Bool.false_ne_true] at h
  obtain ⟨g₁, hg₁, h⟩ := Option.bind_eq_some_iff.mp h
  rw [hg₁]
  dsimp only at h
  split at h
  · cases h
    rfl
  · cases h
    rfl

/-! ## The records -/

/-- Two bytes of what is sent are dumped of every device, and one of what comes in. -/
def dumpSome : Inst := ⟨1, fun _ => ⟨⟨2, 1⟩, 1, 0, 1⟩, [], []⟩

/-- There is memory, and all devices have the number 1. -/
def memoryLeft : HookEnv := ⟨fun _ => 1, true, fun _ => 0, some fun _ => 0, 0⟩

end Captured
