import SideDumper.DoneList
import SideDumper.TdFills
import Mathlib.Data.List.Nodup

/-!
# The frames of isochronous requests

A request says in `start_frame` when its first packet is due, and each of
its TDs carries the number of its own frame, of 16 bits. With `USB_ISO_ASAP`
the first frame is the one behind `last_iso`, which every call of `td_fill`
sets. `sohci_submit_urb` cuts the sum off at 16 bits, and `sohci_return_urb`,
which queues a request of a ring again, does not. The TDs do not show the
difference, because `td_submit_urb` cuts the number of each packet off once
more; `start_frame` does.
-/

/-- Frame numbers one after the other. -/
def isoFramesFrom (first n : ℕ) : List ℕ := (List.range n).map (fun i => (first + i) % 65536)

theorem isoFramesFrom_append (first m n : ℕ) :
    isoFramesFrom first m ++ isoFramesFrom (first + m) n = isoFramesFrom first (m + n) := by
  unfold isoFramesFrom
  rw [List.range_add, List.map_append, List.map_map]
  refine congrArg (_ ++ ·) (List.map_congr_left fun i _ => ?_)
  rw [Function.comp_apply, Nat.add_assoc]

theorem isoFramesFrom_congr {a b : ℕ} (h : a % 65536 = b % 65536) (n : ℕ) :
    isoFramesFrom a n = isoFramesFrom b n := by
  refine List.map_congr_left fun i _ => ?_
  rw [Nat.add_mod, h, ← Nat.add_mod]

/-- The frames in the TDs of a request. -/
def Ohci.isoFrames (o : Ohci) (u : UrbPtr) : List ℕ :=
  match (o.urb u).hcpriv with
  | none => []
  | some p => (List.range (min (o.urb u).numberOfPackets p.length)).map
      (fun i => (o.td (p.td i)).hwINFO.frame)

/-! ## Filling the TDs -/

section Fill

variable {o o' : Ohci} {u : UrbPtr} {p : UrbPriv} {c : TdCall} {cs : List TdCall} {i : ℕ}

/-- A call of `td_fill` for an isochronous ED. -/
theorem fillTd_iso (hiso : (o.ed p.ed).type = .iso) :
    ((fillTd o u p c i).ed p.ed).lastIso = c.info.frame ∧
      ((fillTd o u p c i).ed p.ed).state = (o.ed p.ed).state := by
  unfold fillTd
  dsimp only
  rw [if_pos hiso]
  simp

/-- **The calls of `td_fill`** leave the frame of the last one that had an
effect in `last_iso`. -/
theorem tdFills_iso (hp : (o.urb u).hcpriv = some p) (hiso : (o.ed p.ed).type = .iso)
    (h : tdFills u cs i o = some o') :
    (o'.ed p.ed).lastIso
        = (cs.take (p.length - i)).foldl (fun _ c => c.info.frame) (o.ed p.ed).lastIso ∧
      (o'.ed p.ed).state = (o.ed p.ed).state ∧ (o'.ed p.ed).type = .iso ∧
      (o'.urb u).startFrame = (o.urb u).startFrame ∧
      (o'.urb u).numberOfPackets = (o.urb u).numberOfPackets := by
  induction cs generalizing i o p with
  | nil =>
    cases h
    rw [List.take_nil]
    exact ⟨rfl, rfl, hiso, rfl, rfl⟩
  | cons c cs ih =>
    obtain ⟨o₁, h₁, h⟩ := Option.bind_eq_some_iff.mp h
    by_cases hi : i < p.length
    · rw [tdFill_eq hp hi, Option.some.injEq] at h₁
      subst h₁
      obtain ⟨hlast, hstate⟩ := fillTd_iso (u := u) (c := c) (i := i) hiso
      have hurb : (fillTd o u p c i).urb u
          = { o.urb u with
              hcpriv := some { p with td := Function.update p.td i (o.ed p.ed).hwTailP } } := by
        rw [fillTd_urb, Ohci.modPriv_urb_self, hp]
        rfl
      have hrest := ih (p := { p with td := Function.update p.td i (o.ed p.ed).hwTailP })
        (by rw [hurb]) (by rw [fillTd_type, hiso]) h
      dsimp only at hrest
      have htake : (c :: cs).take (p.length - i) = c :: cs.take (p.length - (i + 1)) := by
        rw [show p.length - i = p.length - (i + 1) + 1 by omega, List.take_succ_cons]
      rw [hlast, hstate, hurb] at hrest
      rw [htake, List.foldl_cons]
      exact hrest
    · rw [tdFill_of_le hp (by omega), Option.some.injEq] at h₁
      subst h₁
      have hrest := ih hp hiso h
      have h0 : p.length - i = 0 := by omega
      have h1 : p.length - (i + 1) = 0 := by omega
      rw [h1, List.take_zero] at hrest
      rw [h0, List.take_zero]
      exact hrest

theorem length_isoCalls (first n data : ℕ) (desc : ℕ → IsoFrame) :
    (isoCalls first n data desc).length = n := by
  unfold isoCalls
  rw [List.length_map, List.length_range]

/-- The call for one packet. -/
theorem getElem?_isoCalls {first n data k : ℕ} {desc : ℕ → IsoFrame} (hk : k < n) :
    (isoCalls first n data desc)[k]?
      = some ⟨⟨15, .setup, .toggle, false, true, (first + k) % 65536⟩,
      data + (desc k).offset, (desc k).length⟩ := by
  unfold isoCalls
  rw [List.getElem?_map, List.getElem?_range hk]
  rfl

/-- The last of some frames. -/
theorem foldl_isoCalls (first n data last m : ℕ) (desc : ℕ → IsoFrame) :
    ((isoCalls first n data desc).take m).foldl (fun _ c => c.info.frame) last
      = if min m n = 0 then last else (first + (min m n - 1)) % 65536 := by
  unfold isoCalls
  rw [← List.map_take, List.take_range]
  cases min m n with
  | zero => rfl
  | succ k =>
    rw [List.range_succ, List.map_append, List.foldl_append]
    rfl

/-- **`td_submit_urb` of an isochronous request**: the TDs carry the frames
from `start_frame` on, and `last_iso` has the last one, if there is one. -/
theorem tdSubmitUrb_iso (hp : (o.urb u).hcpriv = some p) (ha : o.TdsApart p)
    (htype : (o.urb u).pipe.type = .iso) (hiso : (o.ed p.ed).type = .iso)
    (hpackets : 1 ≤ (o.urb u).numberOfPackets) (h : tdSubmitUrb o u = some o') :
    ∃ n, (n = 0 ↔ p.length = 0) ∧ o'.isoFrames u = isoFramesFrom (o.urb u).startFrame n ∧
      (o'.ed p.ed).lastIso
          = (if n = 0 then (o.ed p.ed).lastIso else ((o.urb u).startFrame + (n - 1)) % 65536) ∧
      (o'.ed p.ed).state = (o.ed p.ed).state ∧ (o'.ed p.ed).type = .iso ∧
      (o'.urb u).startFrame = (o.urb u).startFrame := by
  have hcalls : tdCalls (o.urb u) p (o.toggleOf (o.urb u)) = isoCalls (o.urb u).startFrame
      (o.urb u).numberOfPackets p.transferBuffer (o.urb u).isoFrameDesc := by
    unfold tdCalls
    rw [htype]
  obtain ⟨p', hf⟩ := fills_tdSubmitUrb hp ha h
  have h' := h
  rw [tdSubmitUrb, hp, Option.bind_eq_bind, Option.bind_some, hcalls] at h'
  rw [hcalls] at hf
  obtain ⟨hlast, hstate, htype', hstart, hnum⟩ :=
    tdFills_iso (p := { p with tdCnt := 0 }) (submitStart_hcpriv hp) hiso h'
  rw [submitStart_urb hp] at hstart hnum
  rw [Nat.sub_zero, foldl_isoCalls, submitStart_ed] at hlast
  have hframe : ∀ k < min p.length (o.urb u).numberOfPackets,
      (o'.td (p'.td k)).hwINFO.frame = ((o.urb u).startFrame + k) % 65536 := by
    intro k hk
    have htd := hf.td k (by rw [length_isoCalls]; omega) _ (getElem?_isoCalls (by omega))
    rw [Nat.zero_add] at htd
    rw [htd]
    rfl
  refine ⟨min p.length (o.urb u).numberOfPackets, by omega, ?_, hlast, hstate, htype', hstart⟩
  have hlength' : p'.length = p.length := hf.length
  have hnum' : (o'.urb u).numberOfPackets = (o.urb u).numberOfPackets := hnum
  unfold Ohci.isoFrames isoFramesFrom
  rw [hf.priv]
  dsimp only
  rw [hnum', hlength', Nat.min_comm]
  exact List.map_congr_left fun k hk => hframe k (List.mem_range.mp hk)

end Fill

/-! ## Submissions and resubmissions -/

/-- An isochronous request that is ready for an ED: it has packets, and TDs
of its own. Their number has 16 bits and may be 0 although there are packets. -/
def Ohci.IsoReady (o : Ohci) (e : EdPtr) (u : UrbPtr) : Prop :=
  (o.urb u).pipe.type = .iso ∧ 1 ≤ (o.urb u).numberOfPackets ∧
    ∃ p, (o.urb u).hcpriv = some p ∧ p.ed = e ∧ p.urbDel = false ∧ o.TdsApart p

/-- **A submission**: whether it is one of `sohci_return_urb`, what
`last_iso` and the number of TDs were before, and what it has left in memory. -/
structure IsoSubmission where
  again : Bool
  lastIso : ℕ
  length : ℕ
  startFrame : ℕ
  frames : List ℕ
deriving DecidableEq

/-- A submission that took one memory to another. -/
def isoSubmission (again : Bool) (e : EdPtr) (u : UrbPtr) (o o' : Ohci) : IsoSubmission :=
  ⟨again, (o.ed e).lastIso, ((o.urb u).hcpriv.map (·.length)).getD 0, (o'.urb u).startFrame,
    o'.isoFrames u⟩

/-- **A stream on one ED** in the state `ED_OPER`, with the submissions so
far. In between anything may happen that leaves `last_iso` alone, which
`td_fill` only does not. -/
inductive IsoRun (e : EdPtr) : Ohci → List IsoSubmission → Prop
  | start {o : Ohci} (hoper : (o.ed e).state = .edOper) (hiso : (o.ed e).type = .iso)
      (hlast : (o.ed e).lastIso < 65536) : IsoRun e o []
  | submit {o o' : Ohci} {subs : List IsoSubmission} {u : UrbPtr} {fuel buf setup : ℕ}
      (h : IsoRun e o subs) (hready : o.IsoReady e u) (hasap : (o.urb u).isoAsap = true)
      (hsubmit : submitSecond fuel o u buf setup = some (o', true)) :
      IsoRun e o' (subs ++ [isoSubmission false e u o o'])
  | resubmit {o o' : Ohci} {subs : List IsoSubmission} {u : UrbPtr} (h : IsoRun e o subs)
      (hready : o.IsoReady e u) (hrequeue : requeueUrb o u = some o') :
      IsoRun e o' (subs ++ [isoSubmission true e u o o'])
  | other {o o' : Ohci} {subs : List IsoSubmission} (h : IsoRun e o subs)
      (hoper : (o'.ed e).state = .edOper) (hiso : (o'.ed e).type = .iso)
      (hlast : (o'.ed e).lastIso = (o.ed e).lastIso) : IsoRun e o' subs

/-- **The frames are consecutive**, and each request with a TD says in which
one it begins. -/
def IsoExact (subs : List IsoSubmission) : Prop :=
  (∃ first, subs.flatMap (·.frames) = isoFramesFrom first (subs.flatMap (·.frames)).length) ∧
    ∀ s ∈ subs, ∀ frame ∈ s.frames.head?, s.startFrame = frame

/-- What one submission leaves behind. -/
structure IsoSubmission.Leaves (s : IsoSubmission) (e : EdPtr) (o' : Ohci) (n : ℕ) : Prop where
  none : n = 0 ↔ s.length = 0
  frames : s.frames = isoFramesFrom (s.lastIso + 1) n
  startFrame : s.startFrame = if s.again then s.lastIso + 1 else (s.lastIso + 1) % 65536
  lastIso : (o'.ed e).lastIso = (s.lastIso + n) % 65536
  oper : (o'.ed e).state = .edOper
  iso : (o'.ed e).type = .iso

/-- **What `td_submit_urb` begins with**: the ED as it was, and the request
with its TDs and with its first frame. -/
structure IsoCall (o o₁ : Ohci) (u : UrbPtr) (p : UrbPriv) (startFrame : ℕ) : Prop where
  ed : o₁.ed = o.ed
  priv : ∃ p₁, (o₁.urb u).hcpriv = some p₁ ∧ p₁.ed = p.ed ∧ p₁.length = p.length ∧ p₁.td = p.td
  type : (o₁.urb u).pipe.type = .iso
  packets : 1 ≤ (o₁.urb u).numberOfPackets
  start : (o₁.urb u).startFrame = startFrame

namespace IsoCall

variable {o o₁ : Ohci} {u : UrbPtr} {p : UrbPriv} {startFrame : ℕ}

/-- A write to the request that keeps all this. -/
theorem modUrb (h : IsoCall o o₁ u p startFrame) {f : Urb → Urb}
    (hf : ∀ r, ((f r).hcpriv, (f r).pipe, (f r).numberOfPackets, (f r).startFrame)
      = (r.hcpriv, r.pipe, r.numberOfPackets, r.startFrame)) :
    IsoCall o (o₁.modUrb u f) u p startFrame := by
  have hr := hf (o₁.urb u)
  simp only [Prod.mk.injEq] at hr
  obtain ⟨hpriv, hpipe, hpackets, hstart⟩ := hr
  refine ⟨h.ed, ?_, ?_, ?_, ?_⟩
  · rw [Ohci.modUrb_urb_self, hpriv]
    exact h.priv
  · rw [Ohci.modUrb_urb_self, hpipe]
    exact h.type
  · rw [Ohci.modUrb_urb_self, hpackets]
    exact h.packets
  · rw [Ohci.modUrb_urb_self, hstart]
    exact h.start

/-- A bounce buffer is entered and filled. -/
theorem bounce (h : IsoCall o o₁ u p startFrame) {f : UrbPriv → UrbPriv}
    (hf : ∀ p, ((f p).ed, (f p).length, (f p).td) = (p.ed, p.length, p.td))
    (dst n : ℕ) (src : ℕ → UInt8) :
    IsoCall o (copyIn (o₁.modPriv u f) dst src n) u p startFrame := by
  obtain ⟨p₁, hp₁, hed, hlength, htd⟩ := h.priv
  have hr := hf p₁
  simp only [Prod.mk.injEq] at hr
  have hurb : (copyIn (o₁.modPriv u f) dst src n).urb u
      = { o₁.urb u with hcpriv := some (f p₁) } := by
    show (o₁.modPriv u f).urb u = _
    rw [Ohci.modPriv_urb_self, hp₁]
    rfl
  refine ⟨h.ed, ⟨f p₁, ?_, hr.1.trans hed, hr.2.1.trans hlength, hr.2.2.trans htd⟩, ?_, ?_, ?_⟩
  · rw [hurb]
  · rw [hurb]
    exact h.type
  · rw [hurb]
    exact h.packets
  · rw [hurb]
    exact h.start

theorem prepare (h : IsoCall o o₁ u p startFrame) (buf setup : ℕ) :
    IsoCall o (prepareUrbOnSubmit o₁ u buf setup).1 u p startFrame := by
  have hdata : IsoCall o (if (o₁.urb u).transferBufferLength ≠ 0 then
      copyIn (o₁.modPriv u (fun p => { p with transferBuffer := buf })) buf
        (o₁.urb u).transferBuffer
        (o₁.urb u).transferBufferLength else o₁) u p startFrame := by
    split
    · exact h.bounce (by intro; rfl) _ _ _
    · exact h
  unfold prepareUrbOnSubmit
  dsimp only
  split
  · exact h
  split
  · exact hdata
  split
  · exact hdata
  · exact hdata.bounce (by intro; rfl) _ _ _

/-- **The submission itself.** -/
theorem leaves {o' : Ohci} {again : Bool} (h : IsoCall o o₁ u p startFrame)
    (hp : (o.urb u).hcpriv = some p) (hlt : (o.ed p.ed).lastIso < 65536)
    (hstart : startFrame =
      if again then (o.ed p.ed).lastIso + 1 else ((o.ed p.ed).lastIso + 1) % 65536)
    (hoper : (o.ed p.ed).state = .edOper) (hiso : (o.ed p.ed).type = .iso)
    (hapart : o.TdsApart p) (hsubmit : tdSubmitUrb o₁ u = some o') :
    ∃ n, (isoSubmission again p.ed u o o').Leaves p.ed o' n := by
  obtain ⟨p₁, hp₁, hed, hlen, htd⟩ := h.priv
  have hapart₁ : o₁.TdsApart p₁ := by
    refine ⟨fun i hi => ?_, fun i hi j hj => ?_⟩
    · rw [h.ed, hed, htd]
      exact hapart.tail i (hlen ▸ hi)
    · rw [htd]
      exact hapart.slot i (hlen ▸ hi) j (hlen ▸ hj)
  have hiso₁ : (o₁.ed p₁.ed).type = .iso := by rw [h.ed, hed, hiso]
  obtain ⟨n, hn, hframes, hlast, hstate, htype, hstart'⟩ :=
    tdSubmitUrb_iso hp₁ hapart₁ h.type hiso₁ h.packets hsubmit
  rw [hlen] at hn
  rw [hed, h.start, h.ed] at hlast
  rw [hed, h.ed, hoper] at hstate
  rw [hed] at htype
  rw [h.start] at hframes hstart'
  have hfirst : startFrame % 65536 = ((o.ed p.ed).lastIso + 1) % 65536 := by
    rw [hstart]
    split
    · rfl
    · exact Nat.mod_mod _ _
  refine ⟨n, ?_, ?_, ?_, ?_, hstate, htype⟩
  · rw [isoSubmission, hp]
    exact hn
  · exact hframes.trans (isoFramesFrom_congr hfirst n)
  · exact hstart'.trans hstart
  · rw [hlast]
    show _ = ((o.ed p.ed).lastIso + n) % 65536
    split
    · omega
    · omega

end IsoCall

/-- **A submission with `USB_ISO_ASAP`.** -/
theorem submitSecond_iso {o o' : Ohci} {e : EdPtr} {u : UrbPtr} {fuel buf setup : ℕ}
    (hoper : (o.ed e).state = .edOper) (hiso : (o.ed e).type = .iso)
    (hlt : (o.ed e).lastIso < 65536) (hready : o.IsoReady e u)
    (hasap : (o.urb u).isoAsap = true) (h : submitSecond fuel o u buf setup = some (o', true)) :
    ∃ n, (isoSubmission false e u o o').Leaves e o' n := by
  obtain ⟨htype, hpackets, p, hp, rfl, hdel, hapart⟩ := hready
  unfold submitSecond at h
  have hlive : ¬ ((o.ed p.ed).state = .edNew ∨ (o.ed p.ed).state.del = true) := by
    rw [hoper]
    decide
  rw [hp, Option.bind_eq_bind, Option.bind_some] at h
  dsimp only at h
  rw [if_neg hlive, if_pos hasap] at h
  have hasapFrame : asapFrame o p.ed = ((o.ed p.ed).lastIso + 1) % 65536 := by
    rw [asapFrame, if_pos hoper]
  have hcall : IsoCall o (o.modUrb u (fun r => { r with startFrame := asapFrame o p.ed })) u p
      (((o.ed p.ed).lastIso + 1) % 65536) := by
    refine ⟨rfl, ⟨p, ?_, rfl, rfl, rfl⟩, ?_, ?_, ?_⟩
    · rw [Ohci.modUrb_urb_self, hp]
    · rw [Ohci.modUrb_urb_self, htype]
    · rw [Ohci.modUrb_urb_self]
      exact hpackets
    · rw [Ohci.modUrb_urb_self, hasapFrame]
  have hprepared := hcall.prepare buf setup
  generalize prepareUrbOnSubmit (o.modUrb u (fun r => { r with startFrame := asapFrame o p.ed }))
    u buf setup
    = prepared at h hprepared
  obtain ⟨o₁, ok⟩ := prepared
  cases ok with
  | false => cases h
  | true =>
    obtain ⟨o₂, hlink, h⟩ := Option.bind_eq_some_iff.mp h
    cases h
    obtain ⟨o₃, h₃, hsubmit⟩ := submitLink_steps hlink
    have hoper₁ : (o₁.ed p.ed).state = .edOper := by
      rw [hprepared.ed]
      exact hoper
    obtain ⟨-, rfl⟩ | ⟨hne, -⟩ := h₃
    · have hcall' :=
        (hprepared.modUrb (f := fun r => { r with status := .einprogress, actualLength := 0 })
        (by intro; rfl)).modUrb (f := fun r => { r with status := .einprogress }) (by intro; rfl)
      exact hcall'.leaves hp hlt rfl hoper hiso hapart hsubmit
    · exact absurd hoper₁ hne

/-- **A resubmission.** -/
theorem requeueUrb_iso {o o' : Ohci} {e : EdPtr} {u : UrbPtr} (hoper : (o.ed e).state = .edOper)
    (hiso : (o.ed e).type = .iso) (hlt : (o.ed e).lastIso < 65536) (hready : o.IsoReady e u)
    (h : requeueUrb o u = some o') :
    ∃ n, (isoSubmission true e u o o').Leaves e o' n := by
  obtain ⟨htype, hpackets, p, hp, rfl, hdel, hapart⟩ := hready
  unfold requeueUrb at h
  rw [hp, Option.bind_eq_bind, Option.bind_some] at h
  dsimp only at h
  rw [Ohci.modUrb_urb_self, if_pos htype, if_neg (by rw [hdel]; decide)] at h
  have hcall :
      IsoCall o
        ((o.modUrb u (fun r => { r with actualLength := 0, status := .einprogress })).modUrb u
      (fun r => { r with startFrame := (o.ed p.ed).lastIso + 1 })) u p
        ((o.ed p.ed).lastIso + 1) := by
    refine ⟨rfl, ⟨p, ?_, rfl, rfl, rfl⟩, ?_, ?_, ?_⟩
    · rw [Ohci.modUrb_urb_self, Ohci.modUrb_urb_self, hp]
    · rw [Ohci.modUrb_urb_self, Ohci.modUrb_urb_self, htype]
    · rw [Ohci.modUrb_urb_self, Ohci.modUrb_urb_self]
      exact hpackets
    · rw [Ohci.modUrb_urb_self]
  exact (hcall.modUrb (f := resetPackets) (by intro; rfl)).leaves hp hlt rfl hoper hiso hapart h

/-! ## Streams -/

/-- **What a stream keeps**: the frames so far are consecutive and lead to
`last_iso`, and a request begins in the frame it says unless it has TDs and
was queued again behind the last of all frame numbers. -/
structure IsoKept (e : EdPtr) (o : Ohci) (subs : List IsoSubmission) (first : ℕ) : Prop where
  oper : (o.ed e).state = .edOper
  iso : (o.ed e).type = .iso
  lt : (o.ed e).lastIso < 65536
  frames : subs.flatMap (·.frames) = isoFramesFrom first (subs.flatMap (·.frames)).length
  last : ((o.ed e).lastIso + 1) % 65536 = (first + (subs.flatMap (·.frames)).length) % 65536
  begins : ∀ s ∈ subs, (∀ frame ∈ s.frames.head?, s.startFrame = frame) ↔
    ¬ (s.again = true ∧ s.lastIso = 65535 ∧ s.length ≠ 0)

/-- When a submission says where it begins. -/
theorem IsoSubmission.Leaves.begins {s : IsoSubmission} {e : EdPtr} {o' : Ohci} {n : ℕ}
    (h : s.Leaves e o' n) (hlt : s.lastIso < 65536) :
    (∀ frame ∈ s.frames.head?, s.startFrame = frame) ↔
      ¬ (s.again = true ∧ s.lastIso = 65535 ∧ s.length ≠ 0) := by
  have hnone := h.none
  rw [h.frames, h.startFrame]
  cases n with
  | zero =>
    constructor
    · intro _ hlast
      exact hlast.2.2 (hnone.mp rfl)
    · intro _ frame hframe
      cases hframe
  | succ n =>
    have hlength : s.length ≠ 0 := fun h0 => Nat.succ_ne_zero n (hnone.mpr h0)
    have hhead : (isoFramesFrom (s.lastIso + 1) (n + 1)).head?
        = some ((s.lastIso + 1) % 65536) := by
      rw [isoFramesFrom, List.range_succ_eq_map]
      rfl
    simp only [hhead, Option.mem_some_iff, forall_eq']
    cases s.again with
    | false => simp
    | true =>
      simp only [if_true, true_and]
      omega

/-- One submission more. -/
theorem IsoKept.append {e : EdPtr} {o o' : Ohci} {subs : List IsoSubmission} {first n : ℕ}
    {s : IsoSubmission} (h : IsoKept e o subs first) (hlast : s.lastIso = (o.ed e).lastIso)
    (hs : s.Leaves e o' n) : IsoKept e o' (subs ++ [s]) first := by
  have hflat : (subs ++ [s]).flatMap (·.frames)
      = isoFramesFrom first ((subs.flatMap (·.frames)).length + n) := by
    rw [List.flatMap_append, List.flatMap_singleton, hs.frames, hlast, isoFramesFrom_congr h.last,
      ← isoFramesFrom_append, ← h.frames]
  have hlength : ∀ a k, (isoFramesFrom a k).length = k := fun a k => by
    rw [isoFramesFrom, List.length_map, List.length_range]
  have hlt := h.lt
  refine ⟨hs.oper, hs.iso, ?_, ?_, ?_, ?_⟩
  · rw [hs.lastIso]
    exact Nat.mod_lt _ (by decide)
  · rw [hflat, hlength]
  · have hkept := h.last
    rw [hflat, hlength, hs.lastIso, hlast]
    omega
  · intro s' hs'
    rcases List.mem_append.mp hs' with hs' | hs'
    · exact h.begins s' hs'
    · rw [List.mem_singleton.mp hs']
      exact hs.begins (hlast ▸ hlt)

theorem IsoRun.kept {e : EdPtr} {o : Ohci} {subs : List IsoSubmission} (h : IsoRun e o subs) :
    ∃ first, IsoKept e o subs first := by
  induction h with
  | start hoper hiso hlast =>
    exact ⟨_, hoper, hiso, hlast, rfl, rfl, fun s hs => absurd hs List.not_mem_nil⟩
  | submit _ hready hasap hsubmit ih =>
    obtain ⟨first, hkept⟩ := ih
    obtain ⟨n, hs⟩ := submitSecond_iso hkept.oper hkept.iso hkept.lt hready hasap hsubmit
    exact ⟨first, hkept.append rfl hs⟩
  | resubmit _ hready hrequeue ih =>
    obtain ⟨first, hkept⟩ := ih
    obtain ⟨n, hs⟩ := requeueUrb_iso hkept.oper hkept.iso hkept.lt hready hrequeue
    exact ⟨first, hkept.append rfl hs⟩
  | other _ hoper hiso hlast ih =>
    obtain ⟨first, hkept⟩ := ih
    refine ⟨first, hoper, hiso, ?_, hkept.frames, ?_, hkept.begins⟩
    · rw [hlast]
      exact hkept.lt
    · rw [hlast]
      exact hkept.last

/-- **When a stream is exact**: no request of a ring that has TDs is queued
again behind the last of all frame numbers. -/
theorem iso_exact_iff (e : EdPtr) (o : Ohci) (subs : List IsoSubmission) (h : IsoRun e o subs) :
    IsoExact subs ↔ ∀ s ∈ subs, ¬ (s.again = true ∧ s.lastIso = 65535 ∧ s.length ≠ 0) := by
  obtain ⟨first, hkept⟩ := h.kept
  constructor
  · intro hexact s hs
    exact (hkept.begins s hs).mp (hexact.2 s hs)
  · intro hnone
    exact ⟨⟨first, hkept.frames⟩, fun s hs => (hkept.begins s hs).mpr (hnone s hs)⟩

/-- A request whose slots have different TDs, none of them the last one of
the queue. -/
theorem Ohci.IsoReady.of_slots {o : Ohci} {e : EdPtr} {u : UrbPtr}
    (htype : (o.urb u).pipe.type = .iso)
    (hpackets : 1 ≤ (o.urb u).numberOfPackets)
    (hp : ∃ p ∈ (o.urb u).hcpriv, p.ed = e ∧ p.urbDel = false ∧
      ((o.ed p.ed).hwTailP :: (List.range p.length).map p.td).Nodup) : o.IsoReady e u := by
  obtain ⟨p, hp, he, hdel, hslots⟩ := hp
  obtain ⟨htail, hnodup⟩ := List.nodup_cons.mp hslots
  refine ⟨htype, hpackets, p, hp, he, hdel, fun i hi heq => ?_, fun i hi j hj heq => ?_⟩
  · exact htail (List.mem_map.mpr ⟨i, List.mem_range.mpr hi, heq⟩)
  · exact List.inj_on_of_nodup_map hnodup (List.mem_range.mpr hi) (List.mem_range.mpr hj) heq

/-- A request of a ring with three packets, on an ED that has come to a frame. -/
def Ohci.isoRing (lastIso : ℕ) : Ohci :=
  { (default : Ohci) with
    ed := fun _ =>
      { (default : Ed) with state := .edOper, type := .iso, lastIso := lastIso, hwTailP := 9 }
    urb := fun _ => { (default : Urb) with
      pipe := ⟨.iso, 1, 1, false, false⟩
      isoAsap := true
      ring := true
      numberOfPackets := 3
      hcpriv := some { (default : UrbPriv) with ed := 1, length := 3, td := fun i => i + 1 } } }

theorem isoReady_isoRing (lastIso : ℕ) : (Ohci.isoRing lastIso).IsoReady 1 1 :=
  .of_slots rfl (show 1 ≤ 3 by decide)
    ⟨_, rfl, rfl, rfl, show (9 :: (List.range 3).map (fun i => i + 1)).Nodup by decide⟩

/-- The request is submitted and queued again, over the last frame number. -/
theorem iso_exact_iff_ring :
    ∃ o₁ o₂, submitSecond 1 (Ohci.isoRing 65533) 1 0 0 = some (o₁, true) ∧
    requeueUrb o₁ 1 = some o₂ ∧ o₁.isoFrames 1 = [65534, 65535, 0] ∧ o₂.isoFrames 1 = [1, 2, 3] ∧
    (IsoExact [isoSubmission false 1 1 (Ohci.isoRing 65533) o₁, isoSubmission true 1 1 o₁ o₂] ↔
      ∀ s ∈ [isoSubmission false 1 1 (Ohci.isoRing 65533) o₁, isoSubmission true 1 1 o₁ o₂],
        ¬ (s.again = true ∧ s.lastIso = 65535 ∧ s.length ≠ 0)) := by
  obtain ⟨⟨o₁, ok⟩, h₁, rfl, ⟨htype, hpackets, hp⟩, hframes, o₂, h₂, hframes'⟩ :
      ∃ r ∈ submitSecond 1 (Ohci.isoRing 65533) 1 0 0, r.2 = true ∧
        ((r.1.urb 1).pipe.type = .iso ∧ 1 ≤ (r.1.urb 1).numberOfPackets ∧
          ∃ p ∈ (r.1.urb 1).hcpriv, p.ed = 1 ∧ p.urbDel = false ∧
            ((r.1.ed p.ed).hwTailP :: (List.range p.length).map p.td).Nodup) ∧
        r.1.isoFrames 1 = [65534, 65535, 0] ∧ ∃ o₂ ∈ requeueUrb r.1 1, o₂.isoFrames 1
          = [1, 2, 3] := by
    decide +kernel
  have hrun := (IsoRun.start rfl rfl (by decide)).submit (isoReady_isoRing 65533) rfl h₁
  exact ⟨o₁, o₂, h₁, h₂, hframes, hframes',
    iso_exact_iff 1 o₂ _ (hrun.resubmit (.of_slots htype hpackets hp) h₂)⟩

/-- The request of the ring begins in frame 0 and says 65536. -/
theorem iso_not_exact : ¬ ∀ (e : EdPtr) (o : Ohci) (subs : List IsoSubmission), IsoRun e o subs →
    IsoExact subs := by
  intro hall
  obtain ⟨o, ho⟩ : ∃ o, requeueUrb (Ohci.isoRing 65535) 1 = some o :=
    Option.isSome_iff_exists.mp (by decide +kernel)
  have hrun := (IsoRun.start rfl rfl (by decide)).resubmit (isoReady_isoRing 65535) ho
  obtain ⟨first, hkept⟩ := hrun.kept
  have hlast := List.mem_singleton.mpr (rfl : isoSubmission true 1 1 (Ohci.isoRing 65535) o = _)
  exact (hkept.begins _ hlast).mp ((hall 1 o _ hrun).2 _ hlast) ⟨rfl, rfl, show 3 ≠ 0 by decide⟩
