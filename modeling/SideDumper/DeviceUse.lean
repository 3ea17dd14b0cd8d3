import SideDumper.RootHub
import SideDumper.RunEntries

/-!
# The use count of a device

`usb_inc_dev_use` is called at one place, when `sohci_submit_urb` takes a
request; `usb_dec_dev_use` wherever a request is given back. A run is watched
here with the list of the requests that have been accepted and not given back
yet, those to the virtual root hub among them. No device is freed in it and no
URB is unlinked asynchronously.
-/

/-- **The driver with its root hub**, and the requests it has accepted and not
given back. -/
structure UseSys where
  sys : Sys
  rh : VirtRootHub
  accepted : List UrbPtr

/-- What can happen next. -/
inductive UseAct
  /-- A step that does not concern the root hub. -/
  | hw (a : Act)
  /-- `sohci_submit_urb` of a request to the root hub. -/
  | rhSubmit (u : UrbPtr) (len : ℕ) (status : Status) (devnum : ℕ)
  /-- `sohci_unlink_urb` of a request to the root hub. -/
  | rhUnlink (u : UrbPtr)
  /-- `rh_int_timer_do`, which has found `len` bytes to report. -/
  | rhTimer (u : UrbPtr) (len : ℕ)

/-- The private part is there, and the URB is not being unlinked. -/
def Ohci.live (o : Ohci) (u : UrbPtr) : Bool :=
  match (o.urb u).hcpriv with
  | none => false
  | some p => !p.urbDel

/-- **`sohci_submit_urb`** of a request to the root hub. The address of the root
hub is what the request makes it. -/
def UseSys.rhSubmit (s : UseSys) (u : UrbPtr) (len : ℕ) (status : Status) (devnum : ℕ) :
    Option UseSys :=
  if (s.sys.mem.urb u).dev = 0 ∨ (s.sys.mem.urb u).hcpriv.isSome then some s
  else if (s.sys.mem.urb u).pipe.device ≠ s.sys.mem.rhDevnum then none
  else
    let (rh, o) := rhSubmitUrb s.rh (incDevUse s.sys.mem u) u len status
    if (s.sys.mem.urb u).pipe.type = .int then
      some { s with sys := { s.sys with mem := o }, rh := rh, accepted := u :: s.accepted }
    else some { s with sys := { s.sys with mem := { o with rhDevnum := devnum } }, rh := rh }

/-- **`sohci_unlink_urb`** of a request to the root hub. -/
def UseSys.rhUnlink (s : UseSys) (u : UrbPtr) : Option UseSys :=
  if (s.sys.mem.urb u).dev = 0 then some s
  else if (s.sys.mem.urb u).pipe.device ≠ s.sys.mem.rhDevnum then none
  else some { s with
    sys := { s.sys with mem := decDevUse s.sys.mem u }
    rh := rhUnlinkUrb s.rh u
    accepted := s.accepted.erase u }

/-- **`rh_int_timer_do`.** -/
def UseSys.rhTimer (s : UseSys) (u : UrbPtr) (len : ℕ) : UseSys :=
  if s.sys.mem.disabled then s
  else
    let rh := { s.rh with interval := (s.sys.mem.urb u).interval, timer := true }
    if s.rh.send ∧ 0 < len then
      let o := s.sys.mem.modUrb u (fun r => { r with actualLength := len })
      { s with
        sys := { s.sys with mem := if (o.urb u).complete then callComplete o u else o }
        rh := rh }
    else { s with rh := rh }

/-- The steps that are watched. -/
def UseSys.admits (s : UseSys) : Act → Bool
  | .submitFirst u _ _ => (s.sys.mem.urb u).pipe.device ≠ s.sys.mem.rhDevnum
  | .unlink u =>
    (s.sys.mem.urb u).pipe.device ≠ s.sys.mem.rhDevnum && !(s.sys.mem.urb u).asyncUnlink
  | .freeEd _ => false
  | _ => true

/-- The requests that are left when one may have been given back. -/
def UseSys.given (s : UseSys) (o' : Ohci) (u : UrbPtr) : List UrbPtr :=
  if s.sys.mem.live u ∧ (o'.urb u).hcpriv.isNone then s.accepted.erase u else s.accepted

/-- **The accepted requests after a step**: one more when `sohci_submit_urb` has
returned 0, one less when a request has been completed or unlinked. -/
def UseSys.acceptedAfter (fuel : ℕ) (s : UseSys) (o' : Ohci) : Act → List UrbPtr
  | .submitSecond u buf setup =>
    if (submitSecond fuel s.sys.mem u buf setup).map Prod.snd = some true then u :: s.accepted
    else s.accepted
  | .unlink u => s.given o' u
  | .unlinkFinish u => s.accepted.erase u
  | .resume =>
    match s.sys.tasks with
    | .done t :: _ => s.given o' (s.sys.mem.td t).urb
    | _ => s.accepted
  | _ => s.accepted

/-- **One step.** -/
def UseSys.step (fuel : ℕ) (s : UseSys) : UseAct → Option UseSys
  | .hw a =>
    if s.admits a then do
      let sys ← s.sys.step fuel a
      some { s with sys := sys, accepted := s.acceptedAfter fuel sys.mem a }
    else none
  | .rhSubmit u len status devnum => s.rhSubmit u len status devnum
  | .rhUnlink u => s.rhUnlink u
  | .rhTimer u len => some (s.rhTimer u len)

/-- **The states of the runs from a given start**, all of whose steps meet a
condition. -/
inductive UseSys.From (ok : UseSys → UseAct → Prop) (s₀ : UseSys) : UseSys → Prop
  | start : UseSys.From ok s₀ s₀
  | step {s s' : UseSys} (fuel : ℕ) (a : UseAct) : UseSys.From ok s₀ s → ok s a →
      s.step fuel a = some s' →
      UseSys.From ok s₀ s'

/-- **What a step must not do**: give a request to a controller that is disabled,
or a control request to the root hub; unlink a URB that is being submitted or
unlinked, or one for the root hub that has not been accepted. And the TDs on the
done list belong to requests that have been queued, on an ED that is in use. -/
def UseClean (s : UseSys) : UseAct → Prop
  | .hw (.submitFirst u _ _) => (s.sys.mem.urb u).dev ≠ 0 → (s.sys.mem.urb u).hcpriv = none →
      s.sys.mem.disabled = false
  | .hw (.unlink u) => (s.sys.mem.urb u).hcpriv.isSome → s.sys.mem.live u = true ∧ u ∉ s.sys.pend
  | .hw .resume =>
    ∀ t tasks, s.sys.tasks = .done t :: tasks → s.sys.mem.live (s.sys.mem.td t).urb = true →
      (s.sys.mem.td t).urb ∉ s.sys.pend ∧ (s.sys.mem.ed (s.sys.mem.td t).ed).state ≠ .edNew
  | .rhSubmit u _ _ _ => (s.sys.mem.urb u).dev ≠ 0 → (s.sys.mem.urb u).hcpriv = none →
      (s.sys.mem.urb u).pipe.type = .int
  | .rhUnlink u => u ∈ s.accepted
  | _ => True

/-! ## The invariant -/

namespace Ledger

/-- The number of requests of a device. -/
def usesOf (l : Ledger) (us : List UrbPtr) (d : DevPtr) : ℕ :=
  us.countP (fun u => (l.const u).dev = d)

/-- The private part is there, and the URB is not being unlinked. -/
def Live (l : Ledger) (u : UrbPtr) : Prop :=
  ∃ h, l.priv u = some h ∧ h.urbDel = false

/-- **The invariant**: the counts are right; every request that is live, and
every wait of an unlinking, is for one that has been accepted. -/
structure Uses (cnt₀ : DevPtr → ℤ) (devnum : ℕ) (l : Ledger)
    (pend waiting accepted : List UrbPtr) : Prop where
  cnt : ∀ d, l.useCnt d = cnt₀ d + (l.usesOf pend d + l.usesOf accepted d)
  held : ∀ u, waiting.count u ≤ accepted.count u
  live : ∀ u, l.Live u → u ∉ pend → waiting.count u < accepted.count u
  begun : ∀ u ∈ pend, l.Live u
  nodup : pend.Nodup
  sync : ∀ u h, l.priv u = some h → h.urbDel = true → (l.const u).asyncUnlink = false
  del : ∀ e, (l.state e).del = false
  hub : ∀ u, (l.const u).pipe.device = devnum → l.priv u = none ∧ u ∉ waiting

section Uses

variable {cnt₀ : DevPtr → ℤ} {devnum : ℕ} {l l' : Ledger} {pend waiting accepted us : List UrbPtr}
    {u : UrbPtr}
  {d : DevPtr} {n : ℤ} {e : EdPtr} {st : EdState}

theorem use_useCnt : (l.use d n).useCnt = fun d' => l.useCnt d' + if d' = d then n else 0 := by
  funext d'
  rw [use]
  dsimp only
  rw [Function.update_apply]
  split
  · rename_i h
    rw [h]
  · exact (Int.add_zero _).symm

theorem usesOf_cons :
    l.usesOf (u :: us) d = l.usesOf us d + if d = (l.const u).dev then 1 else 0 := by
  rw [usesOf, List.countP_cons, usesOf]
  simp only [decide_eq_true_eq, eq_comm (a := d)]

theorem usesOf_erase (hu : u ∈ us) :
    l.usesOf (us.erase u) d + (if d = (l.const u).dev then 1 else 0) = l.usesOf us d := by
  rw [← usesOf_cons]
  exact ((List.perm_cons_erase hu).countP_eq _).symm

theorem live_iff : l.Live u ↔ (l.priv u).map Holding.urbDel = some false := by
  rw [Option.map_eq_some_iff]
  rfl

theorem live_congr (h : (l'.priv u).map Holding.urbDel = (l.priv u).map Holding.urbDel) :
    l'.Live u ↔ l.Live u := by
  rw [live_iff, live_iff, h]

/-- What the counts do not depend on. -/
theorem Uses.congr (h : Uses cnt₀ devnum l pend waiting accepted) (hcnt : l'.useCnt = l.useCnt)
    (hconst : l'.const = l.const)
    (hpriv : ∀ z, (l'.priv z).map Holding.urbDel = (l.priv z).map Holding.urbDel)
    (hdel : ∀ e, (l'.state e).del = false) : Uses cnt₀ devnum l' pend waiting accepted where
  cnt := by
    unfold usesOf
    rw [hcnt, hconst]
    exact h.cnt
  held := h.held
  live := fun z hz => h.live z ((live_congr (hpriv z)).mp hz)
  begun := fun z hz => (live_congr (hpriv z)).mpr (h.begun z hz)
  nodup := h.nodup
  sync := fun z x hx hxdel => by
    have hmap := hpriv z
    rw [hx] at hmap
    obtain ⟨y, hy, hyx⟩ := Option.map_eq_some_iff.mp hmap.symm
    rw [hconst]
    exact h.sync z y hy (hyx.trans hxdel)
  del := hdel
  hub := fun z hz => by
    rw [hconst] at hz
    have hmap := hpriv z
    rw [(h.hub z hz).1] at hmap
    exact ⟨Option.map_eq_none_iff.mp hmap, (h.hub z hz).2⟩

theorem Uses.setState (h : Uses cnt₀ devnum l pend waiting accepted) (hst : st.del = false) :
    Uses cnt₀ devnum (l.setState e st) pend waiting accepted :=
  h.congr rfl rfl (fun _ => rfl) (fun x => by
    simp only [Ledger.setState, Function.update_apply]
    split
    · exact hst
    · exact h.del x)

theorem Uses.added {fa : ℕ} {dummy : TdPtr} (h : Uses cnt₀ devnum l pend waiting accepted)
    (hadd : l.Added l' d e fa dummy) : Uses cnt₀ devnum l' pend waiting accepted := by
  obtain ⟨-, -, rfl⟩ | ⟨-, -, rfl⟩ := hadd
  · exact h.congr rfl rfl (fun _ => rfl) h.del
  · have hset : Uses cnt₀ devnum (l.setState e .edUnlink) pend waiting accepted := h.setState rfl
    exact hset.congr rfl rfl (fun _ => rfl) hset.del

/-- **A request is taken**: the device is counted up. -/
theorem Uses.begin {x : Holding} (h : Uses cnt₀ devnum l pend waiting accepted)
    (hu : l.priv u = none)
    (hdev : (l.const u).pipe.device ≠ devnum) (hx : x.urbDel = false) :
    Uses cnt₀ devnum ((l.use (l.const u).dev 1).setPriv u (some x)) (u :: pend) waiting
      accepted := by
  have hne : ∀ z, z ≠ u → ((l.use (l.const u).dev 1).setPriv u (some x)).priv z = l.priv z :=
    fun z hz => setPriv_priv_of_ne hz _
  have hself : ((l.use (l.const u).dev 1).setPriv u (some x)).priv u = some x :=
    Function.update_self _ _ _
  refine ⟨fun d => ?_, h.held, fun z hz hp => ?_, fun z hz => ?_, ?_, fun z y hy hdel => ?_,
    h.del, fun z hz => ?_⟩
  · have hcnt := h.cnt d
    have hcons : l.usesOf (u :: pend) d
        = l.usesOf pend d + if d = (l.const u).dev then 1 else 0 := usesOf_cons
    change (l.use (l.const u).dev 1).useCnt d
      = cnt₀ d + (l.usesOf (u :: pend) d + l.usesOf accepted d)
    rw [use_useCnt]
    dsimp only
    rw [hcnt, hcons]
    split <;> push_cast <;> omega
  · have hzu : z ≠ u := fun hzu => hp (hzu ▸ List.mem_cons_self)
    exact h.live z ((live_congr (congrArg _ (hne z hzu))).mp hz)
      (fun hm => hp (List.mem_cons_of_mem u hm))
  · by_cases hzu : z = u
    · rw [hzu]
      exact ⟨x, hself, hx⟩
    · exact (live_congr (congrArg _ (hne z hzu))).mpr (h.begun z (List.mem_of_ne_of_mem hzu hz))
  · refine List.nodup_cons.mpr ⟨fun hm => ?_, h.nodup⟩
    obtain ⟨y, hy, -⟩ := h.begun u hm
    rw [hu] at hy
    cases hy
  · by_cases hzu : z = u
    · rw [hzu, hself] at hy
      cases hy
      rw [hx] at hdel
      cases hdel
    · exact h.sync z y (hne z hzu ▸ hy) hdel
  · have hzu : z ≠ u := fun hzu => hdev (hzu ▸ hz)
    exact ⟨(hne z hzu).trans (h.hub z hz).1, (h.hub z hz).2⟩

/-- **A private part goes**, and the URB is not on the lists any more. -/
theorem Uses.remove {accepted' : List UrbPtr} (h : Uses cnt₀ devnum l pend waiting accepted)
    (hcnt : ∀ x, (l.usesOf pend x + l.usesOf accepted x : ℤ) + (if x = d then n else 0)
      = l.usesOf (pend.erase u) x + l.usesOf accepted' x)
    (hself : waiting.count u ≤ accepted'.count u)
    (hother : ∀ z, z ≠ u → accepted.count z = accepted'.count z) :
    Uses cnt₀ devnum ((l.rmPriv u).use d n) (pend.erase u) waiting accepted' := by
  have hne : ∀ z, z ≠ u → ((l.rmPriv u).use d n).priv z = l.priv z :=
    fun z hz => rmPriv_priv_of_ne hz
  have hnone : ((l.rmPriv u).use d n).priv u = none := by
    rw [use_priv, rmPriv_priv, Function.update_self]
  have hconst : ((l.rmPriv u).use d n).const = l.const := rmPriv_const l u
  have hsome : ∀ z x, ((l.rmPriv u).use d n).priv z = some x → z ≠ u := by
    rintro z x hx rfl
    rw [hnone] at hx
    cases hx
  refine ⟨fun x => ?_, fun z => ?_, fun z hz hp => ?_, fun z hz => ?_, h.nodup.erase u,
    fun z y hy hdel => ?_, ?_, fun z hz => ?_⟩
  · have huses : ∀ us, ((l.rmPriv u).use d n).usesOf us x = l.usesOf us x := fun us => by
      rw [usesOf, usesOf, hconst]
    rw [huses, huses, use_useCnt, ← hcnt x]
    dsimp only
    rw [rmPriv_useCnt, h.cnt x, Int.add_assoc]
  · by_cases hzu : z = u
    · rw [hzu]
      exact hself
    · rw [← hother z hzu]
      exact h.held z
  · obtain ⟨y, hy, -⟩ := id hz
    have hzu := hsome z y hy
    rw [← hother z hzu]
    exact h.live z ((live_congr (congrArg _ (hne z hzu))).mp hz)
      (fun hm => hp ((List.mem_erase_of_ne hzu).mpr hm))
  · have hzu : z ≠ u := fun hzu => h.nodup.not_mem_erase (hzu ▸ hz)
    exact (live_congr (congrArg _ (hne z hzu))).mpr (h.begun z (List.mem_of_mem_erase hz))
  · rw [hconst]
    exact h.sync z y (hne z (hsome z y hy) ▸ hy) hdel
  · rw [use_state, rmPriv_state]
    exact h.del
  · rw [hconst] at hz
    by_cases hzu : z = u
    · exact ⟨hzu ▸ hnone, (h.hub z hz).2⟩
    · exact ⟨(hne z hzu).trans (h.hub z hz).1, (h.hub z hz).2⟩

/-- A private part goes that was not live. -/
theorem Uses.clear (h : Uses cnt₀ devnum l pend waiting accepted) (hu : ¬ l.Live u) :
    Uses cnt₀ devnum (l.rmPriv u) pend waiting accepted := by
  have hpend : pend.erase u = pend := List.erase_of_not_mem (fun hm => hu (h.begun u hm))
  have hrem : Uses cnt₀ devnum ((l.rmPriv u).use 0 0) (pend.erase u) waiting accepted :=
    h.remove (fun x => by rw [hpend, ite_self, Int.add_zero]) (h.held u) (fun z _ => rfl)
  rwa [hpend, use_zero] at hrem

/-- A request that has been taken is not accepted: the device is counted down. -/
theorem Uses.fail (h : Uses cnt₀ devnum l pend waiting accepted) (hu : u ∈ pend) :
    Uses cnt₀ devnum ((l.rmPriv u).use (l.const u).dev (-1)) (pend.erase u) waiting accepted := by
  refine h.remove (fun x => ?_) (h.held u) (fun z _ => rfl)
  have herase := usesOf_erase (l := l) (d := x) hu
  rw [← herase]
  split <;> push_cast <;> omega

/-- **A live request is given back**: the device is counted down. -/
theorem Uses.back (h : Uses cnt₀ devnum l pend waiting accepted) (hu : l.Live u) (hp : u ∉ pend) :
    Uses cnt₀ devnum ((l.rmPriv u).use (l.const u).dev (-1)) pend waiting (accepted.erase u) := by
  have hpend : pend.erase u = pend := List.erase_of_not_mem hp
  have hlt := h.live u hu hp
  have hmem : u ∈ accepted := List.count_pos_iff.mp (Nat.lt_of_le_of_lt (Nat.zero_le _) hlt)
  have hrem : Uses cnt₀ devnum ((l.rmPriv u).use (l.const u).dev (-1)) (pend.erase u) waiting
      (accepted.erase u) := by
    refine h.remove (fun x => ?_) ?_ (fun z hz => (List.count_erase_of_ne hz).symm)
    · have herase := usesOf_erase (l := l) (d := x) hmem
      rw [hpend, ← herase]
      split <;> push_cast <;> omega
    · rw [List.count_erase_self]
      omega
  rwa [hpend] at hrem

/-- **A request is accepted.** -/
theorem Uses.accept (h : Uses cnt₀ devnum l pend waiting accepted) (hu : u ∈ pend) :
    Uses cnt₀ devnum l (pend.erase u) waiting (u :: accepted) := by
  have hle : ∀ z, accepted.count z ≤ (u :: accepted).count z := fun z => List.count_le_count_cons
  refine ⟨fun x => ?_, fun z => (h.held z).trans (hle z), fun z hz hp => ?_,
    fun z hz => h.begun z (List.mem_of_mem_erase hz), h.nodup.erase u, h.sync, h.del, h.hub⟩
  · rw [h.cnt x, usesOf_cons, ← usesOf_erase (d := x) hu]
    push_cast
    omega
  · by_cases hzu : z = u
    · subst hzu
      have hheld := h.held z
      rw [List.count_cons_self]
      omega
    · exact (h.live z hz (fun hm => hp ((List.mem_erase_of_ne hzu).mpr hm))).trans_le (hle z)

/-- **A live request is marked**, and the unlinking waits. -/
theorem Uses.mark {x : Holding} (h : Uses cnt₀ devnum l pend waiting accepted)
    (hx : l.priv u = some x)
    (hu : l.Live u) (hp : u ∉ pend) (hsync : (l.const u).asyncUnlink = false) :
    Uses cnt₀ devnum (l.setPriv u (some { x with urbDel := true })) pend (u :: waiting)
      accepted := by
  have hne : ∀ z, z ≠ u → (l.setPriv u (some { x with urbDel := true })).priv z = l.priv z :=
    fun z hz => setPriv_priv_of_ne hz _
  have hself : (l.setPriv u (some { x with urbDel := true })).priv u
      = some { x with urbDel := true } :=
    Function.update_self _ _ _
  refine ⟨h.cnt, fun z => ?_, fun z hz hm => ?_, fun z hz => ?_, h.nodup, fun z y hy hdel => ?_,
    h.del, fun z hz => ?_⟩
  · by_cases hzu : z = u
    · subst hzu
      rw [List.count_cons_self]
      exact h.live z hu hp
    · rw [List.count_cons_of_ne (Ne.symm hzu)]
      exact h.held z
  · have hzu : z ≠ u := by
      rintro rfl
      obtain ⟨y, hy, hdel⟩ := hz
      rw [hself] at hy
      cases hy
      cases hdel
    rw [List.count_cons_of_ne (Ne.symm hzu)]
    exact h.live z ((live_congr (congrArg _ (hne z hzu))).mp hz) hm
  · have hzu : z ≠ u := fun hzu => hp (hzu ▸ hz)
    exact (live_congr (congrArg _ (hne z hzu))).mpr (h.begun z hz)
  · by_cases hzu : z = u
    · rw [hzu]
      exact hsync
    · exact h.sync z y (hne z hzu ▸ hy) hdel
  · obtain ⟨hnone, hw⟩ := h.hub z hz
    have hzu : z ≠ u := by
      rintro rfl
      rw [hx] at hnone
      cases hnone
    refine ⟨(hne z hzu).trans hnone, fun hm => hw (List.mem_of_ne_of_mem hzu hm)⟩

/-- **A wait is over**: the device is counted down. -/
theorem Uses.finish (h : Uses cnt₀ devnum l pend waiting accepted) (hu : u ∈ waiting) :
    Uses cnt₀ devnum (l.use (l.const u).dev (-1)) pend (waiting.erase u) (accepted.erase u) := by
  have hpos : 0 < waiting.count u := List.count_pos_iff.mpr hu
  have hmem : u ∈ accepted := List.count_pos_iff.mp (hpos.trans_le (h.held u))
  refine ⟨fun x => ?_, fun z => ?_, fun z hz hm => ?_, h.begun, h.nodup, h.sync, h.del,
    fun z hz => ⟨(h.hub z hz).1, fun hm => (h.hub z hz).2 (List.mem_of_mem_erase hm)⟩⟩
  · have hcnt := h.cnt x
    have herase := usesOf_erase (l := l) (d := x) hmem
    change (l.use (l.const u).dev (-1)).useCnt x
      = cnt₀ x + (l.usesOf pend x + l.usesOf (accepted.erase u) x)
    rw [use_useCnt]
    dsimp only
    rw [hcnt, ← herase]
    split <;> push_cast <;> omega
  · rw [List.count_erase, List.count_erase]
    exact Nat.sub_le_sub_right (h.held z) _
  · have hlt := h.live z hz hm
    rw [List.count_erase, List.count_erase]
    split
    · rename_i hzu
      rw [beq_iff_eq.mp hzu] at hpos
      omega
    · exact hlt

/-- Filling TDs leaves all that is asked here. -/
theorem Uses.swaps (h : Uses cnt₀ devnum l pend waiting accepted) (hs : Ledger.Swaps u l l') :
    Uses cnt₀ devnum l' pend waiting accepted := by
  induction hs with
  | refl l => exact h
  | swap hp _ _ ih =>
    refine ih (h.congr rfl rfl (fun z => ?_) h.del)
    by_cases hzu : z = u
    · rw [hzu, hp, swap]
      dsimp only
      rw [Function.update_self]
      rfl
    · exact congrArg _ (Function.update_of_ne hzu _ _)

/-- A request to the root hub is accepted. -/
theorem Uses.hubAccept (h : Uses cnt₀ devnum l pend waiting accepted) :
    Uses cnt₀ devnum (l.use (l.const u).dev 1) pend waiting (u :: accepted) := by
  have hle : ∀ z, accepted.count z ≤ (u :: accepted).count z := fun z => List.count_le_count_cons
  refine ⟨fun x => ?_, fun z => (h.held z).trans (hle z),
    fun z hz hm => (h.live z hz hm).trans_le (hle z), h.begun, h.nodup, h.sync, h.del, h.hub⟩
  have hcnt := h.cnt x
  have hcons : l.usesOf (u :: accepted) x
      = l.usesOf accepted x + if x = (l.const u).dev then 1 else 0 :=
    usesOf_cons
  change (l.use (l.const u).dev 1).useCnt x
    = cnt₀ x + (l.usesOf pend x + l.usesOf (u :: accepted) x)
  rw [use_useCnt]
  dsimp only
  rw [hcnt, hcons]
  split <;> push_cast <;> omega

/-- A request to the root hub is given back. -/
theorem Uses.hubBack (h : Uses cnt₀ devnum l pend waiting accepted)
    (hdev : (l.const u).pipe.device = devnum)
    (hu : u ∈ accepted) :
    Uses cnt₀ devnum (l.use (l.const u).dev (-1)) pend waiting (accepted.erase u) := by
  obtain ⟨hnone, hw⟩ := h.hub u hdev
  have hp : u ∉ pend := by
    intro hm
    obtain ⟨x, hx, -⟩ := h.begun u hm
    rw [hnone] at hx
    cases hx
  have hrem : Uses cnt₀ devnum ((l.rmPriv u).use (l.const u).dev (-1)) (pend.erase u) waiting
      (accepted.erase u) := by
    refine h.remove (fun x => ?_) ?_ (fun z hz => (List.count_erase_of_ne hz).symm)
    · have herase := usesOf_erase (l := l) (d := x) hu
      rw [List.erase_of_not_mem hp, ← herase]
      split <;> push_cast <;> omega
    · rw [List.count_eq_zero_of_not_mem hw]
      exact Nat.zero_le _
  rwa [List.erase_of_not_mem hp, rmPriv_of_none l u hnone] at hrem

end Uses

end Ledger

/-! ## Steps -/

section Steps

variable {s s' : UseSys} {o' : Ohci} {u : UrbPtr} {fuel : ℕ} {a : UseAct} {cnt₀ : DevPtr → ℤ}

theorem Ohci.live_eq {o : Ohci} : o.live u = true ↔ o.ledger.Live u := by
  have hpriv : o.ledger.priv u = (o.urb u).hcpriv.map UrbPriv.holding := rfl
  rw [Ohci.live, Ledger.Live, hpriv]
  cases (o.urb u).hcpriv with
  | none => simp
  | some p => simp [UrbPriv.holding]

/-- A request whose private part stays is not given back. -/
theorem UseSys.given_of_priv (h : o'.ledger.priv u = s.sys.mem.ledger.priv u) :
    s.given o' u = s.accepted := by
  refine if_neg ?_
  rintro ⟨hlive, hnone⟩
  obtain ⟨x, hx, -⟩ := Ohci.live_eq.mp hlive
  have hpriv : o'.ledger.priv u = none := ledger_priv_none (Option.isNone_iff_eq_none.mp hnone)
  rw [← h, hpriv] at hx
  cases hx

/-- A request that is not live is not given back. -/
theorem UseSys.given_of_dead (h : ¬ s.sys.mem.ledger.Live u) : s.given o' u = s.accepted :=
  if_neg (fun hg => h (Ohci.live_eq.mp hg.1))

/-- A live request whose private part goes is given back. -/
theorem UseSys.given_of_live (h : s.sys.mem.ledger.Live u) (hnone : o'.ledger.priv u = none) :
    s.given o' u = s.accepted.erase u :=
  if_pos ⟨Ohci.live_eq.mpr h, Option.isNone_iff_eq_none.mpr (Option.map_eq_none_iff.mp hnone)⟩

theorem UseSys.accepted_resume (h : o'.ledger.priv = s.sys.mem.ledger.priv) :
    s.acceptedAfter fuel o' .resume = s.accepted := by
  unfold UseSys.acceptedAfter
  dsimp only
  split
  · exact UseSys.given_of_priv (congrFun h _)
  · rfl

/-- The invariant of a watched run. -/
def UseSys.Uses (cnt₀ : DevPtr → ℤ) (s : UseSys) : Prop :=
  s.sys.mem.ledger.Uses cnt₀ s.sys.mem.rhDevnum s.sys.pend s.sys.waiting s.accepted

/-- **`sohci_unlink_urb`.** -/
theorem UseSys.Uses.unlink {sys' : Sys} (h : s.Uses cnt₀) (hadm : s.admits (.unlink u) = true)
    (hok : UseClean s (.hw (.unlink u))) (he : Sys.Entry s.sys sys' (.unlink u)) :
    sys'.mem.ledger.Uses cnt₀ s.sys.mem.rhDevnum sys'.pend sys'.waiting (s.given sys'.mem u) := by
  have hsync : (s.sys.mem.ledger.const u).asyncUnlink = false := by
    simp only [UseSys.admits, Bool.and_eq_true] at hadm
    exact (Bool.not_eq_true' _).mp hadm.2
  have hlive : ∀ x, s.sys.mem.ledger.priv u = some x → s.sys.mem.ledger.Live u ∧
      u ∉ s.sys.pend := by
    intro x hx
    obtain ⟨p, hp, -⟩ := Option.map_eq_some_iff.mp hx
    obtain ⟨hl, hpend⟩ := hok (Option.isSome_iff_exists.mpr ⟨p, hp⟩)
    exact ⟨Ohci.live_eq.mp hl, hpend⟩
  cases he with
  | same _ hl hp hw =>
    rw [hl, hp, hw, UseSys.given_of_priv (congrFun (congrArg Ledger.priv hl) u)]
    exact h
  | mark _ x _ hx _ hl hp hw =>
    obtain ⟨hlv, hpend⟩ := hlive x hx
    have hdead : (sys'.mem.ledger.priv u) = some { x with urbDel := true } := by
      rw [hl]
      exact Function.update_self _ _ _
    have hgiven : s.given sys'.mem u = s.accepted := by
      refine if_neg (fun hg => ?_)
      rw [ledger_priv_none (Option.isNone_iff_eq_none.mp hg.2)] at hdead
      cases hdead
    have hwait : (s.sys.mem.urb u).asyncUnlink = false := hsync
    rw [hl, hp, hw, hgiven, hwait]
    exact (Ledger.Uses.mark h hx hlv hpend hsync).setState (h.del x.ed)
  | drop _ x _ hx _ hl hp hw =>
    obtain ⟨hlv, hpend⟩ := hlive x hx
    have hnone : sys'.mem.ledger.priv u = none := by
      rw [hl, Ledger.use_priv, Ledger.rmPriv_priv, Function.update_self]
    rw [UseSys.given_of_live hlv hnone, hl, hp, hw]
    exact Ledger.Uses.back h hlv hpend

/-- **One pass of an interrupt routine.** -/
theorem UseSys.Uses.resume {sys' : Sys} (h : s.Uses cnt₀) (hok : UseClean s (.hw .resume))
    (he : Sys.Entry s.sys sys' .resume) :
    sys'.mem.ledger.Uses cnt₀ s.sys.mem.rhDevnum sys'.pend sys'.waiting
      (s.acceptedAfter fuel sys'.mem .resume) := by
  cases he with
  | same _ hl hp hw =>
    rw [UseSys.accepted_resume (congrArg Ledger.priv hl), hl, hp, hw]
    exact h
  | returned t tasks x ht hx hdel _ _ hl hp hw =>
    have hlv : s.sys.mem.ledger.Live (s.sys.mem.td t).urb := ⟨x, hx, hdel⟩
    have hnone : sys'.mem.ledger.priv (s.sys.mem.td t).urb = none := by
      rw [hl, Ledger.use_priv, Ledger.rmPriv_priv, Function.update_self]
    have hacc : s.acceptedAfter fuel sys'.mem .resume
        = s.accepted.erase (s.sys.mem.td t).urb := by
      unfold UseSys.acceptedAfter
      rw [ht]
      exact UseSys.given_of_live hlv hnone
    rw [hacc, hl, hp, hw]
    exact Ledger.Uses.back h hlv (hok t tasks ht (Ohci.live_eq.mpr hlv)).1
  | cleared t tasks x ht hx hdead hl hp hw =>
    have hlv : ¬ s.sys.mem.ledger.Live (s.sys.mem.td t).urb := by
      rintro hlv
      obtain hdel | hdel | hnew := hdead
      · obtain ⟨y, hy, hydel⟩ := hlv
        rw [hx] at hy
        cases hy
        rw [hdel] at hydel
        cases hydel
      · have hfalse := h.del (s.sys.mem.td t).ed
        rw [hdel] at hfalse
        cases hfalse
      · exact (hok t tasks ht (Ohci.live_eq.mpr hlv)).2 hnew
    have hacc : s.acceptedAfter fuel sys'.mem .resume = s.accepted := by
      unfold UseSys.acceptedAfter
      rw [ht]
      exact UseSys.given_of_dead hlv
    rw [hacc, hl, hp, hw]
    exact Ledger.Uses.clear h hlv
  | refilled v e next tasks x ht hx hdel hs hp hw =>
    have hacc : s.acceptedAfter fuel sys'.mem .resume = s.accepted := by
      unfold UseSys.acceptedAfter
      rw [ht]
    rw [hacc, hp, hw]
    exact Ledger.Uses.swaps h hs
  | idle e _ hl hp hw =>
    rw [UseSys.accepted_resume (by rw [hl, Ledger.setState_priv]), hl, hp, hw]
    exact Ledger.Uses.setState h rfl
  | deleted f e tail fa t tdP tasks p ht _ hpriv hdel hl hp hw =>
    have hacc : s.acceptedAfter fuel sys'.mem .resume = s.accepted := by
      unfold UseSys.acceptedAfter
      rw [ht]
    have hx : s.sys.mem.ledger.priv (s.sys.mem.td t).urb = some p.holding := ledger_priv hpriv
    have hpdel : p.urbDel = true := hdel.resolve_right (by rw [h.del e]; decide)
    have hlv : ¬ s.sys.mem.ledger.Live (s.sys.mem.td t).urb := by
      rintro ⟨y, hy, hydel⟩
      rw [hx] at hy
      cases hy
      rw [show p.holding.urbDel = true from hpdel] at hydel
      cases hydel
    have hsync := h.sync _ _ hx hpdel
    have hrep : ∀ l : Ledger, l.const = s.sys.mem.ledger.const →
        l.report (s.sys.mem.td t).urb = l := by
      intro l hl
      rw [Ledger.report, hl, hsync]
      rfl
    rw [hacc, hl, hp, hw]
    split
    · rw [hrep _ (Ledger.rmPriv_const _ _)]
      exact Ledger.Uses.clear h hlv
    · rw [hrep _ rfl]
      exact h
  | removed f e tail fa tdP tasks ht hdel _ _ _ =>
    rw [h.del e] at hdel
    cases hdel
  | unmarked f e tail fa tdP tasks ht _ hl hp hw =>
    rw [UseSys.accepted_resume (by rw [hl, Ledger.setState_priv]), hl, hp, hw]
    exact Ledger.Uses.setState h (h.del e)

/-- **A step that does not concern the root hub.** -/
theorem UseSys.Uses.hw {sys' : Sys} {a : Act} (hb : s.sys.Base) (h : s.Uses cnt₀)
    (hadm : s.admits a = true)
    (hok : UseClean s (.hw a)) (hs : s.sys.step fuel a = some sys') :
    sys'.mem.ledger.Uses cnt₀ s.sys.mem.rhDevnum sys'.pend sys'.waiting
      (s.acceptedAfter fuel sys'.mem a) := by
  have he := Sys.step_entry hb hs
  have hsame : ∀ {sys' : Sys}, sys'.mem.ledger = s.sys.mem.ledger → sys'.pend = s.sys.pend →
      sys'.waiting = s.sys.waiting →
      sys'.mem.ledger.Uses cnt₀ s.sys.mem.rhDevnum sys'.pend sys'.waiting s.accepted := by
    intro sys' hl hp hw
    rw [hl, hp, hw]
    exact h
  cases a with
  | submitFirst u dummy tds =>
    have hdevice : (s.sys.mem.ledger.const u).pipe.device ≠ s.sys.mem.rhDevnum :=
      of_decide_eq_true hadm
    cases he with
    | same _ hl hp hw => exact hsame hl hp hw
    | stopped _ _ _ hdis hdev hnone _ _ _ =>
      rw [hok hdev (Option.map_eq_none_iff.mp hnone)] at hdis
      cases hdis
    | noDummy _ _ _ _ _ hl hp hw =>
      rw [hl, hp, hw]
      exact Ledger.Uses.congr h rfl rfl (fun _ => rfl) h.del
    | undone _ _ _ e l _ _ hnone hadd hl hp hw =>
      have hadded := Ledger.Uses.added h hadd
      have hpriv : l.priv u = none := by
        rw [hadd.priv]
        exact hnone
      have hrm : sys'.mem.ledger.priv = l.priv := by
        rw [hl, Ledger.rmPriv_priv]
        exact (Function.update_idem _ _ _).trans (hpriv ▸ Function.update_eq_self u l.priv)
      refine hp ▸ hw ▸ Ledger.Uses.congr hadded ?_ ?_ (fun z => by rw [hrm]) ?_
      · rw [hl, Ledger.rmPriv_useCnt]
        rfl
      · rw [hl, Ledger.rmPriv_const]
        rfl
      · rw [hl, Ledger.rmPriv_state]
        exact hadded.del
    | begun _ _ _ e l _ _ hnone hadd _ hl hp hw =>
      have hadded := Ledger.Uses.added h hadd
      have hpriv : l.priv u = none := by
        rw [hadd.priv]
        exact hnone
      have hconst : l.const = s.sys.mem.ledger.const := by
        obtain ⟨-, -, rfl⟩ | ⟨-, -, rfl⟩ := hadd <;> rfl
      have hbegin := Ledger.Uses.begin (x := (newPriv e (tdSize (s.sys.mem.urb u)) tds).holding)
        hadded hpriv
        (by rw [hconst]; exact hdevice) rfl
      rw [hconst] at hbegin
      rw [hl, hp, hw]
      exact Ledger.Uses.congr hbegin rfl rfl (fun _ => rfl) hbegin.del
  | submitSecond u buf setup =>
    simp only [Sys.step] at hs
    split at hs
    · rename_i hpend
      obtain ⟨⟨o, b⟩, h₁, hs⟩ := Option.bind_eq_some_iff.mp hs
      cases hs
      unfold UseSys.acceptedAfter
      dsimp only
      rw [h₁]
      obtain ⟨p, hp, ⟨rfl, hl⟩ | ⟨rfl, -, -, hswaps⟩⟩ := ledger_submitSecond h₁
      · rw [hl]
        exact Ledger.Uses.fail h hpend
      · exact ((Ledger.Uses.accept h hpend).setState rfl).swaps hswaps
    · cases hs
  | unlink u => exact h.unlink hadm hok he
  | unlinkFinish u =>
    cases he with
    | same _ _ _ hw =>
      simp only [Sys.step] at hs
      split at hs
      · rename_i hmem
        cases hs
        have hlen := congrArg List.length hw
        rw [List.length_erase_of_mem hmem] at hlen
        have hpos := List.length_pos_of_mem hmem
        omega
      · cases hs
    | finish _ hmem hl hp hw =>
      rw [hl, hp, hw]
      exact Ledger.Uses.finish h hmem
  | freeEd e => cases hadm
  | resume => exact h.resume hok he
  | doneIrq | delIrq | frame | hcEd | hcTd | hcDone | hcData =>
    cases he with
    | same _ hl hp hw => exact hsame hl hp hw

/-- The timer of the root hub makes no entry. -/
theorem UseSys.rhTimer_ledger (u : UrbPtr) (len : ℕ) : ∃ o rh,
    s.rhTimer u len = { s with sys := { s.sys with mem := o }, rh := rh } ∧
      o.ledger = s.sys.mem.ledger := by
  have hset : (s.sys.mem.modUrb u (fun r => { r with actualLength := len })).ledger
      = s.sys.mem.ledger :=
    Ohci.ledger_modUrb_same (by intro; rfl) (by intro; rfl)
  unfold UseSys.rhTimer
  split
  · exact ⟨_, _, rfl, rfl⟩
  dsimp only
  split
  · refine ⟨_, _, rfl, ?_⟩
    split
    · exact ledger_callComplete.trans hset
    · exact hset
  · exact ⟨_, _, rfl, rfl⟩

/-- What is kept through a watched run. -/
def UseSys.Inv (o : Ohci) (s : UseSys) : Prop :=
  s.sys.Base ∧ s.sys.mem.ledger.const = o.ledger.const ∧ s.Uses o.ledger.useCnt

/-- **Every clean step keeps the counts right.** -/
theorem UseSys.Inv.step {o : Ohci} (h : s.Inv o) (hok : UseClean s a)
    (hs : s.step fuel a = some s') :
    s'.Inv o := by
  obtain ⟨hb, hconst, huses⟩ := h
  cases a with
  | hw a =>
    simp only [UseSys.step] at hs
    split at hs
    · rename_i hadm
      obtain ⟨sys', h₁, hs⟩ := Option.bind_eq_some_iff.mp hs
      cases hs
      obtain ⟨-, hc, hdevnum⟩ := (Sys.step_entry hb h₁).layout
      have hhub : sys'.mem.rhDevnum = s.sys.mem.rhDevnum := hdevnum
      refine ⟨Sys.step_base hb h₁, hc.trans hconst, ?_⟩
      unfold UseSys.Uses
      dsimp only
      rw [hhub]
      exact huses.hw hb hadm hok h₁
    · cases hs
  | rhSubmit u len status n =>
    simp only [UseSys.step, UseSys.rhSubmit] at hs
    split at hs
    · cases hs
      exact ⟨hb, hconst, huses⟩
    split at hs
    · cases hs
    rename_i hskip hdevice
    have hnone : (s.sys.mem.urb u).hcpriv = none :=
      Option.not_isSome_iff_eq_none.mp (fun h => hskip (.inr h))
    have hint := hok (fun h => hskip (.inl h)) hnone
    rw [if_pos hint] at hs
    cases hs
    have hl : (rhSubmitUrb s.rh (incDevUse s.sys.mem u) u len status).2.ledger
        = s.sys.mem.ledger.use (s.sys.mem.urb u).dev 1 := by
      have hpipe : ((incDevUse s.sys.mem u).urb u).pipe.type = .int := hint
      rw [rhSubmitUrb, if_pos hpipe]
      exact (Ohci.ledger_modUrb_same (by intro; rfl) (by intro; rfl)).trans ledger_incDevUse
    have hhub : (rhSubmitUrb s.rh (incDevUse s.sys.mem u) u len status).2.rhDevnum
        = s.sys.mem.rhDevnum :=
      congrArg Ledger.rhDevnum hl
    refine ⟨hb.of_ledger (by rw [hl]; rfl) (by rw [hl]; rfl),
      (congrArg Ledger.const hl).trans hconst, ?_⟩
    unfold UseSys.Uses
    dsimp only
    rw [hl, hhub]
    exact Ledger.Uses.hubAccept huses
  | rhUnlink u =>
    simp only [UseSys.step, UseSys.rhUnlink] at hs
    split at hs
    · cases hs
      exact ⟨hb, hconst, huses⟩
    split at hs
    · cases hs
    rename_i hdevice
    cases hs
    have hl : (decDevUse s.sys.mem u).ledger = s.sys.mem.ledger.use (s.sys.mem.urb u).dev (-1) :=
      ledger_decDevUse
    refine ⟨hb.of_ledger (by rw [hl]; rfl) (by rw [hl]; rfl),
      (congrArg Ledger.const hl).trans hconst, ?_⟩
    unfold UseSys.Uses
    dsimp only
    rw [hl]
    exact Ledger.Uses.hubBack huses (not_not.mp hdevice) hok
  | rhTimer u len =>
    cases hs
    obtain ⟨o, rh, hs, hl⟩ := UseSys.rhTimer_ledger (s := s) u len
    rw [hs]
    have hhub : o.rhDevnum = s.sys.mem.rhDevnum := congrArg Ledger.rhDevnum hl
    refine ⟨hb.of_ledger (by rw [hl]) (by rw [hl]), (congrArg Ledger.const hl).trans hconst, ?_⟩
    unfold UseSys.Uses
    dsimp only
    rw [hl, hhub]
    exact huses

/-- **The use count of a device is what it was at first, plus the number of its
requests that have been accepted and not given back**, those in the middle of
their submission included, in every run of clean steps. -/
theorem useCnt_of_clean {o : Ohci} {rh : VirtRootHub} (ho : o.Idle)
    (h : UseSys.From UseClean ⟨⟨o, [], [], []⟩, rh, []⟩ s) (d : DevPtr) :
    (s.sys.mem.usbDev d).useCnt
        = (o.usbDev d).useCnt + (s.sys.pend ++ s.accepted).countP (fun u => (o.urb u).dev = d) ∧
      (o.usbDev d).useCnt ≤ (s.sys.mem.usbDev d).useCnt ∧
      ((∀ u ∈ s.sys.pend ++ s.accepted, (o.urb u).dev ≠ d) →
        (s.sys.mem.usbDev d).useCnt = (o.usbDev d).useCnt) := by
  have hstart : UseSys.Inv o ⟨⟨o, [], [], []⟩, rh, []⟩ := by
    have hpriv : ∀ u, o.ledger.priv u = none := fun u => ledger_priv_none (ho.hcpriv u)
    refine ⟨ho.base, rfl, fun _ => (Int.add_zero _).symm, fun _ => le_rfl,
      fun u hu _ => ?_, nofun,
      List.nodup_nil, fun u x hx => ?_, fun e => congrArg EdState.del (ho.state e), fun u _ =>
        ⟨hpriv u, nofun⟩⟩
    · obtain ⟨x, hx, -⟩ := hu
      rw [hpriv u] at hx
      cases hx
    · rw [hpriv u] at hx
      cases hx
  have hinv : s.Inv o := by
    induction h with
    | start => exact hstart
    | step fuel a _ hok hs ih => exact ih.step hok hs
  obtain ⟨-, hconst, huses⟩ := hinv
  have hcnt : (s.sys.mem.usbDev d).useCnt
      = (o.usbDev d).useCnt + (s.sys.pend ++ s.accepted).countP (fun u => (o.urb u).dev = d) := by
    have hd := huses.cnt d
    unfold Ledger.usesOf at hd
    rw [hconst] at hd
    rw [List.countP_append, Int.natCast_add]
    exact hd
  refine ⟨hcnt, ?_, fun hnone => ?_⟩
  · rw [hcnt]
    omega
  · rw [hcnt, List.countP_eq_zero.mpr (fun u hu => by simpa using hnone u hu)]
    exact Int.add_zero _

end Steps

/-! ## A control request to the root hub -/

/-- A driver whose root hub has the address 1; URB 1 is a control request to it,
all others are interrupt requests. -/
def hubRequests : Ohci :=
  { (default : Ohci) with
    rhDevnum := 1
    urb := fun u =>
      { (default : Urb) with
        pipe := ⟨if u = 1 then .ctrl else .int, 1, 0, false, false⟩
        dev := 1 } }

theorem hubRequests_idle : hubRequests.Idle :=
  ⟨fun _ => rfl, rfl, fun l => by cases l <;> rfl, fun l => by cases l <;> rfl, fun _ => rfl,
    fun _ => rfl, fun _ => rfl⟩

/-- An interrupt request to the root hub holds its device once. -/
theorem useCnt_of_clean_hub : ∃ s : UseSys, s.accepted = [2] ∧ (s.sys.mem.usbDev 1).useCnt
    = (hubRequests.usbDev 1).useCnt + (s.sys.pend ++ s.accepted).countP
      (fun u => (hubRequests.urb u).dev = 1) := by
  obtain ⟨s, hs, hacc⟩ : ∃ s, UseSys.step 1 ⟨⟨hubRequests, [], [], []⟩, default,
      []⟩ (.rhSubmit 2 0 .ok 1) = some s ∧
      s.accepted = [2] := ⟨_, rfl, rfl⟩
  exact ⟨s, hacc, (useCnt_of_clean hubRequests_idle
    (.step 1 (.rhSubmit 2 0 .ok 1) .start (fun _ _ => rfl) hs) 1).1⟩

/-- A control request to the root hub is finished when `sohci_submit_urb`
returns, and the device stays counted up. -/
theorem useCnt_hubControl : ¬ ∀ (o : Ohci) (rh : VirtRootHub) (s : UseSys) (d : DevPtr), o.Idle →
    UseSys.From (fun _ _ => True) ⟨⟨o, [], [], []⟩, rh, []⟩ s → s.sys.pend = [] →
      (s.sys.mem.usbDev d).useCnt
        = (o.usbDev d).useCnt + s.accepted.countP (fun u => (o.urb u).dev = d) := by
  intro hclaim
  obtain ⟨s, hs, hpend, hacc, hcnt⟩ : ∃ s,
      UseSys.step 1 ⟨⟨hubRequests, [], [], []⟩, default, []⟩ (.rhSubmit 1 18 .ok 1) = some s ∧
      s.sys.pend = [] ∧ s.accepted = [] ∧ (s.sys.mem.usbDev 1).useCnt = 1 :=
        ⟨_, rfl, rfl, rfl, rfl⟩
  have h := hclaim hubRequests default s 1 hubRequests_idle
    (.step 1 (.rhSubmit 1 18 .ok 1) .start trivial hs) hpend
  rw [hacc, hcnt] at h
  exact absurd h (by decide)
