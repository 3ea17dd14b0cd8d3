import SideDumper.SkelSteps

/-!
# What the driver keeps account of

Use counts, counts of EDs, private parts and TD blocks are handed around by
all functions of the driver. `Ledger` is this part of the memory, with what
never changes in a run – the pipes of the URBs and where the EDs of a device
are – and `Ohci.ledger` reads it off. Counters, lengths, links and data do not
show; of each function it is said here which entries it makes.
-/

/-- **What a private part holds.** -/
@[ext]
structure Holding where
  ed : EdPtr
  length : ℕ
  urbDel : Bool
  td : ℕ → TdPtr

/-- What a private part holds. -/
def UrbPriv.holding (p : UrbPriv) : Holding := ⟨p.ed, p.length, p.urbDel, p.td⟩

/-- Whether a TD is one of those held. -/
def Holding.owns (h : Holding) (t : TdPtr) :
    Bool := (List.range h.length).any (fun i => h.td i = t)

/-- What the driver never changes of a URB. -/
structure UrbConst where
  pipe : Pipe
  dev : DevPtr
  complete : Bool
  ring : Bool
  asyncUnlink : Bool
  transferBufferLength : ℕ
  numberOfPackets : ℕ

/-- What the driver never changes of a URB. -/
def Urb.const (r : Urb) : UrbConst :=
  ⟨r.pipe, r.dev, r.complete, r.ring, r.asyncUnlink, r.transferBufferLength, r.numberOfPackets⟩

/-- **The accounts.** -/
@[ext]
structure Ledger where
  useCnt : DevPtr → ℤ
  edCnt : DevPtr → ℤ
  /-- Where the EDs of a device are. -/
  base : DevPtr → EdPtr
  /-- `ohci->dev[]`. -/
  dev : ℕ → DevPtr
  /-- The device address an ED has been filled in with. -/
  fa : EdPtr → ℕ
  tail : EdPtr → TdPtr
  state : EdPtr → EdState
  priv : UrbPtr → Option Holding
  const : UrbPtr → UrbConst
  /-- The address of the root hub. -/
  rhDevnum : ℕ
  alloc : TdPtr → Bool

/-- The accounts of a memory. -/
def Ohci.ledger (o : Ohci) : Ledger where
  useCnt := fun d => (o.usbDev d).useCnt
  edCnt := fun d => (o.usbDev d).edCnt
  base := fun d => (o.usbDev d).edBase
  dev := o.dev
  fa := fun e => (o.ed e).hwINFO.fa
  tail := fun e => (o.ed e).hwTailP
  state := fun e => (o.ed e).state
  priv := fun u => (o.urb u).hcpriv.map UrbPriv.holding
  const := fun u => (o.urb u).const
  rhDevnum := o.rhDevnum
  alloc := o.tdAlloc

/-! ## Entries -/

namespace Ledger

/-- Count the uses of a device up or down. -/
def use (l : Ledger) (d : DevPtr) (n : ℤ) : Ledger :=
  { l with useCnt := Function.update l.useCnt d (l.useCnt d + n) }

/-- A URB gets a private part. -/
def setPriv (l : Ledger) (u : UrbPtr) (h : Option Holding) : Ledger :=
  { l with priv := Function.update l.priv u h }

/-- A private part goes, with its TDs. -/
def rmPriv (l : Ledger) (u : UrbPtr) : Ledger :=
  match l.priv u with
  | none => l
  | some h => { l.setPriv u none with alloc := fun t => l.alloc t && !h.owns t }

/-- The state of an ED is set. -/
def setState (l : Ledger) (e : EdPtr) (st : EdState) : Ledger :=
  { l with state := Function.update l.state e st }

/-- An ED and the table of devices are told about each other. -/
def addEd (l : Ledger) (d : DevPtr) (e : EdPtr) (fa : ℕ) : Ledger :=
  { l with dev := Function.update l.dev fa d, fa := Function.update l.fa e fa }

/-- A new ED gets a dummy TD. -/
def initEd (l : Ledger) (d : DevPtr) (e : EdPtr) (dummy : TdPtr) : Ledger :=
  { l with
    alloc := Function.update l.alloc dummy true
    tail := Function.update l.tail e dummy
    state := Function.update l.state e .edUnlink
    edCnt := Function.update l.edCnt d (l.edCnt d + 1) }

/-- TDs are handed out. -/
def give (l : Ledger) (size : ℕ) (tds : ℕ → TdPtr) : Ledger :=
  { l with alloc := fun t => l.alloc t || (t ≠ 0 && (List.range size).any (tds · = t)) }

/-- **`td_fill`**: a TD of the request becomes the end of the queue, and the
old end a TD of the request. -/
def swap (l : Ledger) (u : UrbPtr) (h : Holding) (i : ℕ) : Ledger :=
  { l with
    priv := Function.update l.priv u (some { h with td := Function.update h.td i (l.tail h.ed) })
    tail := Function.update l.tail h.ed (if l.tail h.ed = h.td i then 0 else h.td i) }

/-- **`td_submit_urb`**, as far as the accounts are concerned. -/
inductive Swaps (u : UrbPtr) : Ledger → Ledger → Prop
  | refl (l : Ledger) : Swaps u l l
  | swap {l l' : Ledger} {h : Holding} {i : ℕ} : l.priv u = some h → i < h.length →
      Swaps u (l.swap u h i) l' → Swaps u l l'

/-- An ED is removed: its dummy TD is freed, and the device at address `fa`
has one ED less. -/
def removeEd (l : Ledger) (e : EdPtr) (tail : TdPtr) (fa : ℕ) : Ledger :=
  { l with
    alloc := Function.update l.alloc tail false
    fa := Function.update l.fa e 0
    state := Function.update l.state e .edNew
    edCnt := Function.update l.edCnt (l.dev fa) (l.edCnt (l.dev fa) - 1) }

end Ledger

namespace Ohci

section Simp

variable {o : Ohci} {e : EdPtr} {t : TdPtr} {u : UrbPtr} {d : DevPtr} {ev : Event}

@[simp] theorem ledger_modTd (f : Td → Td) : (o.modTd t f).ledger = o.ledger := rfl
@[simp] theorem ledger_log : (o.log ev).ledger = o.ledger := rfl

/-- A write to a URB. -/
theorem ledger_modUrb {f : Urb → Urb} (hf : ∀ r, (f r).const = r.const) :
    (o.modUrb u f).ledger
      = o.ledger.setPriv u ((f (o.urb u)).hcpriv.map UrbPriv.holding) := by
  ext1
  case priv =>
    funext z
    rw [Ledger.setPriv]
    dsimp only [ledger]
    rw [modUrb_urb, Function.update_apply]
    split <;> rfl
  case const =>
    funext z
    dsimp only [ledger, Ledger.setPriv]
    rw [modUrb_urb]
    split
    · subst z
      exact hf _
    · rfl
  all_goals rfl

/-- A write to a URB that leaves what its private part holds. -/
theorem ledger_modUrb_same {f : Urb → Urb} (hf : ∀ r, (f r).const = r.const)
    (hp : ∀ r, (f r).hcpriv.map UrbPriv.holding = r.hcpriv.map UrbPriv.holding) :
    (o.modUrb u f).ledger = o.ledger := by
  rw [ledger_modUrb hf, hp, Ledger.setPriv]
  exact congrArg (fun p => { o.ledger with priv := p }) (Function.update_eq_self u o.ledger.priv)

/-- A write to a private part. -/
theorem ledger_modPriv {f : UrbPriv → UrbPriv} {p : UrbPriv} (hp : (o.urb u).hcpriv = some p) :
    (o.modPriv u f).ledger = o.ledger.setPriv u (some (f p).holding) := by
  rw [modPriv, ledger_modUrb (by intro; rfl), hp]
  rfl

/-- A write to a private part that leaves what it holds. -/
theorem ledger_modPriv_same {f : UrbPriv → UrbPriv} (hf : ∀ p, (f p).holding = p.holding) :
    (o.modPriv u f).ledger = o.ledger := by
  refine ledger_modUrb_same (by intro; rfl) fun r => ?_
  cases r.hcpriv with
  | none => rfl
  | some p => exact congrArg some (hf p)

/-- A write to an ED. -/
theorem ledger_modEd (f : Ed → Ed) : (o.modEd e f).ledger =
    { o.ledger with
      fa := Function.update o.ledger.fa e (f (o.ed e)).hwINFO.fa
      tail := Function.update o.ledger.tail e (f (o.ed e)).hwTailP
      state := Function.update o.ledger.state e (f (o.ed e)).state } := by
  ext1
  case fa => exact modEd_field f (fun r => r.hwINFO.fa)
  case tail => exact modEd_field f Ed.hwTailP
  case state => exact modEd_field f Ed.state
  all_goals rfl

/-- A write to an ED that sets its state. -/
theorem ledger_modEd_state {f : Ed → Ed} {st : EdState}
    (hf : ∀ r, ((f r).hwINFO.fa, (f r).hwTailP) = (r.hwINFO.fa, r.hwTailP))
    (hs : (f (o.ed e)).state = st) : (o.modEd e f).ledger = o.ledger.setState e st := by
  have h := hf (o.ed e)
  simp only [Prod.mk.injEq] at h
  rw [ledger_modEd, h.1, h.2, hs]
  ext1
  case fa => exact Function.update_eq_self e o.ledger.fa
  case tail => exact Function.update_eq_self e o.ledger.tail
  all_goals rfl

/-- A write to other fields of an ED. -/
theorem ledger_modEd_same {f : Ed → Ed}
    (hf : ∀ r, ((f r).hwINFO.fa, (f r).hwTailP, (f r).state)
      = (r.hwINFO.fa, r.hwTailP, r.state)) :
    (o.modEd e f).ledger = o.ledger := by
  have h := hf (o.ed e)
  simp only [Prod.mk.injEq] at h
  rw [ledger_modEd_state (fun r => by have := hf r; simp_all) h.2.2]
  ext1
  case state => exact Function.update_eq_self e o.ledger.state
  all_goals rfl

/-- A write to a device. -/
theorem ledger_modDev {f : UsbDev → UsbDev} (hf : ∀ r, (f r).edBase = r.edBase) :
    (o.modDev d f).ledger = { o.ledger with
      useCnt := Function.update o.ledger.useCnt d (f (o.usbDev d)).useCnt
      edCnt := Function.update o.ledger.edCnt d (f (o.usbDev d)).edCnt } := by
  have hfield : ∀ {β : Type} (g : UsbDev → β), (fun x => g ((o.modDev d f).usbDev x))
      = Function.update (fun x => g (o.usbDev x)) d (g (f (o.usbDev d))) := by
    intro β g
    funext x
    simp only [modDev, Function.update_apply]
    split <;> rfl
  ext1
  case useCnt => exact hfield UsbDev.useCnt
  case edCnt => exact hfield UsbDev.edCnt
  case base =>
    refine (hfield UsbDev.edBase).trans ?_
    rw [hf]
    exact Function.update_eq_self d o.ledger.base
  all_goals rfl

/-- A write to a device that leaves its counts. -/
theorem ledger_modDev_same {f : UsbDev → UsbDev}
    (hf : ∀ r, ((f r).useCnt, (f r).edCnt, (f r).edBase) = (r.useCnt, r.edCnt, r.edBase)) :
    (o.modDev d f).ledger = o.ledger := by
  have h := hf (o.usbDev d)
  simp only [Prod.mk.injEq] at h
  rw [ledger_modDev (fun r => by have := hf r; simp_all), h.1, h.2.1]
  ext1
  case useCnt => exact Function.update_eq_self d o.ledger.useCnt
  case edCnt => exact Function.update_eq_self d o.ledger.edCnt
  all_goals rfl

end Simp

end Ohci

/-! ## Functions that make no entry -/

section Same

variable {o o' : Ohci} {e : EdPtr} {t r : TdPtr} {u : UrbPtr} {p : UrbPriv} {tdP tdP' : TdLink}
  {buf setup cc : ℕ} {v : TdPtr} {fuel : ℕ}

theorem ledger_copyIn {dst n : ℕ} {src : ℕ → UInt8} : (copyIn o dst src n).ledger = o.ledger :=
  rfl

theorem ledger_callComplete : (callComplete o u).ledger = o.ledger := rfl

theorem ledger_prepareUrbOnSubmit (buf setup : ℕ) :
    (prepareUrbOnSubmit o u buf setup).1.ledger = o.ledger := by
  have hbuf : ∀ (src : ℕ → UInt8) (n : ℕ), (if n ≠ 0 then
      copyIn (o.modPriv u (fun p => { p with transferBuffer := buf })) buf src n else o).ledger
      = o.ledger := by
    intro src n
    split
    · rw [ledger_copyIn]
      exact Ohci.ledger_modPriv_same (by intro; rfl)
    · rfl
  unfold prepareUrbOnSubmit
  dsimp only
  split
  · rfl
  split
  · exact hbuf _ _
  split
  · exact hbuf _ _
  · rw [ledger_copyIn, Ohci.ledger_modPriv_same (by intro; rfl)]
    exact hbuf _ _

theorem ledger_dlTransferLength (h : dlTransferLength o t = some o') : o'.ledger = o.ledger := by
  unfold dlTransferLength at h
  dsimp only at h
  split at h
  · cases h
    have hiso : ∀ r : Urb, (countIso r (o.td t)).const = r.const ∧
        (countIso r (o.td t)).hcpriv = r.hcpriv := by
      intro r
      unfold countIso
      dsimp only
      split <;> exact ⟨rfl, rfl⟩
    exact Ohci.ledger_modUrb_same (fun r => (hiso r).1) (fun r => by rw [(hiso r).2])
  · obtain ⟨p, -, h⟩ := Option.bind_eq_some_iff.mp h
    cases h
    have hgen : ∀ r : Urb, (countGeneral r p (o.td t)).const = r.const ∧
        (countGeneral r p (o.td t)).hcpriv = r.hcpriv := by
      intro r
      unfold countGeneral
      split <;> exact ⟨rfl, rfl⟩
    exact Ohci.ledger_modUrb_same (fun r => (hgen r).1) (fun r => by rw [(hgen r).2])

theorem ledger_skipRest : (skipRest o t).ledger = o.ledger := by
  unfold skipRest
  dsimp only
  split
  · exact Ohci.ledger_modEd_same (by intro; rfl)
  split
  · rw [Ohci.ledger_modPriv_same (by intro; rfl)]
    exact Ohci.ledger_modEd_same (by intro; rfl)
  · exact Ohci.ledger_modEd_same (by intro; rfl)

theorem ledger_reverseTd : (reverseTd o t r).ledger = o.ledger := by
  unfold reverseTd
  dsimp only
  split
  · exact ledger_skipRest
  · rfl

theorem ledger_prepareUrbOnReturn : (prepareUrbOnReturn o u p).ledger = o.ledger := by
  unfold prepareUrbOnReturn
  dsimp only
  split
  · exact Ohci.ledger_modUrb_same (by intro; rfl) (by intro; rfl)
  · rfl

theorem ledger_haltOnStall : (haltOnStall o u cc).ledger = o.ledger := by
  unfold haltOnStall
  dsimp only
  split
  · exact Ohci.ledger_modDev_same (by intro; rfl)
  · rfl

theorem ledger_countTd : (countTd o u).ledger = o.ledger :=
  Ohci.ledger_modPriv_same (by intro; rfl)

theorem ledger_setTdLink : (o.setTdLink tdP v).ledger = o.ledger := by
  cases tdP with
  | head e =>
    rw [Ohci.setTdLink]
    exact Ohci.ledger_modEd_same (by intro; rfl)
  | next t => rfl

theorem ledger_delEnd {frame : Bool} : (delEnd o frame).ledger = o.ledger := by
  unfold delEnd
  dsimp only
  split <;> rfl

theorem ledger_epRmEd : (epRmEd o e).ledger = o.ledger := by
  have hskip : (o.modEd e (fun r => { r with hwINFO := { r.hwINFO with k := true } })).ledger
      = o.ledger := Ohci.ledger_modEd_same (by intro; rfl)
  have hpush : ∀ (o₁ : Ohci) (x : EdPtr), o₁.ledger = o.ledger →
      (o₁.modEd e (fun r => { r with edRmList := x })).ledger = o.ledger := fun o₁ x h₁ =>
    (Ohci.ledger_modEd_same (by intro; rfl)).trans h₁
  unfold epRmEd
  split
  · rfl
  · dsimp only
    have h := hpush { o.modEd e (fun r => { r with hwINFO := { r.hwINFO with k := true } }) with
      intrSf :=
        true } (({ o.modEd e (fun r => { r with hwINFO := { r.hwINFO with k := true } }) with
      intrSf := true } : Ohci).edRmList ({ o.modEd e (fun r =>
        { r with hwINFO := { r.hwINFO with k := true } }) with intrSf := true } : Ohci).frame)
          hskip
    split
    · exact h
    · exact h
    · exact h

end Same

/-! ## Functions that make one -/

section Entries

variable {o o' : Ohci} {e : EdPtr} {t : TdPtr} {u : UrbPtr} {p : UrbPriv} {d : DevPtr} {fuel : ℕ}

/-- The accounts are those of the queues and of the states. -/
theorem ledger_of_queues {st : EdState} (hq : o'.queues = o.queues)
    (hs : o'.skel.state = Function.update o.skel.state e st) :
    o'.ledger = o.ledger.setState e st := by
  have hdev : o'.usbDev = o.usbDev := congrArg Queues.usbDev hq
  have hurb : o'.urb = o.urb := congrArg Queues.urb hq
  have hed : ∀ x, (o'.ed x).queue = (o.ed x).queue := congrFun (congrArg Queues.queue hq)
  ext1
  case useCnt => exact congrArg (fun f : DevPtr → UsbDev => fun x => (f x).useCnt) hdev
  case edCnt => exact congrArg (fun f : DevPtr → UsbDev => fun x => (f x).edCnt) hdev
  case base => exact congrArg (fun f : DevPtr → UsbDev => fun x => (f x).edBase) hdev
  case dev => exact congrArg Queues.dev hq
  case fa =>
    funext x
    exact congrArg EdQueue.fa (hed x)
  case tail =>
    funext x
    exact congrArg EdQueue.hwTailP (hed x)
  case state => exact hs
  case priv =>
    exact congrArg (fun f : UrbPtr → Urb => fun x => (f x).hcpriv.map UrbPriv.holding) hurb
  case const => exact congrArg (fun f : UrbPtr → Urb => fun x => (f x).const) hurb
  case rhDevnum => exact congrArg Queues.rhDevnum hq
  case alloc => exact congrArg Queues.tdAlloc hq

theorem ledger_epLink (h : epLink fuel o e = some o') : o'.ledger = o.ledger.setState e .edOper :=
  ledger_of_queues (queues_epLink h) (epLink_reschedules h).state

theorem ledger_epUnlink (h0 : e ≠ 0) (h : epUnlink fuel o e = some o') :
    o'.ledger = o.ledger.setState e .edUnlink :=
  ledger_of_queues (queues_epUnlink h) (epUnlink_reschedules h0 h).state

theorem ledger_modDev_use {f : UsbDev → UsbDev} {n : ℤ}
    (hf : ∀ r, f r = { r with useCnt := r.useCnt + n }) :
    (o.modDev d f).ledger = o.ledger.use d n := by
  rw [Ohci.ledger_modDev (fun r => by rw [hf]), hf]
  ext1
  case edCnt => exact Function.update_eq_self d o.ledger.edCnt
  all_goals rfl

theorem ledger_modDev_edCnt {f : UsbDev → UsbDev} {n : ℤ}
    (hf : ∀ r, f r = { r with edCnt := r.edCnt + n }) : (o.modDev d f).ledger
      = { o.ledger with edCnt := Function.update o.ledger.edCnt d (o.ledger.edCnt d + n) } := by
  rw [Ohci.ledger_modDev (fun r => by rw [hf]), hf]
  ext1
  case useCnt => exact Function.update_eq_self d o.ledger.useCnt
  all_goals rfl

theorem ledger_decDevUse : (decDevUse o u).ledger = o.ledger.use (o.urb u).dev (-1) := by
  rw [decDevUse, Ohci.ledger_log]
  exact ledger_modDev_use (by intro; rfl)

theorem ledger_incDevUse : (incDevUse o u).ledger = o.ledger.use (o.urb u).dev 1 := by
  rw [incDevUse, Ohci.ledger_log]
  exact ledger_modDev_use (by intro; rfl)

theorem ledger_urbRmPriv : (urbRmPriv o u).ledger = o.ledger.rmPriv u := by
  unfold urbRmPriv Ledger.rmPriv
  have hpriv : o.ledger.priv u = (o.urb u).hcpriv.map UrbPriv.holding := rfl
  rw [hpriv]
  cases hp : (o.urb u).hcpriv with
  | none => rfl
  | some p =>
    dsimp only [Option.map_some]
    rw [Ohci.ledger_modUrb (by intro; rfl)]
    rfl

theorem ledger_allocTds {size : ℕ} {tds : ℕ → TdPtr} :
    (allocTds o size tds).ledger = o.ledger.give size tds := rfl

/-- **`ep_add_ed`**: nothing but the address of a new ED, an ED filled in, or
a new one set up and filled in. -/
theorem ledger_epAddEd {pipe : Pipe} {interval load : ℕ} {dummy : TdPtr} {r : Option EdPtr}
    (h : epAddEd o d pipe interval load dummy = (r, o')) :
    r = none ∧ (o'.ledger = o.ledger ∨ (o.ed (edOf o d pipe)).state = .edNew ∧
        o'.ledger = { o.ledger with fa := Function.update o.ledger.fa (edOf o d pipe) 0 }) ∨
      r = some (edOf o d pipe) ∧
        ((o.ed (edOf o d pipe)).state ≠ .edNew ∧ (o.ed (edOf o d pipe)).state.pending = false ∧
          o'.ledger = o.ledger.addEd d (edOf o d pipe) pipe.device ∨
        (o.ed (edOf o d pipe)).state = .edNew ∧ dummy ≠ 0 ∧
          o'.ledger = (o.ledger.initEd d (edOf o d pipe) dummy).addEd d (edOf o d pipe)
            pipe.device) := by
  have hfill : ∀ o₁ : Ohci, (fillEd o₁ d (edOf o d pipe) pipe interval load).ledger
      = o₁.ledger.addEd d (edOf o d pipe) pipe.device := by
    intro o₁
    have hif : ∀ r : Ed, ((if r.type = .int ∧ r.state = .edUnlink then
        { r with intPeriod := interval % 256, intLoad := load % 256 } else r).hwINFO,
        (if r.type = .int ∧ r.state = .edUnlink then
        { r with intPeriod := interval % 256, intLoad := load % 256 } else r).hwTailP,
        (if r.type = .int ∧ r.state = .edUnlink then
        { r with intPeriod := interval % 256, intLoad := load % 256 } else r).state)
        = (r.hwINFO, r.hwTailP, r.state) := by
      intro r
      split <;> rfl
    have hr := hif { o₁.ed (edOf o d pipe) with hwINFO := edInfo { o₁ with
      dev := Function.update o₁.dev pipe.device d } d pipe }
    simp only [Prod.mk.injEq] at hr
    unfold fillEd
    dsimp only
    rw [Ohci.ledger_modEd]
    dsimp only
    rw [hr.1, hr.2.1, hr.2.2, Ledger.addEd]
    ext1
    case tail => exact Function.update_eq_self (edOf o d pipe) o₁.ledger.tail
    case state => exact Function.update_eq_self (edOf o d pipe) o₁.ledger.state
    all_goals rfl
  unfold epAddEd at h
  dsimp only at h
  split at h
  · cases h
    exact .inl ⟨rfl, .inl rfl⟩
  rename_i hpend
  have hskip : (o.modEd (edOf o d pipe) (fun r => { r with hwINFO := skipInfo })).ledger
      = { o.ledger with fa := Function.update o.ledger.fa (edOf o d pipe) 0 } := by
    rw [Ohci.ledger_modEd]
    ext1
    case tail => exact Function.update_eq_self (edOf o d pipe) o.ledger.tail
    case state => exact Function.update_eq_self (edOf o d pipe) o.ledger.state
    all_goals rfl
  split at h
  · rename_i hnew
    split at h
    · cases h
      exact .inl ⟨rfl, .inr ⟨hnew, hskip⟩⟩
    · rename_i hdummy
      cases h
      refine .inr ⟨rfl, .inr ⟨hnew, hdummy, ?_⟩⟩
      have hinit : ∀ o₁ : Ohci, (initEd o₁ d (edOf o d pipe) pipe dummy).ledger
          = o₁.ledger.initEd d (edOf o d pipe) dummy := by
        intro o₁
        unfold initEd
        dsimp only
        rw [ledger_modDev_edCnt (by intro; rfl), Ohci.ledger_modEd]
        ext1
        case fa => exact Function.update_eq_self (edOf o d pipe) o₁.ledger.fa
        all_goals rfl
      rw [hfill, hinit, hskip]
      ext1
      case fa => exact Function.update_idem _ _ _
      all_goals rfl
  · cases h
    exact .inr ⟨rfl, .inl ⟨‹_›, Bool.eq_false_iff.mpr hpend, hfill o⟩⟩

/-- **`td_fill`.** -/
theorem ledger_fillTd {c : TdCall} {i : ℕ} (hp : (o.urb u).hcpriv = some p) :
    (fillTd o u p c i).ledger = o.ledger.swap u p.holding i := by
  have hnext : ∀ o₁ : Ohci, (o₁.td (o.ed p.ed).hwTailP).hwNextTD = p.td i →
      ((o₁.modTd (p.td i) (fun r => { r with hwNextTD := 0 })).td (o.ed p.ed).hwTailP).hwNextTD
        = if (o.ed p.ed).hwTailP = p.td i then 0 else p.td i := by
    intro o₁ h₁
    rw [Ohci.modTd_td]
    split
    · rfl
    · exact h₁
  -- the last write but one is to the tail
  have hend : ∀ o₁ : Ohci, (o₁.td (o.ed p.ed).hwTailP).hwNextTD = p.td i →
      o₁.ledger = o.ledger.setPriv u (some { p.holding with
        td := Function.update p.td i (o.ed p.ed).hwTailP }) →
      (((o₁.modTd (p.td i) (fun r => { r with hwNextTD := 0 })).modEd p.ed (fun r => { r with
        hwTailP := ((o₁.modTd (p.td i) (fun r => { r with hwNextTD := 0 })).td
          (o.ed p.ed).hwTailP).hwNextTD })).modTd (o.ed p.ed).hwTailP
        (fun r => { r with nextDlTd := 0 })).ledger = o.ledger.swap u p.holding i := by
    intro o₁ h₁ hl
    rw [hnext o₁ h₁, Ohci.ledger_modTd, Ohci.ledger_modEd, Ohci.ledger_modTd, hl]
    ext1
    case fa =>
      have hfa : (((o₁.modTd (p.td i) (fun r => { r with hwNextTD := 0 })).ed p.ed).hwINFO.fa)
          = o.ledger.fa p.ed := congrFun (congrArg Ledger.fa hl) p.ed
      dsimp only
      rw [hfa]
      exact Function.update_eq_self p.ed o.ledger.fa
    case state =>
      have hst : (((o₁.modTd (p.td i) (fun r => { r with hwNextTD := 0 })).ed p.ed).state)
          = o.ledger.state p.ed := congrFun (congrArg Ledger.state hl) p.ed
      dsimp only
      rw [hst]
      exact Function.update_eq_self p.ed o.ledger.state
    all_goals rfl
  have hpriv :
      (o.modPriv u (fun q => { q with td := Function.update q.td i (o.ed p.ed).hwTailP })).ledger
      = o.ledger.setPriv u
        (some { p.holding with td := Function.update p.td i (o.ed p.ed).hwTailP }) :=
    Ohci.ledger_modPriv hp
  unfold fillTd
  dsimp only
  split
  · refine hend _ ?_ ?_
    · rw [Ohci.modEd_td, Ohci.modTd_td_self]
      rfl
    · rw [Ohci.ledger_modEd_same (by intro; rfl), Ohci.ledger_modTd]
      exact hpriv
  · refine hend _ ?_ ?_
    · rw [Ohci.modTd_td_self]
      rfl
    · rw [Ohci.ledger_modTd]
      exact hpriv

theorem ledger_tdFills {cs : List TdCall} {i : ℕ} (h : tdFills u cs i o = some o') :
    Ledger.Swaps u o.ledger o'.ledger := by
  induction cs generalizing i o with
  | nil =>
    cases h
    exact .refl _
  | cons c cs ih =>
    obtain ⟨o₁, h₁, h⟩ := Option.bind_eq_some_iff.mp h
    obtain ⟨p, hp, -⟩ := Option.bind_eq_some_iff.mp h₁
    by_cases hi : i < p.length
    · rw [tdFill_eq hp hi, Option.some.injEq] at h₁
      subst h₁
      refine .swap (h := p.holding) (i := i) ?_ hi ?_
      · exact congrArg (Option.map UrbPriv.holding) hp
      · rw [← ledger_fillTd hp]
        exact ih h
    · rw [tdFill_of_le hp (by omega), Option.some.injEq] at h₁
      subst h₁
      exact ih h

/-- What `td_submit_urb` does before it fills the TDs. -/
theorem ledger_submitStart : ((submitStart o u).log (.submitTds u)).ledger = o.ledger := by
  unfold submitStart
  dsimp only
  rw [Ohci.ledger_log, Ohci.ledger_modPriv_same (by intro; rfl)]
  exact Ohci.ledger_modDev_same (by intro; rfl)

/-- **`td_submit_urb`.** -/
theorem ledger_tdSubmitUrb (h : tdSubmitUrb o u = some o') :
    Ledger.Swaps u o.ledger o'.ledger := by
  obtain ⟨p, -, h⟩ := Option.bind_eq_some_iff.mp h
  rw [← ledger_submitStart]
  exact ledger_tdFills h

end Entries
