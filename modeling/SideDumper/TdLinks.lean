import SideDumper.LedgerEntries
import SideDumper.Threads

/-!
# What the lists of TDs run through

A TD is on the queue of an ED, on the done queue of the controller, on
`hcca.done_head` or among those an interrupt routine has got to settle. `TdLinks`
is what these lists run through, with the ED and the URB of each TD and the
numbers of TDs that have been counted. Of each function it is said here what it
writes of this.
-/

/-- **What the lists of TDs run through.** -/
@[ext]
structure TdLinks where
  head : EdPtr → TdPtr
  next : TdPtr → TdPtr
  /-- `next_dl_td`. -/
  dl : TdPtr → TdPtr
  ed : TdPtr → EdPtr
  urb : TdPtr → UrbPtr
  /-- `td_cnt`. -/
  cnt : UrbPtr → ℕ
  done : TdPtr
  reg : TdPtr

/-- `td_cnt` of a URB, and `0` without a private part. -/
def Urb.cnt (r : Urb) : ℕ := (r.hcpriv.map UrbPriv.tdCnt).getD 0

/-- What the lists of TDs of a memory run through. -/
def Ohci.tdLinks (o : Ohci) : TdLinks where
  head := fun e => (o.ed e).hwHeadP
  next := fun t => (o.td t).hwNextTD
  dl := fun t => (o.td t).nextDlTd
  ed := fun t => (o.td t).ed
  urb := fun t => (o.td t).urb
  cnt := fun u => (o.urb u).cnt
  done := o.doneHead
  reg := o.regDonehead

namespace Ohci

section Writes

variable {o : Ohci} {e : EdPtr} {t : TdPtr} {u : UrbPtr} {d : DevPtr} {ev : Event}

@[simp] theorem tdLinks_modDev (f : UsbDev → UsbDev) : (o.modDev d f).tdLinks = o.tdLinks := rfl
@[simp] theorem tdLinks_log : (o.log ev).tdLinks = o.tdLinks := rfl

/-- Writing one field of a TD is writing at one place of that field. -/
theorem modTd_field {β : Type*} (f : Td → Td) (g : Td → β) :
    (fun x => g ((o.modTd t f).td x))
      = Function.update (fun x => g (o.td x)) t (g (f (o.td t))) := by
  funext x
  rw [modTd_td, Function.update_apply]
  split <;> rfl

/-- A write to a TD. -/
theorem tdLinks_modTd (f : Td → Td) : (o.modTd t f).tdLinks =
    { o.tdLinks with
      next := Function.update o.tdLinks.next t (f (o.td t)).hwNextTD
      dl := Function.update o.tdLinks.dl t (f (o.td t)).nextDlTd
      ed := Function.update o.tdLinks.ed t (f (o.td t)).ed
      urb := Function.update o.tdLinks.urb t (f (o.td t)).urb } := by
  ext1
  case next => exact modTd_field f Td.hwNextTD
  case dl => exact modTd_field f Td.nextDlTd
  case ed => exact modTd_field f Td.ed
  case urb => exact modTd_field f Td.urb
  all_goals rfl

/-- A write to a TD that leaves its links. -/
theorem tdLinks_modTd_same {f : Td → Td} (hnext : (f (o.td t)).hwNextTD = (o.td t).hwNextTD)
    (hf : ∀ r, (f r).nextDlTd = r.nextDlTd ∧ (f r).ed = r.ed ∧ (f r).urb = r.urb) :
    (o.modTd t f).tdLinks = o.tdLinks := by
  obtain ⟨hdl, hed, hurb⟩ := hf (o.td t)
  rw [tdLinks_modTd, hnext, hdl, hed, hurb]
  ext1
  case next => exact Function.update_eq_self t o.tdLinks.next
  case dl => exact Function.update_eq_self t o.tdLinks.dl
  case ed => exact Function.update_eq_self t o.tdLinks.ed
  case urb => exact Function.update_eq_self t o.tdLinks.urb
  all_goals rfl

/-- A write to the link of a TD. -/
theorem tdLinks_modTd_next {f : Td → Td} {v : TdPtr} (hf : ∀ r, f r = { r with hwNextTD := v }) :
    (o.modTd t f).tdLinks = { o.tdLinks with next := Function.update o.tdLinks.next t v } := by
  rw [tdLinks_modTd, hf]
  ext1
  case dl => exact Function.update_eq_self t o.tdLinks.dl
  case ed => exact Function.update_eq_self t o.tdLinks.ed
  case urb => exact Function.update_eq_self t o.tdLinks.urb
  all_goals rfl

/-- A write to the link of the done list. -/
theorem tdLinks_modTd_dl {f : Td → Td} {v : TdPtr} (hf : ∀ r, f r = { r with nextDlTd := v }) :
    (o.modTd t f).tdLinks = { o.tdLinks with dl := Function.update o.tdLinks.dl t v } := by
  rw [tdLinks_modTd, hf]
  ext1
  case next => exact Function.update_eq_self t o.tdLinks.next
  case ed => exact Function.update_eq_self t o.tdLinks.ed
  case urb => exact Function.update_eq_self t o.tdLinks.urb
  all_goals rfl

/-- A write to an ED. -/
theorem tdLinks_modEd (f : Ed → Ed) : (o.modEd e f).tdLinks =
    { o.tdLinks with head := Function.update o.tdLinks.head e (f (o.ed e)).hwHeadP } := by
  ext1
  case head => exact modEd_field f Ed.hwHeadP
  all_goals rfl

/-- A write to an ED that leaves its head. -/
theorem tdLinks_modEd_same {f : Ed → Ed} (hf : ∀ r, (f r).hwHeadP = r.hwHeadP) :
    (o.modEd e f).tdLinks = o.tdLinks := by
  rw [tdLinks_modEd, hf]
  ext1
  case head => exact Function.update_eq_self e o.tdLinks.head
  all_goals rfl

/-- A write to a URB. -/
theorem tdLinks_modUrb (f : Urb → Urb) : (o.modUrb u f).tdLinks =
    { o.tdLinks with cnt := Function.update o.tdLinks.cnt u (f (o.urb u)).cnt } := by
  ext1
  case cnt =>
    funext z
    dsimp only [tdLinks]
    rw [modUrb_urb, Function.update_apply]
    split <;> rfl
  all_goals rfl

/-- A write to a URB that leaves its count. -/
theorem tdLinks_modUrb_same {f : Urb → Urb} (hf : ∀ r, (f r).cnt = r.cnt) :
    (o.modUrb u f).tdLinks = o.tdLinks := by
  rw [tdLinks_modUrb, hf]
  ext1
  case cnt => exact Function.update_eq_self u o.tdLinks.cnt
  all_goals rfl

/-- A write to a private part that leaves its count. -/
theorem tdLinks_modPriv_same {f : UrbPriv → UrbPriv} (hf : ∀ p, (f p).tdCnt = p.tdCnt) :
    (o.modPriv u f).tdLinks = o.tdLinks := by
  refine tdLinks_modUrb_same fun r => ?_
  unfold Urb.cnt
  cases r.hcpriv with
  | none => rfl
  | some p => exact hf p

/-- A write to a private part. -/
theorem tdLinks_modPriv {f : UrbPriv → UrbPriv} {p : UrbPriv} (hp : (o.urb u).hcpriv = some p) :
    (o.modPriv u f).tdLinks
      = { o.tdLinks with cnt := Function.update o.tdLinks.cnt u (f p).tdCnt } := by
  rw [modPriv, tdLinks_modUrb]
  unfold Urb.cnt
  rw [hp]
  rfl

/-- What the controller writes when it retires a TD. -/
theorem tdLinks_retire {f : Ed → Ed} {g : Td → Td} {v n r : TdPtr} (hf : ∀ x, (f x).hwHeadP = v)
    (hg : ∀ x, (g x).hwNextTD = n ∧ (g x).nextDlTd = x.nextDlTd ∧ (g x).ed = x.ed ∧
      (g x).urb = x.urb) :
    ({ (o.modEd e f).modTd t g with regDonehead := r } : Ohci).tdLinks = { o.tdLinks with
      head := Function.update o.tdLinks.head e v
      next := Function.update o.tdLinks.next t n
      reg := r } := by
  have hk := tdLinks_modTd (o := o.modEd e f) (t := t) g
  obtain ⟨hn, hd, hed, hurb⟩ := hg ((o.modEd e f).td t)
  rw [tdLinks_modEd, hf, hn, hd, hed, hurb] at hk
  have hreg : ({ (o.modEd e f).modTd t g with regDonehead := r } : Ohci).tdLinks
      = { ((o.modEd e f).modTd t g).tdLinks with reg := r } := rfl
  rw [hreg, hk]
  ext1
  case dl => exact Function.update_eq_self t o.tdLinks.dl
  case ed => exact Function.update_eq_self t o.tdLinks.ed
  case urb => exact Function.update_eq_self t o.tdLinks.urb
  all_goals rfl

end Writes

end Ohci

/-! ## Functions that write nothing of it -/

section Same

variable {o o' : Ohci} {e : EdPtr} {t : TdPtr} {u : UrbPtr} {p : UrbPriv} {cc fuel : ℕ}

/-- The links are part of what linking EDs leaves alone. -/
theorem tdLinks_of_queues (hq : o'.queues = o.queues) : o'.tdLinks = o.tdLinks := by
  have htd : o'.td = o.td := congrArg Queues.td hq
  have hurb : o'.urb = o.urb := congrArg Queues.urb hq
  ext1
  case head =>
    exact congrArg (fun f : EdPtr → EdQueue => fun x => (f x).hwHeadP) (congrArg Queues.queue hq)
  case next => exact congrArg (fun f : TdPtr → Td => fun x => (f x).hwNextTD) htd
  case dl => exact congrArg (fun f : TdPtr → Td => fun x => (f x).nextDlTd) htd
  case ed => exact congrArg (fun f : TdPtr → Td => fun x => (f x).ed) htd
  case urb => exact congrArg (fun f : TdPtr → Td => fun x => (f x).urb) htd
  case cnt => exact congrArg (fun f : UrbPtr → Urb => fun x => (f x).cnt) hurb
  case done => exact congrArg Queues.doneHead hq
  case reg => exact congrArg Queues.regDonehead hq

theorem tdLinks_decDevUse : (decDevUse o u).tdLinks = o.tdLinks := rfl

theorem tdLinks_callComplete : (callComplete o u).tdLinks = o.tdLinks := rfl

theorem tdLinks_copyIn {dst n : ℕ} {src : ℕ → UInt8} : (copyIn o dst src n).tdLinks = o.tdLinks :=
  rfl

theorem tdLinks_prepareUrbOnSubmit (buf setup : ℕ) :
    (prepareUrbOnSubmit o u buf setup).1.tdLinks = o.tdLinks := by
  have hbuf : ∀ (src : ℕ → UInt8) (n : ℕ), (if n ≠ 0 then
      copyIn (o.modPriv u (fun p => { p with transferBuffer := buf })) buf src n else o).tdLinks
      = o.tdLinks := by
    intro src n
    split
    · rw [tdLinks_copyIn]
      exact Ohci.tdLinks_modPriv_same (by intro; rfl)
    · rfl
  unfold prepareUrbOnSubmit
  dsimp only
  split
  · rfl
  split
  · exact hbuf _ _
  split
  · exact hbuf _ _
  · rw [tdLinks_copyIn, Ohci.tdLinks_modPriv_same (by intro; rfl)]
    exact hbuf _ _

theorem tdLinks_dlTransferLength (h : dlTransferLength o t = some o') :
    o'.tdLinks = o.tdLinks := by
  unfold dlTransferLength at h
  dsimp only at h
  split at h
  · cases h
    refine Ohci.tdLinks_modUrb_same fun r => ?_
    unfold countIso
    dsimp only
    split <;> rfl
  · obtain ⟨p, -, h⟩ := Option.bind_eq_some_iff.mp h
    cases h
    refine Ohci.tdLinks_modUrb_same fun r => ?_
    unfold countGeneral
    split <;> rfl

theorem tdLinks_prepareUrbOnReturn : (prepareUrbOnReturn o u p).tdLinks = o.tdLinks := by
  unfold prepareUrbOnReturn
  dsimp only
  split
  · exact Ohci.tdLinks_modUrb_same (by intro; rfl)
  · rfl

theorem tdLinks_haltOnStall : (haltOnStall o u cc).tdLinks = o.tdLinks := by
  unfold haltOnStall
  dsimp only
  split <;> rfl

theorem tdLinks_reportDel : (reportDel o u).tdLinks = o.tdLinks := by
  unfold reportDel
  split
  · rw [tdLinks_callComplete, Ohci.tdLinks_modUrb_same (by intro; rfl), tdLinks_decDevUse]
  · rfl

theorem tdLinks_delEnd {frame : Bool} : (delEnd o frame).tdLinks = o.tdLinks := by
  unfold delEnd
  dsimp only
  split <;> rfl

theorem tdLinks_delEdEnd {tail : TdPtr} {fa : ℕ} :
    (delEdEnd o e tail fa).tdLinks = o.tdLinks := by
  unfold delEdEnd
  split
  · have hnew : (({ o with tdAlloc := Function.update o.tdAlloc tail false } : Ohci).modEd e
        (fun r => { r with hwINFO := skipInfo, state := .edNew })).tdLinks = o.tdLinks :=
      Ohci.tdLinks_modEd_same (by intro; rfl)
    dsimp only
    split
    · rw [Ohci.tdLinks_log, Ohci.tdLinks_modDev]
      exact hnew
    · rw [Ohci.tdLinks_modDev]
      exact hnew
  · exact Ohci.tdLinks_modEd_same (by intro; rfl)

theorem tdLinks_epRmEd : (epRmEd o e).tdLinks = o.tdLinks := by
  have hskip : (o.modEd e (fun r => { r with hwINFO := { r.hwINFO with k := true } })).tdLinks
      = o.tdLinks := Ohci.tdLinks_modEd_same (by intro; rfl)
  have hpush : ∀ (o₁ : Ohci) (x : EdPtr), o₁.tdLinks = o.tdLinks →
      (o₁.modEd e (fun r => { r with edRmList := x })).tdLinks = o.tdLinks := fun o₁ x h₁ =>
    (Ohci.tdLinks_modEd_same (by intro; rfl)).trans h₁
  unfold epRmEd
  split
  · rfl
  · dsimp only
    have h := hpush { o.modEd e (fun r => { r with hwINFO := { r.hwINFO with k := true } }) with
      intrSf :=
        true } (({ o.modEd e (fun r => { r with hwINFO := { r.hwINFO with k := true } }) with
      intrSf := true } : Ohci).edRmList ({ o.modEd e (fun r =>
        { r with hwINFO := { r.hwINFO with k := true } }) with intrSf := true } : Ohci).frame)
          hskip
    split
    · exact h
    · exact h
    · exact h

theorem tdLinks_unlinkPending : (unlinkPending o u p).tdLinks = o.tdLinks := by
  have hmark : ((epRmEd (o.modPriv u (fun p => { p with urbDel := true })) p.ed).modEd
      p.ed (fun r =>
      { r with state := { r.state with urbDel := true } })).tdLinks = o.tdLinks := by
    rw [Ohci.tdLinks_modEd_same (by intro; rfl), tdLinks_epRmEd]
    exact Ohci.tdLinks_modPriv_same (by intro; rfl)
  unfold unlinkPending
  dsimp only
  split
  · rw [Ohci.tdLinks_modUrb_same (by intro; rfl)]
    exact hmark
  · exact hmark

theorem tdLinks_unlinkFinish : (unlinkFinish o u).tdLinks = o.tdLinks := by
  rw [unlinkFinish, tdLinks_decDevUse]
  exact Ohci.tdLinks_modUrb_same (by intro; rfl)

theorem tdLinks_freeEd (h : freeEd fuel o e = some o') : o'.tdLinks = o.tdLinks := by
  have hdel : ∀ o₁ : Ohci, ((epRmEd o₁ e).modEd e (fun r => { r with state := .edDel })).tdLinks
      = o₁.tdLinks :=
    fun o₁ => (Ohci.tdLinks_modEd_same (by intro; rfl)).trans tdLinks_epRmEd
  unfold freeEd at h
  split at h
  · cases h
    rfl
  dsimp only at h
  split at h
  · obtain ⟨o₁, h₁, h⟩ := Option.bind_eq_some_iff.mp h
    cases h
    exact (hdel o₁).trans (tdLinks_of_queues (queues_epUnlink h₁))
  · cases h
    exact hdel o

theorem tdLinks_doneEd (h : doneEd fuel o e = some o') : o'.tdLinks = o.tdLinks := by
  unfold doneEd at h
  split at h
  · exact tdLinks_of_queues (queues_epUnlink h)
  · cases h
    rfl

end Same

/-! ## Functions that write -/

section Entries

variable {o o' : Ohci} {e : EdPtr} {t rev : TdPtr} {u : UrbPtr} {p : UrbPriv}
    {b : Bool} {fuel : ℕ}

theorem Urb.cnt_some {r : Urb} (hp : r.hcpriv = some p) : r.cnt = p.tdCnt := by
  rw [Urb.cnt, hp]
  rfl

theorem Urb.cnt_none {r : Urb} (hp : r.hcpriv = none) : r.cnt = 0 := by
  rw [Urb.cnt, hp]
  rfl

theorem tdLinks_cnt (hp : (o.urb u).hcpriv = some p) : o.tdLinks.cnt u = p.tdCnt :=
  Urb.cnt_some hp

/-- A private part goes. -/
theorem tdLinks_urbRmPriv : (urbRmPriv o u).tdLinks
    = { o.tdLinks with cnt := Function.update o.tdLinks.cnt u 0 } := by
  unfold urbRmPriv
  split
  · rename_i hp
    have hcnt : o.tdLinks.cnt u = 0 := Urb.cnt_none hp
    rw [← hcnt, Function.update_eq_self]
  · rw [Ohci.tdLinks_modUrb]
    rfl

theorem tdLinks_unlinkNow : (unlinkNow o u).tdLinks
    = { o.tdLinks with cnt := Function.update o.tdLinks.cnt u 0 } := by
  unfold unlinkNow
  dsimp only
  split
  · rw [Ohci.tdLinks_modUrb_same (by intro; rfl), tdLinks_callComplete, tdLinks_urbRmPriv,
      tdLinks_decDevUse]
  · rw [Ohci.tdLinks_modUrb_same (by intro; rfl), tdLinks_urbRmPriv, tdLinks_decDevUse]

/-- `sohci_unlink_urb` writes no TD. -/
theorem tdLinks_unlinkUrb_urb : (unlinkUrb o u).1.tdLinks.urb = o.tdLinks.urb := by
  unfold unlinkUrb
  split
  · rfl
  · split
    · rfl
    · split
      · rw [tdLinks_unlinkPending]
      · rw [tdLinks_unlinkNow]

/-- The heads of the queues when an ED may have been set up: one that has begins at
its dummy TD. -/
def Ohci.HeadsFrom (o o' : Ohci) : Prop :=
  ∃ head, o'.tdLinks = { o.tdLinks with head := head } ∧
    ∀ x, head x = o.tdLinks.head x ∧ ((o.ed x).state = .edNew → (o'.ed x).state = .edNew) ∨
      (o.ed x).state = .edNew ∧ (o'.ed x).state ≠ .edNew ∧ head x = (o'.ed x).hwTailP

theorem Ohci.HeadsFrom.of_same (hl : o'.tdLinks = o.tdLinks)
    (hst : o'.ledger.state = o.ledger.state) :
    o.HeadsFrom o' :=
  ⟨o.tdLinks.head, hl, fun x => .inl ⟨rfl, fun hx => (congrFun hst x).trans hx⟩⟩

/-- What is done behind does not concern the EDs. -/
theorem Ohci.HeadsFrom.congr {o₁ o₂ : Ohci} (h : o.HeadsFrom o₁) (hl : o₂.tdLinks = o₁.tdLinks)
    (hed : o₂.ed = o₁.ed) : o.HeadsFrom o₂ := by
  obtain ⟨head, h₁, hx⟩ := h
  refine ⟨head, hl.trans h₁, fun x => ?_⟩
  rw [hed]
  exact hx x

/-- **`ep_add_ed`.** -/
theorem heads_epAddEd {d : DevPtr} {pipe : Pipe} {interval load : ℕ} {dummy : TdPtr}
    {r : Option EdPtr}
    (h : epAddEd o d pipe interval load dummy = (r, o')) : o.HeadsFrom o' := by
  have hled := ledger_epAddEd h
  have hfill : ∀ o₁ : Ohci, (fillEd o₁ d (edOf o d pipe) pipe interval load).tdLinks
      = o₁.tdLinks := by
    intro o₁
    have hdev : ({ o₁ with dev := Function.update o₁.dev pipe.device d } : Ohci).tdLinks
        = o₁.tdLinks := rfl
    rw [← hdev]
    unfold fillEd
    refine Ohci.tdLinks_modEd_same fun r => ?_
    dsimp only
    split <;> rfl
  have hskip : (o.modEd (edOf o d pipe) (fun r => { r with hwINFO := skipInfo })).tdLinks
      = o.tdLinks :=
    Ohci.tdLinks_modEd_same (by intro; rfl)
  have hskipst : (o.modEd (edOf o d pipe) (fun r => { r with hwINFO := skipInfo })).ledger.state
      = o.ledger.state := by
    rw [Ohci.ledger_modEd]
    exact Function.update_eq_self (edOf o d pipe) o.ledger.state
  unfold epAddEd at h
  dsimp only at h
  split at h
  · cases h
    exact .of_same rfl rfl
  split at h
  · split at h
    · cases h
      exact .of_same hskip hskipst
    · rename_i hnew hdummy
      cases h
      obtain ⟨hr, -⟩ | ⟨-, ⟨hold, -⟩ | ⟨-, -, hl⟩⟩ := hled
      · cases hr
      · exact absurd hnew hold
      refine ⟨Function.update o.tdLinks.head (edOf o d pipe) dummy, ?_, fun x => ?_⟩
      · rw [hfill]
        unfold initEd
        dsimp only
        rw [Ohci.tdLinks_modDev, Ohci.tdLinks_modEd]
        rw [← hskip]
        rfl
      · by_cases hx : x = edOf o d pipe
        · subst hx
          have htail := congrFun (congrArg Ledger.tail hl) (edOf o d pipe)
          have hstate := congrFun (congrArg Ledger.state hl) (edOf o d pipe)
          refine .inr ⟨hnew, fun hn => ?_, ?_⟩
          · have hun : EdState.edUnlink = .edNew :=
              (Function.update_self _ _ _).symm.trans (hstate.symm.trans hn)
            cases hun
          · rw [Function.update_self]
            exact ((Function.update_self _ _ _).symm.trans htail.symm)
        · have hstate := congrFun (congrArg Ledger.state hl) x
          exact .inl ⟨Function.update_of_ne hx _ _,
            fun hn => hstate.trans ((Function.update_of_ne hx _ _).trans hn)⟩
  · rename_i hold
    cases h
    obtain ⟨hr, -⟩ | ⟨-, ⟨-, -, hl⟩ | ⟨hnew, -⟩⟩ := hled
    · cases hr
    · exact .of_same (hfill o) ((congrArg Ledger.state hl).trans rfl)
    · exact absurd hnew hold

/-- **The first phase of `sohci_submit_urb`** writes the head of a new ED, and no
other. -/
theorem heads_submitFirst (dummy : TdPtr) (tds : ℕ → TdPtr) :
    o.HeadsFrom (submitFirst o u dummy tds).1 := by
  generalize hstart : submitFirst o u dummy tds = started
  obtain ⟨o', b⟩ := started
  dsimp only
  obtain ⟨-, rfl, -⟩ | ⟨-, hnone, ⟨-, -, rfl⟩ | ⟨-, r, o₁, hadd, hend⟩⟩ :=
    submitFirst_outcome hstart
  · exact .of_same rfl rfl
  · exact .of_same rfl rfl
  have hfrom : (incDevUse o u).HeadsFrom o₁ := heads_epAddEd hadd
  have h₁ : o.HeadsFrom o₁ := hfrom
  obtain ⟨-, -, rfl⟩ | ⟨e, o₂, rfl, ho₂, hend⟩ := hend
  · exact h₁.congr rfl rfl
  have hpriv : o₁.ledger.priv u = none := by
    have hled := ledger_epAddEd hadd
    obtain ⟨hr, -⟩ | ⟨-, ⟨-, -, hl⟩ | ⟨-, -, hl⟩⟩ := hled
    · cases hr
    · exact (congrFun (congrArg Ledger.priv hl) u).trans (ledger_priv_none hnone)
    · exact (congrFun (congrArg Ledger.priv hl) u).trans (ledger_priv_none hnone)
  have hcnt : o₁.tdLinks.cnt u = 0 := Urb.cnt_none (Option.map_eq_none_iff.mp hpriv)
  have hiso : (if (o.urb u).pipe.type = .iso then o₁.modUrb u resetPackets else o₁).tdLinks
      = o₁.tdLinks := by
    split
    · exact Ohci.tdLinks_modUrb_same (by intro; rfl)
    · rfl
  have hied : (if (o.urb u).pipe.type = .iso then o₁.modUrb u resetPackets else o₁).ed
      = o₁.ed := by
    split <;> rfl
  have halloc : ∀ (o₃ : Ohci) (n : ℕ), (allocTds o₃ n tds).tdLinks = o₃.tdLinks := fun _ _ => rfl
  -- the private part begins with the count at 0
  have hnew : o₂.tdLinks = o₁.tdLinks := by
    rw [ho₂, halloc, Ohci.tdLinks_modUrb, hiso,
      Urb.cnt_some (p := newPriv e (tdSize (o.urb u)) tds) rfl]
    have h0 : (newPriv e (tdSize (o.urb u)) tds).tdCnt = o₁.tdLinks.cnt u := hcnt.symm
    rw [h0, Function.update_eq_self]
  have hned : o₂.ed = o₁.ed := by
    rw [ho₂]
    exact hied
  obtain ⟨-, -, rfl⟩ | ⟨-, -, rfl⟩ := hend
  · refine h₁.congr ?_ (by rw [urbRmPriv_ed, decDevUse_ed, hned])
    rw [tdLinks_urbRmPriv, tdLinks_decDevUse, hnew, ← hcnt, Function.update_eq_self]
  · exact h₁.congr hnew hned

/-- **The second phase of `sohci_submit_urb`.** -/
theorem tdLinks_submitSecond {buf setup : ℕ}
    (h : submitSecond fuel o u buf setup = some (o', b)) :
    ∃ p, (o.urb u).hcpriv = some p ∧
      (b = false ∧ o'.tdLinks = { o.tdLinks with cnt := Function.update o.tdLinks.cnt u 0 } ∧
          o'.ledger = (o.ledger.rmPriv u).use (o.urb u).dev (-1) ∨
        b = true ∧ (o.ed p.ed).state ≠ .edNew ∧ (o.ed p.ed).state.del = false ∧
          ∃ o₁, o₁.tdLinks = o.tdLinks ∧ o₁.ledger = o.ledger.setState p.ed .edOper ∧
            tdSubmitUrb o₁ u = some o') := by
  obtain ⟨p, hp, ⟨rfl, -, rfl⟩ | ⟨hnew, hdel, n, o₁, ho₁, hend⟩⟩ := submitSecond_outcome h
  · refine ⟨p, hp, .inl ⟨rfl, ?_, ledger_rmDec⟩⟩
    rw [tdLinks_decDevUse, tdLinks_urbRmPriv]
  refine ⟨p, hp, ?_⟩
  have hprep : o₁.ledger = o.ledger := by
    rw [ho₁, ledger_prepareUrbOnSubmit]
    exact Ohci.ledger_modUrb_same (by intro; rfl) (by intro; rfl)
  have hlprep : o₁.tdLinks = o.tdLinks := by
    rw [ho₁, tdLinks_prepareUrbOnSubmit]
    exact Ohci.tdLinks_modUrb_same (by intro; rfl)
  obtain ⟨rfl, -, rfl⟩ | ⟨rfl, -, h₁⟩ := hend
  · refine .inl ⟨rfl, ?_, ?_⟩
    · rw [tdLinks_urbRmPriv, tdLinks_decDevUse, hlprep]
    · rw [ledger_decRm, hprep, dev_of_const (congrArg Ledger.const hprep)]
  obtain ⟨o₂, h₂, hsub⟩ := submitLink_steps h₁
  have hlink : o₂.tdLinks = o.tdLinks := by
    have hstat :
        (o₁.modUrb u (fun r => { r with status := .einprogress, actualLength := 0 })).tdLinks
        = o.tdLinks := (Ohci.tdLinks_modUrb_same (by intro; rfl)).trans hlprep
    obtain ⟨-, rfl⟩ | ⟨-, h₂⟩ := h₂
    · exact hstat
    · exact (tdLinks_of_queues (queues_epLink h₂)).trans hstat
  exact .inr ⟨rfl, hnew, hdel, _, (Ohci.tdLinks_modUrb_same (by intro; rfl)).trans hlink,
    (Ohci.ledger_modUrb_same (by intro; rfl) (by intro; rfl)).trans (ledger_submitLink hprep h₂),
      hsub⟩

/-- **One call of `td_fill`.** -/
theorem tdLinks_fillTd {c : TdCall} {i : ℕ} : (fillTd o u p c i).tdLinks =
    { o.tdLinks with
      next := Function.update (Function.update o.tdLinks.next (o.ed p.ed).hwTailP (p.td i))
        (p.td i) 0
      dl := Function.update o.tdLinks.dl (o.ed p.ed).hwTailP 0
      ed := Function.update o.tdLinks.ed (o.ed p.ed).hwTailP p.ed
      urb := Function.update o.tdLinks.urb (o.ed p.ed).hwTailP u } := by
  have hpriv :
      (o.modPriv u (fun q => { q with td := Function.update q.td i (o.ed p.ed).hwTailP })).tdLinks
      = o.tdLinks := Ohci.tdLinks_modPriv_same (by intro; rfl)
  have hend : ∀ o₁ : Ohci, o₁.tdLinks = { o.tdLinks with
        next := Function.update o.tdLinks.next (o.ed p.ed).hwTailP (p.td i)
        ed := Function.update o.tdLinks.ed (o.ed p.ed).hwTailP p.ed
        urb := Function.update o.tdLinks.urb (o.ed p.ed).hwTailP u } →
      (((o₁.modTd (p.td i) (fun r => { r with hwNextTD := 0 })).modEd p.ed (fun r => { r with
        hwTailP := ((o₁.modTd (p.td i) (fun r => { r with hwNextTD := 0 })).td
          (o.ed p.ed).hwTailP).hwNextTD })).modTd (o.ed p.ed).hwTailP
        (fun r => { r with nextDlTd := 0 })).tdLinks = { o.tdLinks with
          next := Function.update (Function.update o.tdLinks.next (o.ed p.ed).hwTailP (p.td i))
            (p.td i) 0
          dl := Function.update o.tdLinks.dl (o.ed p.ed).hwTailP 0
          ed := Function.update o.tdLinks.ed (o.ed p.ed).hwTailP p.ed
          urb := Function.update o.tdLinks.urb (o.ed p.ed).hwTailP u } := by
    intro o₁ h₁
    rw [Ohci.tdLinks_modTd_dl (by intro; rfl), Ohci.tdLinks_modEd_same (by intro; rfl),
      Ohci.tdLinks_modTd_next (by intro; rfl), h₁]
  have hfill :
      ((o.modPriv u (fun q => { q with td := Function.update q.td i (o.ed p.ed).hwTailP })).modTd
      (o.ed p.ed).hwTailP (filledTd u p (o.ed p.ed).type c i)).tdLinks = { o.tdLinks with
        next := Function.update o.tdLinks.next (o.ed p.ed).hwTailP (p.td i)
        ed := Function.update o.tdLinks.ed (o.ed p.ed).hwTailP p.ed
        urb := Function.update o.tdLinks.urb (o.ed p.ed).hwTailP u } := by
    rw [Ohci.tdLinks_modTd, hpriv]
    ext1
    case dl => exact Function.update_eq_self (o.ed p.ed).hwTailP o.tdLinks.dl
    all_goals rfl
  unfold fillTd
  dsimp only
  split
  · refine hend _ ?_
    rw [Ohci.tdLinks_modEd_same (by intro; rfl)]
    exact hfill
  · exact hend _ hfill

/-- What `td_submit_urb` does before it fills the TDs. -/
theorem tdLinks_submitStart (hp : (o.urb u).hcpriv = some p) :
    ((submitStart o u).log (.submitTds u)).tdLinks
    = { o.tdLinks with cnt := Function.update o.tdLinks.cnt u 0 } := by
  unfold submitStart
  dsimp only
  rw [Ohci.tdLinks_log]
  exact Ohci.tdLinks_modPriv (p := p) hp

/-- **Skipping the rest of a request.** -/
theorem tdLinks_skipRest : (skipRest o t).tdLinks = o.tdLinks ∨
    ∃ p, (o.urb (o.td t).urb).hcpriv = some p ∧ (o.td t).index + 1 < p.length ∧
      (skipRest o t).tdLinks = { o.tdLinks with
        head := Function.update o.tdLinks.head (o.td t).ed (o.nextTD (p.td (p.length - 1)))
        cnt := Function.update o.tdLinks.cnt (o.td t).urb
          ((p.tdCnt + (p.length - (o.td t).index - 1)) % 65536) } := by
  unfold skipRest
  dsimp only
  split
  · exact .inl (Ohci.tdLinks_modEd_same (by intro; rfl))
  rename_i p hp
  split
  · rename_i hi
    refine .inr ⟨p, hp, hi, ?_⟩
    have hcredit := Ohci.tdLinks_modPriv (o := o.modEd (o.td t).ed (fun r =>
        { r with hwHeadP := (o.td (p.td (p.length - 1))).hwNextTD, headHalted := false }))
      (u := (o.td t).urb)
      (f := fun p => { p with tdCnt := (p.tdCnt + (p.length - (o.td t).index - 1)) % 65536 }) hp
    rw [Ohci.tdLinks_modEd] at hcredit
    exact hcredit
  · exact .inl (Ohci.tdLinks_modEd_same (by intro; rfl))

/-- A private part whose TD is counted. -/
theorem tdLinks_countTd (hp : (o.urb u).hcpriv = some p) : (countTd o u).tdLinks
    = { o.tdLinks with cnt := Function.update o.tdLinks.cnt u ((p.tdCnt + 1) % 65536) } :=
  Ohci.tdLinks_modPriv hp

/-- `sohci_return_urb` is for a URB that has a private part. -/
theorem tdLinks_returnUrb (hp : (o.urb u).hcpriv = some p) :
    (returnUrb o u).2 = true ∧ (returnUrb o u).1.tdLinks = o.tdLinks ∧
      (returnUrb o u).1.ledger = o.ledger ∨
      (returnUrb o u).2 = false ∧ (returnUrb o u).1.ledger.priv u = none ∧
        (returnUrb o u).1.tdLinks
          = { o.tdLinks with cnt := Function.update o.tdLinks.cnt u 0 } := by
  have hrm : ∀ o₁ : Ohci, (decDevUse (urbRmPriv o₁ u) u).ledger.priv u = none := by
    intro o₁
    rw [ledger_decDevUse, Ledger.use_priv, ledger_urbRmPriv, Ledger.rmPriv_priv,
      Function.update_self]
  unfold returnUrb
  split
  · exact .inr ⟨rfl, hrm o, (tdLinks_decDevUse).trans tdLinks_urbRmPriv⟩
  rw [hp]
  dsimp only
  have hret :
      ((prepareUrbOnReturn o u p).log (.returnUrb u ((prepareUrbOnReturn o u p).urb u).status
      ((prepareUrbOnReturn o u p).urb u).actualLength)).ledger
        = o.ledger := ledger_prepareUrbOnReturn
  have hlret :
      ((prepareUrbOnReturn o u p).log (.returnUrb u ((prepareUrbOnReturn o u p).urb u).status
      ((prepareUrbOnReturn o u p).urb u).actualLength)).tdLinks
        = o.tdLinks := tdLinks_prepareUrbOnReturn
  generalize (prepareUrbOnReturn o u p).log
    (.returnUrb u ((prepareUrbOnReturn o u p).urb u).status
    ((prepareUrbOnReturn o u p).urb u).actualLength) = o₁ at hret hlret ⊢
  split
  · refine .inl ⟨rfl, ?_, ?_⟩
    · rw [tdLinks_callComplete, hlret]
    · rw [ledger_callComplete, hret]
  · refine .inr ⟨rfl, ?_, ?_⟩
    · rw [ledger_callComplete]
      exact hrm o₁
    · rw [tdLinks_callComplete, tdLinks_decDevUse, tdLinks_urbRmPriv, hlret]

/-- What is done with a request all of whose TDs are settled. -/
theorem tdLinks_finishUrb (st : EdState) (cc : ℕ) (hp : (o.urb u).hcpriv = some p) :
    (finishUrb o u p st cc).2 = true ∧ (finishUrb o u p st cc).1.tdLinks = o.tdLinks ∧
        (finishUrb o u p st cc).1.ledger = o.ledger ∨
      (finishUrb o u p st cc).2 = false ∧ (finishUrb o u p st cc).1.ledger.priv u = none ∧
        (finishUrb o u p st cc).1.tdLinks
          = { o.tdLinks with cnt := Function.update o.tdLinks.cnt u 0 } := by
  have hstatus : (o.modUrb u (fun r => { r with status := ccToError cc })).ledger = o.ledger :=
    Ohci.ledger_modUrb_same (by intro; rfl) (by intro; rfl)
  have hlstatus : (o.modUrb u (fun r => { r with status := ccToError cc })).tdLinks = o.tdLinks :=
    Ohci.tdLinks_modUrb_same (by intro; rfl)
  unfold finishUrb
  split
  · have hp' : ((o.modUrb u (fun r => { r with status := ccToError cc })).urb u).hcpriv
        = some p := by
      rw [Ohci.modUrb_urb_self]
      exact hp
    have hret := tdLinks_returnUrb hp'
    rwa [hstatus, hlstatus] at hret
  · refine .inr ⟨rfl, ?_, tdLinks_urbRmPriv⟩
    rw [ledger_urbRmPriv, Ledger.rmPriv_priv, Function.update_self]

/-- **The body of the loop of `dl_done_list`**: the TD is counted, and the private
part goes when it was the last, unless the request is periodic. -/
theorem tdLinks_doneTd (h : doneTd o t = some (o', b)) :
    ∃ p, (o.urb (o.td t).urb).hcpriv = some p ∧
    ((p.tdCnt + 1) % 65536 ≠ p.length ∧ b = false ∧ o'.ledger = o.ledger ∧
        o'.tdLinks
          = { o.tdLinks with
              cnt := Function.update o.tdLinks.cnt (o.td t).urb ((p.tdCnt + 1) % 65536) } ∨
      (p.tdCnt + 1) % 65536 = p.length ∧
        (b = true ∧ o'.ledger = o.ledger ∧
            o'.tdLinks
              = { o.tdLinks with
                  cnt := Function.update o.tdLinks.cnt (o.td t).urb ((p.tdCnt + 1) % 65536) } ∨
          b = false ∧ o'.ledger.priv (o.td t).urb = none ∧
            o'.tdLinks
              = { o.tdLinks with cnt := Function.update o.tdLinks.cnt (o.td t).urb 0 })) := by
  obtain ⟨p, o₁, o₂, hp, h₁, hp₁, ho₂, hp₂, hend⟩ := doneTd_outcome h
  have hl : o₂.ledger = o.ledger := by
    rw [ho₂]
    exact ledger_countTd.trans (ledger_haltOnStall.trans (ledger_dlTransferLength h₁))
  have hk : o₂.tdLinks
      = { o.tdLinks with
          cnt := Function.update o.tdLinks.cnt (o.td t).urb ((p.tdCnt + 1) % 65536) } := by
    rw [ho₂, tdLinks_countTd hp₁, tdLinks_haltOnStall, tdLinks_dlTransferLength h₁]
  refine ⟨p, hp, ?_⟩
  obtain ⟨hlast, rfl, rfl⟩ | ⟨hlast, cc, h⟩ := hend
  · exact .inl ⟨hlast, rfl, hl, hk⟩
  refine .inr ⟨hlast, ?_⟩
  have hfin := tdLinks_finishUrb (o := o₂) (u := (o.td t).urb) (o₂.ed (o.td t).ed).state cc hp₂
  rw [h, hl, hk] at hfin
  obtain ⟨hb, hk', hl'⟩ | ⟨hb, hn, hk'⟩ := hfin
  · exact .inl ⟨hb, hl', hk'⟩
  · refine .inr ⟨hb, hn, ?_⟩
    rw [hk', Function.update_idem]

/-- **A TD that `dl_del_list` comes to.** -/
theorem tdLinks_delTd {tdP tdP' : TdLink} (h : delTd o e t tdP = some (o', tdP')) :
    ∃ p, (o.urb (o.td t).urb).hcpriv = some p ∧
      (¬ (p.urbDel = true ∨ (o.ed e).state.del = true) ∧ o' = o ∧ tdP' = .next t ∨
        (p.urbDel = true ∨ (o.ed e).state.del = true) ∧ tdP' = tdP ∧
          o'.tdLinks = { (o.setTdLink tdP (o.nextTD t)).tdLinks with
            cnt := Function.update o.tdLinks.cnt (o.td t).urb
              (if (p.tdCnt + 1) % 65536 = p.length then 0 else (p.tdCnt + 1) % 65536) }) := by
  obtain ⟨p, hp, hkeep | ⟨hdel, rfl, o₁, o₂, ho₁, hp₁, rfl, rfl⟩⟩ := delTd_outcome h
  · exact ⟨p, hp, .inl hkeep⟩
  refine ⟨p, hp, .inr ⟨hdel, rfl, ?_⟩⟩
  have hlen : o₁.tdLinks = o.tdLinks := by
    obtain rfl | h₁ := ho₁
    · rfl
    · exact tdLinks_dlTransferLength h₁
  have hset : (o₁.setTdLink tdP' (o₁.nextTD t)).tdLinks
      = (o.setTdLink tdP' (o.nextTD t)).tdLinks ∧
      (o.setTdLink tdP' (o.nextTD t)).tdLinks.cnt = o.tdLinks.cnt := by
    have hnext : o₁.nextTD t = o.nextTD t := congrFun (congrArg TdLinks.next hlen) t
    cases tdP' with
    | head e =>
      rw [Ohci.setTdLink, Ohci.setTdLink, Ohci.tdLinks_modEd, Ohci.tdLinks_modEd, hlen, hnext]
      exact ⟨rfl, rfl⟩
    | next x =>
      rw [Ohci.setTdLink, Ohci.setTdLink, Ohci.tdLinks_modTd_next (by intro; rfl),
        Ohci.tdLinks_modTd_next (by intro; rfl), hlen, hnext]
      exact ⟨rfl, rfl⟩
  have hp₂ : ((o₁.setTdLink tdP' (o₁.nextTD t)).urb (o.td t).urb).hcpriv
      = some p := by rw [setTdLink_urb, hp₁]
  have hcount := tdLinks_countTd hp₂
  rw [hset.1, hset.2] at hcount
  rw [tdLinks_reportDel]
  split
  · rw [tdLinks_urbRmPriv, hcount, Function.update_idem]
  · rw [hcount]

/-- **`sohci_unlink_urb`** of a request that has a private part. -/
theorem tdLinks_unlinkUrb (hdev : (o.urb u).dev ≠ 0) (hp : (o.urb u).hcpriv = some p) :
    ((o.urb u).status = .einprogress ∧ o.disabled = false) ∧ unlinksEd o u = some p.ed ∧
        (unlinkUrb o u).1.tdLinks = o.tdLinks ∨
      ¬ ((o.urb u).status = .einprogress ∧ o.disabled = false) ∧ unlinksEd o u = none ∧
        (unlinkUrb o u).1.tdLinks
          = { o.tdLinks with cnt := Function.update o.tdLinks.cnt u 0 } := by
  have hed : o.privEd u = some p.ed := by
    rw [Ohci.privEd, hp]
    rfl
  unfold unlinkUrb unlinksEd
  rw [if_neg hdev, hp]
  dsimp only
  by_cases hpend : (o.urb u).status = .einprogress ∧ o.disabled = false
  · rw [if_pos ⟨hdev, hpend.1, by rw [hpend.2]; rfl⟩, if_pos ⟨hpend.1, by rw [hpend.2]; rfl⟩]
    exact .inl ⟨hpend, hed, tdLinks_unlinkPending⟩
  · rw [if_neg (fun h => hpend ⟨h.2.1, by simpa using h.2.2⟩), if_neg (by simpa using hpend)]
    exact .inr ⟨hpend, rfl, tdLinks_unlinkNow⟩

/-- **The body of the loop of `dl_reverse_done_list`.** -/
theorem tdLinks_reverseTd (rev : TdPtr) : (reverseTd o t rev).tdLinks
      = { o.tdLinks with dl := Function.update o.tdLinks.dl t rev } ∨
    (o.td t).hwINFO.cc ≠ 0 ∧ (o.ed (o.td t).ed).headHalted = true ∧
      ∃ p, (o.urb (o.td t).urb).hcpriv = some p ∧ (o.td t).index + 1 < p.length ∧
        (reverseTd o t rev).tdLinks = { o.tdLinks with
          head := Function.update o.tdLinks.head (o.td t).ed (o.nextTD (p.td (p.length - 1)))
          cnt := Function.update o.tdLinks.cnt (o.td t).urb
            ((p.tdCnt + (p.length - (o.td t).index - 1)) % 65536)
          dl := Function.update o.tdLinks.dl t rev } := by
  unfold reverseTd
  dsimp only
  rw [Ohci.tdLinks_modTd_dl (by intro; rfl)]
  split
  · rename_i hfail
    obtain hsame | ⟨p, hp, hi, hskip⟩ := tdLinks_skipRest (o := o) (t := t)
    · rw [hsame]
      exact .inl rfl
    · refine .inr ⟨hfail.1, hfail.2, p, hp, hi, ?_⟩
      rw [hskip]
  · exact .inl rfl

/-- **Behind the callback of a periodic request.** -/
theorem tdLinks_requeueUrb (h : requeueUrb o u = some o') : ∃ p, (o.urb u).hcpriv = some p ∧
    (o'.tdLinks = o.tdLinks ∧ o'.ledger = o.ledger ∨
      ∃ o₁, o₁.tdLinks = o.tdLinks ∧ o₁.ledger = o.ledger ∧ tdSubmitUrb o₁ u = some o') := by
  obtain ⟨p, hp, h⟩ := Option.bind_eq_some_iff.mp h
  refine ⟨p, hp, ?_⟩
  have hstart : ∀ f : Urb → Urb, (∀ r, (f r).const = r.const) → (∀ r, (f r).hcpriv = r.hcpriv) →
      ∀ o₁ : Ohci, o₁.tdLinks = o.tdLinks ∧ o₁.ledger = o.ledger →
        (o₁.modUrb u f).tdLinks = o.tdLinks ∧ (o₁.modUrb u f).ledger = o.ledger := by
    intro f hf hp o₁ h₁
    refine ⟨(Ohci.tdLinks_modUrb_same fun r => ?_).trans h₁.1,
      (Ohci.ledger_modUrb_same hf fun r => ?_).trans h₁.2⟩
    · rw [Urb.cnt, Urb.cnt, hp]
    · rw [hp]
  have hagain := hstart (fun r => { r with actualLength := 0, status := .einprogress })
    (by intro; rfl) (by intro; rfl)
    o ⟨rfl, rfl⟩
  dsimp only at h
  split at h
  · have hframe := hstart (fun r => { r with startFrame :=
      ((o.modUrb u (fun r => { r with actualLength := 0, status := .einprogress })).ed
        p.ed).lastIso + 1 })
      (by intro; rfl) (by intro; rfl) _ hagain
    split at h
    · cases h
      exact .inl hframe
    · have hreset := hstart resetPackets (by intro; rfl) (by intro; rfl) _ hframe
      exact .inr ⟨_, hreset.1, hreset.2, h⟩
  · split at h
    · cases h
      exact .inl hagain
    · exact .inr ⟨_, hagain.1, hagain.2, h⟩

end Entries
