import SideDumper.Ledger
import SideDumper.DriverRuns

/-!
# The entries of the interface functions

What the functions of the driver that submit, unlink, settle and remove enter
in the accounts, case by case, and that they leave the private parts of other
URBs.
-/

namespace Ledger

section Simp

variable (l : Ledger) (d : DevPtr) (e : EdPtr) (u : UrbPtr) (n m : ℤ) (h : Option Holding)
    (st : EdState)

@[simp] theorem use_priv : (l.use d n).priv = l.priv := rfl
@[simp] theorem use_state : (l.use d n).state = l.state := rfl
@[simp] theorem use_tail : (l.use d n).tail = l.tail := rfl
@[simp] theorem use_alloc : (l.use d n).alloc = l.alloc := rfl
@[simp] theorem use_edCnt : (l.use d n).edCnt = l.edCnt := rfl
@[simp] theorem setPriv_state : (l.setPriv u h).state = l.state := rfl
@[simp] theorem setPriv_tail : (l.setPriv u h).tail = l.tail := rfl
@[simp] theorem setPriv_alloc : (l.setPriv u h).alloc = l.alloc := rfl
@[simp] theorem setPriv_edCnt : (l.setPriv u h).edCnt = l.edCnt := rfl
@[simp] theorem setPriv_useCnt : (l.setPriv u h).useCnt = l.useCnt := rfl
@[simp] theorem setState_priv : (l.setState e st).priv = l.priv := rfl
@[simp] theorem setState_useCnt : (l.setState e st).useCnt = l.useCnt := rfl
@[simp] theorem setState_alloc : (l.setState e st).alloc = l.alloc := rfl
@[simp] theorem setState_tail : (l.setState e st).tail = l.tail := rfl
@[simp] theorem setState_edCnt : (l.setState e st).edCnt = l.edCnt := rfl

theorem use_zero : l.use d 0 = l := by
  unfold use
  rw [Int.add_zero, Function.update_eq_self]

theorem use_use : (l.use d n).use d m = l.use d (n + m) := by
  unfold use
  simp only [Function.update_self, Function.update_idem, Int.add_assoc]

@[simp] theorem rmPriv_state : (l.rmPriv u).state = l.state := by
  unfold rmPriv
  split <;> rfl

@[simp] theorem rmPriv_tail : (l.rmPriv u).tail = l.tail := by
  unfold rmPriv
  split <;> rfl

@[simp] theorem rmPriv_useCnt : (l.rmPriv u).useCnt = l.useCnt := by
  unfold rmPriv
  split <;> rfl

@[simp] theorem rmPriv_edCnt : (l.rmPriv u).edCnt = l.edCnt := by
  unfold rmPriv
  split <;> rfl

@[simp] theorem rmPriv_const : (l.rmPriv u).const = l.const := by
  unfold rmPriv
  split <;> rfl

@[simp] theorem rmPriv_base : (l.rmPriv u).base = l.base := by
  unfold rmPriv
  split <;> rfl

@[simp] theorem rmPriv_rhDevnum : (l.rmPriv u).rhDevnum = l.rhDevnum := by
  unfold rmPriv
  split <;> rfl

theorem rmPriv_priv : (l.rmPriv u).priv = Function.update l.priv u none := by
  unfold rmPriv
  split
  · rw [← ‹l.priv u = none›, Function.update_eq_self]
  · rfl

/-- The removal of a private part and the counting of a use commute. -/
theorem use_rmPriv : (l.use d n).rmPriv u = (l.rmPriv u).use d n := by
  unfold rmPriv
  rw [use_priv]
  cases l.priv u <;> rfl

theorem rmPriv_of_none (hu : l.priv u = none) : l.rmPriv u = l := by
  rw [rmPriv, hu]

end Simp

/-- A TD is reported by `dl_del_list`, which counts if the URB was unlinked
without a wait. -/
def report (l : Ledger) (u : UrbPtr) : Ledger :=
  if (l.const u).asyncUnlink then l.use (l.const u).dev (-1) else l

section Report

variable {l : Ledger} {u : UrbPtr}

/-- A report counts, and does nothing else. -/
theorem report_eq : l.report u = { l with useCnt := (l.report u).useCnt } := by
  unfold report
  split <;> rfl

@[simp] theorem report_priv : (l.report u).priv = l.priv := by rw [report_eq]
@[simp] theorem report_state : (l.report u).state = l.state := by rw [report_eq]
@[simp] theorem report_tail : (l.report u).tail = l.tail := by rw [report_eq]
@[simp] theorem report_const : (l.report u).const = l.const := by rw [report_eq]
@[simp] theorem report_alloc : (l.report u).alloc = l.alloc := by rw [report_eq]
@[simp] theorem report_edCnt : (l.report u).edCnt = l.edCnt := by rw [report_eq]
@[simp] theorem report_base : (l.report u).base = l.base := by rw [report_eq]
@[simp] theorem report_rhDevnum : (l.report u).rhDevnum = l.rhDevnum := by
  rw [report_eq]

end Report

/-- `ep_add_ed` has answered with the ED `e` of the device `d`. -/
def Added (l l' : Ledger) (d : DevPtr) (e : EdPtr) (fa : ℕ) (dummy : TdPtr) : Prop :=
  l.state e ≠ .edNew ∧ (l.state e).pending = false ∧ l' = l.addEd d e fa ∨
    l.state e = .edNew ∧ dummy ≠ 0 ∧ l' = (l.initEd d e dummy).addEd d e fa

end Ledger

/-! ## Functions -/

section Functions

variable {o o' : Ohci} {e : EdPtr} {t : TdPtr} {u : UrbPtr} {p : UrbPriv} {b : Bool} {fuel : ℕ}

theorem ledger_priv (hp : (o.urb u).hcpriv = some p) : o.ledger.priv u = some p.holding :=
  congrArg (Option.map UrbPriv.holding) hp

theorem ledger_priv_none (hp : (o.urb u).hcpriv = none) : o.ledger.priv u = none :=
  congrArg (Option.map UrbPriv.holding) hp

/-- The device of a URB is among the things that stay. -/
theorem dev_of_const (h : o'.ledger.const = o.ledger.const) : (o'.urb u).dev = (o.urb u).dev :=
  congrArg UrbConst.dev (congrFun h u)

/-- The removal of a private part that counts. -/
theorem ledger_rmDec : (decDevUse (urbRmPriv o u) u).ledger
    = (o.ledger.rmPriv u).use (o.urb u).dev (-1) := by
  rw [ledger_decDevUse, ledger_urbRmPriv, urbRmPriv_urb_self]

theorem ledger_decRm : (urbRmPriv (decDevUse o u) u).ledger
    = (o.ledger.rmPriv u).use (o.urb u).dev (-1) := by
  rw [ledger_urbRmPriv, ledger_decDevUse, Ledger.use_rmPriv]

/-- **`sohci_return_urb`**: a periodic URB keeps its private part, another
gives it back. -/
theorem ledger_returnUrb (hp : (o.urb u).hcpriv = some p) :
    (returnUrb o u).1.ledger = (o.ledger.rmPriv u).use (o.urb u).dev (-1) ∧
      (returnUrb o u).2 = false ∨
      (returnUrb o u).1.ledger = o.ledger := by
  unfold returnUrb
  split
  · exact .inl ⟨ledger_rmDec, rfl⟩
  rw [hp]
  dsimp only
  have hret :
      ((prepareUrbOnReturn o u p).log (.returnUrb u ((prepareUrbOnReturn o u p).urb u).status
      ((prepareUrbOnReturn o u p).urb u).actualLength)).ledger
        = o.ledger := ledger_prepareUrbOnReturn
  split
  · exact .inr hret
  · left
    refine ⟨?_, rfl⟩
    rw [ledger_callComplete, ledger_rmDec, hret, dev_of_const (congrArg Ledger.const hret)]

theorem ledger_finishUrb {s : EdState} (cc : ℕ) (hp : (o.urb u).hcpriv = some p) :
    (p.urbDel = false ∧ s.del = false ∧ s ≠ .edNew) ∧
        ((finishUrb o u p s cc).1.ledger = (o.ledger.rmPriv u).use (o.urb u).dev (-1) ∧
          (finishUrb o u p s cc).2 = false ∨
        (finishUrb o u p s cc).1.ledger = o.ledger) ∨
      (p.urbDel = true ∨ s.del = true ∨ s = .edNew) ∧ (finishUrb o u p s cc).2 = false ∧
        (finishUrb o u p s cc).1.ledger = o.ledger.rmPriv u := by
  have hstatus : (o.modUrb u (fun r => { r with status := ccToError cc })).ledger = o.ledger :=
    Ohci.ledger_modUrb_same (by intro; rfl) (by intro; rfl)
  unfold finishUrb
  split
  · rename_i hlive
    have hp' : ((o.modUrb u (fun r => { r with status := ccToError cc })).urb u).hcpriv
        = some p := by
      rw [Ohci.modUrb_urb_self]
      exact hp
    have hret := ledger_returnUrb hp'
    rw [hstatus, dev_of_const (congrArg Ledger.const hstatus)] at hret
    exact .inl ⟨by simpa using hlive, hret⟩
  · rename_i hlive
    refine .inr ⟨?_, rfl, ledger_urbRmPriv⟩
    by_contra hnot
    push Not at hnot
    simp_all

/-- **The body of the loop of `dl_done_list`.** -/
theorem ledger_doneTd (h : doneTd o t = some (o', b)) :
    o'.ledger = o.ledger ∧ (b = true → ∃ p, (o.urb (o.td t).urb).hcpriv = some p ∧
      p.urbDel = false ∧
        (o.ed (o.td t).ed).state.del = false ∧ (o.ed (o.td t).ed).state ≠ .edNew) ∨
      b = false ∧ ∃ q, o.ledger.priv (o.td t).urb = some q ∧
        (q.urbDel = false ∧ (o.ed (o.td t).ed).state.del = false ∧
          (o.ed (o.td t).ed).state ≠ .edNew ∧
          o'.ledger = (o.ledger.rmPriv (o.td t).urb).use (o.urb (o.td t).urb).dev (-1) ∨
        (q.urbDel = true ∨ (o.ed (o.td t).ed).state.del = true ∨
          (o.ed (o.td t).ed).state = .edNew) ∧
          o'.ledger = o.ledger.rmPriv (o.td t).urb) := by
  obtain ⟨p, o₁, o₂, hp, h₁, -, ho₂, hp₂, hend⟩ := doneTd_outcome h
  have hst : o₂.ledger = o.ledger := by
    rw [ho₂]
    exact ledger_countTd.trans (ledger_haltOnStall.trans (ledger_dlTransferLength h₁))
  obtain ⟨-, rfl, rfl⟩ | ⟨-, cc, h⟩ := hend
  · exact .inl ⟨hst, fun hb => nomatch hb⟩
  have hpriv : o.ledger.priv (o.td t).urb = some p.holding := ledger_priv hp
  have hed : (o₂.ed (o.td t).ed).state = (o.ed (o.td t).ed).state :=
    congrFun (congrArg Ledger.state hst) _
  have hfin := ledger_finishUrb (s := (o₂.ed (o.td t).ed).state) cc hp₂
  rw [h, hst, hed, dev_of_const (congrArg Ledger.const hst)] at hfin
  obtain ⟨⟨hlive, hdel, hnew⟩, ⟨hfin, hb⟩ | hsame⟩ | ⟨hdead, hb, hfin⟩ := hfin
  · exact .inr ⟨hb, _, hpriv, .inl ⟨hlive, hdel, hnew, hfin⟩⟩
  · exact .inl ⟨hsame, fun _ => ⟨p, hp, hlive, hdel, hnew⟩⟩
  · exact .inr ⟨hb, _, hpriv, .inr ⟨hdead, hfin⟩⟩

/-- **`sohci_return_urb`** behind the callback. -/
theorem ledger_requeueUrb (h : requeueUrb o u = some o') :
    ∃ p, (o.urb u).hcpriv = some p ∧
      (p.urbDel = true ∧ o'.ledger = o.ledger ∨ p.urbDel = false ∧
        Ledger.Swaps u o.ledger o'.ledger) := by
  obtain ⟨p, hp, h⟩ := Option.bind_eq_some_iff.mp h
  refine ⟨p, hp, ?_⟩
  have hstart : ∀ f : Urb → Urb, (∀ r, (f r).const = r.const) → (∀ r, (f r).hcpriv = r.hcpriv) →
      ∀ o₁ : Ohci, (o₁.modUrb u f).ledger = o₁.ledger := fun f hf hp o₁ =>
    Ohci.ledger_modUrb_same hf (fun r => by rw [hp])
  dsimp only at h
  split at h <;> split at h
  · cases h
    exact .inl
      ⟨‹_›, by
        rw [hstart _ (by intro; rfl) (by intro; rfl),
          hstart _ (by intro; rfl) (by intro; rfl)]⟩
  · have hs := ledger_tdSubmitUrb h
    rw [hstart _ (by intro; rfl) (by intro; rfl), hstart _ (by intro; rfl) (by intro; rfl),
      hstart _ (by intro; rfl) (by intro; rfl)] at hs
    exact .inr ⟨Bool.eq_false_iff.mpr ‹_›, hs⟩
  · cases h
    exact .inl ⟨‹_›, hstart _ (by intro; rfl) (by intro; rfl) _⟩
  · have hs := ledger_tdSubmitUrb h
    rw [hstart _ (by intro; rfl) (by intro; rfl)] at hs
    exact .inr ⟨Bool.eq_false_iff.mpr ‹_›, hs⟩

/-- **The end of the body of the loop of `dl_done_list`.** -/
theorem ledger_doneEd (h0 : e ≠ 0) (h : doneEd fuel o e = some o') :
    o'.ledger = o.ledger ∨ (o.ed e).state = .edOper ∧
      o'.ledger = o.ledger.setState e .edUnlink := by
  unfold doneEd at h
  split at h
  · exact .inr ⟨(And.right ‹_›), ledger_epUnlink h0 h⟩
  · cases h
    exact .inl rfl

/-- **The report of `dl_del_list`.** -/
theorem ledger_reportDel : (reportDel o u).ledger = o.ledger.report u := by
  have hdef : o.ledger.report u
      = if (o.urb u).asyncUnlink then o.ledger.use (o.urb u).dev (-1) else o.ledger := rfl
  rw [hdef]
  unfold reportDel
  split
  · rw [ledger_callComplete, Ohci.ledger_modUrb_same (by intro; rfl) (by intro; rfl),
      ledger_decDevUse]
  · rfl

/-- **A TD that `dl_del_list` comes to.** -/
theorem ledger_delTd {tdP tdP' : TdLink} (h : delTd o e t tdP = some (o', tdP')) :
    ∃ p, (o.urb (o.td t).urb).hcpriv = some p ∧
      (¬ (p.urbDel = true ∨ (o.ed e).state.del = true) ∧ o' = o ∧ tdP' = .next t ∨
        (p.urbDel = true ∨ (o.ed e).state.del = true) ∧ tdP' = tdP ∧
          o'.ledger = (if (p.tdCnt + 1) % 65536 = p.length then o.ledger.rmPriv (o.td t).urb
            else o.ledger).report (o.td t).urb) := by
  obtain ⟨p, hp, hkeep | ⟨hdel, rfl, o₁, o₂, ho₁, -, rfl, rfl⟩⟩ := delTd_outcome h
  · exact ⟨p, hp, .inl hkeep⟩
  refine ⟨p, hp, .inr ⟨hdel, rfl, ?_⟩⟩
  have hlen : o₁.ledger = o.ledger := by
    obtain rfl | h₁ := ho₁
    · rfl
    · exact ledger_dlTransferLength h₁
  have hcount : (countTd (o₁.setTdLink tdP' (o₁.nextTD t)) (o.td t).urb).ledger = o.ledger :=
    ledger_countTd.trans (ledger_setTdLink.trans hlen)
  rw [ledger_reportDel]
  split
  · rw [ledger_urbRmPriv, hcount]
  · rw [hcount]

/-- **What `dl_del_list` does with an ED behind its TDs.** -/
theorem ledger_delEdEnd (tail : TdPtr) (fa : ℕ) :
    (o.ed e).state.del = true ∧ (delEdEnd o e tail fa).ledger = o.ledger.removeEd e tail fa ∨
      (o.ed e).state.del = false ∧ (delEdEnd o e tail fa).ledger
        = o.ledger.setState e { (o.ed e).state with urbDel := false } := by
  unfold delEdEnd
  split
  · rename_i hdel
    refine .inl ⟨hdel, ?_⟩
    have hcnt : ∀ o₁ : Ohci, o₁.dev = o.dev → o₁.ledger = { o.ledger with
          alloc := Function.update o.ledger.alloc tail false
          fa := Function.update o.ledger.fa e 0
          state := Function.update o.ledger.state e .edNew } →
        (o₁.modDev (o.dev fa) (fun r => { r with edCnt := r.edCnt - 1 })).ledger
          = o.ledger.removeEd e tail fa := by
      intro o₁ _ hl
      rw [ledger_modDev_edCnt (n := -1) (by intro; rfl), hl]
      rfl
    have hnew := hcnt (({ o with tdAlloc := Function.update o.tdAlloc tail false } : Ohci).modEd e
      (fun r => { r with hwINFO := skipInfo, state := .edNew })) rfl (by
        rw [Ohci.ledger_modEd]
        ext1
        case tail => exact Function.update_eq_self e o.ledger.tail
        all_goals rfl)
    dsimp only
    split
    · rw [Ohci.ledger_log]
      exact hnew
    · exact hnew
  · exact .inr ⟨Bool.eq_false_iff.mpr ‹_›, Ohci.ledger_modEd_state (by intro; rfl) rfl⟩

/-- **The branch of `sohci_unlink_urb` for a pending request.** -/
theorem ledger_unlinkPending (hp : (o.urb u).hcpriv = some p) :
    (unlinkPending o u p).ledger
      = (o.ledger.setPriv u (some { p.holding with urbDel := true })).setState
      p.ed { (o.ed p.ed).state with urbDel := true } := by
  have hpriv : (o.modPriv u (fun p => { p with urbDel := true })).ledger
      = o.ledger.setPriv u (some { p.holding with urbDel := true }) := Ohci.ledger_modPriv hp
  have hrm : (epRmEd (o.modPriv u (fun p => { p with urbDel := true })) p.ed).ledger
      = o.ledger.setPriv u (some { p.holding with urbDel := true }) := ledger_epRmEd.trans hpriv
  have hmark : ((epRmEd (o.modPriv u (fun p => { p with urbDel := true })) p.ed).modEd p.ed
      (fun r => { r with state := { r.state with urbDel := true } })).ledger
      = (o.ledger.setPriv u (some { p.holding with urbDel := true })).setState p.ed
        { (o.ed p.ed).state with urbDel := true } := by
    rw [Ohci.ledger_modEd_state (by intro; rfl) rfl, hrm]
    have hst : ((epRmEd (o.modPriv u (fun p => { p with urbDel := true })) p.ed).ed p.ed).state
        = (o.ed p.ed).state := congrFun (congrArg Ledger.state hrm) p.ed
    rw [hst]
  unfold unlinkPending
  dsimp only
  split
  · rw [Ohci.ledger_modUrb_same (by intro; rfl) (by intro; rfl)]
    exact hmark
  · exact hmark

/-- **The branch of `sohci_unlink_urb` for a request that is not pending.** -/
theorem ledger_unlinkNow :
    (unlinkNow o u).ledger = (o.ledger.rmPriv u).use (o.urb u).dev (-1) := by
  unfold unlinkNow
  dsimp only
  split
  · rw [Ohci.ledger_modUrb_same (by intro; rfl) (by intro; rfl), ledger_callComplete,
      ledger_decRm]
  · rw [Ohci.ledger_modUrb_same (by intro; rfl) (by intro; rfl), ledger_decRm]

/-- **`sohci_unlink_urb`.** -/
theorem ledger_unlinkUrb (h : unlinkUrb o u = (o', b)) :
    b = false ∧ o' = o ∧ ((o.urb u).dev = 0 ∨ (o.urb u).hcpriv = none) ∨
      (o.urb u).dev ≠ 0 ∧ ∃ p, (o.urb u).hcpriv = some p ∧
        (((o.urb u).status = .einprogress ∧ o.disabled = false) ∧ b = !(o.urb u).asyncUnlink ∧
            o'.ledger = (o.ledger.setPriv u (some { p.holding with urbDel := true })).setState
              p.ed { (o.ed p.ed).state with urbDel := true } ∨
          ¬ ((o.urb u).status = .einprogress ∧ o.disabled = false) ∧ b = false ∧
            o'.ledger = (o.ledger.rmPriv u).use (o.urb u).dev (-1)) := by
  unfold unlinkUrb at h
  split at h
  · cases h
    exact .inl ⟨rfl, rfl, .inl ‹_›⟩
  rename_i hdev
  cases hp : (o.urb u).hcpriv with
  | none =>
    rw [hp] at h
    cases h
    exact .inl ⟨rfl, rfl, .inr rfl⟩
  | some p =>
    rw [hp] at h
    dsimp only at h
    refine .inr ⟨hdev, p, rfl, ?_⟩
    split at h
    · rename_i hpend
      cases h
      exact .inl ⟨by simpa using hpend, rfl, ledger_unlinkPending hp⟩
    · rename_i hpend
      cases h
      exact .inr ⟨by simpa using hpend, rfl, ledger_unlinkNow⟩

/-- The end of a synchronous `sohci_unlink_urb`. -/
theorem ledger_unlinkFinish : (unlinkFinish o u).ledger = o.ledger.use (o.urb u).dev (-1) := by
  rw [unlinkFinish, ledger_decDevUse, Ohci.modUrb_urb_self,
    Ohci.ledger_modUrb_same (by intro; rfl) (by intro; rfl)]

/-- **`sohci_free_dev` at an ED.** -/
theorem ledger_freeEd (h0 : e ≠ 0) (h : freeEd fuel o e = some o') :
    (o.ed e).state = .edNew ∧ o' = o ∨
      (o.ed e).state ≠ .edNew ∧ o'.ledger = o.ledger.setState e .edDel := by
  unfold freeEd at h
  split at h
  · cases h
    exact .inl ⟨‹_›, rfl⟩
  refine .inr ⟨‹_›, ?_⟩
  have hdel : ∀ o₁ : Ohci, ((epRmEd o₁ e).modEd e (fun r => { r with state := .edDel })).ledger
      = o₁.ledger.setState e .edDel := by
    intro o₁
    rw [Ohci.ledger_modEd_state (by intro; rfl) rfl, ledger_epRmEd]
  dsimp only at h
  split at h
  · obtain ⟨o₁, h₁, h⟩ := Option.bind_eq_some_iff.mp h
    cases h
    rw [hdel, ledger_epUnlink h0 h₁]
    unfold Ledger.setState
    rw [Function.update_idem]
  · cases h
    exact hdel o

/-- **The first phase of `sohci_submit_urb`.** -/
theorem ledger_submitFirst {dummy : TdPtr} {tds : ℕ → TdPtr}
    (h : submitFirst o u dummy tds = (o', b)) :
    b = false ∧ o' = o ∧ ((o.urb u).dev = 0 ∨ (o.urb u).hcpriv.isSome = true) ∨
      (o.urb u).dev ≠ 0 ∧ o.ledger.priv u = none ∧
        (b = false ∧ o.disabled = true ∧ o'.ledger = o.ledger.use (o.urb u).dev 1 ∨
          b = false ∧ o'.ledger = o.ledger ∨
          b = false ∧ (o.ed (edOf o (o.urb u).dev (o.urb u).pipe)).state = .edNew ∧
            o'.ledger = { o.ledger with
              fa := Function.update o.ledger.fa (edOf o (o.urb u).dev (o.urb u).pipe) 0 } ∨
          ∃ l, o.ledger.Added l (o.urb u).dev (edOf o (o.urb u).dev (o.urb u).pipe)
            (o.urb u).pipe.device
              dummy ∧
            (b = false ∧ (∃ i < tdSize (o.urb u), tds i = 0) ∧
                o'.ledger = ((l.setPriv u (some (newPriv (edOf o (o.urb u).dev (o.urb u).pipe)
                  (tdSize (o.urb u)) tds).holding)).give (tdSize (o.urb u)) tds).rmPriv u ∨
              b = true ∧ (∀ i < tdSize (o.urb u), tds i ≠ 0) ∧
                o'.ledger = ((l.use (o.urb u).dev 1).setPriv u (some (newPriv
                  (edOf o (o.urb u).dev (o.urb u).pipe) (tdSize (o.urb u)) tds).holding)).give
                  (tdSize (o.urb u)) tds)) := by
  obtain hno | ⟨hdev, hnone, hrun⟩ := submitFirst_outcome h
  · exact .inl hno
  refine .inr ⟨hdev, ledger_priv_none hnone, ?_⟩
  have hinc := ledger_incDevUse (o := o) (u := u)
  have hof : edOf (incDevUse o u) (o.urb u).dev (o.urb u).pipe
      = edOf o (o.urb u).dev (o.urb u).pipe := by
    have hbase : ((incDevUse o u).usbDev (o.urb u).dev).edBase
        = (o.usbDev (o.urb u).dev).edBase :=
      congrFun (congrArg Ledger.base hinc) _
    rw [edOf, edOf, hbase]
  obtain ⟨rfl, hdis, rfl⟩ | ⟨-, r, o₁, hadd, hend⟩ := hrun
  · exact .inl ⟨rfl, hdis, hinc⟩
  right
  have hcases := ledger_epAddEd hadd
  rw [hof, hinc, incDevUse_ed] at hcases
  have hconst : ∀ o₂ : Ohci, o₂.ledger.const = o.ledger.const → (o₂.urb u).dev = (o.urb u).dev :=
    fun _ h₂ => dev_of_const h₂
  obtain ⟨rfl, rfl, rfl⟩ | ⟨e, o₂, rfl, ho₂, hend⟩ := hend
  · -- there is no ED
    obtain ⟨-, hnone⟩ | ⟨hr, -⟩ := hcases
    · have hdec : (decDevUse o₁ u).ledger = o₁.ledger.use (o.urb u).dev (-1) := by
        rw [ledger_decDevUse, hconst]
        obtain hl | ⟨-, hl⟩ := hnone <;> rw [hl] <;> rfl
      refine hnone.imp (fun hl => ⟨rfl, ?_⟩) (fun hl => .inl ⟨rfl, hl.1, ?_⟩)
      · rw [hdec, hl, Ledger.use_use, Int.add_right_neg, Ledger.use_zero]
      · rw [hdec, hl.2]
        have hback := Ledger.use_use { o.ledger with
          fa := Function.update o.ledger.fa (edOf o (o.urb u).dev (o.urb u).pipe) 0 }
            (o.urb u).dev 1 (-1)
        rw [Int.add_right_neg, Ledger.use_zero] at hback
        exact hback
    · cases hr
  obtain ⟨hr, -⟩ | ⟨hr, hsome⟩ := hcases
  · cases hr
  cases hr
  obtain ⟨l, hl, hadded⟩ : ∃ l, o₁.ledger = l.use (o.urb u).dev 1 ∧ o.ledger.Added l (o.urb u).dev
      (edOf o (o.urb u).dev (o.urb u).pipe) (o.urb u).pipe.device dummy := by
    obtain ⟨hnew, hpend, hl⟩ | ⟨hnew, hd, hl⟩ := hsome
    · exact ⟨o.ledger.addEd _ _ _, hl, .inl ⟨hnew, hpend, rfl⟩⟩
    · exact ⟨(o.ledger.initEd _ _ dummy).addEd _ _ _, hl, .inr ⟨hnew, hd, rfl⟩⟩
  refine .inr (.inr ⟨l, hadded, ?_⟩)
  have hlc : l.const = o.ledger.const := by
    obtain ⟨-, -, rfl⟩ | ⟨-, -, rfl⟩ := hadded <;> rfl
  generalize tdSize (o.urb u) = size at hend ho₂ ⊢
  generalize newPriv (edOf o (o.urb u).dev (o.urb u).pipe) size tds = p at ho₂ ⊢
  have hset : o₂.ledger = ((l.use (o.urb u).dev 1).setPriv u (some p.holding)).give size tds := by
    have hiso : (if (o.urb u).pipe.type = .iso then o₁.modUrb u resetPackets else o₁).ledger
        = l.use (o.urb u).dev 1 := by
      split
      · rw [Ohci.ledger_modUrb_same (by intro; rfl) (by intro; rfl), hl]
      · exact hl
    rw [ho₂, ledger_allocTds, Ohci.ledger_modUrb (by intro; rfl), hiso]
    rfl
  obtain ⟨rfl, hany, rfl⟩ | ⟨rfl, hall, rfl⟩ := hend
  · refine .inl ⟨rfl, hany, ?_⟩
    rw [ledger_decRm, hset, hconst _ ((congrArg Ledger.const hset).trans hlc)]
    have hcomm : ((l.use (o.urb u).dev 1).setPriv u (some p.holding)).give size tds
        = ((l.setPriv u (some p.holding)).give size tds).use (o.urb u).dev 1 := rfl
    rw [hcomm, Ledger.use_rmPriv, Ledger.use_use, Int.add_right_neg, Ledger.use_zero]
  · exact .inr ⟨rfl, hall, hset⟩

/-- The ED that `sohci_submit_urb` queues behind is linked. -/
theorem ledger_submitLink {o₁ o₂ : Ohci} {e : EdPtr} (h : o₁.ledger = o.ledger)
    (h₂ : (o₁.ed e).state = .edOper ∧
      o₂ = o₁.modUrb u (fun r => { r with status := .einprogress, actualLength := 0 }) ∨
      (o₁.ed e).state ≠ .edOper ∧
        epLink fuel (o₁.modUrb u (fun r => { r with status := .einprogress, actualLength := 0 }))
          e = some o₂) :
    o₂.ledger = o.ledger.setState e .edOper := by
  have hstat :
      (o₁.modUrb u (fun r => { r with status := .einprogress, actualLength := 0 })).ledger
      = o.ledger := (Ohci.ledger_modUrb_same (by intro; rfl) (by intro; rfl)).trans h
  obtain ⟨hoper, rfl⟩ | ⟨-, h₂⟩ := h₂
  · have hst : o.ledger.state e = .edOper :=
      (congrFun (congrArg Ledger.state h.symm) e).trans hoper
    rw [hstat, Ledger.setState, ← hst, Function.update_eq_self]
  · rw [ledger_epLink h₂, hstat]

/-- **The second phase of `sohci_submit_urb`.** -/
theorem ledger_submitSecond {buf setup : ℕ} (h : submitSecond fuel o u buf setup = some (o', b)) :
    ∃ p, (o.urb u).hcpriv = some p ∧
      (b = false ∧ o'.ledger = (o.ledger.rmPriv u).use (o.urb u).dev (-1) ∨
        b = true ∧ (o.ed p.ed).state ≠ .edNew ∧ (o.ed p.ed).state.del = false ∧
          Ledger.Swaps u (o.ledger.setState p.ed .edOper) o'.ledger) := by
  obtain ⟨p, hp, ⟨rfl, -, rfl⟩ | ⟨hnew, hdel, n, o₁, ho₁, hend⟩⟩ := submitSecond_outcome h
  · exact ⟨p, hp, .inl ⟨rfl, ledger_rmDec⟩⟩
  refine ⟨p, hp, ?_⟩
  have hprep : o₁.ledger = o.ledger := by
    rw [ho₁, ledger_prepareUrbOnSubmit]
    exact Ohci.ledger_modUrb_same (by intro; rfl) (by intro; rfl)
  obtain ⟨rfl, -, rfl⟩ | ⟨rfl, -, h₁⟩ := hend
  · refine .inl ⟨rfl, ?_⟩
    rw [ledger_decRm, hprep, dev_of_const (congrArg Ledger.const hprep)]
  refine .inr ⟨rfl, hnew, hdel, ?_⟩
  obtain ⟨o₂, h₂, hsub⟩ := submitLink_steps h₁
  rw [← ledger_submitLink hprep h₂, ← Ohci.ledger_modUrb_same (o := o₂) (u := u)
    (f := fun r => { r with status := .einprogress }) (by intro; rfl) (by intro; rfl)]
  exact ledger_tdSubmitUrb hsub

end Functions

/-! ## The private parts of the others -/

section Others

variable {l l' : Ledger} {o o' : Ohci} {u z : UrbPtr} {b : Bool} {fuel : ℕ} (hz : z ≠ u)

include hz

@[simp] theorem Ledger.setPriv_priv_of_ne (h : Option Holding) :
    (l.setPriv u h).priv z = l.priv z :=
  Function.update_of_ne hz _ _

@[simp] theorem Ledger.rmPriv_priv_of_ne : (l.rmPriv u).priv z = l.priv z := by
  rw [Ledger.rmPriv_priv, Function.update_of_ne hz]

theorem Ledger.Swaps.priv_of_ne (hs : Ledger.Swaps u l l') : l'.priv z = l.priv z := by
  induction hs with
  | refl l => rfl
  | swap _ _ _ ih => exact ih.trans (Function.update_of_ne hz _ _)

omit hz in
theorem Ledger.Added.priv {d : DevPtr} {e : EdPtr} {fa : ℕ} {dummy : TdPtr}
    (h : l.Added l' d e fa dummy) : l'.priv = l.priv := by
  obtain ⟨-, -, rfl⟩ | ⟨-, -, rfl⟩ := h <;> rfl

theorem submitFirst_priv_of_ne (dummy : TdPtr) (tds : ℕ → TdPtr) :
    (submitFirst o u dummy tds).1.ledger.priv z = o.ledger.priv z := by
  obtain ⟨-, h, -⟩ | ⟨-, -, ⟨-, -, h⟩ | ⟨-, h⟩ | ⟨-, -, h⟩ | ⟨l, hadd, ⟨-, -, h⟩ | ⟨-, -, h⟩⟩⟩ :=
    ledger_submitFirst (Prod.eta (submitFirst o u dummy tds)).symm
  · rw [h]
  · rw [h, Ledger.use_priv]
  · rw [h]
  · rw [h]
  · rw [h, Ledger.rmPriv_priv_of_ne hz, ← hadd.priv]
    exact Ledger.setPriv_priv_of_ne hz _
  · rw [h, ← hadd.priv]
    exact Ledger.setPriv_priv_of_ne hz _

theorem submitSecond_priv_of_ne {buf setup : ℕ}
    (h : submitSecond fuel o u buf setup = some (o', b)) :
    o'.ledger.priv z = o.ledger.priv z := by
  obtain ⟨p, -, ⟨-, h⟩ | ⟨-, -, -, h⟩⟩ := ledger_submitSecond h
  · rw [h, Ledger.use_priv, Ledger.rmPriv_priv_of_ne hz]
  · rw [h.priv_of_ne hz, Ledger.setState_priv]

theorem unlinkUrb_priv_of_ne : (unlinkUrb o u).1.ledger.priv z = o.ledger.priv z := by
  obtain ⟨-, h, -⟩ | ⟨-, p, -, ⟨-, -, h⟩ | ⟨-, -, h⟩⟩ :=
    ledger_unlinkUrb (Prod.eta (unlinkUrb o u)).symm
  · rw [h]
  · rw [h, Ledger.setState_priv, Ledger.setPriv_priv_of_ne hz]
  · rw [h, Ledger.use_priv, Ledger.rmPriv_priv_of_ne hz]

end Others
