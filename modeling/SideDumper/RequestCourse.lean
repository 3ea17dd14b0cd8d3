import SideDumper.LedgerEntries

/-!
# How far a request has come

What the outside sees of a submission are the calls that have been made for it since
`sohci_submit_urb` has taken a use of the device: `td_submit_urb`, the completion
callback and `usb_dec_dev_use`. `Calls` counts them. With the mark on the private
part and `urb->status` they make up the `Course` of a URB, and of each function of the
driver it is said here what it does to the courses.
-/

/-- **What has been called for a URB** since the last `usb_inc_dev_use`. -/
structure Calls where
  /-- `td_submit_urb`: the request has been accepted. -/
  accepted : Bool
  /-- How often `urb->complete` has been called. -/
  completed : ℕ
  /-- How often `usb_dec_dev_use` has been called. -/
  givenBack : ℕ
deriving DecidableEq

/-- One more call. -/
def Calls.note (u : UrbPtr) (ev : Event) (c : Calls) : Calls :=
  match ev with
  | .incDevUse v => if v = u then ⟨false, 0, 0⟩ else c
  | .submitTds v => if v = u then { c with accepted := true } else c
  | .complete v _ _ => if v = u then { c with completed := c.completed + 1 } else c
  | .decDevUse v => if v = u then { c with givenBack := c.givenBack + 1 } else c
  | .returnUrb .. | .wakeUp => c

/-- What has been called for a URB. -/
def Ohci.calls (o : Ohci) (u : UrbPtr) : Calls := o.trace.foldr (Calls.note u) ⟨false, 0, 0⟩

/-- **How far a URB has come.** -/
structure Course where
  /-- Whether its private part is marked `URB_DEL`. -/
  priv : Option Bool
  status : Status
  calls : Calls

/-- How far a URB has come. -/
def Ohci.course (o : Ohci) (u : UrbPtr) : Course :=
  ⟨(o.urb u).hcpriv.map UrbPriv.urbDel, (o.urb u).status, o.calls u⟩

namespace Course

variable (c : Course)

/-- `sohci_submit_urb` begins. -/
def start : Course := { c with calls := ⟨false, 0, 0⟩ }

/-- The TDs are queued. -/
def accept : Course := { c with calls := { c.calls with accepted := true } }

/-- The completion callback. -/
def complete : Course := { c with calls := { c.calls with completed := c.calls.completed + 1 } }

/-- `usb_dec_dev_use`. -/
def giveBack : Course := { c with calls := { c.calls with givenBack := c.calls.givenBack + 1 } }

/-- The private part goes. -/
def drop : Course := { c with priv := none }

end Course

/-! ## Writes and calls -/

section Writes

variable {o o' : Ohci} {u : UrbPtr}

/-- What is neither a URB nor the trace does not count. -/
theorem course_congr (hurb : o'.urb = o.urb) (htrace : o'.trace = o.trace) :
    o'.course = o.course := by
  funext z
  simp only [Ohci.course, Ohci.calls, hurb, htrace]

theorem course_of_queues (hq : o'.queues = o.queues) : o'.course = o.course :=
  course_congr (congrArg Queues.urb hq) (congrArg Queues.trace hq)

/-- A write to a URB. -/
theorem course_modUrb (f : Urb → Urb) : (o.modUrb u f).course = Function.update o.course u
    ⟨(f (o.urb u)).hcpriv.map UrbPriv.urbDel, (f (o.urb u)).status, o.calls u⟩ := by
  funext z
  rw [Function.update_apply]
  unfold Ohci.course
  rw [Ohci.modUrb_urb]
  split
  · subst z
    rfl
  · rfl

/-- A write to a URB that leaves the mark and the status. -/
theorem course_modUrb_same {f : Urb → Urb}
    (hp : ∀ r, (f r).hcpriv.map UrbPriv.urbDel = r.hcpriv.map UrbPriv.urbDel)
    (hs : ∀ r, (f r).status = r.status) : (o.modUrb u f).course = o.course := by
  rw [course_modUrb, hp, hs]
  exact Function.update_eq_self u o.course

/-- A write to the status. -/
theorem course_modUrb_status {f : Urb → Urb} {st : Status} (hp : ∀ r, (f r).hcpriv = r.hcpriv)
    (hs : ∀ r, (f r).status = st) :
    (o.modUrb u f).course = Function.update o.course u { o.course u with status := st } := by
  rw [course_modUrb, hp, hs]
  rfl

/-- A write to a private part that leaves the mark. -/
theorem course_modPriv_same {f : UrbPriv → UrbPriv} (hf : ∀ p, (f p).urbDel = p.urbDel) :
    (o.modPriv u f).course = o.course := by
  refine course_modUrb_same (fun r => ?_) (fun _ => rfl)
  dsimp only
  rw [Option.map_map]
  congr 1
  funext p
  exact hf p

/-- A call that is about one URB. -/
theorem course_log {ev : Event} {c : Course} (hself : (o.calls u).note u ev = c.calls)
    (hother : ∀ z c, z ≠ u → Calls.note z ev c = c) (hp : c.priv = (o.course u).priv)
    (hs : c.status = (o.course u).status) : (o.log ev).course = Function.update o.course u c := by
  funext z
  rw [Function.update_apply]
  split
  · subst z
    cases c
    cases hp
    cases hs
    exact congrArg _ hself
  · rename_i hz
    exact congrArg _ (hother z (o.calls z) hz)

theorem course_incDevUse :
    (incDevUse o u).course = Function.update o.course u (o.course u).start :=
  course_log (o := o.modDev _ _) (if_pos rfl) (fun _ _ hz => if_neg (Ne.symm hz)) rfl rfl

theorem course_decDevUse :
    (decDevUse o u).course = Function.update o.course u (o.course u).giveBack :=
  course_log (o := o.modDev _ _) (if_pos rfl) (fun _ _ hz => if_neg (Ne.symm hz)) rfl rfl

theorem course_callComplete :
    (callComplete o u).course = Function.update o.course u (o.course u).complete :=
  course_log (if_pos rfl) (fun _ _ hz => if_neg (Ne.symm hz)) rfl rfl

theorem course_submitTds :
    (o.log (.submitTds u)).course = Function.update o.course u (o.course u).accept :=
  course_log (if_pos rfl) (fun _ _ hz => if_neg (Ne.symm hz)) rfl rfl

theorem course_urbRmPriv :
    (urbRmPriv o u).course = Function.update o.course u (o.course u).drop := by
  unfold urbRmPriv
  split
  · rename_i hp
    have hdrop : (o.course u).drop = o.course u := by
      simp only [Ohci.course, Course.drop, hp, Option.map_none]
    rw [hdrop, Function.update_eq_self]
  · rw [course_modUrb]
    rfl

end Writes

/-! ## Functions that do not count -/

section Same

variable {o o' : Ohci} {u : UrbPtr} {e : EdPtr} {t rev : TdPtr} {p : UrbPriv} {cc fuel : ℕ}

theorem course_prepareUrbOnSubmit {buf setup : ℕ} :
    (prepareUrbOnSubmit o u buf setup).1.course = o.course := by
  have hcopy : ∀ (o₁ : Ohci) (dst n : ℕ) (src : ℕ → UInt8), (copyIn o₁ dst src n).course
      = o₁.course :=
    fun _ _ _ _ => rfl
  have hbuf : ∀ (src : ℕ → UInt8) (n : ℕ), (if n ≠ 0 then
      copyIn (o.modPriv u (fun p => { p with transferBuffer := buf })) buf src n else o).course
        = o.course := by
    intro src n
    split
    · rw [hcopy]
      exact course_modPriv_same fun _ => rfl
    · rfl
  unfold prepareUrbOnSubmit
  dsimp only
  split
  · rfl
  split
  · exact hbuf _ _
  split
  · exact hbuf _ _
  · rw [hcopy, course_modPriv_same (by intro; rfl)]
    exact hbuf _ _

/-- One statement of `td_fill`. -/
theorem course_exec (st : FillStmt) (f : Fill) : (st.exec f o).2.course = o.course := by
  cases st
  case newTd => exact course_modPriv_same fun _ => rfl
  case cbp =>
    simp only [FillStmt.exec]
    split <;> rfl
  all_goals rfl

theorem course_execAll {ss : List FillStmt} {f : Fill} :
    (execAll ss f o).2.course = o.course := by
  induction ss generalizing f o with
  | nil => rfl
  | cons st ss ih =>
    rw [execAll, List.foldl_cons]
    exact ih.trans (course_exec st f)

theorem course_tdFill {c : TdCall} {i : ℕ} (h : tdFill o u c i = some o') :
    o'.course = o.course := by
  obtain ⟨p, -, h⟩ := Option.bind_eq_some_iff.mp h
  split at h
  · cases h
    rfl
  · cases h
    exact course_execAll

theorem course_tdFills {cs : List TdCall} {i : ℕ} (h : tdFills u cs i o = some o') :
    o'.course = o.course := by
  induction cs generalizing o i with
  | nil =>
    cases h
    rfl
  | cons c cs ih =>
    obtain ⟨o₁, h₁, h⟩ := Option.bind_eq_some_iff.mp h
    exact (ih h).trans (course_tdFill h₁)

theorem course_dlTransferLength (h : dlTransferLength o t = some o') : o'.course = o.course := by
  unfold dlTransferLength at h
  dsimp only at h
  split at h
  · cases h
    refine course_modUrb_same (fun r => ?_) (fun r => ?_) <;>
      · unfold countIso
        dsimp only
        split <;> rfl
  · obtain ⟨p, -, h⟩ := Option.bind_eq_some_iff.mp h
    cases h
    refine course_modUrb_same (fun r => ?_) (fun r => ?_) <;>
      · unfold countGeneral
        split <;> rfl

theorem course_reverseTd : (reverseTd o t rev).course = o.course := by
  have hskip : (skipRest o t).course = o.course := by
    unfold skipRest
    dsimp only
    split
    · rfl
    · split
      · exact course_modPriv_same (o := o.modEd _ _) fun _ => rfl
      · rfl
  unfold reverseTd
  dsimp only
  split
  · exact hskip
  · rfl

theorem course_haltOnStall : (haltOnStall o u cc).course = o.course := by
  unfold haltOnStall
  dsimp only
  split <;> rfl

theorem course_countTd : (countTd o u).course = o.course := course_modPriv_same fun _ => rfl

theorem course_setTdLink {l : TdLink} {v : TdPtr} : (o.setTdLink l v).course = o.course := by
  cases l <;> rfl

theorem course_prepareUrbOnReturn : (prepareUrbOnReturn o u p).course = o.course := by
  unfold prepareUrbOnReturn
  dsimp only
  split
  · exact course_modUrb_same (fun _ => rfl) (fun _ => rfl)
  · rfl

theorem course_doneEd (h : doneEd fuel o e = some o') : o'.course = o.course := by
  unfold doneEd at h
  split at h
  · exact course_of_queues (queues_epUnlink h)
  · cases h
    rfl

theorem course_delEnd {frame : Bool} : (delEnd o frame).course = o.course := by
  unfold delEnd
  dsimp only
  split <;> rfl

theorem course_delEdEnd {tail : TdPtr} {fa : ℕ} : (delEdEnd o e tail fa).course = o.course := by
  unfold delEdEnd
  split
  · dsimp only
    split <;> rfl
  · rfl

theorem course_epRmEd : (epRmEd o e).course = o.course := by
  refine course_congr epRmEd_urb ?_
  unfold epRmEd
  split
  · rfl
  · dsimp only
    split <;> rfl

theorem course_epAddEd (d : DevPtr) (pipe : Pipe) (interval load : ℕ) (dummy : TdPtr) :
    (epAddEd o d pipe interval load dummy).2.course = o.course := by
  unfold epAddEd
  dsimp only
  split
  · rfl
  split
  · split <;> rfl
  · rfl

end Same

/-! ## Functions that do -/

section Counted

variable {o o' : Ohci} {u : UrbPtr} {e : EdPtr} {t : TdPtr} {tdP tdP' : TdLink} {p : UrbPriv}
    {b : Bool} {fuel : ℕ}

theorem course_tdSubmitUrb (h : tdSubmitUrb o u = some o') :
    o'.course = Function.update o.course u (o.course u).accept := by
  obtain ⟨p, -, h⟩ := Option.bind_eq_some_iff.mp h
  have hstart : (submitStart o u).course = o.course := by
    unfold submitStart
    exact course_modPriv_same (o := o.modDev _ _) fun _ => rfl
  rw [course_tdFills h, course_submitTds, hstart]

/-- **The first phase of `sohci_submit_urb`** begins a new course, or does nothing. -/
theorem course_submitFirst {dummy : TdPtr} {tds : ℕ → TdPtr}
    (h : submitFirst o u dummy tds = (o', b)) :
    ∃ c, o'.course = Function.update o.course u c ∧
      (b = false ∧ c = o.course u ∨ (o.urb u).hcpriv = none ∧ c.calls.accepted = false ∧
        c.calls.completed = 0 ∧
        (b = false ∧ c.priv = none ∨ b = true ∧ c.priv = some false ∧
          c.calls.givenBack = 0)) := by
  obtain ⟨rfl, rfl, -⟩ | ⟨-, hnone, ⟨rfl, -, rfl⟩ | ⟨-, r, o₁, hadd, hend⟩⟩ :=
    submitFirst_outcome h
  · exact ⟨_, (Function.update_eq_self u _).symm, .inl ⟨rfl, rfl⟩⟩
  · refine ⟨_, course_incDevUse, .inr ⟨hnone, rfl, rfl, .inl ⟨rfl, ?_⟩⟩⟩
    simp only [Course.start, Ohci.course, hnone, Option.map_none]
  have hadded : o₁.course = Function.update o.course u (o.course u).start := by
    have hcourse :=
      course_epAddEd (o := incDevUse o u) (o.urb u).dev (o.urb u).pipe (o.urb u).interval 1 dummy
    rw [hadd] at hcourse
    exact hcourse.trans course_incDevUse
  obtain ⟨rfl, rfl, rfl⟩ | ⟨e, o₂, rfl, ho₂, hend⟩ := hend
  · refine ⟨_, by rw [course_decDevUse, hadded, Function.update_idem],
      .inr ⟨hnone, ?_, ?_, .inl ⟨rfl, ?_⟩⟩⟩
    all_goals rw [Function.update_self]
    · rfl
    · rfl
    · simp only [Course.giveBack, Course.start, Ohci.course, hnone, Option.map_none]
  have hpriv : o₂.course
      = Function.update o.course u { (o.course u).start with priv := some false } := by
    have hiso : (if (o.urb u).pipe.type = .iso then o₁.modUrb u resetPackets else o₁).course
        = o₁.course := by
      split
      · exact course_modUrb_same (fun _ => rfl) (fun _ => rfl)
      · rfl
    have hself := congrFun (hiso.trans hadded) u
    have halloc : ∀ (o₃ : Ohci) (n : ℕ), (allocTds o₃ n tds).course = o₃.course := fun _ _ => rfl
    rw [Function.update_self] at hself
    rw [ho₂, halloc, course_modUrb, hiso, hadded, Function.update_idem]
    congr 1
    rw [← hself]
    rfl
  obtain ⟨rfl, -, rfl⟩ | ⟨rfl, -, rfl⟩ := hend
  · refine ⟨_, by
        rw [course_urbRmPriv, course_decDevUse, hpriv, Function.update_idem,
          Function.update_idem],
      .inr ⟨hnone, ?_, ?_, .inl ⟨rfl, ?_⟩⟩⟩
    all_goals rw [Function.update_self, Function.update_self]
    all_goals rfl
  · exact ⟨_, hpriv, .inr ⟨hnone, rfl, rfl, .inr ⟨rfl, rfl, rfl⟩⟩⟩

/-- **The second phase of `sohci_submit_urb`** gives up, or queues the TDs. -/
theorem course_submitSecond {buf setup : ℕ} (h : submitSecond fuel o u buf setup = some (o', b)) :
    ∃ c, o'.course = Function.update o.course u c ∧
      (c = (o.course u).drop.giveBack ∨
        c = { (o.course u).accept with status := .einprogress }) := by
  obtain ⟨p, -, ⟨-, -, rfl⟩ | ⟨-, -, n, o₁, ho₁, hend⟩⟩ := submitSecond_outcome h
  · refine ⟨_, by rw [course_decDevUse, course_urbRmPriv, Function.update_idem], .inl ?_⟩
    rw [Function.update_self]
  have hprep : o₁.course = o.course := by
    rw [ho₁, course_prepareUrbOnSubmit]
    exact course_modUrb_same (fun _ => rfl) (fun _ => rfl)
  obtain ⟨-, -, rfl⟩ | ⟨-, -, h₁⟩ := hend
  · refine ⟨_, by rw [course_urbRmPriv, course_decDevUse, hprep, Function.update_idem], .inl ?_⟩
    rw [Function.update_self]
    rfl
  obtain ⟨o₂, h₂, hsub⟩ := submitLink_steps h₁
  have hstatus : o₂.course
      = Function.update o.course u { o.course u with status := .einprogress } := by
    rw [← hprep]
    have hset :
        (o₁.modUrb u (fun r => { r with status := .einprogress, actualLength := 0 })).course
        = Function.update o₁.course u { o₁.course u with status := .einprogress } :=
      course_modUrb_status (fun _ => rfl) (fun _ => rfl)
    obtain ⟨-, rfl⟩ | ⟨-, h₂⟩ := h₂
    · exact hset
    · exact (course_of_queues (queues_epLink h₂)).trans hset
  refine ⟨_, ?_, .inr rfl⟩
  rw [course_tdSubmitUrb hsub, course_modUrb_status (by intro; rfl) (by intro; rfl), hstatus,
    Function.update_idem, Function.update_idem]
  simp only [Function.update_self]
  rfl

/-- The branch of `sohci_unlink_urb` for a pending request marks it. -/
theorem course_unlinkPending (hp : (o.urb u).hcpriv = some p)
    (hstatus : (o.urb u).status = .einprogress) :
    (unlinkPending o u p).course
      = Function.update o.course u { o.course u with priv := some true } := by
  have hmark : ((epRmEd (o.modPriv u (fun p => { p with urbDel := true })) p.ed).modEd p.ed
      (fun r => { r with state := { r.state with urbDel := true } })).course
      = Function.update o.course u { o.course u with priv := some true } := by
    have hed : ∀ (o₁ : Ohci) (f : Ed → Ed), (o₁.modEd p.ed f).course = o₁.course := fun _ _ => rfl
    rw [hed, course_epRmEd, Ohci.modPriv, course_modUrb, hp]
    rfl
  unfold unlinkPending
  dsimp only
  split
  · rw [course_modUrb_status (by intro; rfl) (by intro; rfl), hmark, Function.update_idem,
      Function.update_self]
    congr 1
    rw [← show (o.course u).status = .einprogress from hstatus]
  · exact hmark

/-- The other branch drops it, and calls the callback with `USB_ASYNC_UNLINK` alone. -/
theorem course_unlinkNow :
    ∃ c, (unlinkNow o u).course = Function.update o.course u c ∧ c.priv = none ∧
    ((o.urb u).asyncUnlink = false → c.calls.completed = (o.calls u).completed) := by
  have hdrop : (urbRmPriv (decDevUse o u) u).course
      = Function.update o.course u (o.course u).giveBack.drop := by
    rw [course_urbRmPriv, course_decDevUse, Function.update_idem, Function.update_self]
  unfold unlinkNow
  dsimp only
  split
  · rename_i hasync
    refine ⟨{ (o.course u).giveBack.drop.complete with status := .ok }, ?_, rfl, fun hno => ?_⟩
    · rw [course_modUrb_status (by intro; rfl) (by intro; rfl), course_callComplete, hdrop,
        Function.update_idem, Function.update_idem]
      simp only [Function.update_self]
    · rw [urbRmPriv_urb_self] at hasync
      cases hno.symm.trans hasync.2
  · refine ⟨{ (o.course u).giveBack.drop with status := .enoent }, ?_, rfl, fun _ => rfl⟩
    rw [course_modUrb_status (by intro; rfl) (by intro; rfl), hdrop, Function.update_idem,
      Function.update_self]

/-- **`sohci_unlink_urb`** leaves the URB, marks it or drops it. -/
theorem course_unlinkUrb : ∃ c, (unlinkUrb o u).1.course = Function.update o.course u c ∧
    (c = o.course u ∨ unlinksEd o u ≠ none ∧ (o.urb u).status = .einprogress ∧
      c = { o.course u with priv := some true } ∨
      unlinksEd o u = none ∧ (o.urb u).hcpriv ≠ none ∧ c.priv = none ∧
        ((o.urb u).asyncUnlink = false → c.calls.completed = (o.calls u).completed)) := by
  unfold unlinkUrb
  split
  · exact ⟨_, (Function.update_eq_self u _).symm, .inl rfl⟩
  rename_i hdev
  split
  · exact ⟨_, (Function.update_eq_self u _).symm, .inl rfl⟩
  rename_i p hp
  split
  · rename_i hstatus
    refine ⟨_, course_unlinkPending hp hstatus.1, .inr (.inl ⟨?_, hstatus.1, rfl⟩)⟩
    rw [unlinksEd, if_pos ⟨hdev, hstatus⟩, Ohci.privEd, hp]
    exact Option.some_ne_none _
  · rename_i hstatus
    obtain ⟨c, hc, hnone, hcomp⟩ := course_unlinkNow (o := o) (u := u)
    exact ⟨c, hc, .inr (.inr ⟨if_neg fun h => hstatus h.2, by simp [hp], hnone, hcomp⟩)⟩

/-- **The end of a synchronous `sohci_unlink_urb`.** -/
theorem course_unlinkFinish : (unlinkFinish o u).course
    = Function.update o.course u { (o.course u).giveBack with status := .enoent } := by
  rw [unlinkFinish, course_decDevUse, course_modUrb_status (by intro; rfl) (by intro; rfl),
    Function.update_idem, Function.update_self]
  rfl

/-- **`sohci_return_urb`, up to and including the callback**: the request is over, or is to be
queued again. -/
theorem course_returnUrb (hp : (o.urb u).hcpriv = some p) (h : returnUrb o u = (o', b)) :
    ∃ c, o'.course = Function.update o.course u c ∧
      (b = true ∧ ((o.urb u).pipe.type = .int ∨ (o.urb u).pipe.type = .iso) ∨
        b = false ∧ (c = (o.course u).drop.giveBack ∨
          c = (o.course u).drop.giveBack.complete)) := by
  unfold returnUrb at h
  split at h
  · cases h
    refine ⟨_, by rw [course_decDevUse, course_urbRmPriv, Function.update_idem],
      .inr ⟨rfl, .inl ?_⟩⟩
    rw [Function.update_self]
  rw [hp] at h
  dsimp only at h
  have hret : ∀ (o₁ : Ohci) (st : Status) (len : ℤ), (o₁.log (.returnUrb u st len)).course
      = o₁.course :=
    fun _ _ _ => rfl
  have hpipe : ((prepareUrbOnReturn o u p).urb u).pipe = (o.urb u).pipe := by
    unfold prepareUrbOnReturn
    dsimp only
    split
    · rw [Ohci.modUrb_urb_self]
    · rfl
  split at h
  · rename_i hagain
    cases h
    rw [Ohci.log_urb, hpipe] at hagain
    refine ⟨_, by rw [course_callComplete, hret, course_prepareUrbOnReturn], .inl ⟨rfl, ?_⟩⟩
    exact hagain.imp id And.left
  · cases h
    refine ⟨_, by
        rw [course_callComplete, course_decDevUse, course_urbRmPriv, hret,
          course_prepareUrbOnReturn, Function.update_idem, Function.update_idem],
      .inr ⟨rfl, .inr ?_⟩⟩
    simp only [Function.update_self]

/-- **Queueing a request again** concerns no other. -/
theorem course_requeueUrb (h : requeueUrb o u = some o') :
    ∃ c, o'.course = Function.update o.course u c := by
  obtain ⟨p, -, h⟩ := Option.bind_eq_some_iff.mp h
  have hsub : ∀ o₁ : Ohci, (∃ c, o₁.course = Function.update o.course u c) →
      tdSubmitUrb o₁ u = some o' →
      ∃ c, o'.course = Function.update o.course u c := by
    rintro o₁ ⟨c, h₁⟩ h'
    exact ⟨_, by rw [course_tdSubmitUrb h', h₁, Function.update_idem]⟩
  have hset : ∃ c,
      (o.modUrb u (fun r => { r with actualLength := 0, status := .einprogress })).course
      = Function.update o.course u c := ⟨_, course_modUrb _⟩
  dsimp only at h
  generalize o.modUrb u (fun r => { r with actualLength := 0, status := .einprogress })
    = o₁ at h hset
  obtain ⟨c, hset⟩ := hset
  split at h
  · have hframe : ∀ f : Urb → Urb, ∃ c, (o₁.modUrb u f).course = Function.update o.course u c :=
      fun f =>
      ⟨_, by rw [course_modUrb, hset, Function.update_idem]⟩
    split at h
    · cases h
      exact hframe _
    · refine hsub _ ?_ h
      obtain ⟨c', h'⟩ := hframe (fun r => { r with startFrame := (o₁.ed p.ed).lastIso + 1 })
      exact ⟨_, by rw [course_modUrb, h', Function.update_idem]⟩
  · split at h
    · cases h
      exact ⟨c, hset⟩
    · exact hsub _ ⟨c, hset⟩ h

/-- **A request all of whose TDs are settled** is returned or dropped. -/
theorem course_finishUrb {s : EdState} {cc : ℕ} (hp : (o.urb u).hcpriv = some p)
    (h : finishUrb o u p s cc = (o', b)) : ∃ c, o'.course = Function.update o.course u c ∧
      (p.urbDel = false ∧ (b = true ∧ ((o.urb u).pipe.type = .int ∨ (o.urb u).pipe.type = .iso) ∨
          b = false ∧ ∃ st, c = { (o.course u).drop.giveBack with status := st } ∨
            c = { (o.course u).drop.giveBack.complete with status := st }) ∨
        b = false ∧ c = (o.course u).drop ∧ (p.urbDel = true ∨ s.del = true ∨ s = .edNew)) := by
  unfold finishUrb at h
  split at h
  · rename_i hlive
    have hstatus : (o.modUrb u (fun r => { r with status := ccToError cc })).course
        = Function.update o.course u { o.course u with status := ccToError cc } :=
      course_modUrb_status (fun _ => rfl) (fun _ => rfl)
    have hself : (o.modUrb u (fun r => { r with status := ccToError cc })).course u
        = { o.course u with status := ccToError cc } := by
      rw [hstatus, Function.update_self]
    obtain ⟨c, hc, hcases⟩ :=
      course_returnUrb (o := o.modUrb u _) (p := p) (by rw [Ohci.modUrb_urb_self]; exact hp) h
    refine ⟨c, by rw [hc, hstatus, Function.update_idem], .inl ⟨by simpa using hlive.1, ?_⟩⟩
    rw [Ohci.modUrb_urb_self, hself] at hcases
    exact hcases.imp id fun hover => ⟨hover.1, _, hover.2⟩
  · rename_i hlive
    cases h
    refine ⟨_, course_urbRmPriv, .inr ⟨rfl, rfl, ?_⟩⟩
    by_contra hnot
    push Not at hnot
    simp_all

/-- **A TD that `dl_done_list` settles.** -/
theorem course_doneTd (h : doneTd o t = some (o', b)) :
    ∃ p c, (o.urb (o.td t).urb).hcpriv = some p ∧
      o'.course = Function.update o.course (o.td t).urb c ∧
      (b = false ∧ c = o.course (o.td t).urb ∨ (p.tdCnt + 1) % 65536 = p.length ∧
        (p.urbDel = false ∧ (b = true ∧ ((o.urb (o.td t).urb).pipe.type = .int ∨
          (o.urb (o.td t).urb).pipe.type = .iso) ∨
            b = false ∧ ∃ st, c = { (o.course (o.td t).urb).drop.giveBack with status := st } ∨
              c = { (o.course (o.td t).urb).drop.giveBack.complete with status := st }) ∨
          b = false ∧ c = (o.course (o.td t).urb).drop ∧
            (p.urbDel = true ∨ (o.ed (o.td t).ed).state.del = true ∨
            (o.ed (o.td t).ed).state = .edNew))) := by
  obtain ⟨p, o₁, o₂, hp, h₁, -, ho₂, hp₂, hend⟩ := doneTd_outcome h
  have hcourse : o₂.course = o.course := by
    rw [ho₂]
    exact course_countTd.trans (course_haltOnStall.trans (course_dlTransferLength h₁))
  obtain ⟨-, rfl, rfl⟩ | ⟨hlast, cc, h⟩ := hend
  · exact ⟨p, _, hp, by rw [hcourse, Function.update_eq_self], .inl ⟨rfl, rfl⟩⟩
  have hl : o₂.ledger = o.ledger := by
    rw [ho₂]
    exact ledger_countTd.trans (ledger_haltOnStall.trans (ledger_dlTransferLength h₁))
  have hpipe : (o₂.urb (o.td t).urb).pipe = (o.urb (o.td t).urb).pipe :=
    congrArg UrbConst.pipe (congrFun (congrArg Ledger.const hl) _)
  have hstate : (o₂.ed (o.td t).ed).state = (o.ed (o.td t).ed).state :=
    congrFun (congrArg Ledger.state hl) _
  obtain ⟨c, hc, hcases⟩ := course_finishUrb hp₂ h
  rw [hpipe, hcourse, hstate] at hcases
  exact ⟨p, c, hp, by rw [hc, hcourse], .inr ⟨hlast, hcases⟩⟩

/-- **The report `dl_del_list` makes.** -/
theorem course_reportDel : (o.urb u).asyncUnlink = false ∧ (reportDel o u).course = o.course ∨
    (o.urb u).asyncUnlink = true ∧ (reportDel o u).course
      = Function.update o.course u
        { (o.course u).giveBack.complete with status := .econnreset } := by
  unfold reportDel
  split
  · rename_i hasync
    refine .inr ⟨hasync, ?_⟩
    rw [course_callComplete, course_modUrb_status (by intro; rfl) (by intro; rfl),
      course_decDevUse, Function.update_idem, Function.update_idem]
    simp only [Function.update_self]
    rfl
  · rename_i hasync
    exact .inl ⟨Bool.eq_false_iff.mpr hasync, rfl⟩

/-- **A TD that `dl_del_list` comes to** is passed over, or taken off and reported. -/
theorem course_delTd (h : delTd o e t tdP = some (o', tdP')) :
    ∃ p, (o.urb (o.td t).urb).hcpriv = some p ∧
      (o' = o ∨ (p.urbDel = true ∨ (o.ed e).state.del = true) ∧ ∃ c, (c = o.course (o.td t).urb ∨
          c = (o.course (o.td t).urb).drop) ∧
        ((o.urb (o.td t).urb).asyncUnlink = false ∧
          o'.course = Function.update o.course (o.td t).urb c ∨
          (o.urb (o.td t).urb).asyncUnlink = true ∧
            o'.course = Function.update o.course (o.td t).urb
            { c.giveBack.complete with status := .econnreset })) := by
  obtain ⟨p, hp, ⟨-, rfl, -⟩ | ⟨hdel, -, o₁, o₂, ho₁, -, ho₂, rfl⟩⟩ := delTd_outcome h
  · exact ⟨p, hp, .inl rfl⟩
  refine ⟨p, hp, .inr ⟨hdel, ?_⟩⟩
  have hlen : o₁.course = o.course ∧ o₁.ledger = o.ledger := by
    obtain rfl | h₁ := ho₁
    · exact ⟨rfl, rfl⟩
    · exact ⟨course_dlTransferLength h₁, ledger_dlTransferLength h₁⟩
  have hcount : o₂.course = o.course ∧ o₂.ledger = o.ledger := by
    rw [ho₂]
    exact ⟨course_countTd.trans (course_setTdLink.trans hlen.1),
      ledger_countTd.trans (ledger_setTdLink.trans hlen.2)⟩
  have hdrop : ∃ c, (c = o.course (o.td t).urb ∨ c = (o.course (o.td t).urb).drop) ∧
      (if (p.tdCnt + 1) % 65536 = p.length then urbRmPriv o₂ (o.td t).urb else o₂).course
        = Function.update o.course (o.td t).urb c := by
    split
    · exact ⟨_, .inr rfl, by rw [course_urbRmPriv, hcount.1]⟩
    · exact ⟨_, .inl rfl, by rw [hcount.1, Function.update_eq_self]⟩
  have hasync : ((if (p.tdCnt + 1) % 65536 = p.length then urbRmPriv o₂ (o.td t).urb else o₂).urb
      (o.td t).urb).asyncUnlink = (o.urb (o.td t).urb).asyncUnlink := by
    have hconst : ((o₂.urb (o.td t).urb)).const = (o.urb (o.td t).urb).const :=
      congrFun (congrArg Ledger.const hcount.2) _
    split
    · rw [urbRmPriv_urb_self]
      exact congrArg UrbConst.asyncUnlink hconst
    · exact congrArg UrbConst.asyncUnlink hconst
  generalize (if (p.tdCnt + 1) % 65536 = p.length then urbRmPriv o₂ (o.td t).urb else o₂)
    = o₃ at hdrop hasync ⊢
  obtain ⟨c, hc, ho₃⟩ := hdrop
  rw [← hasync]
  refine ⟨c, hc, course_reportDel.imp (fun h => ⟨h.1, h.2.trans ho₃⟩) fun h => ⟨h.1, ?_⟩⟩
  rw [h.2, ho₃, Function.update_idem, Function.update_self]

end Counted
