import SideDumper.RequestCourse
import SideDumper.TdRuns

/-!
# Requests complete once

A bulk or control request is returned when its last TD is settled, reported by
`dl_del_list` when it has been unlinked with `USB_ASYNC_UNLINK`, or dropped by
`sohci_unlink_urb`. Each of these calls the completion callback and gives the use of the
device back, and each is guarded differently. `dl_del_list` does so for every TD
it takes off a queue. So a request completes once, and the device is given back once
and not before the last TD has left the queue, as long as a request that is unlinked has one
TD on its queue when `dl_del_list` gets there.
-/

/-- A bulk or control request, which is not queued again. -/
def Urb.OneShot (r : Urb) : Prop := r.pipe.type = .bulk ∨ r.pipe.type = .ctrl

/-- A periodic request is none. -/
theorem Urb.not_oneShot {r : Urb} (h : r.pipe.type = .int ∨ r.pipe.type = .iso) :
    ¬ r.OneShot := by
  rintro (hr | hr) <;> simp [hr] at h

/-- **No TD of a URB is on the queue of an ED.** -/
def Ohci.NoneQueued (o : Ohci) (u : UrbPtr) : Prop :=
  ∀ e ts, Walk (fun t => (o.td t).hwNextTD) (o.ed e).hwTailP (o.ed e).hwHeadP ts →
    ∀ t ∈ ts, (o.td t).urb ≠ u

/-- A TD of a bulk or control request that has been unlinked with
`USB_ASYNC_UNLINK`. -/
def Ohci.UnlinkedTd (o : Ohci) (t : TdPtr) (p : UrbPriv) : Prop :=
  (o.urb (o.td t).urb).OneShot ∧ (o.urb (o.td t).urb).asyncUnlink = true ∧
    (o.urb (o.td t).urb).hcpriv = some p ∧ p.urbDel = true

/-- A TD is the only one of its URB on the queue of an ED. -/
def Ohci.OnlyTd (o : Ohci) (e : EdPtr) (t : TdPtr) : Prop :=
  ∀ ts, Walk (fun t => (o.td t).hwNextTD) (o.ed e).hwTailP (o.ed e).hwHeadP ts →
    ∀ x ∈ ts, (o.td x).urb = (o.td t).urb → x = t

/-- **What a step must not do**: free a device; drop an accepted request with
`USB_ASYNC_UNLINK`; settle the last TD of one that is unlinked and has not been reported; take
a TD of one that is unlinked off a queue that has another one. -/
def CompletionClean (s : Sys) (m : Move) : Prop :=
  MoveClean s m ∧ (∀ e, m ≠ .act (.freeEd e)) ∧
    (∀ u, m = .act (.unlink u) → (s.mem.urb u).OneShot → (s.mem.urb u).asyncUnlink = true →
      (s.mem.urb u).hcpriv ≠ none → unlinksEd s.mem u ≠ none) ∧
    (∀ t ks p, m = .act .resume → s.tasks = .done t :: ks → t ≠ 0 → s.mem.UnlinkedTd t p →
      (p.tdCnt + 1) % 65536 = p.length → (s.mem.urb (s.mem.td t).urb).status ≠ .einprogress) ∧
    ∀ f e tail fa t tdP ks p, m = .act .resume → s.tasks = .delQueue f e tail fa t tdP :: ks →
      t ≠ tail →
      s.mem.UnlinkedTd t p → s.mem.OnlyTd e t

/-- Nothing more is asked of a step that does not unlink, free or go on with an interrupt
routine. -/
theorem CompletionClean.of_domain {s : Sys} {m : Move} (h : MoveDomain s m)
    (hunlink : ∀ u, m ≠ .act (.unlink u))
    (hresume : m ≠ .act .resume) (hfree : ∀ e, m ≠ .act (.freeEd e)) : CompletionClean s m :=
  ⟨⟨h, fun u _ hm => absurd hm (hunlink u), fun u _ hm => absurd hm (hunlink u),
    fun _ _ _ hm => absurd hm hresume⟩,
    hfree, fun u hm => absurd hm (hunlink u), fun _ _ _ hm => absurd hm hresume,
    fun _ _ _ _ _ _ _ _ hm => absurd hm hresume⟩

/-! ## The invariant -/

/-- **The stages of a request**: it is over, it is under way, or `dl_del_list` has reported it and
TDs of it are yet to be settled. -/
inductive Course.Stage (c : Course) (async : Bool) (pend idle : Prop) : Prop
  | ended : c.priv = none → c.calls.completed ≤ 1 →
      (async = true → c.calls.accepted = true → c.calls.givenBack = 1) → Stage c async pend idle
  | running (del : Bool) : c.priv = some del → c.calls.completed = 0 →
      (pend → c.calls.accepted = false) →
      (async = true → c.calls.givenBack = 0 ∧ (del = true → ¬ pend → c.status = .einprogress)) →
      Stage c async pend idle
  | reported : c.priv = some true → async = true → ¬ pend → c.status ≠ .einprogress →
      c.calls.completed = 1 →
      c.calls.givenBack = 1 → idle → Stage c async pend idle

/-- The stage a URB is in. -/
def Sys.Stage (s : Sys) (u : UrbPtr) : Prop :=
  (s.mem.course u).Stage (s.mem.urb u).asyncUnlink (u ∈ s.pend) (s.mem.NoneQueued u)

/-- **The invariant of a run** without `sohci_free_dev`. -/
structure Sys.Courses (s : Sys) : Prop where
  del : ∀ e, (s.mem.ledger.state e).del = false
  good : ∀ u h, s.mem.ledger.priv u = some h → s.mem.ledger.Good h.ed
  /-- Only a synchronous `sohci_unlink_urb` waits. -/
  waiting : ∀ u ∈ s.waiting, (s.mem.urb u).asyncUnlink = false
  /-- Only a periodic request is queued again. -/
  again : ∀ u e next, .requeue u e next ∈ s.tasks → ¬ (s.mem.urb u).OneShot
  stage : ∀ u, (s.mem.urb u).OneShot → s.Stage u

section Stages

variable {c c' : Course} {async : Bool} {pend pend' idle idle' : Prop} {st : Status}

/-- A stage stays when nothing is called and no TD is queued. -/
theorem Course.Stage.keep (h : c.Stage async pend idle) (hpend : pend' ↔ pend)
    (hidle : ¬ pend → idle → idle') : c.Stage async pend' idle' := by
  cases h with
  | ended hp hc hg => exact .ended hp hc hg
  | running del hp hc ha hg =>
    exact .running del hp hc (fun h => ha (hpend.mp h)) (by rw [hpend]; exact hg)
  | reported hp ha hn hs hc hg hi =>
    exact .reported hp ha (fun h => hn (hpend.mp h)) hs hc hg (hidle hn hi)

/-- **`sohci_return_urb`**: a request that has not been unlinked is over. -/
theorem Course.Stage.returned (h : c.Stage async pend idle) (hp : c.priv = some false)
    (hc : c' = { c.drop.giveBack with status := st } ∨
      c' = { c.drop.giveBack.complete with status := st }) :
    c'.Stage async pend' idle' := by
  cases h with
  | ended hpriv =>
    rw [hp] at hpriv
    cases hpriv
  | reported hpriv =>
    rw [hp] at hpriv
    cases hpriv
  | running del _ hcomp _ hback =>
    obtain rfl | rfl := hc
    · exact .ended rfl (hcomp.le.trans (Nat.zero_le 1)) fun ha _ => congrArg (· + 1) (hback ha).1
    · exact .ended rfl (Nat.succ_le_succ hcomp.le) fun ha _ => congrArg (· + 1) (hback ha).1

/-- **`urb_rm_priv` without a report**: nobody waits for one, or it has been made. -/
theorem Course.Stage.dropped (h : c.Stage async pend idle) (hp : c.priv = some true)
    (hreported : async = true → c.status ≠ .einprogress) : c.drop.Stage async pend' idle' := by
  cases h with
  | ended hpriv =>
    rw [hp] at hpriv
    cases hpriv
  | running del hpriv hcomp hacc hback =>
    rw [hp, Option.some.injEq] at hpriv
    refine .ended rfl (hcomp.le.trans (Nat.zero_le 1)) fun ha haccepted => ?_
    have hnot : ¬ pend := fun hin => by cases (hacc hin).symm.trans haccepted
    exact absurd ((hback ha).2 hpriv.symm hnot) (hreported ha)
  | reported _ _ _ _ hcomp hback => exact .ended rfl hcomp.le fun _ _ => hback

/-- **The report of `dl_del_list`**, for the only TD of a request that is on the queue. -/
theorem Course.Stage.report (h : c.Stage true pend idle) (hp : c.priv = some true)
    (hpend : ¬ pend) (hidle : ¬ idle)
    (hidle' : idle') (hc : c' = c ∨ c' = c.drop) :
    ({ c'.giveBack.complete with status := .econnreset } : Course).Stage true pend idle' := by
  cases h with
  | ended hpriv =>
    rw [hp] at hpriv
    cases hpriv
  | reported _ _ _ _ _ _ hi => exact absurd hi hidle
  | running del _ hcomp _ hback =>
    have hback0 := (hback rfl).1
    obtain rfl | rfl := hc
    · exact .reported hp rfl hpend (by simp) (congrArg (· + 1) hcomp)
        (congrArg (· + 1) hback0) hidle'
    · exact .ended rfl (Nat.succ_le_succ hcomp.le) fun _ _ => congrArg (· + 1) hback0

end Stages

section Queues

variable {s s' : Sys} {q q' : TdList → List TdPtr} {fill fill' : UrbPtr → ℕ} {u : UrbPtr}
    {e : EdPtr} {ts : List TdPtr}

/-- The queue of an ED is the list of its TDs. -/
theorem Sys.TdAcc.queue_eq (hc : s.TdAcc q fill)
    (h : Walk (fun t => (s.mem.td t).hwNextTD) (s.mem.ed e).hwTailP (s.mem.ed e).hwHeadP ts) :
    ts = q (.queue e) :=
  h.unique (hc.listed.threads.walk (.queue e))

theorem Sys.TdAcc.noneQueued_iff (hc : s.TdAcc q fill) :
    s.mem.NoneQueued u ↔ ∀ e, ∀ t ∈ q (.queue e), (s.mem.td t).urb ≠ u := by
  constructor
  · exact fun h e t ht => h e _ (hc.listed.threads.walk (.queue e)) t ht
  · intro h e ts hw t ht
    rw [hc.queue_eq hw] at ht
    exact h e t ht

/-- **No TD of a URB gets on a queue** unless the step puts one there. -/
theorem Sys.TdAcc.noneQueued (hc : s.TdAcc q fill) (hc' : s'.TdAcc q' fill') {new : UrbPtr → Prop}
    (hfrom : QueuesFrom new s.mem.tdLinks s'.mem.tdLinks q q') (hu : ¬ new u)
    (h : s.mem.NoneQueued u) :
    s'.mem.NoneQueued u := by
  rw [hc'.noneQueued_iff]
  rw [hc.noneQueued_iff] at h
  rintro e t ht rfl
  have hurb : (s'.mem.td t).urb = (s.mem.td t).urb := (hfrom.1 t).resolve_right hu
  exact h e t ((hfrom.2 e t ht).resolve_right hu) hurb.symm

end Queues

/-! ## Steps of the driver -/

section Steps

variable {s s' : Sys} {new : UrbPtr → Prop} {w : UrbPtr} {c : Course} {dummy : TdPtr}
    {tds : ℕ → TdPtr}
  {buf setup fuel : ℕ}

/-- **A step that concerns one URB** leaves the stages of the others. -/
theorem Sys.Courses.others (hs : s.Courses) (hconst : s'.mem.ledger.const = s.mem.ledger.const)
    (hidle : ∀ u, ¬ new u → s.mem.NoneQueued u → s'.mem.NoneQueued u)
    (hcourse : s'.mem.course = Function.update s.mem.course w c)
    (hpend : ∀ u, u ≠ w → (u ∈ s'.pend ↔ u ∈ s.pend)) (hfills : ∀ u, u ≠ w → ¬ new u)
    (hself : (s.mem.urb w).OneShot →
      c.Stage (s.mem.urb w).asyncUnlink (w ∈ s'.pend) (s'.mem.NoneQueued w)) :
    ∀ u, (s'.mem.urb u).OneShot → s'.Stage u := by
  intro u hone
  have hc : (s'.mem.urb u).const = (s.mem.urb u).const := congrFun hconst u
  have hone' : (s.mem.urb u).OneShot := by
    unfold Urb.OneShot at hone ⊢
    rwa [show (s'.mem.urb u).pipe = (s.mem.urb u).pipe from congrArg UrbConst.pipe hc] at hone
  have hasync : (s'.mem.urb u).asyncUnlink = (s.mem.urb u).asyncUnlink :=
    congrArg UrbConst.asyncUnlink hc
  unfold Sys.Stage
  rw [hcourse, hasync]
  by_cases hu : u = w
  · subst hu
    rw [Function.update_self]
    exact hself hone'
  · rw [Function.update_of_ne hu]
    exact (hs.stage u hone').keep (hpend u hu) fun _ => hidle u (hfills u hu)

/-- A step that concerns no URB. -/
theorem Sys.Courses.nothing (hs : s.Courses) (hconst : s'.mem.ledger.const = s.mem.ledger.const)
    (hidle : ∀ u, ¬ new u → s.mem.NoneQueued u → s'.mem.NoneQueued u)
    (hcourse : s'.mem.course = s.mem.course) (hpend : s'.pend = s.pend) (hfills : ∀ u, ¬ new u) :
    ∀ u, (s'.mem.urb u).OneShot → s'.Stage u :=
  hs.others (w := 0) hconst hidle (hcourse.trans (Function.update_eq_self 0 _).symm)
    (fun u _ => by rw [hpend]) (fun u _ => hfills u)
    fun hone => (hs.stage 0 hone).keep (by rw [hpend]) fun _ => hidle 0 (hfills 0)

/-- **The first phase of `sohci_submit_urb`.** -/
theorem Sys.Courses.first (hs : s.Courses) (hconst : s'.mem.ledger.const = s.mem.ledger.const)
    (hidle : ∀ u, ¬ s.Fills (.submitFirst w dummy tds) u → s.mem.NoneQueued u →
      s'.mem.NoneQueued u)
    (h : s.step fuel (.submitFirst w dummy tds) = some s') : ∀ u, (s'.mem.urb u).OneShot →
    s'.Stage u := by
  have hfills : ∀ u, ¬ s.Fills (.submitFirst w dummy tds) u := by
    rintro u (⟨buf, setup, ha⟩ | ⟨ha, -⟩) <;> cases ha
  simp only [Sys.step] at h
  split at h
  · cases h
  obtain ⟨o, b, hfirst⟩ : ∃ o b, submitFirst s.mem w dummy tds = (o, b) := ⟨_, _, rfl⟩
  rw [hfirst] at h
  cases h
  obtain ⟨c, hc, hcases⟩ := course_submitFirst hfirst
  refine hs.others hconst hidle hc (fun u hu => ?_) (fun u _ => hfills u) fun hone => ?_
  · dsimp only
    split
    · rw [List.mem_cons, or_iff_right hu]
    · rfl
  obtain ⟨rfl, rfl⟩ | ⟨-, hacc, hcomp, ⟨-, hpriv⟩ | ⟨-, hpriv, hback⟩⟩ := hcases
  · exact (hs.stage w hone).keep Iff.rfl fun _ => hidle w (hfills w)
  · refine .ended hpriv (by omega) fun _ ha => ?_
    rw [hacc] at ha
    cases ha
  · exact .running false hpriv hcomp (fun _ => hacc) fun _ => ⟨hback, by simp⟩

/-- **The second phase of `sohci_submit_urb`.** -/
theorem Sys.Courses.second (hs : s.Courses) (hconst : s'.mem.ledger.const = s.mem.ledger.const)
    (hidle : ∀ u, ¬ s.Fills (.submitSecond w buf setup) u → s.mem.NoneQueued u →
      s'.mem.NoneQueued u)
    (hnd : s.pend.Nodup) (h : s.step fuel (.submitSecond w buf setup) = some s') :
    ∀ u, (s'.mem.urb u).OneShot → s'.Stage u := by
  have hfills : ∀ u, u ≠ w → ¬ s.Fills (.submitSecond w buf setup) u := by
    rintro u hu (⟨buf, setup, ha⟩ | ⟨ha, -⟩) <;> cases ha
    exact hu rfl
  simp only [Sys.step] at h
  split at h
  swap
  · cases h
  rename_i hpend
  obtain ⟨⟨o, b⟩, hsecond, h⟩ := Option.bind_eq_some_iff.mp h
  cases h
  obtain ⟨p, hp, -⟩ := Option.bind_eq_some_iff.mp hsecond
  obtain ⟨c, hc, hcases⟩ := course_submitSecond hsecond
  refine hs.others hconst hidle hc (fun u hu => List.mem_erase_of_ne hu) hfills fun hone => ?_
  have hsome : (s.mem.course w).priv
      = some p.urbDel := by simp only [Ohci.course, hp, Option.map_some]
  cases hs.stage w hone with
  | ended hpriv =>
    rw [hsome] at hpriv
    cases hpriv
  | reported _ _ hnot => exact absurd hpend hnot
  | running del hpriv hcomp hacc hback =>
    obtain rfl | rfl := hcases
    · refine .ended rfl (hcomp.le.trans (Nat.zero_le 1)) fun _ ha => ?_
      cases (hacc hpend).symm.trans ha
    · exact .running del hpriv hcomp (fun hin => absurd hin hnd.not_mem_erase) fun ha =>
        ⟨(hback ha).1, fun _ _ => rfl⟩

/-- **`sohci_unlink_urb`.** -/
theorem Sys.Courses.unlink (hs : s.Courses) (hconst : s'.mem.ledger.const = s.mem.ledger.const)
    (hidle : ∀ u, ¬ s.Fills (.unlink w) u → s.mem.NoneQueued u → s'.mem.NoneQueued u)
    (hdrop : (s.mem.urb w).OneShot → (s.mem.urb w).asyncUnlink = true →
      (s.mem.urb w).hcpriv ≠ none →
      unlinksEd s.mem w ≠ none)
    (h : s.step fuel (.unlink w) = some s') : ∀ u, (s'.mem.urb u).OneShot → s'.Stage u := by
  have hfills : ∀ u, ¬ s.Fills (.unlink w) u := by
    rintro u (⟨buf, setup, ha⟩ | ⟨ha, -⟩) <;> cases ha
  cases h
  obtain ⟨c, hc, hcases⟩ := course_unlinkUrb (o := s.mem) (u := w)
  refine hs.others hconst hidle hc (fun u hu => Iff.rfl) (fun u _ => hfills u) fun hone => ?_
  have hstage := hs.stage w hone
  obtain rfl | ⟨hmark, hstatus, rfl⟩ | ⟨hun, hpriv, hnone, hcomp⟩ := hcases
  · exact hstage.keep Iff.rfl fun _ => hidle w (hfills w)
  · cases hstage with
    | ended hpriv =>
      have hnone : (s.mem.urb w).hcpriv = none := Option.map_eq_none_iff.mp hpriv
      unfold unlinksEd Ohci.privEd at hmark
      rw [hnone] at hmark
      simp at hmark
    | running del hpriv hcomp hacc hback =>
      exact .running true rfl hcomp hacc fun ha => ⟨(hback ha).1, fun _ _ => hstatus⟩
    | reported _ _ _ hnot => exact absurd hstatus hnot
  · have hsync : (s.mem.urb w).asyncUnlink = false :=
      Bool.eq_false_iff.mpr fun ha => hdrop hone ha hpriv hun
    have hle : (s.mem.course w).calls.completed ≤ 1 := by
      cases hstage with
      | ended _ hc => exact hc
      | running _ _ hc => omega
      | reported _ _ _ _ hc => omega
    refine .ended hnone ?_ fun ha => ?_
    · rw [hcomp hsync]
      exact hle
    · rw [hsync] at ha
      cases ha

/-- **The end of a synchronous `sohci_unlink_urb`.** -/
theorem Sys.Courses.finish (hs : s.Courses) (hconst : s'.mem.ledger.const = s.mem.ledger.const)
    (hidle : ∀ u, ¬ s.Fills (.unlinkFinish w) u → s.mem.NoneQueued u → s'.mem.NoneQueued u)
    (h : s.step fuel (.unlinkFinish w) = some s') : ∀ u, (s'.mem.urb u).OneShot → s'.Stage u := by
  have hfills : ∀ u, ¬ s.Fills (.unlinkFinish w) u := by
    rintro u (⟨buf, setup, ha⟩ | ⟨ha, -⟩) <;> cases ha
  simp only [Sys.step] at h
  split at h
  swap
  · cases h
  rename_i hwait
  cases h
  refine hs.others hconst hidle course_unlinkFinish (fun u hu => Iff.rfl) (fun u _ => hfills u)
    fun hone => ?_
  have hsync := hs.waiting w hwait
  rw [hsync]
  have hstage := hs.stage w hone
  unfold Sys.Stage at hstage
  rw [hsync] at hstage
  cases hstage with
  | ended hpriv hcomp => exact .ended hpriv hcomp (by simp)
  | running del hpriv hcomp hacc => exact .running del hpriv hcomp hacc (by simp)
  | reported _ ha => cases ha

end Steps

/-! ## Passes of the interrupt routines -/

section Passes

variable {s s' : Sys} {q : TdList → List TdPtr} {fill : UrbPtr → ℕ} {t tail : TdPtr}
    {tdP tdP' : TdLink} {e : EdPtr}
  {f b : Bool} {ks : List IrqTask} {o : Ohci} {fa fuel : ℕ}

/-- The TD that `dl_done_list` is at is on its list. -/
theorem Sys.TdAcc.mem_rev (hc : s.TdAcc q fill) (ht : s.tasks = .done t :: ks) (h0 : t ≠ 0) :
    t ∈ q .rev := by
  have hw := hc.listed.threads.walk .rev
  have hrev : s.rev = t := by
    rw [Sys.rev, ht]
    rfl
  rw [show TdList.start s.mem.tdLinks s.todo s.rev .rev = t from hrev] at hw
  exact hw.start_mem h0

/-- The TD that `dl_del_list` is at is on the queue. -/
theorem Sys.TdAcc.mem_queue (hc : s.TdAcc q fill)
    (ht : s.tasks = .delQueue f e tail fa t tdP :: ks) (h0 : t ≠ tail) :
    t ∈ q (.queue e) := by
  obtain ⟨-, hend⟩ | ⟨-, kept, ys, zs, hq, -, hw, -⟩ :=
    hc.del f e tail fa t tdP (by rw [ht]; exact List.mem_cons_self)
  · exact absurd hend h0
  · rw [hq]
    exact List.mem_append_right _ (List.mem_append_left _ (hw.start_mem h0))

/-- A URB that is being submitted has no TD on a list. -/
theorem Sys.TdAcc.notMem_pend {i : TdList} (hc : s.TdAcc q fill) (ht : t ∈ q i) :
    (s.mem.td t).urb ∉ s.pend := by
  intro hin
  obtain ⟨x, hx, -, k, hk, -⟩ := hc.listed.part _ t ht
  have hfill : fill (s.mem.tdLinks.urb t) = 0 := (hc.full _ x hx).trans (if_pos hin)
  omega

/-- **The only TD of a URB on a queue is taken off.** -/
theorem Sys.noneQueued_delTd {p : UrbPriv} (hc : s.TdAcc q fill)
    (ht : s.tasks = .delQueue f e tail fa t tdP :: ks) (h0 : t ≠ tail)
    (h : delTd s.mem e t tdP = some (o, tdP'))
    (hp : (s.mem.urb (s.mem.td t).urb).hcpriv = some p) (hdel : p.urbDel = true)
    (honly : s.mem.OnlyTd e t) :
    o.NoneQueued (s.mem.td t).urb := by
  obtain ⟨q', hacc, hfrom, hleft⟩ : ∃ q', Sys.TdAcc _ q' fill ∧
      QueuesFrom (fun _ => False) s.mem.tdLinks o.tdLinks q q' ∧ _ := hc.delTd ht h0 h
  refine hacc.noneQueued_iff.mpr fun x y hy hu => ?_
  have hurb : (o.td y).urb = (s.mem.td y).urb := (hfrom.1 y).resolve_right id
  have hyq := (hfrom.2 x y hy).resolve_right id
  rw [hurb] at hu
  -- both are on the queue of the ED of the request
  have hxe : x = e := by
    have hmem := hc.mem_queue ht h0
    obtain ⟨hd, hhd, hed, -⟩ := hc.listed.part _ y hyq
    obtain ⟨hd', hhd', hed', -⟩ := hc.listed.part _ t hmem
    rw [show s.mem.tdLinks.urb y = s.mem.tdLinks.urb t from hu, hhd'] at hhd
    cases hhd
    rw [← hc.listed.queue x y hyq, ← hc.listed.queue e t hmem, hed, hed']
  subst hxe
  have hyt : y = t := honly _ (hc.listed.threads.walk (.queue x)) y hyq hu
  exact hleft p hp (.inl hdel) (hyt ▸ hy)

/-- **A request that `dl_done_list` does not return has been unlinked**, since its ED is in
use. -/
theorem Sys.Courses.urbDel (hs : s.Courses) (hc : s.TdAcc q fill) (ht : s.tasks = .done t :: ks)
    (h0 : t ≠ 0)
    {p : UrbPriv} (hp : (s.mem.urb (s.mem.td t).urb).hcpriv = some p)
    (hdead : p.urbDel = true ∨ (s.mem.ed (s.mem.td t).ed).state.del = true ∨
      (s.mem.ed (s.mem.td t).ed).state = .edNew) :
    p.urbDel = true := by
  obtain ⟨x, hx, hed, -⟩ := hc.listed.part _ t (hc.mem_rev ht h0)
  rw [show s.mem.ledger.priv (s.mem.tdLinks.urb t) = some p.holding from ledger_priv hp] at hx
  cases hx
  have hgood := hs.good _ _ (ledger_priv hp)
  rw [← hed] at hgood
  obtain hdel | hdel | hnew := hdead
  · exact hdel
  · cases (hs.del _).symm.trans hdel
  · exact absurd hnew hgood.1

/-- **A TD that `dl_done_list` settles.** -/
theorem Sys.Courses.settle (hs : s.Courses) (hc : s.TdAcc q fill) (ht : s.tasks = .done t :: ks)
    (h0 : t ≠ 0)
    (hreported : ∀ p, s.mem.UnlinkedTd t p → (p.tdCnt + 1) % 65536 = p.length →
      (s.mem.urb (s.mem.td t).urb).status ≠ .einprogress)
    (h : doneTd s.mem t = some (o, b)) :
    ∃ c, o.course = Function.update s.mem.course (s.mem.td t).urb c ∧
      ((s.mem.urb (s.mem.td t).urb).OneShot → c = s.mem.course (s.mem.td t).urb ∨
        ∀ pend idle, c.Stage (s.mem.urb (s.mem.td t).urb).asyncUnlink pend idle) := by
  obtain ⟨p, c, hp, hcourse, hcases⟩ := course_doneTd h
  have hsome : (s.mem.course (s.mem.td t).urb).priv = some p.urbDel := by
    simp only [Ohci.course, hp, Option.map_some]
  refine ⟨c, hcourse, fun hone => ?_⟩
  obtain ⟨-, hsame⟩ | ⟨hlast, ⟨hlive, ⟨-, htype⟩ | ⟨-, st, hover⟩⟩ | ⟨-, rfl, hdead⟩⟩ := hcases
  · exact .inl hsame
  · exact absurd hone (Urb.not_oneShot htype)
  · rw [hlive] at hsome
    exact .inr fun pend idle => (hs.stage _ hone).returned hsome hover
  · have hdel := hs.urbDel hc ht h0 hp hdead
    rw [hdel] at hsome
    exact .inr fun pend idle => (hs.stage _ hone).dropped hsome fun ha =>
      hreported p ⟨hone, ha, hp, hdel⟩ hlast

/-- **A TD that `dl_del_list` takes off a queue.** -/
theorem Sys.Courses.take (hs : s.Courses) (hc : s.TdAcc q fill)
    (ht : s.tasks = .delQueue f e tail fa t tdP :: ks) (h0 : t ≠ tail)
    (honly : ∀ p, s.mem.UnlinkedTd t p → s.mem.OnlyTd e t)
    (h : delTd s.mem e t tdP = some (o, tdP')) :
    ∃ c, o.course = Function.update s.mem.course (s.mem.td t).urb c ∧
      ((s.mem.urb (s.mem.td t).urb).OneShot → c = s.mem.course (s.mem.td t).urb ∨
        c.Stage (s.mem.urb (s.mem.td t).urb).asyncUnlink ((s.mem.td t).urb ∈ s.pend)
          (o.NoneQueued (s.mem.td t).urb)) := by
  obtain ⟨p, hp, rfl | ⟨hgone, c, hc', hcases⟩⟩ := course_delTd h
  · exact ⟨_, (Function.update_eq_self _ _).symm, fun _ => .inl rfl⟩
  have hdel : p.urbDel = true := hgone.resolve_right fun hd => by cases (hs.del e).symm.trans hd
  have hsome : (s.mem.course (s.mem.td t).urb).priv = some true := by
    simp only [Ohci.course, hp, Option.map_some, hdel]
  obtain ⟨hsync, hcourse⟩ | ⟨hasync, hcourse⟩ := hcases
  · refine ⟨c, hcourse, fun hone => hc'.imp_right ?_⟩
    rintro rfl
    refine (hs.stage _ hone).dropped hsome fun ha => ?_
    cases hsync.symm.trans ha
  · refine ⟨_, hcourse, fun hone => .inr ?_⟩
    have hstage := hs.stage _ hone
    unfold Sys.Stage at hstage
    rw [hasync] at hstage ⊢
    have hmem := hc.mem_queue ht h0
    exact hstage.report hsome (hc.notMem_pend hmem) (fun hidle => hc.noneQueued_iff.mp hidle
      e t hmem rfl)
      (Sys.noneQueued_delTd hc ht h0 h hp hdel (honly p ⟨hone, hasync, hp, hdel⟩)) hc'

/-- **A pass of an interrupt routine.** -/
theorem Sys.Courses.resume (hs : s.Courses) (hc : s.TdAcc q fill)
    (hconst : s'.mem.ledger.const = s.mem.ledger.const)
    (hidle : ∀ u, ¬ s.Fills .resume u → s.mem.NoneQueued u → s'.mem.NoneQueued u)
    (hreported : ∀ t ks p, s.tasks = .done t :: ks → t ≠ 0 → s.mem.UnlinkedTd t p →
      (p.tdCnt + 1) % 65536 = p.length → (s.mem.urb (s.mem.td t).urb).status ≠ .einprogress)
    (honly : ∀ f e tail fa t tdP ks p, s.tasks = .delQueue f e tail fa t tdP :: ks → t ≠ tail →
      s.mem.UnlinkedTd t p → s.mem.OnlyTd e t) (hstep : s.step fuel .resume = some s') :
    ∀ u, (s'.mem.urb u).OneShot → s'.Stage u := by
  simp only [Sys.step] at hstep
  split at hstep
  · cases hstep
  rename_i task ks ht
  obtain ⟨⟨o, task'⟩, h, hstep⟩ := Option.bind_eq_some_iff.mp hstep
  cases hstep
  have hfills : ∀ u, (∀ e next, task ≠ .requeue u e next) → ¬ s.Fills .resume u := by
    rintro u hno (⟨buf, setup, ha⟩ | ⟨-, e, next, ks', ht'⟩)
    · cases ha
    · rw [ht, List.cons.injEq] at ht'
      exact hno e next ht'.1
  cases task with
  | reverse t rev =>
    have hno : ∀ u, ¬ s.Fills .resume u := fun u => hfills u (by simp)
    simp only [IrqTask.step] at h
    split at h <;> cases h
    · exact hs.nothing hconst hidle rfl rfl hno
    · exact hs.nothing hconst hidle course_reverseTd rfl hno
  | done t =>
    have hno : ∀ u, ¬ s.Fills .resume u := fun u => hfills u (by simp)
    simp only [IrqTask.step] at h
    split at h
    · cases h
      exact hs.nothing hconst hidle rfl rfl hno
    rename_i h0
    obtain ⟨⟨o₁, again⟩, h₁, h⟩ := Option.bind_eq_some_iff.mp h
    cases h
    obtain ⟨c, hcourse, hself⟩ := hs.settle hc ht h0 (hreported t ks · ht h0) h₁
    refine hs.others hconst hidle hcourse (fun u _ => Iff.rfl) (fun u _ => hno u) fun hone => ?_
    obtain rfl | hover := hself hone
    · exact (hs.stage _ hone).keep Iff.rfl fun _ => hidle _ (hno _)
    · exact hover _ _
  | requeue w e next =>
    obtain ⟨o₁, h₁, h⟩ := Option.bind_eq_some_iff.mp h
    cases h
    obtain ⟨c, hcourse⟩ := course_requeueUrb h₁
    have hperiodic : ¬ (s.mem.urb w).OneShot :=
      hs.again w e next (by rw [ht]; exact List.mem_cons_self)
    refine hs.others hconst hidle hcourse (fun u _ => Iff.rfl) (fun u hu => hfills u ?_)
      fun hone => absurd hone hperiodic
    rintro x y ⟨⟩
    exact hu rfl
  | endEd e next =>
    obtain ⟨o₁, h₁, h⟩ := Option.bind_eq_some_iff.mp h
    cases h
    exact hs.nothing hconst hidle (course_doneEd h₁) rfl fun u => hfills u (by simp)
  | del f e =>
    have hno : ∀ u, ¬ s.Fills .resume u := fun u => hfills u (by simp)
    simp only [IrqTask.step] at h
    split at h <;> cases h
    · exact hs.nothing hconst hidle course_delEnd rfl hno
    · exact hs.nothing hconst hidle rfl rfl hno
  | delQueue f e tail fa t tdP =>
    have hno : ∀ u, ¬ s.Fills .resume u := fun u => hfills u (by simp)
    simp only [IrqTask.step] at h
    split at h
    · cases h
      exact hs.nothing hconst hidle course_delEdEnd rfl hno
    rename_i h0
    obtain ⟨⟨o₁, tdP'⟩, h₁, h⟩ := Option.bind_eq_some_iff.mp h
    cases h
    obtain ⟨c, hcourse, hself⟩ := hs.take hc ht h0 (honly f e tail fa t tdP ks · ht h0) h₁
    refine hs.others hconst hidle hcourse (fun u _ => Iff.rfl) (fun u _ => hno u) fun hone => ?_
    obtain rfl | hstage := hself hone
    · exact (hs.stage _ hone).keep Iff.rfl fun _ => hidle _ (hno _)
    · exact hstage

/-- **Only a periodic request is to be queued again.** -/
theorem IrqTask.step_again {k : IrqTask} {o' : Ohci} {u : UrbPtr} {next : TdPtr}
    (h : k.step fuel o = some (o', some (.requeue u e next))) : ¬ (o.urb u).OneShot := by
  cases k with
  | reverse t rev =>
    simp only [IrqTask.step] at h
    split at h <;> cases h
  | done t =>
    simp only [IrqTask.step] at h
    split at h
    · cases h
    obtain ⟨⟨o₁, again⟩, h₁, h⟩ := Option.bind_eq_some_iff.mp h
    cases again with
    | false => cases h
    | true =>
      cases h
      obtain ⟨p, c, -, -, ⟨hb, -⟩ | ⟨-, ⟨-, ⟨-, htype⟩ | ⟨hb, -⟩⟩ | ⟨hb, -⟩⟩⟩ := course_doneTd h₁
      · cases hb
      · exact Urb.not_oneShot htype
      · cases hb
      · cases hb
  | requeue w x n | endEd x n =>
    obtain ⟨o₁, -, h⟩ := Option.bind_eq_some_iff.mp h
    cases h
  | del f x =>
    simp only [IrqTask.step] at h
    split at h <;> cases h
  | delQueue f x tail fa t tdP =>
    simp only [IrqTask.step] at h
    split at h
    · cases h
    · obtain ⟨o₁, -, h⟩ := Option.bind_eq_some_iff.mp h
      cases h

/-- **What is to be queued again** was so before, or is periodic. -/
theorem Sys.step_again {a : Act} (h : s.step fuel a = some s') :
    ∀ u e next, .requeue u e next ∈ s'.tasks →
    .requeue u e next ∈ s.tasks ∨ ¬ (s.mem.urb u).OneShot := by
  intro u e next hm
  by_cases ha : a = .resume
  · subst ha
    simp only [Sys.step] at h
    split at h
    · cases h
    rename_i task ks ht
    obtain ⟨⟨o, task'⟩, h₁, h⟩ := Option.bind_eq_some_iff.mp h
    cases h
    obtain hm | hm := List.mem_append.mp hm
    · obtain rfl := Option.mem_toList.mp hm
      exact .inr (IrqTask.step_again h₁)
    · rw [ht]
      exact .inl (List.mem_cons_of_mem _ hm)
  · obtain hm | ⟨t, r, hm⟩ | ⟨f, x, hm⟩ := Sys.step_tasks h ha _ hm
    · exact .inl hm
    · cases hm
    · cases hm

end Passes

/-! ## Runs -/

section Runs

variable {s s' : Sys} {q q' : TdList → List TdPtr} {fill fill' : UrbPtr → ℕ} {m : Move} {a : Act}
    {u : UrbPtr}
  {o : Ohci} {fuel : ℕ}

/-- **EDs in use stay in use** when no device is freed. -/
theorem Sys.TdAcc.steady (hc : s.TdAcc q fill) (hb : s.Base) (hi : s.TdInv) (hok : MoveClean s m)
    (hfree : ∀ e, m ≠ .act (.freeEd e)) (hs : s.move fuel m = some s') :
    s.mem.ledger.Steady s'.mem.ledger ∧ s'.mem.ledger.const = s.mem.ledger.const := by
  cases m with
  | act a =>
    simp only [Sys.move] at hs
    split at hs
    swap
    · cases hs
    have he := Sys.step_entry hb hs
    refine ⟨?_, he.layout.2.1⟩
    by_cases h0 : ∃ ks, a = .resume ∧ s.tasks = .done 0 :: ks
    · -- the end of the list: nothing is done
      obtain ⟨ks, rfl, ht⟩ := h0
      simp only [Sys.step] at hs
      rw [ht] at hs
      cases hs
      exact .refl _
    · refine (hi.entry (hc.clean hok fun ks ha ht => h0 ⟨ks, ha, ht⟩) he).2.resolve_left ?_
      rintro ⟨e, rfl⟩
      exact hfree e rfl
  | advance e cc cbp psw =>
    obtain ⟨o, rfl, hl, -⟩ := Sys.move_advance hs
    dsimp only
    rw [hl]
    exact ⟨.refl _, rfl⟩
  | retire e cc cbp psw halted carry =>
    obtain ⟨o, rfl, -, hl, -⟩ := Sys.move_retire hs
    dsimp only
    rw [hl]
    exact ⟨.refl _, rfl⟩
  | writeBack =>
    simp only [Sys.move] at hs
    split at hs
    · cases hs
      exact ⟨.refl _, rfl⟩
    · cases hs

/-- Only a synchronous `sohci_unlink_urb` waits. -/
theorem Sys.Entry.waits (he : Sys.Entry s s' a) :
    ∀ u ∈ s'.waiting, u ∈ s.waiting ∨ (s.mem.urb u).asyncUnlink = false := by
  intro u hu
  cases he
  case mark w h _ _ _ _ _ hw =>
    rw [hw] at hu
    split at hu
    · exact .inl hu
    · rename_i hsync
      obtain rfl | hu := List.mem_cons.mp hu
      · exact .inr (Bool.eq_false_iff.mpr hsync)
      · exact .inl hu
  case finish w _ _ _ hw =>
    rw [hw] at hu
    exact .inl (List.mem_of_mem_erase hu)
  all_goals
    rename_i hw
    rw [hw] at hu
    exact .inl hu

/-- **A step of the driver**, as far as the stages are concerned. -/
theorem Sys.Courses.act (hs : s.Courses) (hc : s.TdAcc q fill) (hok : CompletionClean s (.act a))
    (hdriver : a.driver = true) (hconst : s'.mem.ledger.const = s.mem.ledger.const)
    (hidle : ∀ u, ¬ s.Fills a u → s.mem.NoneQueued u → s'.mem.NoneQueued u)
    (h : s.step fuel a = some s') :
    ∀ u, (s'.mem.urb u).OneShot → s'.Stage u := by
  obtain ⟨-, hfree, hdrop, hreported, honly⟩ := hok
  have hquiet : (∀ buf setup u, a ≠ .submitSecond u buf setup) → a ≠ .resume →
      ∀ u, ¬ s.Fills a u := by
    rintro hno ha u (⟨buf, setup, rfl⟩ | ⟨rfl, -⟩)
    · exact hno buf setup u rfl
    · exact ha rfl
  cases a with
  | submitFirst u dummy tds => exact hs.first hconst hidle h
  | submitSecond u buf setup => exact hs.second hconst hidle hc.pend.1 h
  | unlink u => exact hs.unlink hconst hidle (hdrop u rfl) h
  | unlinkFinish u => exact hs.finish hconst hidle h
  | freeEd e => exact absurd rfl (hfree e)
  | resume =>
    exact hs.resume hc hconst hidle (fun t ks p => hreported t ks p rfl)
      (fun f e tail fa t tdP ks p => honly f e tail fa t tdP ks p rfl) h
  | doneIrq | delIrq | frame | hcData =>
    cases h
    exact hs.nothing hconst hidle rfl rfl (hquiet (by simp) (by simp))
  | hcEd | hcTd | hcDone => cases hdriver

/-- **Every step keeps the invariant.** -/
theorem Sys.Courses.move (hs : s.Courses) (hc : s.TdAcc q fill) (hb : s.Base) (hi : s.TdInv)
    (hok : CompletionClean s m) (hmove : s.move fuel m = some s') (hc' : s'.TdAcc q' fill')
    (hfrom : QueuesFrom (fun u => ∃ a, m = .act a ∧
      s.Fills a u) s.mem.tdLinks s'.mem.tdLinks q q') :
    s'.Courses := by
  obtain ⟨hsteady, hconst⟩ := hc.steady hb hi hok.1 hok.2.1 hmove
  have hone : ∀ u, (s'.mem.urb u).OneShot ↔ (s.mem.urb u).OneShot := by
    intro u
    unfold Urb.OneShot
    rw [show (s'.mem.urb u).pipe
      = (s.mem.urb u).pipe from congrArg UrbConst.pipe (congrFun hconst u)]
  have hasync : ∀ u, (s'.mem.urb u).asyncUnlink = (s.mem.urb u).asyncUnlink :=
    fun u => congrArg UrbConst.asyncUnlink (congrFun hconst u)
  have hdel : ∀ e, (s'.mem.ledger.state e).del = false := fun e =>
    Bool.eq_false_iff.mpr fun hd => by cases (hs.del e).symm.trans (hsteady.del e hd).1
  have hgood : ∀ u h, s'.mem.ledger.priv u = some h → s'.mem.ledger.Good h.ed := by
    intro u h' hu
    obtain ⟨h, hp, hed⟩ | hgood := hsteady.priv u h' hu
    · exact hed ▸ hsteady.good _ (hs.good u h hp)
    · exact hgood
  have hidle : ∀ u, (∀ a, m = .act a → ¬ s.Fills a u) → s.mem.NoneQueued u →
      s'.mem.NoneQueued u := by
    intro u hno
    refine hc.noneQueued hc' hfrom ?_
    rintro ⟨a, ha, hf⟩
    exact hno a ha hf
  have hnone : s'.mem.course = s.mem.course → s'.pend = s.pend → (∀ a, m ≠ .act a) →
      ∀ u, (s'.mem.urb u).OneShot → s'.Stage u := fun hcourse hpend ha =>
    hs.nothing hconst (fun u (_ : ¬ False) => hidle u fun a hm => absurd hm (ha a)) hcourse hpend
      fun _ => id
  cases m with
  | act a =>
    simp only [Sys.move] at hmove
    split at hmove
    swap
    · cases hmove
    rename_i hdriver
    have hwaits := (Sys.step_entry hb hmove).waits
    refine ⟨hdel, hgood, fun u hu => ?_, fun u e next hm => ?_,
      hs.act hc hok hdriver hconst (fun u hno => hidle u (by rintro _ ⟨⟩; exact hno)) hmove⟩
    · rw [hasync]
      exact (hwaits u hu).elim (hs.waiting u) id
    · rw [hone]
      exact (Sys.step_again hmove u e next hm).elim (hs.again u e next) id
  | advance e cc cbp psw =>
    have hstage : ∀ u, (s'.mem.urb u).OneShot → s'.Stage u := by
      simp only [Sys.move] at hmove
      split at hmove
      · cases hmove
      · cases hmove
        exact hnone rfl rfl (by simp)
    obtain ⟨o, rfl, -⟩ := Sys.move_advance hmove
    refine ⟨hdel, hgood, fun u hu => ?_, fun u e next hm => ?_, hstage⟩
    · rw [hasync]
      exact hs.waiting u hu
    · rw [hone]
      exact hs.again u e next hm
  | retire e cc cbp psw halted carry =>
    have hstage : ∀ u, (s'.mem.urb u).OneShot → s'.Stage u := by
      simp only [Sys.move] at hmove
      split at hmove
      · cases hmove
      · cases hmove
        exact hnone rfl rfl (by simp)
    obtain ⟨o, rfl, -⟩ := Sys.move_retire hmove
    refine ⟨hdel, hgood, fun u hu => ?_, fun u e next hm => ?_, hstage⟩
    · rw [hasync]
      exact hs.waiting u hu
    · rw [hone]
      exact hs.again u e next hm
  | writeBack =>
    simp only [Sys.move] at hmove
    split at hmove
    · cases hmove
      exact ⟨hdel, hgood, hs.waiting, hs.again, hnone rfl rfl (by simp)⟩
    · cases hmove

end Runs

/-! ## Requests that are unlinked -/

/-- A driver with requests of one type, with `USB_ASYNC_UNLINK`, for one endpoint, whose ED is at
the address 12. -/
def asyncUrbs (type : PipeType) : Ohci :=
  { (default : Ohci) with
    usbDev := fun _ => { (default : UsbDev) with edBase := 10 }
    urb := fun _ => { (default : Urb) with
      pipe := ⟨type, 1, 1, false, false⟩, dev := 1, complete := true, asyncUnlink := true,
      setupPacket := some (fun _ => 0) } }

theorem asyncUrbs_idle {type : PipeType} : (asyncUrbs type).Idle :=
  ⟨fun _ => rfl, rfl, fun l => by cases l <;> rfl, fun l => by cases l <;> rfl, fun _ => rfl,
    fun _ => rfl, fun _ => rfl⟩

theorem asyncUrbs_noTds {type : PipeType} : (asyncUrbs type).NoTds :=
  ⟨fun _ => rfl, fun _ => rfl, rfl, rfl⟩

/-- A URB is submitted. -/
def submitOne : List Move :=
  [.act (.submitFirst 1 100 (fun i => 101 + i)), .act (.submitSecond 1 0 4096)]

/-- What `submitOne` asks for. -/
theorem submitOne_clean {type : PipeType} {s : Sys}
    (h : Sys.moves 1 ⟨asyncUrbs type, [], [], []⟩ submitOne = some s) :
    Sys.Moves CompletionClean ⟨asyncUrbs type, [], [], []⟩ s := by
  refine Sys.Moves.stretch (m := .act (.submitFirst 1 100 (fun i => 101 + i))) .start
    (.of_domain ⟨⟨fun _ => rfl, fun i hi _ => ⟨rfl, ?_, fun j hj hji => ?_⟩⟩, ?_⟩ (by simp)
      (by simp) (by simp)) ?_ h
  · change 101 + i ≠ 100
    omega
  · have hji' : 101 + j = 101 + i := hji
    omega
  · cases type <;> decide
  · intro m hm s
    obtain rfl := List.mem_singleton.mp hm
    exact .of_domain trivial (by simp) (by simp) (by simp)

/-- A bulk request of one TD is unlinked, and `dl_del_list` is entered. -/
theorem unlinkedOne_clean : ∃ s : Sys, Sys.moves 1 ⟨asyncUrbs .bulk, [], [], []⟩
      (submitOne ++ [.act (.unlink 1), .act (.frame 1)] ++ [.act (.delIrq false)]) = some s ∧
    Sys.Moves CompletionClean ⟨asyncUrbs .bulk, [], [], []⟩ s ∧ s.tasks = [.del false 12] := by
  obtain ⟨s₂, h₂, hobs⟩ :=
    Option.map_eq_some_iff.mp (show (Sys.moves 1 ⟨asyncUrbs .bulk, [], [], []⟩ submitOne).map
    (fun s => (s.tasks, unlinksEd s.mem 1, (s.mem.ed 12).state))
      = some ([], some 12, .edOper) by decide +kernel)
  simp only [Prod.mk.injEq] at hobs
  obtain ⟨ht₂, hun, hstate⟩ := hobs
  obtain ⟨s₄, h₄, ht₄, hs₄⟩ :=
    Sys.moves_next [.act (.unlink 1), .act (.frame 1)] h₂ (f := Sys.tasks) (v := [])
    (by decide +kernel)
  have hunlink : CompletionClean s₂ (.act (.unlink 1)) := by
    refine ⟨⟨fun e next hm => ?_, ?_, ?_, by simp⟩, by simp, ?_, by simp, by simp⟩
    · rw [ht₂] at hm
      cases hm
    · rintro _ e ⟨⟩ he
      rw [hun] at he
      cases he
      rw [hstate]
      decide
    · rintro _ p ⟨⟩ hno
      rw [hun] at hno
      cases hno
    · rintro _ ⟨⟩ - - -
      rw [hun]
      exact Option.some_ne_none _
  have hrun₄ :=
    (submitOne_clean h₂).stretch hunlink (by simp [CompletionClean, MoveClean, MoveDomain]) h₄
  obtain ⟨s₅, h₅, ht₅, hs₅⟩ :=
    Sys.moves_next [.act (.delIrq false)] hs₄ (f := Sys.tasks) (v := [.del false 12])
    (by decide +kernel)
  have hrun₅ := hrun₄.stretch (m := .act (.delIrq false))
    (.of_domain (by simp [MoveDomain, ht₄]) (by simp) (by simp) (by simp)) (by simp) h₅
  exact ⟨s₅, hs₅, hrun₅, ht₅⟩
