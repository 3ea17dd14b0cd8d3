import SideDumper.TdLists

/-!
# The TDs in a run

The runs of `DriverRuns` with a controller that keeps to its specification: it
moves the data of the first TD of a queue packet by packet, noting in the TD how
far it has got, retires the TD, which it puts on its own done queue, and hands
that queue over in `hcca.done_head`. For every request that has been accepted,
the TDs that are on the queue of its ED, those that have been retired and not
been settled, and those that have been counted in `td_cnt` are together all its
TDs – as long as `dl_reverse_done_list` finds the rest of a request that has
failed where it looks for it.
-/

/-- What can happen next, when the controller keeps to its specification. -/
inductive Move
  /-- A step of the driver. -/
  | act (a : Act)
  /-- The controller has moved a packet of the first TD of an ED, which stays on the
  queue. -/
  | advance (e : EdPtr) (cc cbp psw : ℕ)
  /-- The controller retires the first TD of an ED. -/
  | retire (e : EdPtr) (cc cbp psw : ℕ) (halted carry : Bool)
  /-- The controller hands its done queue over. -/
  | writeBack

/-- A step that is not the controller's. -/
def Act.driver : Act → Bool
  | .hcEd .. | .hcTd .. | .hcDone .. => false
  | _ => true

/-- **One step of such a run.** The controller works on an ED that is neither
halted nor skipped, and hands its done queue over when the last one has been
taken. -/
def Sys.move (fuel : ℕ) (s : Sys) : Move → Option Sys
  | .act a => if a.driver then s.step fuel a else none
  | .advance e cc cbp psw =>
    let t := (s.mem.ed e).hwHeadP
    if t = (s.mem.ed e).hwTailP ∨ (s.mem.ed e).headHalted ∨ (s.mem.ed e).hwINFO.k then none
    else s.step fuel (.hcTd t cc cbp (s.mem.nextTD t) psw)
  | .retire e cc cbp psw halted carry =>
    let t := (s.mem.ed e).hwHeadP
    if t = (s.mem.ed e).hwTailP ∨ (s.mem.ed e).headHalted ∨ (s.mem.ed e).hwINFO.k then none
    else do
      let s₁ ← s.step fuel (.hcEd e (s.mem.nextTD t) halted carry)
      let s₂ ← s₁.step fuel (.hcTd t cc cbp s.mem.regDonehead psw)
      some { s₂ with mem := { s₂.mem with regDonehead := t } }
  | .writeBack =>
    if s.mem.doneHead = 0 then do
      let s₁ ← s.step fuel (.hcDone s.mem.regDonehead)
      some { s₁ with mem := { s₁.mem with regDonehead := 0 } }
    else none

/-- **The states of such runs from a given start**, all of whose steps meet a
condition. -/
inductive Sys.Moves (ok : Sys → Move → Prop) (s₀ : Sys) : Sys → Prop
  | start : Sys.Moves ok s₀ s₀
  | step {s s' : Sys} (fuel : ℕ) (m : Move) : Sys.Moves ok s₀ s → ok s m →
      s.move fuel m = some s' →
      Sys.Moves ok s₀ s'

/-- A routine of the interrupt for retired TDs. -/
def IrqTask.settles : IrqTask → Bool
  | .del .. | .delQueue .. => false
  | _ => true

/-- The TD that `dl_reverse_done_list` is at. -/
def IrqTask.todo : IrqTask → TdPtr
  | .reverse t _ => t
  | _ => 0

/-- The first of the TDs that `dl_done_list` has left. -/
def IrqTask.rev : IrqTask → TdPtr
  | .reverse _ t | .done t | .requeue _ _ t | .endEd _ t => t
  | _ => 0

/-- The TD that `dl_reverse_done_list` is at. -/
def Sys.todo (s : Sys) : TdPtr := ((s.tasks.find? IrqTask.settles).map IrqTask.todo).getD 0

/-- The first of the TDs that `dl_done_list` has left. -/
def Sys.rev (s : Sys) : TdPtr := ((s.tasks.find? IrqTask.settles).map IrqTask.rev).getD 0

/-- **Where the TDs are**: `q` has the TDs of each list. -/
def Sys.Lists (s : Sys) (q : TdList → List TdPtr) : Prop :=
  ∀ i, Walk (TdList.next s.mem.tdLinks i) (TdList.stop s.mem.ledger i)
    (TdList.start s.mem.tdLinks s.todo s.rev i) (q i)

/-- **What a step may do**: the allocator returns what is not in use, and the TDs of a
request are counted by 16 bits; a completion callback does not unlink its URB; the
interrupt for retired TDs is not entered twice, `dl_del_list` neither, and
`sohci_free_dev` is not called in an interrupt; the controller leaves alone an ED that
`dl_del_list` is at, which has been skipped for a frame. -/
def MoveDomain (s : Sys) : Move → Prop
  | .act (.submitFirst u dummy tds) => s.mem.FreshTds u dummy tds ∧ tdSize (s.mem.urb u) < 65536
  | .act (.unlink u) => ∀ e next, .requeue u e next ∉ s.tasks
  | .act (.freeEd _) => s.tasks = []
  | .act .doneIrq => s.tasks = []
  | .act (.delIrq _) => ∀ k ∈ s.tasks, k.settles = true
  | .advance e _ _ _ | .retire e _ _ _ _ _ =>
    ∀ f tail fa t tdP, .delQueue f e tail fa t tdP ∉ s.tasks
  | _ => True

/-- **The rest of a request that failed is where `dl_reverse_done_list` looks for
it**: the TDs behind the one that failed are the first ones of the queue. -/
def RestQueued (o : Ohci) (t : TdPtr) : Prop :=
  (o.td t).hwINFO.cc ≠ 0 → (o.ed (o.td t).ed).headHalted = true →
    ∀ p, (o.urb (o.td t).urb).hcpriv = some p → (o.td t).index + 1 < p.length →
      Trail (fun x => (o.td x).hwNextTD) (o.ed (o.td t).ed).hwTailP (o.ed (o.td t).ed).hwHeadP
        ((List.range (p.length - (o.td t).index - 1)).map fun i => p.td ((o.td t).index + 1 + i))

/-- **What a step must not do**: mark an ED that is `ED_NEW`, drop a request that has
TDs left or is being submitted, and skip a rest that is not there. -/
def MoveClean (s : Sys) (m : Move) : Prop :=
  MoveDomain s m ∧
    (∀ u e, m = .act (.unlink u) → unlinksEd s.mem u = some e → (s.mem.ed e).state ≠ .edNew) ∧
    (∀ u p, m = .act (.unlink u) → unlinksEd s.mem u = none → (s.mem.urb u).dev ≠ 0 →
      (s.mem.urb u).hcpriv = some p → p.tdCnt = p.length ∧ u ∉ s.pend) ∧
    ∀ t rev ks, m = .act .resume → s.tasks = .reverse t rev :: ks → t ≠ 0 → RestQueued s.mem t

/-- **The requests whose TDs a step puts on a queue.** -/
def Sys.Fills (s : Sys) (a : Act) (u : UrbPtr) : Prop :=
  (∃ buf setup, a = .submitSecond u buf setup) ∨ a = .resume ∧
    ∃ e next ks, s.tasks = .requeue u e next :: ks

/-! ## The invariant -/

/-- What the interrupt routines that have been entered can be. -/
inductive TaskShape : List IrqTask → Prop
  | none : TaskShape []
  | settle {k : IrqTask} : k.settles = true → TaskShape [k]
  | del {k : IrqTask} : k.settles = false → TaskShape [k]
  | nested {k d : IrqTask} : k.settles = false → d.settles = true → TaskShape [k, d]

/-- **Where `dl_del_list` is on the queue of an ED.** TDs may be put behind the end
it has read. -/
def DelAt (l : Ledger) (n : TdLinks) (q : TdList → List TdPtr) (e : EdPtr) (tail t : TdPtr)
    (tdP : TdLink) : Prop :=
  (l.state e).del = false ∧ t = tail ∨
    l.state e ≠ .edNew ∧ ∃ kept ys zs, q (.queue e) = kept ++ (ys ++ zs) ∧ tdP = .after e kept ∧
      Walk n.next tail t ys ∧ exitLink n.next (n.head e) kept = t ∧
        ((l.state e).del = true → kept = [])

/-- **The invariant of a run.** -/
structure Sys.TdAcc (s : Sys) (q : TdList → List TdPtr) (fill : UrbPtr → ℕ) : Prop where
  listed : Listed s.mem.ledger s.mem.tdLinks s.todo s.rev fill q
  full : ∀ u h, s.mem.ledger.priv u = some h →
    fill u = if u ∈ s.pend then 0 else min (s.mem.ledger.const u).tdCount h.length
  idle : ∀ u e next, .requeue u e next ∈ s.tasks → ∃ h, s.mem.ledger.priv u = some h ∧
    u ∉ s.pend ∧
    s.mem.tdLinks.cnt u = h.length
  pend : s.pend.Nodup ∧ ∀ u ∈ s.pend, ∃ h, s.mem.ledger.priv u = some h
  shape : TaskShape s.tasks
  del : ∀ f e tail fa t tdP, .delQueue f e tail fa t tdP ∈ s.tasks →
    DelAt s.mem.ledger s.mem.tdLinks q e tail t tdP

section Keep

variable {l l' : Ledger} {n n' : TdLinks} {q q' : TdList → List TdPtr} {e : EdPtr}
    {tail t : TdPtr} {tdP : TdLink}

/-- **Where `dl_del_list` is** does not change with what is elsewhere, nor when TDs are
put behind the queue. -/
theorem DelAt.keep (hd : DelAt l n q e tail t tdP) (hnew : l.state e ≠ .edNew →
    l'.state e ≠ .edNew)
    (hdel : (l'.state e).del = true → (l.state e).del = true)
    (hnext : ∀ x ∈ q (.queue e), n'.next x = n.next x)
    (hhead : l.state e ≠ .edNew → n'.head e = n.head e)
    (hq : ∃ new, q' (.queue e) = q (.queue e) ++ new) : DelAt l' n' q' e tail t tdP := by
  obtain ⟨hd, ht⟩ | ⟨hold, kept, ys, zs, hqe, htdP, hw, hexit, hkept⟩ := hd
  · refine .inl ⟨Bool.eq_false_iff.mpr (fun hd' => ?_), ht⟩
    rw [hdel hd'] at hd
    cases hd
  · obtain ⟨new, hq'⟩ := hq
    rw [hqe] at hnext hq'
    refine .inr ⟨hnew hold, kept, ys,
      zs ++ new, by rw [hq', List.append_assoc, List.append_assoc], htdP,
      hw.congr (fun x hx => hnext x ?_), ?_, fun hd' => hkept (hdel hd')⟩
    · exact List.mem_append_right _ (List.mem_append_left _ hx)
    · rw [hhead hold, exitLink_congr (fun x hx => hnext x (List.mem_append_left _ hx)), hexit]

end Keep

section Acts

variable {s s' : Sys} {q q' : TdList → List TdPtr} {fill fill' : UrbPtr → ℕ} {fuel : ℕ}
    {u : UrbPtr}

/-- **The tasks stay**, and no TD is taken off the queue that `dl_del_list` is at. -/
theorem Sys.TdAcc.keep (hc : s.TdAcc q fill) (htasks : s'.tasks = s.tasks)
    (hlisted : Listed s'.mem.ledger s'.mem.tdLinks s.todo s.rev fill' q')
    (hconst : s'.mem.ledger.const = s.mem.ledger.const)
    (hpriv : ∀ z h', s'.mem.ledger.priv z = some h' →
      fill' z = if z ∈ s'.pend then 0 else min (s.mem.ledger.const z).tdCount h'.length)
    (hidle : ∀ z h, s.mem.ledger.priv z = some h → z ∉ s.pend →
      (∃ e next, .requeue z e next ∈ s.tasks) →
      s.mem.tdLinks.cnt z = h.length → ∃ h', s'.mem.ledger.priv z = some h' ∧
        h'.length = h.length ∧ z ∉ s'.pend ∧
        s'.mem.tdLinks.cnt z = s.mem.tdLinks.cnt z)
    (hpend : s'.pend.Nodup ∧ ∀ z ∈ s'.pend, ∃ h, s'.mem.ledger.priv z = some h)
    (hdel : ∀ f e tail fa t tdP, .delQueue f e tail fa t tdP ∈ s.tasks →
      DelAt s'.mem.ledger s'.mem.tdLinks q' e tail t tdP) : s'.TdAcc q' fill' where
  listed := by
    rw [Sys.todo, Sys.rev, htasks]
    exact hlisted
  full := fun z h' hz => by
    rw [hconst]
    exact hpriv z h' hz
  idle := fun z e next hm => by
    rw [htasks] at hm
    obtain ⟨h, hp, hnot, hfull⟩ := hc.idle z e next hm
    obtain ⟨h', hp', hlen, hnot', hcnt⟩ := hidle z h hp hnot ⟨e, next, hm⟩ hfull
    exact ⟨h', hp', hnot', by rw [hcnt, hfull, hlen]⟩
  pend := hpend
  shape := htasks ▸ hc.shape
  del := fun f e tail fa t tdP hm => hdel f e tail fa t tdP (htasks ▸ hm)

/-- **Private parts stay**, and so do the lists. -/
theorem Sys.TdAcc.same (hc : s.TdAcc q fill) (htasks : s'.tasks = s.tasks)
    (hpend : s'.pend = s.pend)
    (hlinks : s'.mem.tdLinks = s.mem.tdLinks) (hconst : s'.mem.ledger.const = s.mem.ledger.const)
    (htail : s'.mem.ledger.tail = s.mem.ledger.tail)
    (hstate : ∀ e, s'.mem.ledger.state e = .edNew → s.mem.ledger.state e = .edNew)
    (hpriv : ∀ u h', s'.mem.ledger.priv u = some h' →
      ∃ h, s.mem.ledger.priv u = some h ∧ h.ed = h'.ed ∧ h.td = h'.td ∧ h.length = h'.length)
    (hpriv' : ∀ u h, s.mem.ledger.priv u = some h → ∃ h', s'.mem.ledger.priv u = some h')
    (hdel : (∃ f e tail fa t tdP, IrqTask.delQueue f e tail fa t tdP ∈ s.tasks) →
      ∀ e, (s'.mem.ledger.state e).del = true → (s.mem.ledger.state e).del = true) :
        s'.TdAcc q fill := by
  have hstop := TdList.stop_congr htail
  refine hc.keep htasks ?_ hconst (fun z h' hz => ?_) (fun z h hp hnot _ _ => ?_) ?_
    (fun f e tail fa t tdP hm => ?_)
  · refine hc.listed.keep ?_ (by rw [hlinks]) (by rw [hlinks])
      (fun e he => hc.listed.fresh e (hstate e he))
      (fun i t _ h hp => ?_) (fun z h' hz => ?_)
    · rw [hstop, hlinks]
      exact hc.listed.threads
    · obtain ⟨h', hp'⟩ := hpriv' _ h hp
      obtain ⟨x, hx, hed, htd, -⟩ := hpriv _ h' hp'
      rw [hp] at hx
      cases hx
      exact ⟨h', hp', hed.symm, htd.symm, rfl⟩
    · obtain ⟨h, hp, hed, -, hlen⟩ := hpriv z h' hz
      exact .inl ⟨h, hp, hed, hlen, by rw [hlinks], rfl⟩
  · obtain ⟨h, hp, -, -, hlen⟩ := hpriv z h' hz
    rw [hpend, ← hlen]
    exact hc.full z h hp
  · obtain ⟨h', hp'⟩ := hpriv' z h hp
    obtain ⟨x, hx, -, -, hlen⟩ := hpriv z h' hp'
    rw [hp] at hx
    cases hx
    exact ⟨h', hp', hlen.symm, hpend ▸ hnot, by rw [hlinks]⟩
  · rw [hpend]
    refine ⟨hc.pend.1, fun z hz => ?_⟩
    obtain ⟨h, hp⟩ := hc.pend.2 z hz
    exact hpriv' z h hp
  · refine (hc.del f e tail fa t tdP hm).keep (fun hold hnew => hold (hstate e hnew))
      (hdel ⟨f, e, tail, fa, t, tdP, hm⟩ e) (fun _ _ => by rw [hlinks]) (fun _ => by rw [hlinks])
      ⟨[], by rw [List.append_nil]⟩

/-- **A private part goes** that has no TD on a list. -/
theorem Sys.TdAcc.dropped (hc : s.TdAcc q fill) (htasks : s'.tasks = s.tasks)
    (hpend : s'.pend = s.pend ∧ u ∉ s.pend ∨ s'.pend = s.pend.erase u)
    (hreq : ∀ e next, .requeue u e next ∉ s.tasks)
    (hidle : ∀ i, ∀ t ∈ q i, s.mem.tdLinks.urb t ≠ u)
    (hlinks : s'.mem.tdLinks
      = { s.mem.tdLinks with cnt := Function.update s.mem.tdLinks.cnt u 0 })
    (hconst : s'.mem.ledger.const = s.mem.ledger.const)
    (htail : s'.mem.ledger.tail = s.mem.ledger.tail)
    (hstate : s'.mem.ledger.state = s.mem.ledger.state)
    (hpriv : s'.mem.ledger.priv = Function.update s.mem.ledger.priv u none) :
    s'.TdAcc q fill := by
  have hold : ∀ z h, s'.mem.ledger.priv z = some h → z ≠ u ∧ s.mem.ledger.priv z = some h := by
    intro z h hz
    rw [hpriv, Function.update_apply] at hz
    split at hz
    · cases hz
    · exact ⟨‹_›, hz⟩
  have hcnt : ∀ z, z ≠ u → s'.mem.tdLinks.cnt z = s.mem.tdLinks.cnt z := fun z hz => by
    rw [hlinks]
    exact Function.update_of_ne hz _ _
  have hmem : ∀ z, z ≠ u → (z ∈ s'.pend ↔ z ∈ s.pend) := by
    intro z hz
    obtain ⟨hp, -⟩ | hp := hpend
    · rw [hp]
    · rw [hp, List.mem_erase_of_ne hz]
  refine hc.keep htasks ?_ hconst (fun z h' hz => ?_) (fun z h hp hnot hz _ => ?_) ?_
    (fun f e tail fa t tdP hm => ?_)
  · rw [hlinks]
    exact hc.listed.drop_priv hidle htail hstate hpriv
  · obtain ⟨hzu, hp⟩ := hold z h' hz
    simp only [hmem z hzu]
    exact hc.full z h' hp
  · obtain ⟨e, next, hm⟩ := hz
    have hzu : z ≠ u := fun h => hreq e next (h ▸ hm)
    refine ⟨h, ?_, rfl, fun hin => hnot ((hmem z hzu).mp hin), hcnt z hzu⟩
    rw [hpriv, Function.update_of_ne hzu]
    exact hp
  · have hnot : s'.pend.Nodup ∧ u ∉ s'.pend := by
      obtain ⟨hp, hu⟩ | hp := hpend
      · rw [hp]
        exact ⟨hc.pend.1, hu⟩
      · rw [hp]
        exact ⟨hc.pend.1.erase u, hc.pend.1.not_mem_erase⟩
    refine ⟨hnot.1, fun z hz => ?_⟩
    have hzu : z ≠ u := fun h => hnot.2 (h ▸ hz)
    obtain ⟨h, hp⟩ := hc.pend.2 z ((hmem z hzu).mp hz)
    exact ⟨h, by rw [hpriv, Function.update_of_ne hzu]; exact hp⟩
  · refine (hc.del f e tail fa t tdP hm).keep (fun h => hstate ▸ h) (fun h => hstate ▸ h)
      (fun _ _ => by rw [hlinks])
      (fun _ => by rw [hlinks]) ⟨[], by rw [List.append_nil]⟩

/-! ## Submitting -/

/-- **The first phase of `sohci_submit_urb`**, as far as the queues are concerned. -/
theorem Sys.Entry.first {dummy : TdPtr} {tds : ℕ → TdPtr}
    (he : Sys.Entry s s' (.submitFirst u dummy tds)) :
    (∀ x, (s.mem.ledger.state x = .edNew → s'.mem.ledger.state x = .edNew) →
        s'.mem.ledger.tail x = s.mem.ledger.tail x) ∧
      (∀ x, s'.mem.ledger.state x = .edNew → s.mem.ledger.state x = .edNew) ∧
      (∀ x, (s'.mem.ledger.state x).del = true → (s.mem.ledger.state x).del = true) ∧
      (s'.mem.ledger.priv = s.mem.ledger.priv ∧ s'.pend = s.pend ∨
        s.mem.ledger.priv u = none ∧ s'.pend = u :: s.pend ∧ ∃ e, s'.mem.ledger.priv
          = Function.update s.mem.ledger.priv u
            (some (newPriv e (tdSize (s.mem.urb u)) tds).holding)) := by
  have hadded : ∀ {l : Ledger} {d : DevPtr} {e : EdPtr} {fa : ℕ},
      s.mem.ledger.Added l d e fa dummy →
      (∀ x, (s.mem.ledger.state x = .edNew → l.state x = .edNew) →
        l.tail x = s.mem.ledger.tail x) ∧
        (∀ x, l.state x = .edNew → s.mem.ledger.state x = .edNew) ∧
        (∀ x, (l.state x).del = true → (s.mem.ledger.state x).del = true) ∧
          l.priv = s.mem.ledger.priv := by
    rintro l d e fa (⟨-, -, rfl⟩ | ⟨hnew, -, rfl⟩)
    · exact ⟨fun _ _ => rfl, fun _ h => h, fun _ h => h, rfl⟩
    · have hself : ((s.mem.ledger.initEd d e dummy).addEd d e fa).state e = .edUnlink :=
        Function.update_self _ _ _
      have hother : ∀ x, x ≠ e → ((s.mem.ledger.initEd d e dummy).addEd d e fa).state x
          = s.mem.ledger.state x :=
        fun x hx => Function.update_of_ne hx _ _
      refine ⟨fun x hx => ?_, fun x hx => ?_, fun x hx => ?_, rfl⟩
      · have hxe : x ≠ e := by
          rintro rfl
          have hbad := hx hnew
          rw [hself] at hbad
          cases hbad
        exact Function.update_of_ne hxe _ _
      · by_cases hxe : x = e
        · exact hxe ▸ hnew
        · rwa [hother x hxe] at hx
      · by_cases hxe : x = e
        · rw [hxe, hself] at hx
          cases hx
        · rwa [hother x hxe] at hx
  cases he with
  | same _ hl hp _ =>
    rw [hl]
    exact ⟨fun _ _ => rfl, fun _ h => h, fun _ h => h, .inl ⟨rfl, hp⟩⟩
  | stopped _ _ _ _ _ _ hl hp _ | noDummy _ _ _ _ _ hl hp _ =>
    rw [hl]
    exact ⟨fun _ _ => rfl, fun _ h => h, fun _ h => h, .inl ⟨rfl, hp⟩⟩
  | undone _ _ _ e l _ _ hnone hadd hl hp _ =>
    obtain ⟨ht, hs, hd, hpr⟩ := hadded hadd
    rw [hl, Ledger.rmPriv_tail, Ledger.rmPriv_state, Ledger.rmPriv_priv]
    refine ⟨ht, hs, hd, .inl ⟨?_, hp⟩⟩
    refine (Function.update_idem _ _ _).trans ?_
    rw [← hnone, hpr, Function.update_eq_self]
  | begun _ _ _ e l _ _ hnone hadd _ hl hp _ =>
    obtain ⟨ht, hs, hd, hpr⟩ := hadded hadd
    rw [hl]
    refine ⟨ht, hs, hd, .inr ⟨hnone, hp, e, ?_⟩⟩
    rw [← hpr]
    rfl

theorem Sys.TdAcc.first {dummy : TdPtr} {tds : ℕ → TdPtr} (hc : s.TdAcc q fill)
    (he : Sys.Entry s s' (.submitFirst u dummy tds)) (hsize : tdSize (s.mem.urb u) < 65536)
    (hs : s.step fuel (.submitFirst u dummy tds) = some s') :
    ∃ fill', s'.TdAcc q fill' := by
  obtain ⟨htasks, hmem⟩ : s'.tasks = s.tasks ∧ s'.mem = (submitFirst s.mem u dummy tds).1 := by
    simp only [Sys.step] at hs
    split at hs
    · cases hs
    · cases hs
      exact ⟨rfl, rfl⟩
  obtain ⟨head, hlinks, hheads⟩ := heads_submitFirst (o := s.mem) (u := u) dummy tds
  rw [← hmem] at hlinks hheads
  obtain ⟨htail, hstate, hdel, hpriv⟩ := he.first
  have hconst := he.layout.2.1
  have hthreads : Threads (TdList.next s'.mem.tdLinks) (TdList.start s'.mem.tdLinks s.todo s.rev)
      (TdList.stop s'.mem.ledger) q := by
    refine ⟨fun i => ?_, hc.listed.threads.apart⟩
    rw [hlinks]
    have hw := hc.listed.threads.walk i
    cases i with
    | queue e =>
      obtain ⟨hh, hsame⟩ | ⟨hnew, -, hh⟩ := hheads e
      · have ht : s'.mem.ledger.tail e = s.mem.ledger.tail e := htail e hsame
        change Walk s.mem.tdLinks.next (s'.mem.ledger.tail e) (head e) (q (.queue e))
        rw [hh, ht]
        exact hw
      · rw [hc.listed.fresh e hnew]
        exact hh
    | reg | done | todo | rev => exact hw
  have hcnt : s'.mem.tdLinks.cnt = s.mem.tdLinks.cnt := by rw [hlinks]
  have hat : ∀ f e tail fa t tdP, .delQueue f e tail fa t tdP ∈ s.tasks →
      DelAt s'.mem.ledger s'.mem.tdLinks q e tail t tdP := by
    intro f e tail fa t tdP hm
    refine (hc.del f e tail fa t tdP hm).keep (fun hold hnew => hold (hstate e hnew)) (hdel e)
      (fun _ _ => by rw [hlinks]) (fun hold => ?_) ⟨[], by rw [List.append_nil]⟩
    rw [hlinks]
    obtain ⟨hh, -⟩ | ⟨hnew, -⟩ := hheads e
    · exact hh
    · exact absurd hnew hold
  obtain ⟨hpr, hpend⟩ | ⟨hnone, hpend, e, hpr⟩ := hpriv
  · refine ⟨fill, hc.keep htasks ?_ hconst (fun z h hz => ?_) (fun z h hp hnot _ _ => ?_) ?_ hat⟩
    · refine hc.listed.keep hthreads (by rw [hlinks]) (by rw [hlinks])
        (fun e he => hc.listed.fresh e (hstate e he))
        (fun i t _ h hp => ⟨h, hpr ▸ hp, rfl, rfl, rfl⟩) (fun z h hz => .inl ⟨h, hpr ▸ hz, rfl,
          rfl, by rw [hcnt], rfl⟩)
    · rw [hpr] at hz
      rw [hpend]
      exact hc.full z h hz
    · exact ⟨h, hpr ▸ hp, rfl, hpend ▸ hnot, by rw [hcnt]⟩
    · rw [hpend, hpr]
      exact hc.pend
  · have hnot : u ∉ s.pend := fun hu => by
      obtain ⟨h, hp⟩ := hc.pend.2 u hu
      rw [hnone] at hp
      cases hp
    have hidle := hc.listed.notMem_of_none hnone
    have hold : ∀ z h, z ≠ u → (s'.mem.ledger.priv z = some h ↔ s.mem.ledger.priv z = some h) :=
      fun z h hz => by
      rw [hpr, Function.update_of_ne hz]
    have hself : s'.mem.ledger.priv u = some (newPriv e (tdSize (s.mem.urb u)) tds).holding := by
      rw [hpr, Function.update_self]
    have hlength : (newPriv e (tdSize (s.mem.urb u)) tds).holding.length = tdSize (s.mem.urb u) :=
      Nat.mod_eq_of_lt hsize
    have hzero : s.mem.tdLinks.cnt u = 0 := Urb.cnt_none (Option.map_eq_none_iff.mp hnone)
    refine ⟨Function.update fill u 0, hc.keep htasks ?_ hconst (fun z h hz => ?_)
      (fun z h hp hnotz _ _ => ?_) ?_ hat⟩
    · refine hc.listed.keep hthreads (by rw [hlinks]) (by rw [hlinks])
        (fun e he => hc.listed.fresh e (hstate e he))
        (fun i t ht h hp => ⟨h, ?_, rfl, rfl, Function.update_of_ne (hidle i t ht) _ _⟩)
          (fun z h hz => ?_)
      · exact (hold _ h (hidle i t ht)).mpr hp
      · by_cases hzu : z = u
        · rw [hzu] at hz ⊢
          rw [hself] at hz
          cases hz
          refine .inr ⟨hidle, ?_, ?_, ?_⟩
          · rw [hcnt, hzero, Function.update_self]
          · rw [Function.update_self]
            exact Nat.zero_le _
          · rw [hlength]
            exact hsize
        · exact .inl ⟨h, (hold z h hzu).mp hz, rfl, rfl, by rw [hcnt],
            Function.update_of_ne hzu _ _⟩
    · by_cases hzu : z = u
      · rw [hzu] at hz ⊢
        rw [hself] at hz
        cases hz
        rw [hpend, Function.update_self, if_pos List.mem_cons_self]
      · have hz' := (hold z h hzu).mp hz
        rw [hpend, Function.update_of_ne hzu]
        have hmem : z ∈ u :: s.pend ↔ z ∈ s.pend := by simp [hzu]
        simp only [hmem]
        exact hc.full z h hz'
    · have hzu : z ≠ u := by
        rintro rfl
        rw [hnone] at hp
        cases hp
      exact ⟨h, (hold z h hzu).mpr hp, rfl, by simp [hpend, hzu, hnotz], by rw [hcnt]⟩
    · rw [hpend]
      refine ⟨List.nodup_cons.mpr ⟨hnot, hc.pend.1⟩, fun z hz => ?_⟩
      by_cases hzu : z = u
      · rw [hzu]
        exact ⟨_, hself⟩
      · obtain ⟨h, hp⟩ := hc.pend.2 z (List.mem_of_ne_of_mem hzu hz)
        exact ⟨h, (hold z h hzu).mpr hp⟩

/-- A request that is through with its TDs has none on a list. -/
theorem Sys.TdAcc.settled {h : Holding} (hc : s.TdAcc q fill) (hp : s.mem.ledger.priv u = some h)
    (hcnt : u ∈ s.pend ∨ s.mem.tdLinks.cnt u = h.length) :
    ∀ i, ∀ t ∈ q i, s.mem.tdLinks.urb t ≠ u := by
  refine hc.listed.notMem_of_settled hp ?_
  obtain ⟨hsum, hle, -⟩ := hc.listed.count u h hp
  obtain hu | hcnt := hcnt
  · have hfull := hc.full u h hp
    rw [if_pos hu] at hfull
    omega
  · omega

/-- What `td_submit_urb` leaves of the private parts. -/
theorem Ledger.Swaps.priv_self {l l' : Ledger} {h : Holding} (hs : Ledger.Swaps u l l')
    (hp : l.priv u = some h) :
    ∃ h', l'.priv u = some h' ∧ h'.ed = h.ed ∧ h'.length = h.length := by
  induction hs generalizing h with
  | refl l => exact ⟨h, hp, rfl, rfl⟩
  | swap hp' _ _ ih =>
    rw [hp] at hp'
    cases hp'
    obtain ⟨h', hp', hed, hlen⟩ := ih (Function.update_self _ _ _)
    exact ⟨h', hp', hed, hlen⟩

/-- **A request is queued** that has no TD on a list. -/
theorem Sys.TdAcc.refill {o : Ohci} {p : UrbPriv} (hc : s.TdAcc q fill)
    (htasks : s'.tasks = s.tasks)
    (hlinks : o.tdLinks = s.mem.tdLinks) (hpriv : o.ledger.priv = s.mem.ledger.priv)
    (htail : o.ledger.tail = s.mem.ledger.tail) (hconst : o.ledger.const = s.mem.ledger.const)
    (hstate : ∀ e, o.ledger.state e = .edNew → s.mem.ledger.state e = .edNew)
    (hdel : ∀ e, (o.ledger.state e).del = true → (s.mem.ledger.state e).del = true)
    (howners : o.ledger.Owners)
    (hp : (o.urb u).hcpriv = some p) (hidle : ∀ i, ∀ t ∈ q i, s.mem.tdLinks.urb t ≠ u)
    (hnew : (o.ed p.ed).state ≠ .edNew) (h : tdSubmitUrb o u = some s'.mem)
    (hpend : s'.pend.Nodup ∧ u ∉ s'.pend ∧ ∀ z, z ≠ u → (z ∈ s'.pend ↔ z ∈ s.pend))
    (hreq : ∀ e next, .requeue u e next ∉ s.tasks) :
    ∃ q' fill', s'.TdAcc q' fill' ∧ QueuesFrom (· = u) s.mem.tdLinks s'.mem.tdLinks q q' := by
  have hpu : s.mem.ledger.priv u = some p.holding := by
    rw [← hpriv]
    exact ledger_priv hp
  have hstop := TdList.stop_congr htail
  have hlisted : Listed o.ledger o.tdLinks s.todo s.rev fill q := by
    refine hc.listed.keep ?_ (by rw [hlinks]) (by rw [hlinks])
      (fun e he => hc.listed.fresh e (hstate e he))
      (fun i t _ h hp => ⟨h, hpriv ▸ hp, rfl, rfl, rfl⟩)
      (fun z h hz => .inl ⟨h, hpriv ▸ hz, rfl, rfl, by rw [hlinks], rfl⟩)
    rw [hstop, hlinks]
    exact hc.listed.threads
  have hcount : (o.urb u).const.tdCount = (s.mem.ledger.const u).tdCount := by
    rw [← hconst]
    rfl
  obtain ⟨q', hl', hcnt, ⟨⟨new, hq'⟩, hhead, hnext⟩, hfrom⟩ :=
    listed_tdSubmitUrb hlisted howners hp
    (by rw [hlinks]; exact hidle) hnew h
  rw [hlinks] at hcnt hhead hnext hfrom
  have hswaps := ledger_tdSubmitUrb h
  have hcounts := hswaps.counts
  simp only [Prod.mk.injEq] at hcounts
  obtain ⟨x, hx, hxe, hxl⟩ := hswaps.priv_self (ledger_priv hp)
  have hother : ∀ z, z ≠ u → s'.mem.ledger.priv z = s.mem.ledger.priv z := fun z hz => by
    rw [hswaps.priv_of_ne hz, hpriv]
  have hcz : ∀ z, z ≠ u → s'.mem.tdLinks.cnt z = s.mem.tdLinks.cnt z := fun z hz => by
    rw [hcnt, Function.update_of_ne hz]
  refine ⟨q', Function.update fill u (min (o.urb u).const.tdCount p.length),
    hc.keep htasks hl' (hcounts.2.2.2.1.trans hconst) (fun z h' hz => ?_)
    (fun z h hz hnot hm _ => ?_) ⟨hpend.1, fun z hz => ?_⟩ (fun f e tail fa t tdP hm => ?_),
      hfrom⟩
  · by_cases hzu : z = u
    · rw [hzu] at hz ⊢
      rw [hx] at hz
      cases hz
      rw [Function.update_self, if_neg hpend.2.1, hxl, hcount]
      rfl
    · rw [hother z hzu] at hz
      rw [Function.update_of_ne hzu]
      simp only [hpend.2.2 z hzu]
      exact hc.full z h' hz
  · obtain ⟨e, next, hm⟩ := hm
    have hzu : z ≠ u := fun h => hreq e next (h ▸ hm)
    exact ⟨h, (hother z hzu).trans hz, rfl, fun hin => hnot ((hpend.2.2 z hzu).mp hin), hcz z hzu⟩
  · have hzu : z ≠ u := fun h => hpend.2.1 (h ▸ hz)
    obtain ⟨y, hy⟩ := hc.pend.2 z ((hpend.2.2 z hzu).mp hz)
    exact ⟨y, (hother z hzu).trans hy⟩
  · refine (hc.del f e tail fa t tdP hm).keep
      (fun hold hn => hold (hstate e (hcounts.2.2.1 ▸ hn)))
      (fun hd => hdel e (hcounts.2.2.1 ▸ hd)) (fun x hx => hnext _ x hx)
        (fun _ => by rw [hhead]) ?_
    rw [hq', Function.update_apply]
    split
    · rename_i he
      exact ⟨new, by rw [he]⟩
    · exact ⟨[], (List.append_nil _).symm⟩

/-- **The second phase of `sohci_submit_urb`.** -/
theorem Sys.TdAcc.second {buf setup : ℕ} (hc : s.TdAcc q fill) (ho : s.mem.ledger.Owners)
    (hs : s.step fuel (.submitSecond u buf setup) = some s') :
    ∃ q' fill', s'.TdAcc q' fill' ∧ QueuesFrom (· = u) s.mem.tdLinks s'.mem.tdLinks q q' := by
  simp only [Sys.step] at hs
  split at hs
  · rename_i hu
    obtain ⟨⟨o, b⟩, h₁, hs⟩ := Option.bind_eq_some_iff.mp hs
    cases hs
    obtain ⟨x, hx⟩ := hc.pend.2 u hu
    have hidle := hc.settled hx (.inl hu)
    have hreq : ∀ e next, .requeue u e next ∉ s.tasks := fun e next hm => by
      obtain ⟨-, -, hnot, -⟩ := hc.idle u e next hm
      exact hnot hu
    obtain ⟨p, hp, ⟨-, hlinks, hl⟩ | ⟨-, hnew, hdel, o₁, hlinks, hl, hsub⟩⟩ :=
      tdLinks_submitSecond h₁
    · refine ⟨q, fill, hc.dropped rfl (.inr rfl) hreq hidle hlinks ?_ ?_ ?_ ?_,
        .of_urb (by rw [hlinks])⟩ <;>
        dsimp only <;> rw [hl]
      · exact Ledger.rmPriv_const _ _
      · rw [Ledger.use_tail, Ledger.rmPriv_tail]
      · rw [Ledger.use_state, Ledger.rmPriv_state]
      · rw [Ledger.use_priv, Ledger.rmPriv_priv]
    · have hpu : (o₁.urb u).hcpriv.map UrbPriv.holding = some p.holding := by
        have hpr : o₁.ledger.priv u = s.mem.ledger.priv u := by
          rw [hl]
          rfl
        exact hpr.trans (ledger_priv hp)
      obtain ⟨p₁, hp₁, hpp⟩ := Option.map_eq_some_iff.mp hpu
      have hpe : p₁.ed = p.ed := congrArg Holding.ed hpp
      have hst : ∀ e, o₁.ledger.state e = if e = p.ed then .edOper else s.mem.ledger.state e :=
        fun e => by
        rw [hl]
        exact Function.update_apply _ _ _ _
      have hcase : ∀ e, o₁.ledger.state e = .edOper ∨
          o₁.ledger.state e = s.mem.ledger.state e := by
        intro e
        rw [hst]
        split
        · exact .inl rfl
        · exact .inr rfl
      refine hc.refill (o := o₁) (p := p₁) (u := u) rfl hlinks (by rw [hl]; rfl) (by rw [hl]; rfl)
        (by rw [hl]; rfl)
        (fun e he => ?_) (fun e he => ?_) (hl ▸ ho.setState hnew (.inr (.inl rfl))) hp₁
          hidle ?_ hsub
        ⟨hc.pend.1.erase u, hc.pend.1.not_mem_erase, fun z hz => List.mem_erase_of_ne hz⟩ hreq
      · obtain h | h := hcase e
        · rw [h] at he
          cases he
        · rwa [h] at he
      · obtain h | h := hcase e
        · rw [h] at he
          cases he
        · rwa [h] at he
      · rw [hpe]
        have h := hst p.ed
        rw [if_pos rfl] at h
        intro hn
        have hn' : o₁.ledger.state p.ed = .edNew := hn
        rw [h] at hn'
        cases hn'
  · cases hs

end Acts

/-! ## Steps that put no TD on a list -/

section Acts

variable {s s' : Sys} {q q' : TdList → List TdPtr} {fill : UrbPtr → ℕ} {fuel : ℕ}
    {u : UrbPtr} {e : EdPtr}

/-- **What a step must keep** that only requests with TDs on lists are concerned by. -/
theorem Sys.TdAcc.pass (hc : s.TdAcc q fill) (hpend : s'.pend = s.pend)
    (hl : Listed s'.mem.ledger s'.mem.tdLinks s'.todo s'.rev fill q')
    (hconst : s'.mem.ledger.const = s.mem.ledger.const)
    (hlen : ∀ z h', s'.mem.ledger.priv z = some h' → ∃ h, s.mem.ledger.priv z = some h ∧
      h.length = h'.length)
    (hidle : ∀ z, (∀ i, ∀ t ∈ q i, s.mem.tdLinks.urb t ≠ z) →
      s'.mem.ledger.priv z = s.mem.ledger.priv z ∧ s'.mem.tdLinks.cnt z = s.mem.tdLinks.cnt z)
    (hshape : TaskShape s'.tasks)
    (hreq : ∀ u e next, .requeue u e next ∈ s'.tasks → .requeue u e next ∈ s.tasks ∨
      ∃ h, s'.mem.ledger.priv u = some h ∧ u ∉ s.pend ∧ s'.mem.tdLinks.cnt u = h.length)
    (hdel : ∀ f e tail fa t tdP, .delQueue f e tail fa t tdP ∈ s'.tasks →
      DelAt s'.mem.ledger s'.mem.tdLinks q' e tail t tdP) : s'.TdAcc q' fill where
  listed := hl
  full := fun z h' hz => by
    obtain ⟨h, hp, hlen⟩ := hlen z h' hz
    rw [hpend, hconst, ← hlen]
    exact hc.full z h hp
  idle := fun z e next hm => by
    rw [hpend]
    obtain hm | hnew := hreq z e next hm
    · obtain ⟨h, hp, hnot, hcnt⟩ := hc.idle z e next hm
      obtain ⟨hpr, hct⟩ := hidle z (hc.settled hp (.inr hcnt))
      exact ⟨h, hpr.trans hp, hnot, hct.trans hcnt⟩
    · exact hnew
  pend := by
    rw [hpend]
    refine ⟨hc.pend.1, fun z hz => ?_⟩
    obtain ⟨h, hp⟩ := hc.pend.2 z hz
    exact ⟨h, (hidle z (hc.settled hp (.inl hz))).1.trans hp⟩
  shape := hshape
  del := hdel

/-- A list without a beginning is empty. -/
theorem Sys.TdAcc.empty {i : TdList} (hc : s.TdAcc q fill) (hi : ∀ e, i ≠ .queue e)
    (h0 : TdList.start s.mem.tdLinks s.todo s.rev i = 0) : q i = [] := by
  have hw := hc.listed.threads.walk i
  have hstop : TdList.stop s.mem.ledger i = 0 := by
    cases i with
    | queue e => exact absurd rfl (hi e)
    | reg | done | todo | rev => rfl
  rw [h0, hstop] at hw
  exact hw.unique rfl

/-- **`sohci_unlink_urb`.** -/
theorem Sys.TdAcc.unlink (hc : s.TdAcc q fill) (hs : s.step fuel (.unlink u) = some s')
    (hreq : ∀ e next, .requeue u e next ∉ s.tasks)
    (hmark : ∀ e, unlinksEd s.mem u = some e → (s.mem.ed e).state ≠ .edNew)
    (hdrop : ∀ p, unlinksEd s.mem u = none → (s.mem.urb u).dev ≠ 0 →
      (s.mem.urb u).hcpriv = some p →
      p.tdCnt = p.length ∧ u ∉ s.pend) : s'.TdAcc q fill := by
  obtain ⟨o, b, hun⟩ : ∃ o b, unlinkUrb s.mem u = (o, b) := ⟨_, _, rfl⟩
  have hfst : (unlinkUrb s.mem u).1 = o := congrArg Prod.fst hun
  simp only [Sys.step] at hs
  rw [hun] at hs
  cases hs
  obtain ⟨-, rfl, -⟩ | ⟨hdev, p, hp, hl⟩ := ledger_unlinkUrb hun
  · exact hc.same rfl rfl rfl rfl rfl (fun _ h => h) (fun z h' hz => ⟨h', hz, rfl, rfl, rfl⟩)
      (fun z h' hz => ⟨h', hz⟩) (fun _ _ h => h)
  have hpr := ledger_priv hp
  obtain ⟨hstatus, hun, hk⟩ | ⟨hstatus, hun, hk⟩ := tdLinks_unlinkUrb hdev hp
  · obtain ⟨-, -, hl⟩ | ⟨hno, -⟩ := hl
    · have hnew := hmark _ hun
      rw [hfst] at hk
      have hst : ∀ x, o.ledger.state x =
          if x = p.ed then { s.mem.ledger.state p.ed with urbDel := true }
          else s.mem.ledger.state x := fun x => by
        rw [hl]
        exact Function.update_apply _ _ _ _
      have hpriv : o.ledger.priv
          = Function.update s.mem.ledger.priv u (some { p.holding with urbDel := true }) := by
        rw [hl]
        rfl
      refine hc.same rfl rfl hk (by dsimp only; rw [hl]; rfl) (by dsimp only; rw [hl]; rfl)
        (fun x hx => ?_)
        (fun z h' hz => ?_) (fun z h' hz => ?_) (fun _ x hx => ?_) <;> dsimp only at *
      · rw [hst] at hx
        split at hx
        · have hbad : true = false := congrArg EdState.urbDel hx
          cases hbad
        · exact hx
      · rw [hpriv, Function.update_apply] at hz
        split at hz
        · rename_i hzu
          cases hz
          exact ⟨p.holding, hzu ▸ hpr, rfl, rfl, rfl⟩
        · exact ⟨h', hz, rfl, rfl, rfl⟩
      · rw [hpriv, Function.update_apply]
        split
        · exact ⟨_, rfl⟩
        · exact ⟨h', hz⟩
      · rw [hst] at hx
        split at hx
        · rename_i hxe
          rw [hxe]
          exact hx
        · exact hx
    · exact absurd hstatus hno
  · obtain ⟨hyes, -⟩ | ⟨-, -, hl⟩ := hl
    · exact absurd hyes hstatus
    · obtain ⟨hfull, hpend⟩ := hdrop p hun hdev hp
      have hidle := hc.settled hpr (.inr ((tdLinks_cnt hp).trans hfull))
      rw [hfst] at hk
      refine hc.dropped rfl (.inl ⟨rfl, hpend⟩) hreq hidle hk ?_ ?_ ?_ ?_
        <;> dsimp only <;> rw [hl]
      · exact Ledger.rmPriv_const _ _
      · rw [Ledger.use_tail, Ledger.rmPriv_tail]
      · rw [Ledger.use_state, Ledger.rmPriv_state]
      · rw [Ledger.use_priv, Ledger.rmPriv_priv]

/-- The lists do not see what a step does. -/
theorem Sys.TdAcc.quiet {o : Ohci} {w : List UrbPtr} (hc : s.TdAcc q fill)
    (hk : o.tdLinks = s.mem.tdLinks)
    (hl : (o.ledger.tail, o.ledger.state, o.ledger.priv, o.ledger.const)
      = (s.mem.ledger.tail, s.mem.ledger.state, s.mem.ledger.priv, s.mem.ledger.const)) :
    Sys.TdAcc { s with mem := o, waiting := w } q fill := by
  simp only [Prod.mk.injEq] at hl
  obtain ⟨htail, hstate, hpriv, hconst⟩ := hl
  exact hc.same rfl rfl hk hconst htail (fun x hx => hstate ▸ hx) (fun z h' hz => ⟨h', hpriv ▸ hz,
    rfl, rfl, rfl⟩)
    (fun z h' hz => ⟨h', hpriv ▸ hz⟩) (fun _ x hx => hstate ▸ hx)

/-- **`sohci_free_dev` at an ED.** -/
theorem Sys.TdAcc.freeEd {o : Ohci} (hc : s.TdAcc q fill) (h0 : e ≠ 0) (ht : s.tasks = [])
    (h : freeEd fuel s.mem e = some o) : Sys.TdAcc { s with mem := o } q fill := by
  have hk := tdLinks_freeEd h
  obtain ⟨-, rfl⟩ | ⟨hnew, hl⟩ := ledger_freeEd h0 h
  · exact hc
  · refine hc.same rfl rfl hk (by dsimp only; rw [hl]; rfl) (by dsimp only; rw [hl]; rfl)
      (fun x hx => ?_)
      (fun z h' hz => ?_) (fun z h' hz => ?_) (fun ⟨_, _, _, _, _, _, hm⟩ => ?_)
        <;> dsimp only at *
    · rw [hl] at hx
      by_cases hxe : x = e
      · have hbad : EdState.edDel = .edNew := by
          rw [hxe] at hx
          exact (Function.update_self _ _ _).symm.trans hx
        cases hbad
      · exact (Function.update_of_ne hxe _ _).symm.trans hx
    · rw [hl] at hz
      exact ⟨h', hz, rfl, rfl, rfl⟩
    · rw [hl]
      exact ⟨h', hz⟩
    · rw [ht] at hm
      cases hm

/-- **`dl_reverse_done_list` is entered**: it takes what the controller has handed
over. -/
theorem Sys.TdAcc.doneIrq (hc : s.TdAcc q fill) (ht : s.tasks = []) :
    ∃ q', Sys.TdAcc { s with
      mem := { s.mem with doneHead := 0 }
      tasks := .reverse s.mem.doneHead 0 :: s.tasks } q' fill ∧
        ∀ e, q' (.queue e) = q (.queue e) := by
  have htodo : s.todo = 0 := by
    rw [Sys.todo, ht]
    rfl
  have hrev : s.rev = 0 := by
    rw [Sys.rev, ht]
    rfl
  have hempty : q .todo = [] := hc.empty nofun htodo
  have hl : Listed s.mem.ledger { s.mem.tdLinks with done := 0 } s.mem.doneHead 0 fill _ :=
    hc.listed.transfer (i := .done) (j := .todo) nofun nofun nofun hempty rfl rfl rfl rfl
      (fun k hk hk' => by
      cases k with
      | done => exact absurd rfl hk
      | todo => exact absurd rfl hk'
      | rev => exact hrev.symm
      | queue | reg => rfl)
  refine ⟨_, hc.pass rfl hl rfl (fun z h' hz => ⟨h', hz, rfl⟩) (fun _ _ => ⟨rfl, rfl⟩) ?_
    (by simp [ht]) (by simp [ht]), fun e => ?_⟩
  · dsimp only
    rw [ht]
    exact .settle rfl
  · rw [Function.update_of_ne (by simp), Function.update_of_ne (by simp)]

/-- **`dl_del_list` is entered.** -/
theorem Sys.TdAcc.delIrq {f : Bool} (hc : s.TdAcc q fill) (ht : ∀ k ∈ s.tasks, k.settles = true) :
    Sys.TdAcc { s with tasks := .del f (s.mem.edRmList f) :: s.tasks } q fill := by
  have hsame : (IrqTask.del f (s.mem.edRmList f) :: s.tasks).find? IrqTask.settles
      = s.tasks.find? IrqTask.settles :=
    List.find?_cons_of_neg (by simp [IrqTask.settles])
  refine hc.pass rfl ?_ rfl (fun z h' hz => ⟨h', hz, rfl⟩) (fun _ _ => ⟨rfl, rfl⟩) ?_ ?_ ?_
  · rw [Sys.todo, Sys.rev, hsame]
    exact hc.listed
  · have hshape := hc.shape
    dsimp only
    generalize s.tasks = ks at ht hshape
    cases hshape with
    | none => exact .del rfl
    | settle hk => exact .nested rfl hk
    | del hk => simp [hk] at ht
    | nested hk _ => simp [hk] at ht
  · intro u e next hm
    exact .inl ((List.mem_cons.mp hm).resolve_left nofun)
  · intro f' e tail fa t tdP hm
    have hset := ht _ ((List.mem_cons.mp hm).resolve_left nofun)
    cases hset

end Acts
