import SideDumper.HandOver
import SideDumper.StepCases
import SideDumper.TdRuns

/-!
# TDs are settled in the order in which they are retired

The controller's done queue, `hcca.done_head` and the two lists of the interrupt
routine are a queue that is handed over in batches, in every run of clean steps:
whatever the driver submits, unlinks or removes in between, `dl_done_list` gets
to the retired TDs one after the other, each once, in the order in which the
controller has retired them.
-/

/-- **The lists of retired TDs**, as a queue that is handed over. -/
def TdList.handOver (q : TdList → List TdPtr) : HandOver TdPtr :=
  ⟨q .reg, q .done, q .todo, q .rev⟩

/-- The TDs that a step retires. -/
def Sys.retires (s : Sys) : Move → List TdPtr
  | .retire e _ _ _ _ _ => [(s.mem.ed e).hwHeadP]
  | _ => []

/-- The TDs that a step settles. -/
def Sys.settles (s : Sys) : Move → List TdPtr
  | .act .resume =>
    match s.tasks with
    | .done t :: _ => if t = 0 then [] else [t]
    | _ => []
  | _ => []

/-- **A run with its records**: the TDs that have been retired and those that have been
settled, the first one first. -/
inductive Sys.Records (ok : Sys → Move → Prop) (s₀ : Sys) : List TdPtr → List TdPtr → Sys → Prop
  | start : Sys.Records ok s₀ [] [] s₀
  | step {s s' : Sys} {retired settled : List TdPtr} (fuel : ℕ) (m : Move) (hr :
      Sys.Records ok s₀ retired settled s)
      (hok : ok s m) (hs : s.move fuel m = some s') :
      Sys.Records ok s₀ (retired ++ s.retires m) (settled ++ s.settles m) s'

/-! ## The lists of a step -/

section Lists

variable {s s' : Sys} {q q' r : TdList → List TdPtr} {fill fill' : UrbPtr → ℕ} {i : TdList}
    {o : Ohci} {u : UrbPtr}
  {fuel : ℕ} {m : Move} {a : Act}

theorem TdList.stop_eq_zero (l : Ledger) (hi : ∀ e, i ≠ .queue e) : TdList.stop l i = 0 := by
  cases i with
  | queue e => exact absurd rfl (hi e)
  | reg | done | todo | rev => rfl

/-- The lists of retired TDs are the ones that the memory has. -/
theorem Sys.TdAcc.handOver_eq (hc' : s'.TdAcc q' fill')
    (hw : ∀ i, (∀ e, i ≠ .queue e) →
      Walk (TdList.next s'.mem.tdLinks i) 0 (TdList.start s'.mem.tdLinks s'.todo s'.rev i)
        (r i)) :
    TdList.handOver q' = TdList.handOver r := by
  have hlist : ∀ i, (∀ e, i ≠ .queue e) → q' i = r i := by
    intro i hi
    have hwalk := hc'.listed.threads.walk i
    rw [TdList.stop_eq_zero _ hi] at hwalk
    exact hwalk.unique (hw i hi)
  rw [TdList.handOver, TdList.handOver, hlist .reg (by simp), hlist .done (by simp),
    hlist .todo (by simp), hlist .rev (by simp)]

/-- What has been shown of the lists behind a step says which ones they are. -/
theorem Sys.TdAcc.handOver_of_listed {l : Ledger} {fill : UrbPtr → ℕ} (hc' : s'.TdAcc q' fill')
    (hl : Listed l s'.mem.tdLinks s'.todo s'.rev fill r) :
    TdList.handOver q' = TdList.handOver r := by
  refine hc'.handOver_eq fun i hi => ?_
  have hwalk := hl.threads.walk i
  rwa [TdList.stop_eq_zero _ hi] at hwalk

/-- **Nothing happens to the retired TDs** when the lists begin where they did and the
links are what they were. -/
theorem Sys.TdAcc.handOver_same (hc : s.TdAcc q fill) (hc' : s'.TdAcc q' fill')
    (hstart : (s'.mem.tdLinks.reg, s'.mem.tdLinks.done, s'.todo, s'.rev)
      = (s.mem.tdLinks.reg, s.mem.tdLinks.done, s.todo, s.rev))
    (hnext : ∀ i, (∀ e, i ≠ .queue e) → ∀ t ∈ q i,
      TdList.next s'.mem.tdLinks i t = TdList.next s.mem.tdLinks i t) :
    TdList.handOver q' = TdList.handOver q := by
  simp only [Prod.mk.injEq] at hstart
  obtain ⟨hreg, hdone, htodo, hrev⟩ := hstart
  refine hc'.handOver_eq fun i hi => ?_
  have hwalk := (hc.listed.threads.walk i).congr (hnext i hi)
  rw [TdList.stop_eq_zero _ hi] at hwalk
  have hat : TdList.start s'.mem.tdLinks s'.todo s'.rev i
      = TdList.start s.mem.tdLinks s.todo s.rev i := by
    cases i with
    | queue e => exact absurd rfl (hi e)
    | reg => exact hreg
    | done => exact hdone
    | todo => exact htodo
    | rev => exact hrev
  rwa [hat]

/-- The tasks and the links stay. -/
theorem Sys.TdAcc.handOver_links (hc : s.TdAcc q fill) (hc' : s'.TdAcc q' fill')
    (htasks : (s'.todo, s'.rev) = (s.todo, s.rev))
    (hlinks : (s'.mem.tdLinks.next, s'.mem.tdLinks.dl, s'.mem.tdLinks.reg, s'.mem.tdLinks.done)
      = (s.mem.tdLinks.next, s.mem.tdLinks.dl, s.mem.tdLinks.reg, s.mem.tdLinks.done)) :
    TdList.handOver q' = TdList.handOver q := by
  simp only [Prod.mk.injEq] at htasks hlinks
  refine hc.handOver_same hc' ?_ fun i _ t _ =>
    TdList.next_congr (congrFun hlinks.1 t) (congrFun hlinks.2.1 t)
  rw [hlinks.2.2.1, hlinks.2.2.2, htasks.1, htasks.2]

/-- **A request is about to be queued** in the memory `o`: the lists are those of the run,
and no TD of the request is on one. -/
structure Sys.Refill (s : Sys) (q : TdList → List TdPtr) (u : UrbPtr) (o : Ohci) (p : UrbPriv) :
    Prop where
  links : o.tdLinks = s.mem.tdLinks
  priv : o.ledger.priv = s.mem.ledger.priv
  tail : o.ledger.tail = s.mem.ledger.tail
  state : ∀ e, o.ledger.state e = .edNew → s.mem.ledger.state e = .edNew
  owners : o.ledger.Owners
  held : (o.urb u).hcpriv = some p
  used : (o.ed p.ed).state ≠ .edNew
  idle : ∀ i, ∀ t ∈ q i, s.mem.tdLinks.urb t ≠ u

theorem Sys.Refill.listed {p : UrbPriv} (hf : s.Refill q u o p) (hc : s.TdAcc q fill) :
    Listed o.ledger o.tdLinks s.todo s.rev fill q := by
  refine hc.listed.keep ?_ (by rw [hf.links]) (by rw [hf.links])
    (fun e he => hc.listed.fresh e (hf.state e he))
    (fun i t _ h hp => ⟨h, hf.priv ▸ hp, rfl, rfl, rfl⟩)
    (fun z h hz => .inl ⟨h, hf.priv ▸ hz, rfl, rfl, by rw [hf.links], rfl⟩)
  rw [TdList.stop_congr hf.tail, hf.links]
  exact hc.listed.threads

/-- **What `td_submit_urb` does to the lists.** -/
theorem Sys.Refill.requeued {p : UrbPriv} {o' : Ohci} (hf : s.Refill q u o p)
    (hc : s.TdAcc q fill)
    (h : tdSubmitUrb o u = some o') :
    ∃ q', Listed o'.ledger o'.tdLinks s.todo s.rev
      (Function.update fill u (min (o.urb u).const.tdCount p.length)) q' ∧
      Requeued s.mem.tdLinks o'.tdLinks q q' p.ed := by
  obtain ⟨q', hl, -, hreq, -⟩ :=
    listed_tdSubmitUrb (hf.listed hc) hf.owners hf.held (hf.links ▸ hf.idle) hf.used h
  exact ⟨q', hl, hf.links ▸ hreq⟩

/-- The second phase of `sohci_submit_urb` fails, or queues the request. -/
theorem Sys.TdAcc.second_cases {buf setup : ℕ} {more : Bool} (hc : s.TdAcc q fill)
    (ho : s.mem.ledger.Owners)
    (hu : u ∈ s.pend) (h : submitSecond fuel s.mem u buf setup = some (o, more)) :
    o.tdLinks = { s.mem.tdLinks with cnt := Function.update s.mem.tdLinks.cnt u 0 } ∧
        o.ledger = (s.mem.ledger.rmPriv u).use (s.mem.urb u).dev (-1) ∨
      ∃ o₁ p, s.Refill q u o₁ p ∧ tdSubmitUrb o₁ u = some o := by
  obtain ⟨x, hx⟩ := hc.pend.2 u hu
  obtain ⟨p, hp, ⟨-, hlinks, hl⟩ | ⟨-, hnew, -, o₁, hlinks, hl, hsub⟩⟩ := tdLinks_submitSecond h
  · exact .inl ⟨hlinks, hl⟩
  have hpu : (o₁.urb u).hcpriv.map UrbPriv.holding = some p.holding := by
    have hpr : o₁.ledger.priv u = s.mem.ledger.priv u := by
      rw [hl]
      rfl
    exact hpr.trans (ledger_priv hp)
  obtain ⟨p₁, hp₁, hpp⟩ := Option.map_eq_some_iff.mp hpu
  have hpe : p₁.ed = p.ed := congrArg Holding.ed hpp
  have hst : ∀ e, o₁.ledger.state e = if e = p.ed then .edOper else s.mem.ledger.state e :=
    fun e => by
    rw [hl]
    exact Function.update_apply _ _ _ _
  refine .inr ⟨o₁, p₁, ⟨hlinks, by rw [hl]; rfl, by rw [hl]; rfl, fun e he => ?_,
    hl ▸ ho.setState hnew (.inr (.inl rfl)), hp₁, fun hn => ?_, hc.settled hx (.inl hu)⟩, hsub⟩
  · rw [hst] at he
    split at he
    · cases he
    · exact he
  · have hn' : o₁.ledger.state p.ed = .edNew := hpe ▸ hn
    rw [hst, if_pos rfl] at hn'
    cases hn'

/-- A periodic request is left alone, or queued again. -/
theorem Sys.TdAcc.requeue_cases {e : EdPtr} {next : TdPtr} {ks : List IrqTask}
    (hc : s.TdAcc q fill)
    (ho : s.mem.ledger.Owners) (hgood : ∀ h, s.mem.ledger.priv u = some h →
      s.mem.ledger.Good h.ed)
    (ht : s.tasks = .requeue u e next :: ks) (h : requeueUrb s.mem u = some o) :
    o.tdLinks = s.mem.tdLinks ∧ o.ledger = s.mem.ledger ∨
      ∃ o₁ p, s.Refill q u o₁ p ∧ tdSubmitUrb o₁ u = some o := by
  obtain ⟨x, hx, -, hcnt⟩ := hc.idle u e next (by rw [ht]; exact List.mem_cons_self)
  obtain ⟨p, hp, hsame | ⟨o₁, hlinks, hl, hsub⟩⟩ := tdLinks_requeueUrb h
  · exact .inl hsame
  have hpu : (o₁.urb u).hcpriv.map UrbPriv.holding = some p.holding :=
    (congrFun (congrArg Ledger.priv hl) u).trans (ledger_priv hp)
  obtain ⟨p₁, hp₁, hpp⟩ := Option.map_eq_some_iff.mp hpu
  refine .inr ⟨o₁, p₁, ⟨hlinks, congrArg Ledger.priv hl, congrArg Ledger.tail hl,
    fun e he => hl ▸ he, hl ▸ ho, hp₁, ?_, hc.settled hx (.inr hcnt)⟩, hsub⟩
  have hne := (hgood p.holding (ledger_priv hp)).1
  rw [← hl, show p.holding.ed = p₁.ed from congrArg Holding.ed hpp.symm] at hne
  exact hne

/-- **`td_submit_urb` does nothing to the retired TDs.** -/
theorem Sys.TdAcc.handOver_refill {p : UrbPriv} (hc : s.TdAcc q fill) (hc' : s'.TdAcc q' fill')
    (htasks : (s'.todo, s'.rev) = (s.todo, s.rev)) (hf : s.Refill q u o p)
    (h : tdSubmitUrb o u = some s'.mem) :
    TdList.handOver q' = TdList.handOver q := by
  obtain ⟨q'', hl', ⟨new, rfl⟩, -⟩ := hf.requeued hc h
  simp only [Prod.mk.injEq] at htasks
  rw [← htasks.1, ← htasks.2] at hl'
  rw [hc'.handOver_of_listed hl']
  simp [TdList.handOver]

/-- The second phase of `sohci_submit_urb`. -/
theorem Sys.TdAcc.handOver_second {buf setup : ℕ} {more : Bool} (hc : s.TdAcc q fill)
    (ho : s.mem.ledger.Owners)
    (hu : u ∈ s.pend) (h : submitSecond fuel s.mem u buf setup = some (o, more))
    (hc' : Sys.TdAcc { s with mem := o, pend := s.pend.erase u } q' fill') :
    TdList.handOver q' = TdList.handOver q := by
  obtain ⟨hlinks, -⟩ | ⟨o₁, p, hf, hsub⟩ := hc.second_cases ho hu h
  · exact hc.handOver_links hc' rfl (by dsimp only; rw [hlinks])
  · exact hc.handOver_refill hc' rfl hf hsub

/-- A periodic request is queued again. -/
theorem Sys.TdAcc.handOver_requeued {e : EdPtr} {next : TdPtr} {ks : List IrqTask}
    (hc : s.TdAcc q fill)
    (ho : s.mem.ledger.Owners) (hgood : ∀ h, s.mem.ledger.priv u = some h →
      s.mem.ledger.Good h.ed)
    (ht : s.tasks = .requeue u e next :: ks) (h : requeueUrb s.mem u = some o)
    (hc' : Sys.TdAcc { s with mem := o, tasks := .endEd e next :: ks } q' fill') :
    TdList.handOver q' = TdList.handOver q := by
  obtain ⟨htodo, hrev⟩ := Sys.todo_rev_first ht rfl
  have htasks : (Sys.todo { s with mem := o, tasks := .endEd e next :: ks },
      Sys.rev { s with mem := o, tasks := .endEd e next :: ks }) = (s.todo, s.rev) := by
    rw [htodo, hrev]
    rfl
  obtain ⟨hlinks, -⟩ | ⟨o₁, p, hf, hsub⟩ := hc.requeue_cases ho hgood ht h
  · exact hc.handOver_links hc' htasks (by dsimp only; rw [hlinks])
  · exact hc.handOver_refill hc' htasks hf hsub

end Lists

/-! ## A pass of an interrupt routine -/

section Resume

variable {s s' : Sys} {q q' : TdList → List TdPtr} {fill fill' : UrbPtr → ℕ} {fuel : ℕ}
    {t rev tail : TdPtr} {e : EdPtr}
  {ks : List IrqTask} {o : Ohci} {f b : Bool} {fa : ℕ} {tdP tdP' : TdLink}

/-- **A TD is turned around.** -/
theorem Sys.TdAcc.turned (hc : s.TdAcc q fill) (ht : s.tasks = .reverse t rev :: ks) (h0 : t ≠ 0)
    (hc' : Sys.TdAcc { s with
      mem := reverseTd s.mem t rev
      tasks := .reverse ((reverseTd s.mem t rev).nextTD t) t :: ks } q' fill') :
    ∃ rest, q .todo = t :: rest ∧
      TdList.handOver q'
        = { TdList.handOver q with todo := rest, turned := t :: (TdList.handOver q).turned } := by
  obtain ⟨htodo, hrev⟩ : s.todo = t ∧ s.rev = rev := Sys.todo_rev_first ht rfl
  have hlinks : ((reverseTd s.mem t rev).tdLinks.next, (reverseTd s.mem t rev).tdLinks.dl,
      (reverseTd s.mem t rev).tdLinks.reg, (reverseTd s.mem t rev).tdLinks.done)
      = (s.mem.tdLinks.next, Function.update s.mem.tdLinks.dl t rev, s.mem.tdLinks.reg,
        s.mem.tdLinks.done) := by
    obtain hsame | ⟨-, -, p, -, -, hskip⟩ := tdLinks_reverseTd (o := s.mem) (t := t) rev
    · rw [hsame]
    · rw [hskip]
  simp only [Prod.mk.injEq] at hlinks
  obtain ⟨hnext, hdl, hreg, hdone⟩ := hlinks
  have hturn := hc.listed.reverse (by rw [htodo]; exact h0)
  rw [htodo, hrev] at hturn
  obtain ⟨rest, hq⟩ : ∃ rest, q .todo = t :: rest := by
    have hw := hc.listed.threads.walk .todo
    rw [show TdList.start s.mem.tdLinks s.todo s.rev .todo = t from htodo] at hw
    exact hw.cons_of_ne h0
  refine ⟨rest, hq, ?_⟩
  rw [hq, List.tail_cons] at hturn
  have heq :=
    hc'.handOver_eq (r := Function.update (Function.update q .todo rest) .rev (t :: q .rev))
    fun i hi => by
      have hwalk := hturn.threads.walk i
      rw [TdList.stop_eq_zero _ hi] at hwalk
      cases i with
      | queue e => exact absurd rfl (hi e)
      | reg =>
        change Walk (reverseTd s.mem t rev).tdLinks.next 0 (reverseTd s.mem t rev).tdLinks.reg _
        rw [hnext, hreg]
        exact hwalk
      | done =>
        change Walk (reverseTd s.mem t rev).tdLinks.next 0 (reverseTd s.mem t rev).tdLinks.done _
        rw [hnext, hdone]
        exact hwalk
      | todo =>
        change Walk (reverseTd s.mem t rev).tdLinks.next 0
          ((reverseTd s.mem t rev).tdLinks.next t) _
        rw [hnext]
        exact hwalk
      | rev =>
        change Walk (reverseTd s.mem t rev).tdLinks.dl 0 t _
        rw [hdl]
        exact hwalk
  rw [heq]
  simp [TdList.handOver]

theorem Sys.TdAcc.handOver_reversed (hc : s.TdAcc q fill) (ht : s.tasks = .reverse t rev :: ks)
    (h0 : t ≠ 0)
    (hc' : Sys.TdAcc { s with
      mem := reverseTd s.mem t rev
      tasks := .reverse ((reverseTd s.mem t rev).nextTD t) t :: ks } q' fill') :
    (TdList.handOver q).Step [] [] (TdList.handOver q') := by
  obtain ⟨rest, hq, heq⟩ := hc.turned ht h0 hc'
  rw [heq]
  exact .turn t rest hq

/-- **A TD is settled.** -/
theorem Sys.handOver_doneTd (hc : s.TdAcc q fill) (ht : s.tasks = .done t :: ks) (h0 : t ≠ 0)
    (h : doneTd s.mem t = some (o, b))
    (hc' : Sys.TdAcc { s with
      mem := o
      tasks := (if b then .requeue (s.mem.td t).urb (s.mem.td t).ed (s.mem.td t).nextDlTd
        else .endEd (s.mem.td t).ed (s.mem.td t).nextDlTd) :: ks } q' fill') :
    (TdList.handOver q).Step [] [t] (TdList.handOver q') := by
  obtain ⟨htodo, hrev⟩ : s.todo = 0 ∧ s.rev = t := Sys.todo_rev_first ht rfl
  have htodo' : q .todo = [] := hc.empty (by simp) htodo
  obtain ⟨rest, hq⟩ : ∃ rest, q .rev = t :: rest := by
    have hw := hc.listed.threads.walk .rev
    rw [show TdList.start s.mem.tdLinks s.todo s.rev .rev = t from hrev] at hw
    exact hw.cons_of_ne h0
  have hlinks : (o.tdLinks.next, o.tdLinks.dl, o.tdLinks.reg, o.tdLinks.done)
      = (s.mem.tdLinks.next, s.mem.tdLinks.dl, s.mem.tdLinks.reg, s.mem.tdLinks.done) := by
    obtain ⟨p, -, ⟨-, -, -, hk⟩ | ⟨-, ⟨-, -, hk⟩ | ⟨-, -, hk⟩⟩⟩ := tdLinks_doneTd h <;> rw [hk]
  simp only [Prod.mk.injEq] at hlinks
  obtain ⟨hnext, hdl, hreg, hdone⟩ := hlinks
  have heq := hc'.handOver_eq (r := Function.update q .rev rest) fun i hi => by
    have hwalk := hc.listed.threads.walk i
    rw [TdList.stop_eq_zero _ hi] at hwalk
    cases i with
    | queue e => exact absurd rfl (hi e)
    | reg =>
      change Walk o.tdLinks.next 0 o.tdLinks.reg (q .reg)
      rw [hnext, hreg]
      exact hwalk
    | done =>
      change Walk o.tdLinks.next 0 o.tdLinks.done (q .done)
      rw [hnext, hdone]
      exact hwalk
    | todo =>
      rw [Function.update_of_ne (by simp), htodo']
      cases b <;> rfl
    | rev =>
      rw [Function.update_self]
      change Walk s.mem.tdLinks.dl 0 s.rev (q .rev) at hwalk
      rw [hq, hrev] at hwalk
      have hstart : Sys.rev { s with
          mem := o
          tasks := (if b then .requeue (s.mem.td t).urb (s.mem.td t).ed (s.mem.td t).nextDlTd
            else .endEd (s.mem.td t).ed (s.mem.td t).nextDlTd) :: ks } = s.mem.tdLinks.dl t := by
        cases b <;> rfl
      change Walk o.tdLinks.dl 0 _ rest
      rw [hdl]
      exact hstart ▸ hwalk.2.2
  rw [heq]
  simpa [TdList.handOver] using HandOver.Step.get (h := TdList.handOver q) t rest htodo' hq

/-- `dl_del_list` goes on, or is left. -/
theorem Sys.todo_rev_del {k : IrqTask} (o : Ohci) (k' : Option IrqTask) (ht : s.tasks = k :: ks)
    (hk : k.settles = false) (hk' : ∀ d ∈ k', d.settles = false) :
    Sys.todo { s with mem := o, tasks := k'.toList ++ ks } = s.todo ∧
      Sys.rev { s with mem := o, tasks := k'.toList ++ ks } = s.rev :=
  Sys.todo_rev_rest ht hk rfl hk'

/-- **A TD that `dl_del_list` comes to**: it is on the queue of an ED. -/
theorem Sys.handOver_delTd (hc : s.TdAcc q fill)
    (ht : s.tasks = .delQueue f e tail fa t tdP :: ks) (h0 : t ≠ tail)
    (h : delTd s.mem e t tdP = some (o, tdP'))
    (hc' : Sys.TdAcc
      { s with mem := o, tasks := .delQueue f e tail fa (s.mem.nextTD t) tdP' :: ks } q' fill') :
    TdList.handOver q' = TdList.handOver q := by
  obtain ⟨htodo, hrev⟩ :
      Sys.todo { s with mem := o, tasks := .delQueue f e tail fa (s.mem.nextTD t) tdP' :: ks }
        = s.todo ∧
      Sys.rev { s with mem := o, tasks := .delQueue f e tail fa (s.mem.nextTD t) tdP' :: ks }
        = s.rev :=
    Sys.todo_rev_del o (some (.delQueue f e tail fa (s.mem.nextTD t) tdP')) ht rfl
      (by rintro _ ⟨⟩; rfl)
  obtain ⟨-, hend⟩ | ⟨-, kept, ys, zs, hq, rfl, -⟩ :=
    hc.del f e tail fa t tdP (by rw [ht]; exact List.mem_cons_self)
  · exact absurd hend h0
  obtain ⟨p, -, ⟨-, rfl, -⟩ | ⟨-, -, hk⟩⟩ := tdLinks_delTd h
  · exact hc.handOver_links hc' (by rw [htodo, hrev]) rfl
  rw [tdLinks_setTdLink] at hk
  have hrest : ∀ v, ((s.mem.tdLinks.setLink (.after e kept) v).dl,
      (s.mem.tdLinks.setLink (.after e kept) v).reg,
      (s.mem.tdLinks.setLink (.after e kept) v).done)
      = (s.mem.tdLinks.dl, s.mem.tdLinks.reg, s.mem.tdLinks.done) := by
    intro v
    cases TdLink.after e kept <;> rfl
  simp only [Prod.mk.injEq] at hrest
  obtain ⟨hdl, hreg, hdone⟩ := hrest (s.mem.nextTD t)
  refine hc.handOver_same hc' ?_ fun i hi x hx => ?_
  · dsimp only
    rw [hk, htodo, hrev]
    dsimp only
    rw [hreg, hdone]
  · dsimp only
    rw [hk]
    -- what `dl_del_list` has kept is on the queue
    have hkept : x ∉ kept := fun hm => hc.listed.threads.notMem hx (Ne.symm (hi e))
      (hq ▸ List.mem_append_left _ hm)
    exact TdList.next_congr (TdLinks.setLink_next hkept) (congrFun hdl x)

/-- **A pass of an interrupt routine.** -/
theorem Sys.TdAcc.order_pass {k : IrqTask} {k' : Option IrqTask} (hc : s.TdAcc q fill)
    (hi : s.TdInv)
    (ht : s.tasks = k :: ks) (h : k.Passed fuel s.mem o k')
    (hc' : Sys.TdAcc { s with mem := o, tasks := k'.toList ++ ks } q' fill') :
    (TdList.handOver q).Step [] (s.settles (.act .resume)) (TdList.handOver q') := by
  have hnone : (∀ t, k ≠ .done t) → s.settles (.act .resume) = [] := by
    intro hne
    simp only [Sys.settles, ht]
    cases k with
    | done t => exact absurd rfl (hne t)
    | _ => rfl
  have hsame : s.settles (.act .resume) = [] → TdList.handOver q' = TdList.handOver q →
      (TdList.handOver q).Step [] (s.settles (.act .resume)) (TdList.handOver q') := by
    intro h₁ h₂
    rw [h₁, h₂]
    exact .rest
  cases h with
  | reverseEnd rev =>
    obtain ⟨htodo, hrev⟩ : s.todo = 0 ∧ s.rev = rev := Sys.todo_rev_first ht rfl
    refine hsame (hnone (by simp)) (hc.handOver_links hc' ?_ rfl)
    rw [htodo, hrev]
    rfl
  | reverse t rev h0 =>
    rw [hnone (by simp)]
    exact hc.handOver_reversed ht h0 hc'
  | doneEnd =>
    obtain ⟨htodo, hrev⟩ : s.todo = 0 ∧ s.rev = 0 := Sys.todo_rev_first ht rfl
    have hks := (ht ▸ hc.shape).alone rfl
    subst hks
    refine hsame (by simp only [Sys.settles, ht, if_true]) (hc.handOver_links hc' ?_ rfl)
    rw [htodo, hrev]
    rfl
  | done t o again h0 h =>
    have hset : s.settles (.act .resume) = [t] := by simp only [Sys.settles, ht, if_neg h0]
    rw [hset]
    exact Sys.handOver_doneTd hc ht h0 h hc'
  | requeue u e next o h =>
    refine hsame (hnone (by simp)) (hc.handOver_requeued hi.owners (fun x hx => ?_) ht h hc')
    exact hi.again u e next x (by rw [ht]; exact List.mem_cons_self) hx
  | endEd e next o h =>
    obtain ⟨htodo, hrev⟩ : s.todo = 0 ∧ s.rev = next := Sys.todo_rev_first ht rfl
    refine hsame (hnone (by simp)) (hc.handOver_links hc' ?_
      (by dsimp only; rw [tdLinks_doneEd h]))
    rw [htodo, hrev]
    rfl
  | delEnd f =>
    obtain ⟨htodo, hrev⟩ := Sys.todo_rev_del (delEnd s.mem f) none ht rfl (by rintro _ ⟨⟩)
    exact hsame (hnone (by simp)) (hc.handOver_links hc' (by rw [← htodo, ← hrev])
      (by dsimp only; rw [tdLinks_delEnd]))
  | delStart f e h0 =>
    obtain ⟨htodo, hrev⟩ :=
      Sys.todo_rev_del s.mem (some (.delQueue f e (s.mem.ed e).hwTailP (s.mem.ed e).hwINFO.fa
      (s.mem.ed e).hwHeadP (.head e))) ht rfl (by rintro _ ⟨⟩; rfl)
    exact hsame (hnone (by simp)) (hc.handOver_links hc' (by rw [← htodo, ← hrev]) rfl)
  | delLeave f e tail fa tdP =>
    obtain ⟨htodo, hrev⟩ := Sys.todo_rev_del (delEdEnd s.mem e tail fa)
      (some (.del f ((delEdEnd s.mem e tail fa).ed e).edRmList)) ht rfl (by rintro _ ⟨⟩; rfl)
    exact hsame (hnone (by simp)) (hc.handOver_links hc' (by rw [← htodo, ← hrev])
      (by dsimp only; rw [tdLinks_delEdEnd]))
  | delTd f e tail fa t tdP tdP' o h0 h =>
    exact hsame (hnone (by simp)) (Sys.handOver_delTd hc ht h0 h hc')

end Resume

/-! ## A run -/

section Runs

variable {s s' s₀ : Sys} {q q' : TdList → List TdPtr} {fill fill' : UrbPtr → ℕ} {fuel : ℕ}
    {a : Act} {m : Move} {o : Ohci}
  {retired settled : List TdPtr}

/-- `sohci_unlink_urb` leaves the lists alone. -/
theorem tdLinks_unlinkUrb_cnt (o : Ohci) (u : UrbPtr) :
    ∃ cnt, (unlinkUrb o u).1.tdLinks = { o.tdLinks with cnt := cnt } := by
  by_cases hdev : (o.urb u).dev = 0
  · exact ⟨_, by rw [unlinkUrb, if_pos hdev]⟩
  cases hp : (o.urb u).hcpriv with
  | none => exact ⟨_, by rw [unlinkUrb, if_neg hdev, hp]⟩
  | some p =>
    obtain ⟨-, -, hk⟩ | ⟨-, -, hk⟩ := tdLinks_unlinkUrb hdev hp
    · exact ⟨_, hk⟩
    · exact ⟨_, hk⟩

/-- **Every step** is a step of the queue of retired TDs. -/
theorem Sys.TdAcc.order_move (hc : s.TdAcc q fill) (hi : s.TdInv) (hok : MoveDomain s m)
    (hs : s.move fuel m = some s')
    (hc' : s'.TdAcc q' fill') :
    (TdList.handOver q).Step (s.retires m) (s.settles m) (TdList.handOver q') := by
  have hsame : TdList.handOver q' = TdList.handOver q →
      (TdList.handOver q).Step [] [] (TdList.handOver q') := by
    intro h
    rw [h]
    exact .rest
  cases Sys.moved hs with
  | first u dummy tds o more h =>
    obtain ⟨head, hlinks, -⟩ := heads_submitFirst (o := s.mem) (u := u) dummy tds
    rw [h] at hlinks
    exact hsame (hc.handOver_links hc' rfl (by dsimp only at hlinks ⊢; rw [hlinks]))
  | second u buf setup o more hu h => exact hsame (hc.handOver_second hi.owners hu h hc')
  | unlink u waiting =>
    obtain ⟨cnt, hlinks⟩ := tdLinks_unlinkUrb_cnt s.mem u
    exact hsame (hc.handOver_links hc' rfl (by dsimp only; rw [hlinks]))
  | unlinkFinish u =>
    exact hsame (hc.handOver_links hc' rfl (by dsimp only; rw [tdLinks_unlinkFinish]))
  | freeEd e o h0 h =>
    exact hsame (hc.handOver_links hc' rfl (by dsimp only; rw [tdLinks_freeEd h]))
  | doneIrq =>
    have htasks : s.tasks = [] := hok
    have htodo : q .todo = [] := hc.empty (by simp) (by
      change s.todo = 0
      rw [Sys.todo, htasks]
      rfl)
    have hrev : q .rev = [] := hc.empty (by simp) (by
      change s.rev = 0
      rw [Sys.rev, htasks]
      rfl)
    have heq :=
      hc'.handOver_eq (r := Function.update (Function.update q .done []) .todo (q .done))
        fun i hi => by
      have hwalk := hc.listed.threads.walk
      cases i with
      | queue e => exact absurd rfl (hi e)
      | reg => exact hwalk .reg
      | done => rfl
      | todo => exact hwalk .done
      | rev =>
        rw [Function.update_of_ne (by simp), Function.update_of_ne (by simp), hrev]
        rfl
    rw [heq]
    simpa [TdList.handOver, Sys.settles, Sys.retires] using HandOver.Step.take
      (h := TdList.handOver q) htodo hrev
  | delIrq f =>
    have hfind : (IrqTask.del f (s.mem.edRmList f) :: s.tasks).find? IrqTask.settles
        = s.tasks.find? IrqTask.settles :=
      List.find?_cons_of_neg (by simp [IrqTask.settles])
    refine hsame (hc.handOver_links hc' ?_ rfl)
    rw [Sys.todo, Sys.rev, hfind]
    rfl
  | resume k ks o k' ht h => exact hc.order_pass hi ht h hc'
  | frame | hcData => exact hsame (hc.handOver_links hc' rfl rfl)
  | advance e cc cbp psw =>
    obtain ⟨o, hs', -, hk⟩ := Sys.move_advance hs
    rw [hs'] at hc'
    exact hsame (hc.handOver_links hc' rfl (by dsimp only; rw [hk]))
  | retire e cc cbp psw halted carry hne =>
    obtain ⟨o, hs', -, -, hk⟩ := Sys.move_retire hs
    obtain ⟨rest, hq⟩ : ∃ rest, q (.queue e) = (s.mem.ed e).hwHeadP :: rest :=
      (hc.listed.threads.walk (.queue e)).cons_of_ne hne
    have hlist := hc.listed.retire hi.owners hq
    rw [hs'] at hc'
    have heq := hc'.handOver_of_listed (by dsimp only; rw [hk]; exact hlist)
    rw [heq]
    simpa [TdList.handOver, Sys.settles, Sys.retires] using HandOver.Step.put
      (h := TdList.handOver q) (s.mem.ed e).hwHeadP
  | writeBack h0 =>
    have hempty : q .done = [] := hc.empty (by simp) h0
    have heq := hc'.handOver_eq (r := Function.update (Function.update q .reg []) .done (q .reg))
      fun i hi => by
      have hwalk := hc.listed.threads.walk
      cases i with
      | queue e => exact absurd rfl (hi e)
      | reg => rfl
      | done => exact hwalk .reg
      | todo => exact hwalk .todo
      | rev => exact hwalk .rev
    rw [heq]
    simpa [TdList.handOver, Sys.settles, Sys.retires] using HandOver.Step.give
      (h := TdList.handOver q) hempty

/-- **TDs are settled in the order in which they are retired**, each once: what the
controller has retired in a run of clean steps is what `dl_done_list` has settled and
then what is on its way. -/
theorem settled_in_order (ho : o.Idle) (hn : o.NoTds)
    (h : Sys.Records MoveClean ⟨o, [], [], []⟩ retired settled s) :
    ∃ q, s.Lists q ∧ retired = settled ++ (TdList.handOver q).inFlight := by
  have hinv : s.Base ∧ s.TdInv ∧ ∃ q fill, s.TdAcc q fill ∧
      HandOver.Run .empty retired settled (TdList.handOver q) := by
    induction h with
    | start => exact ⟨ho.base, ho.tdInv hn.alloc, _, _, ho.tdAcc hn, .start⟩
    | step fuel m _ hok hs ih =>
      obtain ⟨hb, hi, q, fill, hc, hrun⟩ := ih
      obtain ⟨hb', hi', q', fill', hc', -⟩ := hc.move hb hi hok hs
      exact ⟨hb', hi', q', fill', hc', .step hrun (hc.order_move hi hok.1 hs hc')⟩
  obtain ⟨-, -, q, fill, hc, hrun⟩ := hinv
  exact ⟨q, hc.listed.threads.walk, hrun.fifo⟩

/-- **One more step** of a run with its records. -/
theorem Sys.Records.next {ok : Sys → Move → Prop} {rs ss : List TdPtr}
    (h : Sys.Records ok s₀ retired settled s)
    (hok : ok s m) (hs : s.moves fuel [m] = some s') (hrs : s.retires m = rs)
    (hss : s.settles m = ss) :
    Sys.Records ok s₀ (retired ++ rs) (settled ++ ss) s' := by
  obtain ⟨s₁, h₁, heq⟩ := Option.bind_eq_some_iff.mp hs
  cases heq
  rw [← hrs, ← hss]
  exact .step fuel m h hok h₁

/-- A pass of `dl_reverse_done_list` at a TD that has no error. -/
theorem MoveClean.reverse {t rev : TdPtr} (ht : s.tasks = [.reverse t rev])
    (hcc : (s.mem.td t).hwINFO.cc = 0) :
    MoveClean s (.act .resume) := by
  refine ⟨trivial, by simp, by simp, ?_⟩
  rintro t' rev' ks - ht' - hne
  rw [ht] at ht'
  cases ht'
  exact absurd hcc hne

/-- Two TDs of a request are retired, and one of them is settled. -/
theorem settled_in_order_twoRetired : ∃ s : Sys, s.tasks = [.endEd 12 101] ∧
    Sys.Records MoveClean ⟨controlUrbs, [], [], []⟩ [100, 101] [100] s ∧
    ∃ q, s.Lists q ∧ (TdList.handOver q).inFlight = [101] := by
  obtain ⟨s₁, h₁, ht₁⟩ := Option.map_eq_some_iff.mp (show (Sys.moves 1 ⟨controlUrbs, [], [], []⟩
    [.act (.submitFirst 1 100 (fun i => 101 + i))]).map Sys.tasks = some [] by decide +kernel)
  have hr₁ : Sys.Records MoveClean ⟨controlUrbs, [], [], []⟩ [] [] s₁ := by
    refine Sys.Records.next (m := .act (.submitFirst 1 100 (fun i => 101 + i))) .start
      ⟨⟨⟨fun _ => rfl, fun i hi _ =>
        ⟨rfl, ?_, fun j hj hji => ?_⟩⟩, by decide⟩, by simp, by simp, by simp⟩ h₁ rfl rfl
    · change 101 + i ≠ 100
      omega
    · have hji' : 101 + j = 101 + i := hji
      omega
  obtain ⟨s₂, h₂, hobs, hs₂⟩ := Sys.moves_next [.act (.submitSecond 1 0 4096)] h₁
    (f := fun s => (s.tasks, (s.mem.ed 12).hwHeadP)) (v := ([], 100)) (by decide +kernel)
  obtain ⟨ht₂, hhead₂⟩ := Prod.mk.inj hobs
  have hr₂ :=
    hr₁.next (m := .act (.submitSecond 1 0 4096)) ⟨trivial, by simp, by simp, by simp⟩ h₂ rfl rfl
  obtain ⟨s₃, h₃, hobs, hs₃⟩ := Sys.moves_next [.retire 12 0 0 0 false false] hs₂
    (f := fun s => (s.tasks, (s.mem.ed 12).hwHeadP)) (v := ([], 101)) (by decide +kernel)
  obtain ⟨ht₃, hhead₃⟩ := Prod.mk.inj hobs
  have hr₃ := hr₂.next (m := .retire 12 0 0 0 false false)
    ⟨by simp [MoveDomain, ht₂], by simp, by simp, by simp⟩ h₃
    (congrArg (fun t => [t]) hhead₂) rfl
  obtain ⟨s₄, h₄, ht₄, hs₄⟩ :=
    Sys.moves_next [.retire 12 0 0 0 false false] hs₃ (f := Sys.tasks) (v := [])
    (by decide +kernel)
  have hr₄ := hr₃.next (m := .retire 12 0 0 0 false false)
    ⟨by simp [MoveDomain, ht₃], by simp, by simp, by simp⟩ h₄
    (congrArg (fun t => [t]) hhead₃) rfl
  obtain ⟨s₅, h₅, ht₅, hs₅⟩ :=
    Sys.moves_next [.writeBack] hs₄ (f := Sys.tasks) (v := []) (by decide +kernel)
  have hr₅ := hr₄.next (m := .writeBack) (by simp [MoveClean, MoveDomain]) h₅ rfl rfl
  obtain ⟨s₆, h₆, hobs, hs₆⟩ := Sys.moves_next [.act .doneIrq] hs₅
    (f := fun s => (s.tasks, (s.mem.td 101).hwINFO.cc)) (v := ([.reverse 101 0], 0))
      (by decide +kernel)
  obtain ⟨ht₆, hcc₆⟩ := Prod.mk.inj hobs
  have hr₆ := hr₅.next (m := .act .doneIrq) ⟨ht₅, by simp, by simp, by simp⟩ h₆ rfl rfl
  obtain ⟨s₇, h₇, hobs, hs₇⟩ := Sys.moves_next [.act .resume] hs₆
    (f := fun s => (s.tasks, (s.mem.td 100).hwINFO.cc)) (v := ([.reverse 100 101], 0))
      (by decide +kernel)
  obtain ⟨ht₇, hcc₇⟩ := Prod.mk.inj hobs
  have hr₇ := hr₆.next (.reverse ht₆ hcc₆) h₇ rfl (by rw [Sys.settles, ht₆])
  obtain ⟨s₈, h₈, hobs, hs₈⟩ := Sys.moves_next [.act .resume] hs₇
    (f := fun s => (s.tasks, (s.mem.td 0).hwINFO.cc)) (v := ([.reverse 0 100], 0))
      (by decide +kernel)
  obtain ⟨ht₈, hcc₈⟩ := Prod.mk.inj hobs
  have hr₈ := hr₇.next (.reverse ht₇ hcc₇) h₈ rfl (by rw [Sys.settles, ht₇])
  obtain ⟨s₉, h₉, ht₉, hs₉⟩ :=
    Sys.moves_next [.act .resume] hs₈ (f := Sys.tasks) (v := [.done 100]) (by decide +kernel)
  have hr₉ := hr₈.next (.reverse ht₈ hcc₈) h₉ rfl (by rw [Sys.settles, ht₈])
  obtain ⟨s, h, ht, -⟩ :=
    Sys.moves_next [.act .resume] hs₉ (f := Sys.tasks) (v := [.endEd 12 101]) (by decide +kernel)
  have hr := hr₉.next (m := .act .resume) ⟨trivial, by simp, by simp, by simp [ht₉]⟩ h rfl
    (by rw [Sys.settles, ht₉])
  obtain ⟨q, hq, heq⟩ := settled_in_order controlUrbs_idle controlUrbs_noTds hr
  exact ⟨s, ht, hr, q, hq, (List.cons_injective heq).symm⟩

end Runs
