import SideDumper.DriverRuns

/-!
# What a step does to the lists of EDs

Most steps of a run do not touch the lists of EDs. `Sys.Effect` lists the
ways in which one does: an ED is set up, linked, unlinked, marked for an
unlinked URB or freed, or `dl_del_list` begins, is done with an ED or ends.
Invariants about the lists are proved for these.
-/

/-- The removal lists that are being walked, with the EDs the walks have got
to, the innermost first. -/
def Sys.walks (s : Sys) : List (Bool × EdPtr) := s.tasks.filterMap IrqTask.walk

/-- **What is never at the null address**: the EDs of private parts and the
EDs `dl_del_list` works on; the record at that address is never used as an
ED. -/
structure Sys.Base (s : Sys) : Prop where
  owner : ∀ u e, s.mem.privEd u = some e → e ≠ 0
  zero : s.mem.skel.state 0 = .edNew
  queue : ∀ frame e tail fa t tdP, .delQueue frame e tail fa t tdP ∈ s.tasks → e ≠ 0

/-- **The ways in which a step changes the lists of EDs.** -/
inductive Sys.Effect (s s' : Sys) : Act → Prop
  /-- Not at all. -/
  | quiet (a : Act) : s'.mem.skel = s.mem.skel → s'.walks = s.walks → Sys.Effect s s' a
  /-- The frame counter moves. -/
  | frame (n : ℕ) (b : Bool) : s'.mem.skel = { s.mem.skel with frame := b } →
      s'.walks = s.walks → Sys.Effect s s' (.frame n)
  /-- A new ED is set up. -/
  | init (u : UrbPtr) (dummy : TdPtr) (tds : ℕ → TdPtr) (e : EdPtr) :
      initsEd s.mem u dummy = some e → e ≠ 0 → s.mem.skel.state e = .edNew →
      s'.mem.skel = s.mem.skel.init e (s.mem.urb u).pipe.type → s'.walks = s.walks →
      Sys.Effect s s' (.submitFirst u dummy tds)
  /-- An ED is linked. -/
  | link (u : UrbPtr) (buf setup : ℕ) (e : EdPtr) (fuel : ℕ) (o o' : Ohci) :
      linksEd s.mem u buf setup = some e → e ≠ 0 → (s.mem.skel.state e).del = false →
      o.skel = s.mem.skel → epLink fuel o e = some o' → s'.mem.skel = o'.skel →
      s'.walks = s.walks → Sys.Effect s s' (.submitSecond u buf setup)
  /-- An ED that is not busy is unlinked. -/
  | unlink (e : EdPtr) (fuel : ℕ) : e ≠ 0 → s.mem.skel.state e = .edOper →
      epUnlink fuel s.mem e = some s'.mem → s'.walks = s.walks → Sys.Effect s s' .resume
  /-- An ED is marked for an unlinked URB. -/
  | mark (u : UrbPtr) (e : EdPtr) : unlinksEd s.mem u = some e → e ≠ 0 →
      s'.mem.skel
        = (s.mem.skel.rmEd e).setState e { s.mem.skel.state e with urbDel := true } →
      s'.walks = s.walks → Sys.Effect s s' (.unlink u)
  /-- An ED is freed. -/
  | free (e : EdPtr) (fuel : ℕ) (o : Ohci) : e ≠ 0 → s.mem.skel.state e ≠ .edNew →
      (s.mem.skel.state e = .edOper ∧ epUnlink fuel s.mem e = some o ∨
        s.mem.skel.state e ≠ .edOper ∧ o = s.mem) →
      s'.mem.skel = (o.skel.rmEd e).setState e .edDel → s'.walks = s.walks →
      Sys.Effect s s' (.freeEd e)
  /-- `dl_del_list` begins. -/
  | delIrq (f : Bool) : s'.mem.skel = s.mem.skel → s'.walks = (f, s.mem.skel.rm f) :: s.walks →
      Sys.Effect s s' (.delIrq f)
  /-- `dl_del_list` is done with an ED. -/
  | settle (f : Bool) (e : EdPtr) (rest : List (Bool × EdPtr)) : e ≠ 0 →
      s'.mem.skel = s.mem.skel.setState e (Skel.settled (s.mem.skel.state e)) →
      s.walks = (f, e) :: rest → s'.walks = (f, s.mem.skel.rmNext e) :: rest →
      Sys.Effect s s' .resume
  /-- `dl_del_list` ends. -/
  | delEnd (f : Bool) (rest : List (Bool × EdPtr)) : s'.mem.skel = s.mem.skel.clearRm f →
      s.walks = (f, 0) :: rest → s'.walks = rest → Sys.Effect s s' .resume

section Effects

variable {s s' : Sys} {a : Act} {fuel : ℕ}

theorem Sys.Base.ne_of_state (hb : s.Base) {e : EdPtr} (h : s.mem.skel.state e ≠ .edNew) :
    e ≠ 0 := by
  rintro rfl
  exact h hb.zero

/-- One pass of an interrupt routine. -/
theorem resume_effect {task : IrqTask} {tasks : List IrqTask} {task' : Option IrqTask} {o : Ohci}
    (hb : s.Base) (ht : s.tasks = task :: tasks) (h : task.step fuel s.mem = some (o, task')) :
    Sys.Effect s { s with mem := o, tasks := task'.toList ++ tasks } .resume ∧
      ∀ u e, o.privEd u = some e → s.mem.privEd u = some e := by
  -- the routines other than `dl_del_list` walk no removal list
  have hquiet : ∀ t' : Option IrqTask, Quiet s.mem o → t'.toList.filterMap IrqTask.walk
      = [task].filterMap IrqTask.walk →
      Sys.Effect s { s with mem := o, tasks := t'.toList ++ tasks } .resume ∧
        ∀ u e, o.privEd u = some e → s.mem.privEd u = some e := by
    intro t' hq hw
    refine ⟨.quiet _ hq.skel ?_, hq.owner⟩
    rw [Sys.walks, Sys.walks, ht, List.filterMap_append, hw, ← List.filterMap_append]
    rfl
  cases task with
  | reverse t rev =>
    simp only [IrqTask.step] at h
    split at h
    · cases h
      exact hquiet _ (Quiet.refl _) rfl
    · cases h
      exact hquiet _ quiet_reverseTd rfl
  | done t =>
    simp only [IrqTask.step] at h
    split at h
    · cases h
      exact hquiet _ (Quiet.refl _) rfl
    · obtain ⟨⟨o₁, again⟩, h₁, h⟩ := Option.bind_eq_some_iff.mp h
      cases h
      refine hquiet _ (quiet_doneTd h₁) ?_
      cases again <;> rfl
  | requeue u e next =>
    obtain ⟨o₁, h₁, h⟩ := Option.bind_eq_some_iff.mp h
    cases h
    exact hquiet _ (quiet_requeueUrb h₁) rfl
  | endEd e next =>
    obtain ⟨o₁, h₁, h⟩ := Option.bind_eq_some_iff.mp h
    cases h
    rcases doneEd_cases h₁ with rfl | ⟨hoper, hun⟩
    · exact hquiet _ (Quiet.refl _) rfl
    · refine ⟨.unlink e fuel (hb.ne_of_state (by rw [hoper]; decide)) hoper hun ?_, ?_⟩
      · rw [Sys.walks, Sys.walks, ht]
        rfl
      · intro u x hx
        rwa [epUnlink_privEd hun] at hx
  | del f e =>
    simp only [IrqTask.step] at h
    split at h
    · rename_i h0
      cases h
      subst h0
      refine ⟨.delEnd f (tasks.filterMap IrqTask.walk) skel_delEnd ?_ rfl, fun u x hx => ?_⟩
      · rw [Sys.walks, ht]
        rfl
      · rwa [privEd_congr (o := s.mem)] at hx
        unfold delEnd
        dsimp only
        split <;> rfl
    · cases h
      exact hquiet _ (Quiet.refl _) rfl
  | delQueue f e tail fa t tdP =>
    simp only [IrqTask.step] at h
    split at h
    · cases h
      have hrm : ((delEdEnd s.mem e tail fa).ed e).edRmList = s.mem.skel.rmNext e := by
        have hsk : (delEdEnd s.mem e tail fa).skel
            = s.mem.skel.setState e (Skel.settled (s.mem.skel.state e)) := skel_delEdEnd
        exact congrFun (congrArg Skel.rmNext hsk) e
      refine ⟨.settle f e (tasks.filterMap IrqTask.walk)
        (hb.queue f e tail fa t tdP (by rw [ht]; exact List.mem_cons_self)) skel_delEdEnd ?_ ?_,
        fun u x hx => ?_⟩
      · rw [Sys.walks, ht]
        rfl
      · rw [Sys.walks, hrm]
        rfl
      · rwa [privEd_congr (o := s.mem)] at hx
        unfold delEdEnd
        split
        · dsimp only
          split <;> rfl
        · rfl
    · obtain ⟨⟨o₁, tdP'⟩, h₁, h⟩ := Option.bind_eq_some_iff.mp h
      cases h
      exact hquiet _ (quiet_delTd h₁) rfl

/-- **Every step has one of the effects**, and the private parts it leaves or
makes belong to EDs. -/
theorem Sys.step_effect (hb : s.Base) (h : s.step fuel a = some s') :
    Sys.Effect s s' a ∧ ∀ u e, s'.mem.privEd u = some e → e ≠ 0 := by
  have howner : ∀ o' : Ohci, (∀ u e, o'.privEd u = some e → s.mem.privEd u = some e) →
      ∀ u e, o'.privEd u = some e → e ≠ 0 := fun o' ho u e he => hb.owner u e (ho u e he)
  cases a with
  | submitFirst u dummy tds =>
    simp only [Sys.step] at h
    split at h
    · cases h
    rename_i hne
    cases h
    have hcases := fun e he => @submitFirst_cases s.mem u dummy tds e he
    obtain ⟨hskel, hpriv⟩ := hcases _ rfl
    refine ⟨?_, fun z x hx => ?_⟩
    · rcases hskel with hskel | ⟨hinit, hnew, hskel⟩
      · exact .quiet _ hskel rfl
      · exact .init u dummy tds _ hinit hne hnew hskel rfl
    · rcases hpriv z x hx with rfl | hx
      · exact hne
      · exact hb.owner z x hx
  | submitSecond u buf setup =>
    simp only [Sys.step] at h
    split at h
    · obtain ⟨⟨o', ok⟩, h₁, h⟩ := Option.bind_eq_some_iff.mp h
      cases h
      rcases submitSecond_cases h₁ with hq | ⟨e, o₁, o₂, hlinks, hpriv, hdel, hq₁, hlink, hq₂⟩
      · exact ⟨.quiet _ hq.skel rfl, howner _ hq.owner⟩
      · refine ⟨.link u buf setup e fuel o₁ o₂ hlinks (hb.owner u e hpriv) hdel hq₁.skel hlink
          hq₂.skel rfl, howner _ fun z x hx => hq₁.owner z x ?_⟩
        rw [← epLink_privEd hlink]
        exact hq₂.owner z x hx
    · cases h
  | unlink u =>
    cases h
    rcases unlinkUrb_cases (o := s.mem) (u := u) with hq | ⟨e, hun, hpriv, hskel, hown⟩
    · exact ⟨.quiet _ hq.skel rfl, howner _ hq.owner⟩
    · exact ⟨.mark u e hun (hb.owner u e hpriv) hskel rfl, howner _ hown⟩
  | unlinkFinish u =>
    simp only [Sys.step] at h
    split at h
    · cases h
      exact ⟨.quiet _ quiet_unlinkFinish.skel rfl, howner _ quiet_unlinkFinish.owner⟩
    · cases h
  | freeEd e =>
    simp only [Sys.step] at h
    split at h
    · cases h
    rename_i hne
    obtain ⟨o', h₁, h⟩ := Option.bind_eq_some_iff.mp h
    cases h
    rcases freeEd_cases h₁ with rfl | ⟨hnew, o₁, hun, hskel, hpriv⟩
    · exact ⟨.quiet _ rfl rfl, hb.owner⟩
    · exact ⟨.free e fuel o₁ hne hnew hun hskel rfl,
        howner _ (fun u x hx => by rwa [hpriv] at hx)⟩
  | doneIrq =>
    cases h
    exact ⟨.quiet _ rfl rfl, hb.owner⟩
  | delIrq f =>
    cases h
    exact ⟨.delIrq f rfl rfl, hb.owner⟩
  | resume =>
    simp only [Sys.step] at h
    split at h
    · cases h
    · rename_i task tasks ht
      obtain ⟨⟨o', task'⟩, h₁, h⟩ := Option.bind_eq_some_iff.mp h
      cases h
      obtain ⟨heff, hown⟩ := resume_effect hb ht h₁
      exact ⟨heff, howner _ hown⟩
  | frame n =>
    cases h
    exact ⟨.frame n _ rfl rfl, hb.owner⟩
  | hcEd e head halted carry =>
    cases h
    exact ⟨.quiet _ (Ohci.skel_modEd_quiet (by intro; rfl)) rfl, hb.owner⟩
  | hcTd t cc cbp next psw =>
    cases h
    exact ⟨.quiet _ rfl rfl, hb.owner⟩
  | hcDone t =>
    cases h
    exact ⟨.quiet _ rfl rfl, hb.owner⟩
  | hcData x b =>
    cases h
    exact ⟨.quiet _ rfl rfl, hb.owner⟩

/-- `dl_del_list` works on an ED it has got to. -/
theorem IrqTask.step_queue {task : IrqTask} {task' : Option IrqTask} {o o' : Ohci}
    (h : task.step fuel o = some (o', task'))
    (hq : ∀ frame e tail fa t tdP, task = .delQueue frame e tail fa t tdP → e ≠ 0) :
    ∀ frame e tail fa t tdP, task' = some (.delQueue frame e tail fa t tdP) → e ≠ 0 := by
  intro frame e tail fa t tdP ht
  subst ht
  cases task with
  | del f e' =>
    simp only [IrqTask.step] at h
    split at h
    · cases h
    · cases h
      assumption
  | delQueue f e' tail' fa' t' tdP' =>
    simp only [IrqTask.step] at h
    split at h
    · cases h
    · obtain ⟨⟨o₁, l⟩, -, h⟩ := Option.bind_eq_some_iff.mp h
      cases h
      exact hq _ _ _ _ _ _ rfl
  | done t' =>
    simp only [IrqTask.step] at h
    split at h
    · cases h
    · obtain ⟨⟨o₁, again⟩, -, h⟩ := Option.bind_eq_some_iff.mp h
      cases again <;> cases h
  | reverse t' rev =>
    simp only [IrqTask.step] at h
    split at h <;> cases h
  | requeue u e' next =>
    obtain ⟨o₁, -, h⟩ := Option.bind_eq_some_iff.mp h
    cases h
  | endEd e' next =>
    obtain ⟨o₁, -, h⟩ := Option.bind_eq_some_iff.mp h
    cases h

theorem Sys.step_queue (hb : s.Base) (h : s.step fuel a = some s') :
    ∀ frame e tail fa t tdP, .delQueue frame e tail fa t tdP ∈ s'.tasks → e ≠ 0 := by
  intro frame e tail fa t tdP hmem
  -- only three kinds of steps change what runs
  have hsame : s'.tasks = s.tasks → e ≠ 0 := fun ht => hb.queue frame e tail fa t tdP (ht ▸ hmem)
  cases a
  case resume =>
    simp only [Sys.step] at h
    split at h
    · cases h
    · rename_i task tasks ht
      obtain ⟨⟨o', task'⟩, h₁, h⟩ := Option.bind_eq_some_iff.mp h
      cases h
      rcases List.mem_append.mp hmem with hm | hm
      · refine IrqTask.step_queue h₁ (fun f' e' tail' fa' t' tdP' htask => ?_) frame e
          tail fa t tdP
          (Option.mem_toList.mp hm)
        exact hb.queue f' e' tail' fa' t' tdP' (by rw [ht, htask]; exact List.mem_cons_self)
      · exact hb.queue frame e tail fa t tdP (by rw [ht]; exact List.mem_cons_of_mem _ hm)
  case doneIrq =>
    cases h
    rcases List.mem_cons.mp hmem with hm | hm
    · cases hm
    · exact hb.queue frame e tail fa t tdP hm
  case delIrq f =>
    cases h
    rcases List.mem_cons.mp hmem with hm | hm
    · cases hm
    · exact hb.queue frame e tail fa t tdP hm
  case submitSecond u buf setup =>
    simp only [Sys.step] at h
    split at h
    · obtain ⟨o', -, h⟩ := Option.bind_eq_some_iff.mp h
      cases h
      exact hsame rfl
    · cases h
  case freeEd e' =>
    simp only [Sys.step] at h
    split at h
    · cases h
    · obtain ⟨o', -, h⟩ := Option.bind_eq_some_iff.mp h
      cases h
      exact hsame rfl
  all_goals
    simp only [Sys.step] at h
    first
      | (split at h <;> cases h <;> exact hsame rfl)
      | (cases h; exact hsame rfl)

/-- What `sohci_free_dev` does to the states. -/
theorem free_state {e : EdPtr} {o o' : Ohci} (h0 : e ≠ 0)
    (h : o.skel.state e = .edOper ∧ epUnlink fuel o e = some o' ∨
      o.skel.state e ≠ .edOper ∧ o' = o) :
    ∀ x, x ≠ e → o'.skel.state x = o.skel.state x := by
  intro x hx
  rcases h with ⟨-, hun⟩ | ⟨-, rfl⟩
  · rw [(epUnlink_reschedules h0 hun).state, Function.update_of_ne hx]
  · rfl

/-- Every step keeps the base. -/
theorem Sys.step_base (hb : s.Base) (h : s.step fuel a = some s') : s'.Base := by
  obtain ⟨heff, hown⟩ := Sys.step_effect hb h
  refine ⟨hown, ?_, Sys.step_queue hb h⟩
  cases heff with
  | quiet a hs _ => rw [hs, hb.zero]
  | frame n b hs _ =>
    rw [hs]
    exact hb.zero
  | init u dummy tds e _ h0 _ hs _ =>
    rw [hs, Skel.init_of_ne _ _ _ _ h0.symm, hb.zero]
  | link u buf setup e fuel o o' _ h0 _ hs hl hs' _ =>
    rw [hs', (epLink_reschedules hl).state, Function.update_of_ne h0.symm, hs, hb.zero]
  | unlink e fuel h0 _ hun _ =>
    rw [(epUnlink_reschedules h0 hun).state, Function.update_of_ne h0.symm, hb.zero]
  | mark u e _ h0 hs _ =>
    rw [hs, Skel.setState_of_ne _ _ _ _ h0.symm, Skel.rmEd_state, hb.zero]
  | free e fuel o h0 _ hun hs _ =>
    rw [hs, Skel.setState_of_ne _ _ _ _ h0.symm, Skel.rmEd_state, free_state h0 hun 0 h0.symm,
      hb.zero]
  | delIrq f hs _ => rw [hs, hb.zero]
  | settle f e rest h0 hs _ _ =>
    rw [hs, Skel.setState_of_ne _ _ _ _ h0.symm, hb.zero]
  | delEnd f rest hs _ _ =>
    rw [hs]
    exact hb.zero

theorem Ohci.Idle.base {o : Ohci} (h : o.Idle) : Sys.Base ⟨o, [], [], []⟩ where
  owner := fun u e he => by
    rw [Ohci.privEd, h.hcpriv u] at he
    cases he
  zero := h.state 0
  queue := fun _ _ _ _ _ _ hm => nomatch hm

/-- **The rule for invariants of the lists**: to hold throughout a run it is
enough to hold at first and to be kept by every effect of a step that meets
the condition. -/
theorem Sys.Reach.of_effects {ok : Sys → Act → Prop} {P : Sys → Prop}
    (hinit : ∀ o : Ohci, o.Idle → P ⟨o, [], [], []⟩)
    (hstep : ∀ s s' a, s.Base → P s → ok s a → Sys.Effect s s' a → P s') (h : s.Reach ok) :
    s.Base ∧ P s := by
  refine Sys.Reach.invariant (P := fun s => s.Base ∧ P s) (fun o ho => ⟨ho.base, hinit o ho⟩) ?_ h
  intro s s' fuel a hs hok h
  exact ⟨Sys.step_base hs.1 h, hstep s s' a hs.1 hs.2 hok (Sys.step_effect hs.1 h).1⟩

end Effects
