import SideDumper.TdMoves

/-!
# What a step is

The steps of a run one by one, with what each of them finds and what it leaves: for the
moves of `TdMoves`, and for the passes of the interrupt routines.
-/

/-- **A pass of an interrupt routine**: what it finds, what it leaves in memory and what
is left of the routine. -/
inductive IrqTask.Passed (fuel : ℕ) (o : Ohci) : IrqTask → Ohci → Option IrqTask → Prop
  | reverseEnd (rev : TdPtr) : IrqTask.Passed fuel o (.reverse 0 rev) o (some (.done rev))
  | reverse (t rev : TdPtr) : t ≠ 0 →
      IrqTask.Passed fuel o (.reverse t rev) (reverseTd o t rev)
        (some (.reverse ((reverseTd o t rev).nextTD t) t))
  | doneEnd : IrqTask.Passed fuel o (.done 0) o none
  | done (t : TdPtr) (o' : Ohci) (again : Bool) : t ≠ 0 → doneTd o t = some (o', again) →
      IrqTask.Passed fuel o (.done t) o'
        (some (if again then .requeue (o.td t).urb (o.td t).ed (o.td t).nextDlTd
        else .endEd (o.td t).ed (o.td t).nextDlTd))
  | requeue (u : UrbPtr) (e : EdPtr) (next : TdPtr) (o' : Ohci) : requeueUrb o u = some o' →
      IrqTask.Passed fuel o (.requeue u e next) o' (some (.endEd e next))
  | endEd (e : EdPtr) (next : TdPtr) (o' : Ohci) : doneEd fuel o e = some o' →
      IrqTask.Passed fuel o (.endEd e next) o' (some (.done next))
  | delEnd (f : Bool) : IrqTask.Passed fuel o (.del f 0) (delEnd o f) none
  | delStart (f : Bool) (e : EdPtr) : e ≠ 0 →
      IrqTask.Passed fuel o (.del f e) o
        (some (.delQueue f e (o.ed e).hwTailP (o.ed e).hwINFO.fa (o.ed e).hwHeadP (.head e)))
  | delLeave (f : Bool) (e : EdPtr) (tail : TdPtr) (fa : ℕ) (tdP : TdLink) :
      IrqTask.Passed fuel o (.delQueue f e tail fa tail tdP) (delEdEnd o e tail fa)
        (some (.del f ((delEdEnd o e tail fa).ed e).edRmList))
  | delTd (f : Bool) (e : EdPtr) (tail : TdPtr) (fa : ℕ) (t : TdPtr) (tdP tdP' : TdLink) (o' :
      Ohci) : t ≠ tail →
      delTd o e t tdP = some (o', tdP') →
      IrqTask.Passed fuel o (.delQueue f e tail fa t tdP) o'
        (some (.delQueue f e tail fa (o.nextTD t) tdP'))

/-- **A step of a run**: what it finds and what it leaves. -/
inductive Sys.Moved (fuel : ℕ) (s : Sys) : Move → Sys → Prop
  | first (u : UrbPtr) (dummy : TdPtr) (tds : ℕ → TdPtr) (o : Ohci) (more : Bool) :
      submitFirst s.mem u dummy tds = (o, more) →
      Sys.Moved fuel s (.act (.submitFirst u dummy tds))
        { s with mem := o, pend := if more then u :: s.pend else s.pend }
  | second (u : UrbPtr) (buf setup : ℕ) (o : Ohci) (more : Bool) : u ∈ s.pend →
      submitSecond fuel s.mem u buf setup = some (o, more) →
      Sys.Moved fuel s (.act (.submitSecond u buf setup))
        { s with mem := o, pend := s.pend.erase u }
  | unlink (u : UrbPtr) (waiting : List UrbPtr) :
      Sys.Moved fuel s (.act (.unlink u))
        { s with mem := (unlinkUrb s.mem u).1, waiting := waiting }
  | unlinkFinish (u : UrbPtr) : u ∈ s.waiting →
      Sys.Moved fuel s (.act (.unlinkFinish u))
        { s with mem := unlinkFinish s.mem u, waiting := s.waiting.erase u }
  | freeEd (e : EdPtr) (o : Ohci) : e ≠ 0 → freeEd fuel s.mem e = some o →
      Sys.Moved fuel s (.act (.freeEd e)) { s with mem := o }
  | doneIrq : Sys.Moved fuel s (.act .doneIrq)
      { s with
        mem := { s.mem with doneHead := 0 }
        tasks := .reverse s.mem.doneHead 0 :: s.tasks }
  | delIrq (f : Bool) : Sys.Moved fuel s (.act (.delIrq f))
      { s with tasks := .del f (s.mem.edRmList f) :: s.tasks }
  | resume (k : IrqTask) (ks : List IrqTask) (o : Ohci) (k' : Option IrqTask) :
      s.tasks = k :: ks →
      k.Passed fuel s.mem o k' →
        Sys.Moved fuel s (.act .resume) { s with mem := o, tasks := k'.toList ++ ks }
  | frame (n : ℕ) : Sys.Moved fuel s (.act (.frame n))
      { s with mem := { s.mem with frameNo := n } }
  | hcData (a : ℕ) (b : UInt8) :
      Sys.Moved fuel s (.act (.hcData a b))
        { s with mem := { s.mem with iop := Function.update s.mem.iop a b } }
  | advance (e : EdPtr) (cc cbp psw : ℕ) : (s.mem.ed e).hwHeadP ≠ (s.mem.ed e).hwTailP →
      Sys.Moved fuel s (.advance e cc cbp psw)
        { s with mem := s.mem.modTd (s.mem.ed e).hwHeadP (fun r =>
            { r with hwINFO := { r.hwINFO with cc := cc }, hwCBP := cbp, hwPSW := psw }) }
  | retire (e : EdPtr) (cc cbp psw : ℕ) (halted carry : Bool) :
      (s.mem.ed e).hwHeadP ≠ (s.mem.ed e).hwTailP →
      Sys.Moved fuel s (.retire e cc cbp psw halted carry)
        { s with mem := { (s.mem.modEd e (fun r =>
            { r with
              hwHeadP := s.mem.nextTD (s.mem.ed e).hwHeadP
              headHalted := halted
              headCarry := carry })).modTd (s.mem.ed e).hwHeadP (fun r =>
            { r with
              hwINFO := { r.hwINFO with cc := cc }
              hwCBP := cbp
              hwNextTD := s.mem.regDonehead
              hwPSW := psw }) with
          regDonehead := (s.mem.ed e).hwHeadP } }
  | writeBack : s.mem.doneHead = 0 →
      Sys.Moved fuel s .writeBack
        { s with mem := { s.mem with doneHead := s.mem.regDonehead, regDonehead := 0 } }

variable {fuel : ℕ} {s s' : Sys} {m : Move} {k : IrqTask} {o o' : Ohci} {k' : Option IrqTask}

theorem IrqTask.passed (h : k.step fuel o = some (o', k')) : k.Passed fuel o o' k' := by
  cases k with
  | reverse t rev =>
    simp only [IrqTask.step] at h
    split at h
    · subst t
      cases h
      exact .reverseEnd rev
    · cases h
      exact .reverse t rev ‹_›
  | done t =>
    simp only [IrqTask.step] at h
    split at h
    · subst t
      cases h
      exact .doneEnd
    · obtain ⟨⟨o₁, again⟩, h₁, h⟩ := Option.bind_eq_some_iff.mp h
      cases h
      exact .done t _ again ‹_› h₁
  | requeue u e next =>
    obtain ⟨o₁, h₁, h⟩ := Option.bind_eq_some_iff.mp h
    cases h
    exact .requeue u e next _ h₁
  | endEd e next =>
    obtain ⟨o₁, h₁, h⟩ := Option.bind_eq_some_iff.mp h
    cases h
    exact .endEd e next _ h₁
  | del f e =>
    simp only [IrqTask.step] at h
    split at h
    · subst e
      cases h
      exact .delEnd f
    · cases h
      exact .delStart f e ‹_›
  | delQueue f e tail fa t tdP =>
    simp only [IrqTask.step] at h
    split at h
    · subst t
      cases h
      exact .delLeave f e tail fa tdP
    · obtain ⟨⟨o₁, tdP'⟩, h₁, h⟩ := Option.bind_eq_some_iff.mp h
      cases h
      exact .delTd f e tail fa t tdP tdP' _ ‹_› h₁

theorem Sys.move_act {a : Act} (hs : s.move fuel (.act a) = some s') :
    s.step fuel a = some s' := by
  simp only [Sys.move] at hs
  split at hs
  · exact hs
  · cases hs

/-- **Every step is one of these.** -/
theorem Sys.moved (hs : s.move fuel m = some s') : s.Moved fuel m s' := by
  cases m with
  | advance e cc cbp psw =>
    simp only [Sys.move] at hs
    split at hs
    · cases hs
    · rename_i hrun
      cases hs
      exact .advance e cc cbp psw fun heq => hrun (.inl heq)
  | retire e cc cbp psw halted carry =>
    simp only [Sys.move] at hs
    split at hs
    · cases hs
    · rename_i hrun
      obtain ⟨s₁, h₁, hs⟩ := Option.bind_eq_some_iff.mp hs
      obtain ⟨s₂, h₂, hs⟩ := Option.bind_eq_some_iff.mp hs
      cases h₁
      cases h₂
      cases hs
      exact .retire e cc cbp psw halted carry fun heq => hrun (.inl heq)
  | writeBack =>
    simp only [Sys.move] at hs
    split at hs
    · cases hs
      exact .writeBack ‹_›
    · cases hs
  | act a =>
    simp only [Sys.move] at hs
    split at hs
    swap
    · cases hs
    rename_i hdriver
    cases a with
    | hcEd | hcTd | hcDone => cases hdriver
    | submitFirst u dummy tds =>
      simp only [Sys.step] at hs
      split at hs
      · cases hs
      · cases hs
        exact .first u dummy tds _ _ rfl
    | submitSecond u buf setup =>
      simp only [Sys.step] at hs
      split at hs
      · obtain ⟨⟨o, more⟩, h, hs⟩ := Option.bind_eq_some_iff.mp hs
        cases hs
        exact .second u buf setup o more ‹_› h
      · cases hs
    | unlink u =>
      cases hs
      exact .unlink u _
    | unlinkFinish u =>
      simp only [Sys.step] at hs
      split at hs
      · cases hs
        exact .unlinkFinish u ‹_›
      · cases hs
    | freeEd e =>
      simp only [Sys.step] at hs
      split at hs
      · cases hs
      · obtain ⟨o, h, hs⟩ := Option.bind_eq_some_iff.mp hs
        cases hs
        exact .freeEd e o ‹_› h
    | doneIrq =>
      cases hs
      exact .doneIrq
    | delIrq f =>
      cases hs
      exact .delIrq f
    | resume =>
      simp only [Sys.step] at hs
      split at hs
      · cases hs
      · rename_i k ks ht
        obtain ⟨⟨o, k'⟩, h, hs⟩ := Option.bind_eq_some_iff.mp hs
        cases hs
        exact .resume k ks o k' ht (IrqTask.passed h)
    | frame n =>
      cases hs
      exact .frame n
    | hcData a b =>
      cases hs
      exact .hcData a b
