import Mathlib.Data.Prod.Lex
import SideDumper.DelQueue
import SideDumper.Descent
import SideDumper.RemovalLists
import SideDumper.SettleOrder
import SideDumper.TdFills

/-!
# The interrupt routines come to an end

`dl_reverse_done_list` and `dl_done_list` work on what the controller has handed over
when they are entered, and `dl_del_list` on the removal list it has found. While they
are at it requests are submitted, resubmitted and unlinked, queues grow and TDs are
retired; nothing of this lengthens what the routines walk. So they do not go on for
ever: an endless run in which no interrupt is entered any more has only finitely many
of their passes.

What is left is measured by the EDs ahead of `dl_del_list`, and after these by the TDs
ahead of the loop that is under way.
-/

/-- Whether a step enters an interrupt routine. -/
def Move.enters : Move → Bool
  | .act .doneIrq | .act (.delIrq _) => true
  | _ => false

/-- **What a step must not do**: leave the queues or the removal lists in a state that
their walks do not expect. -/
def IrqClean (s : Sys) (m : Move) : Prop := MoveClean s m ∧ ∀ a, m = .act a → RmClean s a

/-! ## What is left -/

/-- The passes that end the loops of the interrupt for retired TDs. -/
def IrqTask.lastPasses : IrqTask → ℕ
  | .reverse .. => 2
  | .done _ => 1
  | .requeue .. => 3
  | .endEd .. => 2
  | .del .. | .delQueue .. => 0

/-- **What is left of the interrupt for retired TDs**: a TD is turned around, and then
takes up to three passes. -/
def Sys.settleLeft (s : Sys) (q : TdList → List TdPtr) : ℕ :=
  4 * (q .todo).length + 3 * (q .rev).length + ((s.tasks.find? IrqTask.settles).map
    IrqTask.lastPasses).getD 0

/-- **What is left of `dl_del_list`**: the EDs of its list, and the TDs of the queue it
is at. -/
def Sys.DelLeft (s : Sys) (n : ℕ × ℕ) : Prop :=
  match s.tasks with
  | .del _ e :: _ => ∃ es, Walk s.mem.skel.rmNext 0 e es ∧ n = (2 * es.length + 1, 0)
  | .delQueue _ e tail _ t _ :: _ => ∃ es ts, Walk s.mem.skel.rmNext 0 e es ∧
      Walk s.mem.tdLinks.next tail t ts ∧ n = (2 * es.length, ts.length)
  | _ => n = (0, 0)

/-- **The invariant of such a run.** -/
structure Sys.IrqInv (s : Sys) (q : TdList → List TdPtr) (fill : UrbPtr → ℕ) : Prop where
  base : s.Base
  tds : s.TdInv
  acc : s.TdAcc q fill
  rm : s.mem.skel.RmInv s.walks

/-- **What is left in a state.** -/
def Sys.WorkLeft (s : Sys) (w : ℕ ×ₗ ℕ) : Prop :=
  ∃ q fill n, s.IrqInv q fill ∧ s.DelLeft n ∧ w = toLex (n.1, n.2 + s.settleLeft q)

section Walks

variable {α : Type*} {next next' : α → α} {stop a : α} {xs ys : List α}

theorem Walk.head?_eq (h : Walk next stop a xs) (h' : Walk next' stop a ys) :
    xs.head? = ys.head? := by
  cases xs with
  | nil =>
    cases ys with
    | nil => rfl
    | cons y ys => exact absurd (h'.1.symm.trans h) h'.2.1
  | cons x xs =>
    cases ys with
    | nil => exact absurd (h.1.symm.trans h') h.2.1
    | cons y ys => rw [List.head?_cons, List.head?_cons, ← h.1, ← h'.1]

end Walks

/-! ## What other steps do to it -/

section Steps

variable {s s' : Sys} {q q' : TdList → List TdPtr} {fill fill' : UrbPtr → ℕ} {fuel : ℕ} {a : Act}
    {m : Move} {f : Bool}
  {e : EdPtr} {es : List EdPtr} {ws : List (Bool × EdPtr)} {n : ℕ × ℕ}

/-- The routines stay where they are. -/
theorem Sys.Moved.tasks (hs : s.Moved fuel m s') (hm : m ≠ .act .resume)
    (hent : m.enters = false) :
    s'.tasks = s.tasks := by
  cases hs with
  | resume => exact absurd rfl hm
  | doneIrq | delIrq => cases hent
  | first | second | unlink | unlinkFinish | freeEd | frame | hcData | advance | retire
  | writeBack => rfl

/-- **The rest of a removal list stays** when a routine does not go on: an ED that is put
on a list is not on one. -/
theorem Sys.rmWalk_kept (h : s.mem.skel.RmInv s.walks) (hw : s.walks = (f, e) :: ws)
    (heff : Sys.Effect s s' a) (ha : a ≠ .resume) (hwalk : Walk s.mem.skel.rmNext 0 e es) :
    Walk s'.mem.skel.rmNext 0 e es := by
  have hpush : ∀ (sk : Skel) (x : EdPtr) (st : EdState), sk.rmNext = s.mem.skel.rmNext →
      (sk.state x).pending = (s.mem.skel.state x).pending →
        Walk ((sk.rmEd x).setState x st).rmNext 0 e es := by
    intro sk x st hnext hst
    rw [Skel.setState_rmNext, Skel.rmEd]
    split
    · rwa [hnext]
    · rename_i hp
      obtain ⟨rs, hrs⟩ := h.lists
      have hrest := hrs.walk f
      rw [hw, restOf, if_pos rfl] at hrest
      rw [Skel.push, hnext]
      refine hwalk.update_of_notMem fun hin => hp ?_
      rw [hst]
      refine ((hrs.mem x).mp ?_).2
      rw [hwalk.unique hrest] at hin
      cases f with
      | false => exact List.mem_append_left _ hin
      | true => exact List.mem_append_right _ hin
  cases heff with
  | quiet _ hs | frame _ _ hs | delIrq _ hs =>
    rw [hs]
    exact hwalk
  | init u dummy tds x _ _ _ hs =>
    rw [hs]
    exact hwalk
  | link u buf setup x fuel o o' _ _ _ hs hl hs' =>
    rw [hs', (epLink_reschedules hl).rmNext, hs]
    exact hwalk
  | mark u x _ _ hs =>
    rw [hs]
    exact hpush _ x _ rfl rfl
  | free x fuel o h0 _ hun hs =>
    rw [hs]
    obtain ⟨hoper, hun⟩ | ⟨-, rfl⟩ := hun
    · have hr := epUnlink_reschedules h0 hun
      refine hpush _ x _ hr.rmNext ?_
      rw [hr.state, Function.update_self, hoper]
      rfl
    · exact hpush _ x _ rfl rfl
  | unlink | settle | delEnd => exact absurd rfl ha

/-- **The links on a queue stay** when no routine goes on, and the controller does not
work on its ED. -/
theorem Sys.TdAcc.next_kept {t : TdPtr} (hc : s.TdAcc q fill) (ho : s.mem.ledger.Owners)
    (hs : s.Moved fuel m s') (hm : m ≠ .act .resume)
    (he : ∀ cc cbp psw halted carry, m ≠ .retire e cc cbp psw halted carry)
    (ht : t ∈ q (.queue e)) :
    s'.mem.tdLinks.next t = s.mem.tdLinks.next t := by
  cases hs with
  | resume => exact absurd rfl hm
  | first u dummy tds o more h =>
    obtain ⟨head, hlinks, -⟩ := heads_submitFirst (o := s.mem) (u := u) dummy tds
    rw [h] at hlinks
    exact congrFun (congrArg TdLinks.next hlinks) t
  | second u buf setup o more hu h =>
    obtain ⟨hlinks, -⟩ | ⟨o₁, p, hf, hsub⟩ := hc.second_cases ho hu h
    · exact congrFun (congrArg TdLinks.next hlinks) t
    · obtain ⟨-, -, -, -, hnext⟩ := hf.requeued hc hsub
      exact hnext _ t ht
  | unlink u waiting =>
    obtain ⟨cnt, hlinks⟩ := tdLinks_unlinkUrb_cnt s.mem u
    exact congrFun (congrArg TdLinks.next hlinks) t
  | unlinkFinish u => exact congrFun (congrArg TdLinks.next tdLinks_unlinkFinish) t
  | freeEd x o h0 h => exact congrFun (congrArg TdLinks.next (tdLinks_freeEd h)) t
  | doneIrq | delIrq | frame | hcData | writeBack => rfl
  | advance x cc cbp psw =>
    change Td.hwNextTD _ = Td.hwNextTD _
    dsimp only
    rw [Ohci.modTd_td]
    split
    · rw [‹t = _›]
    · rfl
  | retire x cc cbp psw halted carry hne =>
    obtain ⟨rest, hq⟩ : ∃ rest, q (.queue x) = (s.mem.ed x).hwHeadP :: rest :=
      (hc.listed.threads.walk (.queue x)).cons_of_ne hne
    have hx : TdList.queue e ≠ .queue x := by
      rintro ⟨⟩
      exact he _ _ _ _ _ rfl
    have htne : t ≠ (s.mem.ed x).hwHeadP := fun heq =>
      hc.listed.threads.notMem ht hx.symm (by rw [hq, heq]; exact List.mem_cons_self)
    change Td.hwNextTD _ = Td.hwNextTD _
    dsimp only
    rw [Ohci.modTd_td_of_ne _ _ _ _ htne, Ohci.modEd_td]

/-- **Where `dl_del_list` is**: what is ahead of it on the queue of an ED. -/
theorem Sys.TdAcc.ahead_walk {tail t : TdPtr} {fa : ℕ} {tdP : TdLink} (hc : s.TdAcc q fill)
    (ht : .delQueue f e tail fa t tdP ∈ s.tasks) :
    ∃ ts, Walk s.mem.tdLinks.next tail t ts ∧ ∀ x ∈ ts, x ∈ q (.queue e) := by
  obtain ⟨-, rfl⟩ | ⟨-, kept, ts, zs, hq, -, hw, -⟩ := hc.del f e tail fa t tdP ht
  · exact ⟨[], rfl, by simp⟩
  · refine ⟨ts, hw, fun x hx => ?_⟩
    rw [hq]
    exact List.mem_append_right _ (List.mem_append_left _ hx)

/-- **The controller's steps** do not touch the removal lists. -/
theorem Sys.Moved.hc (hs : s.Moved fuel m s') (hm : ∀ a, m ≠ .act a) :
    s'.mem.skel = s.mem.skel ∧ s'.walks = s.walks := by
  cases hs with
  | retire e cc cbp psw halted carry =>
    have hquiet : (s.mem.modEd e (fun r => { r with
        hwHeadP := s.mem.nextTD (s.mem.ed e).hwHeadP
        headHalted := halted
        headCarry := carry })).skel = s.mem.skel :=
      Ohci.skel_modEd_quiet (by intro; rfl)
    exact ⟨hquiet, rfl⟩
  | advance | writeBack => exact ⟨rfl, rfl⟩
  | first | second | unlink | unlinkFinish | freeEd | doneIrq | delIrq | resume | frame
  | hcData => exact absurd rfl (hm _)

/-- **What is left of `dl_del_list`** stays when no routine goes on. -/
theorem Sys.DelLeft.keep (hn : s.DelLeft n) (h : s.IrqInv q fill) (hok : IrqClean s m)
    (hs : s.move fuel m = some s')
    (hm : m ≠ .act .resume) (hent : m.enters = false) : s'.DelLeft n := by
  have htasks := (Sys.moved hs).tasks hm hent
  have hrm : ∀ f e ws, s.walks = (f, e) :: ws → ∀ es, Walk s.mem.skel.rmNext 0 e es →
      Walk s'.mem.skel.rmNext 0 e es := by
    intro f e ws hw es hes
    cases m with
    | act a =>
      simp only [Sys.move] at hs
      split at hs
      · exact Sys.rmWalk_kept h.rm hw (Sys.step_effect h.base hs).1 (fun ha => hm (ha ▸ rfl)) hes
      · cases hs
    | advance | retire | writeBack =>
      rw [((Sys.moved hs).hc (by simp)).1]
      exact hes
  have htop : ∀ k ks, s.tasks = k :: ks → ∀ f e, k.walk = some (f, e) →
      s.walks = (f, e) :: ks.filterMap IrqTask.walk := by
    intro k ks hk f e he
    rw [Sys.walks, hk, List.filterMap_cons_some he]
  unfold Sys.DelLeft at hn ⊢
  rw [htasks]
  split at hn
  · rename_i f e ks ht
    obtain ⟨es, hes, rfl⟩ := hn
    exact ⟨es, hrm f e _ (htop _ _ ht f e rfl) es hes, rfl⟩
  · rename_i f e tail fa t tdP ks ht
    obtain ⟨es, ts, hes, hts, rfl⟩ := hn
    have hmem : .delQueue f e tail fa t tdP ∈ s.tasks := by
      rw [ht]
      exact List.mem_cons_self
    obtain ⟨ts', hts', hon⟩ := h.acc.ahead_walk hmem
    obtain rfl := hts.unique hts'
    refine ⟨es, ts, hrm f e _ (htop _ _ ht f e rfl) es hes, hts.congr fun x hx => ?_, rfl⟩
    refine h.acc.next_kept h.tds.owners (Sys.moved hs) hm (fun cc cbp psw halted carry heq => ?_)
      (hon x hx)
    subst heq
    exact hok.1.1 f tail fa t tdP hmem
  · exact hn

/-- **The lists of the interrupt for retired TDs** stay when it is at the same TD. -/
theorem Sys.TdAcc.lists_kept {rs : List TdPtr} (hc : s.TdAcc q fill) (hc' : s'.TdAcc q' fill')
    (htodo : s'.todo = s.todo)
    (hstep : (TdList.handOver q).Step rs [] (TdList.handOver q')) :
    q' .todo = q .todo ∧ q' .rev = q .rev := by
  have hw : Walk s.mem.tdLinks.next 0 s.todo (q .todo) := hc.listed.threads.walk .todo
  have hw' : Walk s'.mem.tdLinks.next 0 s'.todo (q' .todo) := hc'.listed.threads.walk .todo
  exact hstep.kept hw.nodup ((htodo ▸ hw').head?_eq hw)

theorem Sys.settleLeft_congr (hlists : q' .todo = q .todo ∧ q' .rev = q .rev)
    (htasks : s'.tasks.find? IrqTask.settles = s.tasks.find? IrqTask.settles) :
    s'.settleLeft q' = s.settleLeft q := by
  rw [Sys.settleLeft, Sys.settleLeft, htasks, hlists.1, hlists.2]

/-- What is left when the interrupt for retired TDs is innermost. -/
theorem Sys.settleLeft_first {k : IrqTask} {ks : List IrqTask} (ht : s.tasks = k :: ks)
    (hk : k.settles = true) :
    s.settleLeft q = 4 * (q .todo).length + 3 * (q .rev).length + k.lastPasses := by
  rw [Sys.settleLeft, ht, List.find?_cons_of_pos hk]
  rfl

end Steps

/-! ## A pass -/

section Passes

variable {s s' : Sys} {q q' : TdList → List TdPtr} {fill fill' : UrbPtr → ℕ} {fuel : ℕ}
    {k : IrqTask} {ks : List IrqTask}
  {k' : Option IrqTask} {o : Ohci} {n : ℕ × ℕ}

/-- **A pass of the interrupt for retired TDs** leaves less of it. -/
theorem Sys.settle_pass (hc : s.TdAcc q fill) (ht : s.tasks = k :: ks) (hk : k.settles = true)
    (h : k.Passed fuel s.mem o k')
    (hc' : Sys.TdAcc { s with mem := o, tasks := k'.toList ++ ks } q' fill')
    (hstep : (TdList.handOver q).Step [] (s.settles (.act .resume)) (TdList.handOver q')) :
    (∀ d ∈ k'.toList ++ ks, d.settles = true) ∧
      Sys.settleLeft { s with mem := o, tasks := k'.toList ++ ks } q' < s.settleLeft q := by
  obtain rfl := (ht ▸ hc.shape).alone hk
  obtain ⟨htodo, -⟩ := Sys.todo_rev_first ht hk
  rw [Sys.settleLeft_first ht hk]
  -- the passes that leave the lists alone
  have hsame : ∀ d : IrqTask, k' = some d → d.settles = true → d.todo = k.todo →
      s.settles (.act .resume) = [] →
      d.lastPasses < k.lastPasses → (∀ x ∈ k'.toList ++ [], x.settles = true) ∧
        Sys.settleLeft { s with mem := o, tasks := k'.toList ++ [] } q'
          < 4 * (q .todo).length + 3 * (q .rev).length + k.lastPasses := by
    rintro d rfl hd hsame hset hlt
    rw [hset] at hstep
    have htasks : (⟨o, s.pend, s.waiting, (some d).toList ++ []⟩ : Sys).tasks = d :: [] := rfl
    obtain ⟨h₁, h₂⟩ :=
      hc.lists_kept hc' ((Sys.todo_rev_first htasks hd).1.trans (hsame.trans htodo.symm)) hstep
    refine ⟨by simpa using hd, ?_⟩
    rw [Sys.settleLeft_first htasks hd, h₁, h₂]
    exact Nat.add_lt_add_left hlt _
  cases h with
  | delEnd | delStart | delLeave | delTd => cases hk
  | reverseEnd rev => exact hsame _ rfl rfl rfl (by simp [Sys.settles, ht]) (Nat.lt_succ_self 1)
  | requeue u e next o h =>
    exact hsame _ rfl rfl rfl (by simp [Sys.settles, ht]) (Nat.lt_succ_self 2)
  | endEd e next o h => exact hsame _ rfl rfl rfl (by simp [Sys.settles, ht]) (Nat.lt_succ_self 1)
  | reverse t rev h0 =>
    refine ⟨by simp [IrqTask.settles], ?_⟩
    obtain ⟨rest, hq, heq⟩ := hc.turned ht h0 hc'
    have h₁ : q' .todo = rest := congrArg HandOver.todo heq
    have h₂ : q' .rev = t :: q .rev := congrArg HandOver.turned heq
    rw [Sys.settleLeft_first rfl rfl, h₁, h₂, hq, List.length_cons, List.length_cons]
    simp only [IrqTask.lastPasses]
    omega
  | doneEnd =>
    refine ⟨by simp, ?_⟩
    have hset : s.settles (.act .resume) = [] := by simp [Sys.settles, ht]
    rw [hset] at hstep
    obtain ⟨h₁, h₂⟩ := hc.lists_kept hc' (htodo ▸ rfl) hstep
    rw [Sys.settleLeft, h₁, h₂]
    exact Nat.lt_succ_self _
  | done t o again h0 h =>
    have hset : s.settles (.act .resume) = [t] := by simp [Sys.settles, ht, h0]
    rw [hset] at hstep
    obtain ⟨htd, htd', hrev⟩ := hstep.got
    rw [show q .todo = [] from htd, show q .rev = t :: q' .rev from hrev]
    have hnew : ∀ d : IrqTask, d.settles = true ∧ d.lastPasses ≤ 3 →
        (∀ x ∈ [d], x.settles = true) ∧
        Sys.settleLeft { s with mem := o, tasks := [d] } q'
          < 4 * ([] : List TdPtr).length + 3 * (t :: q' .rev).length + (IrqTask.done
            t).lastPasses := by
      intro d hd
      refine ⟨by simpa using hd.1, ?_⟩
      rw [Sys.settleLeft_first rfl hd.1, show q' .todo = [] from htd', List.length_cons,
        IrqTask.lastPasses]
      omega
    refine hnew _ ?_
    cases again with
    | true => exact ⟨rfl, le_refl 3⟩
    | false => exact ⟨rfl, Nat.le_succ 2⟩

/-- Nothing is left of `dl_del_list` when it is not under way. -/
theorem Sys.delLeft_of_settles (h : ∀ d ∈ s.tasks, d.settles = true) : s.DelLeft (0, 0) := by
  unfold Sys.DelLeft
  split
  · rename_i ht
    cases h _ (ht ▸ List.mem_cons_self)
  · rename_i ht
    cases h _ (ht ▸ List.mem_cons_self)
  · rfl

/-- The TDs ahead of `dl_del_list` keep their links when it goes on to the next one. -/
theorem Sys.next_delTd {f : Bool} {e : EdPtr} {tail t x : TdPtr} {fa : ℕ}
    {tdP tdP' : TdLink} {o : Ohci}
    {ts : List TdPtr} (hc : s.TdAcc q fill) (ht : s.tasks = .delQueue f e tail fa t tdP :: ks)
    (h0 : t ≠ tail)
    (hw : Walk s.mem.tdLinks.next tail t ts) (hx : x ∈ ts)
    (h : delTd s.mem e t tdP = some (o, tdP')) :
    o.tdLinks.next x = s.mem.tdLinks.next x := by
  obtain ⟨-, hend⟩ | ⟨-, kept, ys, zs, hq, rfl, hys, -⟩ :=
    hc.del f e tail fa t tdP (by rw [ht]; exact List.mem_cons_self)
  · exact absurd hend h0
  obtain rfl := hw.unique hys
  obtain ⟨p, -, ⟨-, rfl, -⟩ | ⟨-, -, hk⟩⟩ := tdLinks_delTd h
  · rfl
  rw [hk, tdLinks_setTdLink]
  refine TdLinks.setLink_next fun hkept => ?_
  have hnd := (hc.listed.threads.walk (.queue e)).nodup
  rw [hq] at hnd
  exact List.disjoint_of_nodup_append hnd hkept (List.mem_append_left _ hx)

/-- **A pass of `dl_del_list`** leaves less of it, and the interrupt below it alone. -/
theorem Sys.del_pass (h : s.IrqInv q fill) (ht : s.tasks = k :: ks) (hk : k.settles = false)
    (hp : k.Passed fuel s.mem o k')
    (hc' : Sys.TdAcc { s with mem := o, tasks := k'.toList ++ ks } q' fill')
    (hstep : (TdList.handOver q).Step [] (s.settles (.act .resume)) (TdList.handOver q'))
    (hn : s.DelLeft n) :
    Sys.settleLeft { s with mem := o, tasks := k'.toList ++ ks } q' = s.settleLeft q ∧
      ∃ n', Sys.DelLeft { s with mem := o, tasks := k'.toList ++ ks } n' ∧
        toLex n' < toLex n := by
  have hks : ∀ d ∈ ks, d.settles = true := by
    have hshape := ht ▸ h.acc.shape
    cases hshape with
    | settle hset => cases hk.symm.trans hset
    | del => exact fun _ hd => absurd hd List.not_mem_nil
    | nested _ hset => simpa using hset
  have hk' : ∀ d ∈ k', d.settles = false := by
    cases hp with
    | reverseEnd | reverse | doneEnd | done | requeue | endEd => cases hk
    | delEnd => exact fun _ hd => absurd hd (by simp)
    | delStart | delLeave | delTd => simp [IrqTask.settles]
  have hset : s.settles (.act .resume) = [] := by
    cases k with
    | del | delQueue => simp [Sys.settles, ht]
    | reverse | done | requeue | endEd => cases hk
  rw [hset] at hstep
  refine ⟨Sys.settleLeft_congr (h.acc.lists_kept hc' (Sys.todo_rev_del o k' ht hk hk').1 hstep)
    ?_, ?_⟩
  · rw [ht, List.find?_cons_of_neg (by simp [hk])]
    cases k' with
    | none => rfl
    | some d => exact List.find?_cons_of_neg (by simp [hk' d rfl])
  unfold Sys.DelLeft at hn
  rw [ht] at hn
  cases hp with
  | reverseEnd | reverse | doneEnd | done | requeue | endEd => cases hk
  | delEnd f =>
    obtain ⟨es, hes, rfl⟩ := hn
    exact ⟨(0, 0), Sys.delLeft_of_settles (by simpa using hks),
      Prod.Lex.toLex_lt_toLex.mpr (.inl (Nat.succ_pos _))⟩
  | delStart f e h0 =>
    obtain ⟨es, hes, rfl⟩ := hn
    exact ⟨_, ⟨es, q (.queue e), hes, h.acc.listed.threads.walk (.queue e), rfl⟩,
      Prod.Lex.toLex_lt_toLex.mpr (.inl (Nat.lt_succ_self _))⟩
  | delLeave f e tail fa tdP =>
    obtain ⟨es, ts, hes, hts, rfl⟩ := hn
    obtain ⟨rest, rfl⟩ :=
      hes.cons_of_ne (h.base.queue f e tail fa tail tdP (by rw [ht]; exact List.mem_cons_self))
    have hsk : (delEdEnd s.mem e tail fa).skel.rmNext = s.mem.skel.rmNext := by
      rw [skel_delEdEnd, Skel.setState_rmNext]
    refine ⟨_, ⟨rest, ?_, rfl⟩, Prod.Lex.toLex_lt_toLex.mpr (.inl ?_)⟩
    · change Walk (delEdEnd s.mem e tail fa).skel.rmNext 0
        ((delEdEnd s.mem e tail fa).skel.rmNext e) rest
      rw [hsk]
      exact hes.2.2
    · rw [List.length_cons]
      omega
  | delTd f e tail fa t tdP tdP' o h0 h₂ =>
    obtain ⟨es, ts, hes, hts, rfl⟩ := hn
    obtain ⟨rest, rfl⟩ := hts.cons_of_ne h0
    refine ⟨_, ⟨es, rest, ?_, ?_, rfl⟩,
      Prod.Lex.toLex_lt_toLex.mpr (.inr ⟨rfl, Nat.lt_succ_self _⟩)⟩
    · dsimp only
      rw [(quiet_delTd h₂).skel]
      exact hes
    · exact hts.2.2.congr fun x hx =>
        Sys.next_delTd h.acc ht h0 hts (List.mem_cons_of_mem _ hx) h₂

end Passes

/-! ## A run -/

section Runs

variable {s s' : Sys} {q q' : TdList → List TdPtr} {fill fill' : UrbPtr → ℕ} {fuel : ℕ} {m : Move}
    {w : ℕ ×ₗ ℕ}

/-- **Every step that is clean** keeps the invariant. -/
theorem Sys.IrqInv.move (h : s.IrqInv q fill) (hok : IrqClean s m)
    (hs : s.move fuel m = some s') :
    ∃ q' fill', s'.IrqInv q' fill' := by
  obtain ⟨hb, hi, q', fill', hc, -⟩ := h.acc.move h.base h.tds hok.1 hs
  refine ⟨q', fill', hb, hi, hc, ?_⟩
  cases m with
  | act a =>
    simp only [Sys.move] at hs
    split at hs
    · exact RmInv.effect h.rm (hok.2 a rfl) (Sys.step_effect h.base hs).1
    · cases hs
  | advance | retire | writeBack =>
    obtain ⟨hskel, hwalks⟩ := (Sys.moved hs).hc (by simp)
    rw [hskel, hwalks]
    exact h.rm

theorem Sys.IrqInv.workLeft (h : s.IrqInv q fill) : ∃ w, s.WorkLeft w := by
  have hrest : ∀ f e ws, s.walks = (f, e) :: ws → ∃ es, Walk s.mem.skel.rmNext 0 e es := by
    intro f e ws hw
    obtain ⟨rs, hrs⟩ := h.rm.lists
    have hwalk := hrs.walk f
    rw [hw, restOf, if_pos rfl] at hwalk
    exact ⟨_, hwalk⟩
  obtain ⟨n, hn⟩ : ∃ n, s.DelLeft n := by
    unfold Sys.DelLeft
    split
    · rename_i f e ks ht
      obtain ⟨es, hes⟩ := hrest f e (ks.filterMap IrqTask.walk) (by rw [Sys.walks, ht]; rfl)
      exact ⟨_, es, hes, rfl⟩
    · rename_i f e tail fa t tdP ks ht
      obtain ⟨es, hes⟩ := hrest f e (ks.filterMap IrqTask.walk) (by rw [Sys.walks, ht]; rfl)
      obtain ⟨ts, hts, -⟩ := h.acc.ahead_walk (by rw [ht]; exact List.mem_cons_self)
      exact ⟨_, es, ts, hes, hts, rfl⟩
    · exact ⟨_, rfl⟩
  exact ⟨_, q, fill, n, h, hn, rfl⟩

/-- **No step lengthens what is left**, and every pass shortens it. -/
theorem Sys.WorkLeft.move (h : s.WorkLeft w) (hok : IrqClean s m) (hent : m.enters = false)
    (hs : s.move fuel m = some s') : ∃ w' ≤ w, s'.WorkLeft w' ∧ (m = .act .resume → w' < w) := by
  obtain ⟨q, fill, n, hinv, hn, rfl⟩ := h
  obtain ⟨q', fill', hinv'⟩ := hinv.move hok hs
  have hstep := hinv.acc.order_move hinv.tds hok.1.1 hs hinv'.acc
  by_cases hm : m = .act .resume
  · subst hm
    cases Sys.moved hs with
    | resume k ks o k' ht hp =>
      obtain ⟨n', hn', hlt⟩ : ∃ n', Sys.DelLeft { s with mem := o, tasks := k'.toList ++ ks } n' ∧
          toLex (n'.1, n'.2 + Sys.settleLeft { s with mem := o, tasks := k'.toList ++ ks } q')
            < toLex (n.1, n.2 + s.settleLeft q) := by
        cases hk : k.settles with
        | true =>
          obtain ⟨hall, hlt⟩ := Sys.settle_pass hinv.acc ht hk hp hinv'.acc hstep
          have hn0 : n = (0, 0) := by
            unfold Sys.DelLeft at hn
            rw [ht] at hn
            cases k with
            | del | delQueue => cases hk
            | reverse | done | requeue | endEd => exact hn
          subst hn0
          exact ⟨(0, 0), Sys.delLeft_of_settles hall,
            Prod.Lex.toLex_lt_toLex.mpr (.inr ⟨rfl, by simpa using hlt⟩)⟩
        | false =>
          obtain ⟨hsame, n', hn', hlt⟩ := Sys.del_pass hinv ht hk hp hinv'.acc hstep hn
          refine ⟨n', hn', Prod.Lex.toLex_lt_toLex.mpr ?_⟩
          rw [hsame]
          exact (Prod.Lex.toLex_lt_toLex.mp hlt).imp_right fun h =>
            ⟨h.1, Nat.add_lt_add_right h.2 _⟩
      exact ⟨_, hlt.le, ⟨q', fill', n', hinv', hn', rfl⟩, fun _ => hlt⟩
  · have htasks := (Sys.moved hs).tasks hm hent
    have hset : s.settles m = [] := by
      unfold Sys.settles
      split
      · exact absurd rfl hm
      · rfl
    rw [hset] at hstep
    have hleft : s'.settleLeft q' = s.settleLeft q := Sys.settleLeft_congr
      (hinv.acc.lists_kept hinv'.acc (by rw [Sys.todo, Sys.todo, htasks]) hstep) (by rw [htasks])
    exact ⟨_, le_refl _, ⟨q', fill', n, hinv', hn.keep hinv hok hs hm hent, by rw [hleft]⟩,
      fun h => absurd h hm⟩

/-- **The interrupt routines come to an end**: an endless run of clean steps in which no
interrupt is entered any more has finitely many passes of the routines that have been. -/
theorem interrupts_end {o : Ohci} {run : ℕ → Sys} {ms : ℕ → Move} (ho : o.Idle) (hn : o.NoTds)
    (h0 : run 0 = ⟨o, [], [], []⟩) (hok : ∀ i, IrqClean (run i) (ms i))
    (hs : ∀ i, ∃ fuel, (run i).move fuel (ms i) = some (run (i + 1)))
    (hent : ∃ n, ∀ i ≥ n, (ms i).enters = false) : ∃ n, ∀ i ≥ n, ms i ≠ .act .resume := by
  have hinv : ∀ i, ∃ q fill, (run i).IrqInv q fill := by
    intro i
    induction i with
    | zero =>
      rw [h0]
      exact ⟨_, _, ho.base, ho.tdInv hn.alloc, ho.tdAcc hn, ho.rmInv⟩
    | succ i ih =>
      obtain ⟨q, fill, h⟩ := ih
      obtain ⟨fuel, hfuel⟩ := hs i
      exact h.move (hok i) hfuel
  obtain ⟨n, hent⟩ := hent
  obtain ⟨q, fill, hn⟩ := hinv n
  obtain ⟨w, hw⟩ := hn.workLeft
  have hd : Descends Sys.WorkLeft (fun i => run (n + i))
      (fun i => ms (n + i) = .act .resume) := by
    intro i w hw
    obtain ⟨fuel, hfuel⟩ := hs (n + i)
    exact hw.move (hok (n + i)) (hent (n + i) (Nat.le_add_right n i)) hfuel
  obtain ⟨k, hk⟩ := hd.ends (i := 0) hw
  refine ⟨n + k, fun i hi => ?_⟩
  obtain ⟨j, rfl⟩ := Nat.exists_eq_add_of_le hi
  rw [Nat.add_assoc]
  exact hk (k + j) (Nat.le_add_right k j)

end Runs

/-! ## No pass gets stuck -/

section Stuck

variable {o o' : Ohci} {s : Sys} {q : TdList → List TdPtr} {fill : UrbPtr → ℕ} {u : UrbPtr}
    {p : UrbPriv} {t : TdPtr}
  {e : EdPtr} {k : IrqTask} {ks : List IrqTask}

theorem exists_doneTd (hp : (o.urb (o.td t).urb).hcpriv = some p) : ∃ r, doneTd o t = some r := by
  obtain ⟨o₁, h₁⟩ : ∃ o₁, dlTransferLength o t = some o₁ := by
    unfold dlTransferLength
    dsimp only
    rw [hp]
    split <;> exact ⟨_, rfl⟩
  have hp₁ : ((haltOnStall o₁ (o.td t).urb (o.td t).hwINFO.cc).urb (o.td t).urb).hcpriv
      = some p := by
    rw [← hp, ← dlTransferLength_hcpriv h₁]
    unfold haltOnStall
    dsimp only
    split <;> rfl
  unfold doneTd
  dsimp only
  rw [h₁, Option.bind_eq_bind, Option.bind_some, countTd_urb_self hp₁, Option.bind_eq_bind,
    Option.bind_some]
  split <;> exact ⟨_, rfl⟩

theorem exists_requeueUrb (hp : (o.urb u).hcpriv = some p) : ∃ o', requeueUrb o u = some o' := by
  have hkeep : ∀ (o : Ohci) (f : Urb → Urb), (o.urb u).hcpriv = some p →
      (∀ r, (f r).hcpriv = r.hcpriv) →
      ((o.modUrb u f).urb u).hcpriv = some p :=
        fun o f hp hf => by rw [Ohci.modUrb_urb_self, hf, hp]
  have hagain := hkeep o (fun r => { r with actualLength := 0, status := .einprogress }) hp
    (fun _ => rfl)
  unfold requeueUrb
  rw [hp, Option.bind_eq_bind, Option.bind_some]
  dsimp only
  split
  · split
    · exact ⟨_, rfl⟩
    · exact tdSubmitUrb_total (hkeep _ resetPackets (hkeep _ _ hagain fun _ => rfl) fun _ => rfl)
  · split
    · exact ⟨_, rfl⟩
    · exact tdSubmitUrb_total hagain

/-- `ep_unlink` walks a list for periodic EDs only. -/
theorem exists_doneEd (fuel : ℕ) (h : (o.ed e).type = .ctrl ∨ (o.ed e).type = .bulk) :
    ∃ o', doneEd fuel o e = some o' := by
  unfold doneEd
  split
  · unfold epUnlink unlinkType
    dsimp only
    rw [Ohci.modEd_ed_self]
    dsimp only
    obtain h | h := h <;> rw [h] <;> exact ⟨_, rfl⟩
  · exact ⟨_, rfl⟩

/-- The request of a TD that is to be settled has its private part. -/
theorem Sys.TdAcc.owned {i : TdList} (hc : s.TdAcc q fill) (ht : t ∈ q i) :
    ∃ p, (s.mem.urb (s.mem.td t).urb).hcpriv = some p := by
  obtain ⟨h, hp, -⟩ := hc.listed.part i t ht
  obtain ⟨p, hp, -⟩ := Option.map_eq_some_iff.mp hp
  exact ⟨p, hp⟩

/-- **No pass gets stuck**: in every run of clean steps the next pass of a routine that is
under way finds every private part it reads, and comes to its end – but for
`ep_unlink` of a periodic ED, which walks a list. -/
theorem pass_goes_on (ho : o.Idle) (hn : o.NoTds) (h : Sys.Moves MoveClean ⟨o, [], [], []⟩ s)
    (ht : s.tasks = k :: ks)
    (hk : ∀ e next, k = .endEd e next → (s.mem.ed e).type = .ctrl ∨ (s.mem.ed e).type = .bulk)
    (fuel : ℕ) :
    ∃ r, k.step fuel s.mem = some r := by
  obtain ⟨-, -, q, fill, hc⟩ := h.tdAcc ho hn
  cases k with
  | reverse t rev =>
    rw [IrqTask.step]
    split <;> exact ⟨_, rfl⟩
  | del f e =>
    rw [IrqTask.step]
    split <;> exact ⟨_, rfl⟩
  | done t =>
    rw [IrqTask.step]
    split
    · exact ⟨_, rfl⟩
    rename_i h0
    have hw : Walk s.mem.tdLinks.dl 0 s.rev (q .rev) := hc.listed.threads.walk .rev
    rw [show s.rev = t from (Sys.todo_rev_first ht rfl).2] at hw
    obtain ⟨p, hp⟩ := hc.owned (hw.start_mem h0)
    obtain ⟨r, hr⟩ := exists_doneTd hp
    exact ⟨_, by rw [hr]; rfl⟩
  | requeue u e next =>
    obtain ⟨x, hx, -⟩ := hc.idle u e next (by rw [ht]; exact List.mem_cons_self)
    obtain ⟨p, hp, -⟩ := Option.map_eq_some_iff.mp hx
    obtain ⟨o', ho'⟩ := exists_requeueUrb hp
    exact ⟨_, by rw [IrqTask.step, ho']; rfl⟩
  | endEd e next =>
    obtain ⟨o', ho'⟩ := exists_doneEd fuel (hk e next rfl)
    exact ⟨_, by rw [IrqTask.step, ho']; rfl⟩
  | delQueue f e tail fa t tdP =>
    rw [IrqTask.step]
    split
    · exact ⟨_, rfl⟩
    rename_i h0
    obtain ⟨ts, hts, hon⟩ := hc.ahead_walk (by rw [ht]; exact List.mem_cons_self)
    obtain ⟨p, hp⟩ := hc.owned (hon t (hts.start_mem h0))
    obtain ⟨r, hr⟩ := exists_delTd e tdP hp
    exact ⟨_, by rw [hr]; rfl⟩

end Stuck

/-! ## A request of two TDs -/

section Example

/-- The controller retires the first of the two TDs of a request and hands it over, and
`dl_done_list` is entered. -/
def retireFirst : List Move :=
  [.act (.submitFirst 1 100 (fun i => 101 + i)), .act (.submitSecond 1 0 4096),
    .retire 12 0 0 0 false false, .writeBack, .act .doneIrq, .act .resume, .act .resume]

/-- `dl_done_list` is at the TD. -/
theorem firstRetired_clean :
    ∃ s : Sys, Sys.moves 1 ⟨controlUrbs, [], [], []⟩ retireFirst = some s ∧
    Sys.Moves IrqClean ⟨controlUrbs, [], [], []⟩ s ∧ s.tasks = [.done 100] := by
  obtain ⟨s₁, h₁, hobs⟩ := Option.map_eq_some_iff.mp (show (Sys.moves 1 ⟨controlUrbs, [], [], []⟩
    [.act (.submitFirst 1 100 (fun i => 101 + i))]).map (fun s =>
      (linksEd s.mem 1 0 4096, (s.mem.ed 12).state))
      = some (some 12, .edUnlink) by decide +kernel)
  obtain ⟨hlinks, hstate⟩ := Prod.mk.inj hobs
  have hrun₁ : Sys.Moves IrqClean ⟨controlUrbs, [], [], []⟩ s₁ := by
    refine Sys.Moves.stretch (m := .act (.submitFirst 1 100 (fun i => 101 + i))) .start
      ⟨⟨⟨⟨fun _ => rfl, fun i hi _ =>
        ⟨rfl, ?_, fun j hj hji => ?_⟩⟩, by decide⟩, by simp, by simp, by simp⟩,
        by simp [RmClean]⟩ (by simp) h₁
    · change 101 + i ≠ 100
      omega
    · have hji' : 101 + j = 101 + i := hji
      omega
  obtain ⟨s₂, h₂, ht₂, hs₂⟩ :=
    Sys.moves_next [.act (.submitSecond 1 0 4096)] h₁ (f := Sys.tasks) (v := [])
    (by decide +kernel)
  have hrun₂ :=
    hrun₁.stretch (m := .act (.submitSecond 1 0 4096)) ⟨⟨trivial, by simp, by simp, by simp⟩, (by
    rintro _ ⟨⟩ e he
    rw [hlinks] at he
    cases he
    rw [hstate]
    rfl)⟩ (by simp) h₂
  obtain ⟨s₃, h₃, ht₃, hs₃⟩ :=
    Sys.moves_next [.retire 12 0 0 0 false false, .writeBack] hs₂ (f := Sys.tasks)
    (v := []) (by decide +kernel)
  have hrun₃ := hrun₂.stretch (m := .retire 12 0 0 0 false false)
    ⟨⟨by simp [MoveDomain, ht₂], by simp, by simp, by simp⟩,
    by simp⟩ (by simp [IrqClean, MoveClean, MoveDomain]) h₃
  obtain ⟨s₄, h₄, hobs, hs₄⟩ :=
    Sys.moves_next [.act .doneIrq] hs₃ (f := fun s => (s.tasks, (s.mem.td 100).hwINFO.cc))
    (v := ([.reverse 100 0], 0)) (by decide +kernel)
  obtain ⟨ht₄, hcc⟩ := Prod.mk.inj hobs
  have hrun₄ := hrun₃.stretch (m := .act .doneIrq)
    ⟨⟨ht₃, by simp, by simp, by simp⟩, by simp [RmClean]⟩ (by simp) h₄
  obtain ⟨s₅, h₅, ht₅, hs₅⟩ :=
    Sys.moves_next [.act .resume] hs₄ (f := Sys.tasks) (v := [.reverse 0 100])
    (by decide +kernel)
  have hrun₅ := hrun₄.stretch (m := .act .resume) ⟨⟨trivial, by simp, by simp, (by
    rintro t rev ks - ht -
    rw [ht₄] at ht
    cases ht
    exact fun hne => absurd hcc hne)⟩, by simp [RmClean]⟩ (by simp) h₅
  obtain ⟨s, h, ht, hs⟩ :=
    Sys.moves_next [.act .resume] hs₅ (f := Sys.tasks) (v := [.done 100]) (by decide +kernel)
  exact ⟨s, hs, hrun₅.stretch (m := .act .resume) ⟨⟨trivial, by simp, by simp, (by
    rintro t rev ks - ht h0
    rw [ht₅] at ht
    cases ht
    exact absurd rfl h0)⟩, by simp [RmClean]⟩ (by simp) h, ht⟩

/-- `dl_done_list` has settled the TD, and is at the end of the list. -/
theorem firstSettled_clean :
    ∃ s s' : Sys, Sys.Moves IrqClean ⟨controlUrbs, [], [], []⟩ s ∧ s.tasks = [.done 0] ∧
    s.move 1 (.act .resume) = some s' ∧ s'.tasks = [] := by
  obtain ⟨s₁, hs₁, hrun₁, ht₁⟩ := firstRetired_clean
  have hpass : ∀ {s s' : Sys} {k : IrqTask}, Sys.Moves IrqClean ⟨controlUrbs, [], [], []⟩ s →
      s.tasks = [k] →
      (∀ t rev, k ≠ .reverse t rev) → s.moves 1 [.act .resume] = some s' →
      Sys.Moves IrqClean ⟨controlUrbs, [], [], []⟩ s' := by
    intro s s' k hrun ht hk h
    refine hrun.stretch (m := .act .resume) ⟨⟨trivial, by simp, by simp, ?_⟩, by simp [RmClean]⟩
      (by simp) h
    rintro t rev ks - ht' -
    rw [ht] at ht'
    cases ht'
    exact absurd rfl (hk t rev)
  obtain ⟨s₂, h₂, ht₂, hs₂⟩ :=
    Sys.moves_next [.act .resume] hs₁ (f := Sys.tasks) (v := [.endEd 12 0])
    (by decide +kernel)
  have hrun₂ := hpass hrun₁ ht₁ (by simp) h₂
  obtain ⟨s₃, h₃, ht₃, hs₃⟩ :=
    Sys.moves_next [.act .resume] hs₂ (f := Sys.tasks) (v := [.done 0]) (by decide +kernel)
  obtain ⟨s₄, h₄, ht₄, -⟩ :=
    Sys.moves_next [.act .resume] hs₃ (f := Sys.tasks) (v := []) (by decide +kernel)
  obtain ⟨s₅, h₅, heq⟩ := Option.bind_eq_some_iff.mp h₄
  cases heq
  exact ⟨s₃, s₄, hpass hrun₂ ht₂ (by simp) h₃, ht₃, h₅, ht₄⟩

/-- **A run that goes on for ever**: from `n` on nothing but time passes. -/
structure Sys.Endless (ok : Sys → Move → Prop) (s₀ : Sys) (run : ℕ → Sys) (ms : ℕ → Move)
    (n : ℕ) (s : Sys) :
    Prop where
  start : run 0 = s₀
  ok : ∀ i, ok (run i) (ms i)
  move : ∀ i, ∃ fuel, (run i).move fuel (ms i) = some (run (i + 1))
  rest : ∀ i ≥ n, run i = s ∧ ms i = .act (.frame s.mem.frameNo)

variable {ok : Sys → Move → Prop} {s₀ s s' : Sys} {fuel : ℕ} {m : Move}

/-- One more step before nothing else happens. -/
theorem Sys.Endless.step {run : ℕ → Sys} {ms : ℕ → Move} {n : ℕ}
    (h : Sys.Endless ok s₀ run ms n s) (hm : ok s m)
    (hs : s.move fuel m = some s') (hframe : ∀ s n, ok s (.act (.frame n))) :
    ∃ run' ms', Sys.Endless ok s₀ run' ms' (n + 1) s' ∧ run' n = s ∧ ms' n = m := by
  obtain ⟨h0, hok, hmove, hend⟩ := h
  refine ⟨fun i => if i ≤ n then run i else s',
    fun i => if i < n then ms i else if i = n then m else .act (.frame s'.mem.frameNo),
    ⟨by simpa using h0, fun i => ?_, fun i => ?_, fun i hi => ?_⟩,
    by simpa using (hend n (le_refl n)).1, by simp⟩
  · obtain hi | rfl | hi := lt_trichotomy i n
    · simpa [hi, hi.le] using hok i
    · simpa [(hend i (le_refl i)).1] using hm
    · simpa [hi.not_ge, hi.not_gt, hi.ne'] using hframe s' _
  · obtain hi | rfl | hi := lt_trichotomy i n
    · simpa [hi, hi.le, Nat.succ_le_of_lt hi] using hmove i
    · exact ⟨fuel, by simpa [(hend i (le_refl i)).1, Nat.not_succ_le_self i] using hs⟩
    · refine ⟨0, ?_⟩
      simp [hi.not_ge, hi.not_gt, hi.ne', (hi.trans (Nat.lt_succ_self i)).not_ge]
      rfl
  · have hlt : n < i := hi
    simp [hlt.not_ge, hlt.not_gt, hlt.ne']

theorem Sys.Moves.endless (h : Sys.Moves ok s₀ s) (hframe : ∀ s n, ok s (.act (.frame n))) :
    ∃ run ms n, Sys.Endless ok s₀ run ms n s := by
  induction h with
  | start =>
    exact ⟨fun _ => s₀, fun _ => .act (.frame s₀.mem.frameNo), 0, rfl, fun _ => hframe _ _,
      fun _ => ⟨0, rfl⟩, fun _ _ => ⟨rfl, rfl⟩⟩
  | step fuel m _ hm hs ih =>
    obtain ⟨run, ms, n, hend⟩ := ih
    obtain ⟨run', ms', hend', -⟩ := hend.step hm hs hframe
    exact ⟨run', ms', _, hend'⟩

/-- `dl_done_list` has settled a TD and comes to its end, and no interrupt is entered any
more. -/
theorem interrupts_end_settled :
    ∃ (run : ℕ → Sys) (ms : ℕ → Move) (n : ℕ), (run n).tasks = [.done 0] ∧
    ms n = .act .resume ∧ (run (n + 1)).tasks = [] ∧ ∃ n, ∀ i ≥ n, ms i ≠ .act .resume := by
  obtain ⟨s, s', hrun, ht, hs, ht'⟩ := firstSettled_clean
  have hframe : ∀ s n, IrqClean s (.act (.frame n)) := by
    simp [IrqClean, MoveClean, MoveDomain, RmClean]
  obtain ⟨run₀, ms₀, n, hend₀⟩ := hrun.endless hframe
  obtain ⟨run, ms, hend, hn, hm⟩ := hend₀.step (m := .act .resume)
    ⟨⟨trivial, by simp, by simp, by simp [ht]⟩, by simp [RmClean]⟩ hs hframe
  refine ⟨run, ms, n, by rw [hn, ht], hm, by rw [(hend.rest _ (le_refl _)).1, ht'],
    interrupts_end controlUrbs_idle controlUrbs_noTds hend.start hend.ok hend.move ⟨n + 1,
      fun i hi => ?_⟩⟩
  rw [(hend.rest i hi).2]
  rfl

/-- The TD is settled. -/
theorem pass_goes_on_done : ∃ s : Sys, s.tasks = [.done 100] ∧ ∀ fuel, ∃ r,
    IrqTask.step fuel s.mem (.done 100) = some r := by
  obtain ⟨s, -, hs, ht⟩ := firstRetired_clean
  exact ⟨s, ht, pass_goes_on controlUrbs_idle controlUrbs_noTds (hs.mono fun _ _ h => h.1)
    ht (by simp)⟩

end Example
