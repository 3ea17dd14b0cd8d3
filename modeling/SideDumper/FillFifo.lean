import SideDumper.FillRuns
import SideDumper.SubmitFailures
import SideDumper.TdFills

/-!
# The queue of an ED is first in, first out

What the controller takes off the queue of an ED is what `td_submit_urb` has
been called for, each TD once and in order: the TDs taken, those on the queue
and those still to be put on it are together all that has been submitted. The
queue ends at `hwTailP` whatever statement of `td_fill` is next, and all its TDs
are complete.
-/

section Steps

variable {s s' : Feed} {q : EdPtr → List TdPtr} {h : Holding} {j : Filling} {e : EdPtr}
    {t : TdPtr} {u : UrbPtr}
  {o o' : Ohci} {p : UrbPriv} {dummy : TdPtr} {tds : ℕ → TdPtr}

/-! ## The first phase of `sohci_submit_urb` -/

theorem submitFirst_td : (submitFirst o u dummy tds).1.td = o.td := by
  generalize hstart : submitFirst o u dummy tds = started
  obtain ⟨o', b⟩ := started
  dsimp only
  obtain ⟨-, rfl, -⟩ | ⟨-, -, ⟨-, -, rfl⟩ | ⟨-, r, o₁, hadd, hend⟩⟩ := submitFirst_outcome hstart
  · rfl
  · rfl
  have htd : o₁.td = o.td := (epAddEd_leaves hadd).2.1
  obtain ⟨-, -, rfl⟩ | ⟨e, o₂, -, ho₂, hend⟩ := hend
  · exact htd
  have htd₂ : o₂.td = o.td := by
    have hiso : (if (o.urb u).pipe.type = .iso then o₁.modUrb u resetPackets else o₁).td
        = o.td := by
      split <;> exact htd
    rw [ho₂]
    exact hiso
  obtain ⟨-, -, rfl⟩ | ⟨-, -, rfl⟩ := hend
  · rw [urbRmPriv_td, decDevUse_td, htd₂]
  · exact htd₂

/-- **The first phase of `sohci_submit_urb`**: EDs in use stay in use, with the end of
their queues, and a private part that is new is for an ED in use. -/
theorem ledger_accept (ho : o.ledger.Owners) (hfresh : o.FreshTds u dummy tds)
    (hsize : tdSize (o.urb u) < 65536) :
    (submitFirst o u dummy tds).1.ledger.Owners ∧
      (∀ e, o.ledger.state e ≠ .edNew → (submitFirst o u dummy tds).1.ledger.state e ≠ .edNew ∧
        (submitFirst o u dummy tds).1.ledger.tail e = o.ledger.tail e) ∧
      ∀ z, (submitFirst o u dummy tds).1.ledger.priv z = o.ledger.priv z ∨
        o.ledger.priv z = none ∧ ∀ h, (submitFirst o u dummy tds).1.ledger.priv z = some h →
          (submitFirst o u dummy tds).1.ledger.state h.ed ≠ .edNew := by
  obtain ⟨hdummy, htds⟩ := hfresh
  have hsame : ∀ l : Ledger, l.alloc = o.ledger.alloc → l.tail = o.ledger.tail →
      l.state = o.ledger.state →
      l.priv = o.ledger.priv → l.Owners ∧ (∀ e, o.ledger.state e ≠ .edNew → l.state e ≠ .edNew ∧
        l.tail e = o.ledger.tail e) ∧ ∀ z, l.priv z = o.ledger.priv z ∨
          o.ledger.priv z = none ∧ ∀ h, l.priv z = some h → l.state h.ed ≠ .edNew := by
    intro l ha ht hs hp
    exact ⟨ho.congr ha ht hs hp, fun e he => ⟨hs ▸ he, congrFun ht e⟩,
      fun z => .inl (congrFun hp z)⟩
  generalize hr : submitFirst o u dummy tds = r
  obtain ⟨o', b⟩ := r
  dsimp only
  obtain ⟨-, rfl, -⟩ | ⟨-, hnone, ⟨-, -, hl⟩ | ⟨-, hl⟩ | ⟨-, -, hl⟩ | ⟨l, hadd, hl⟩⟩ :=
    ledger_submitFirst hr
  · exact hsame _ rfl rfl rfl rfl
  · rw [hl]
    exact hsame _ rfl rfl rfl rfl
  · rw [hl]
    exact hsame _ rfl rfl rfl rfl
  · rw [hl]
    exact hsame _ rfl rfl rfl rfl
  obtain ⟨hol, halloc⟩ := ho.added hadd hdummy
  have hu : l.priv u = none := hadd.priv ▸ hnone
  have hold : ∀ e, o.ledger.state e ≠ .edNew → l.state e ≠ .edNew ∧
      l.tail e = o.ledger.tail e := by
    intro e he
    obtain ⟨-, -, rfl⟩ | ⟨hnew, -, rfl⟩ := hadd
    · exact ⟨he, rfl⟩
    · have hne : e ≠ edOf o (o.urb u).dev (o.urb u).pipe := fun hx => he (hx ▸ hnew)
      exact ⟨fun hst => he ((Function.update_of_ne hne _ _).symm.trans hst),
        Function.update_of_ne hne _ _⟩
  have hfree : ∀ i < tdSize (o.urb u), tds i ≠ 0 → l.alloc (tds i) = false := fun i hi h0 =>
    (halloc _ (htds i hi h0).2.1).trans (htds i hi h0).1
  obtain ⟨-, -, hl⟩ | ⟨-, hall, hl⟩ := hl
  · rw [hl]
    refine ⟨hol.undone hu hsize hfree, fun e he => ?_, fun z => ?_⟩
    · rw [Ledger.rmPriv_state, Ledger.rmPriv_tail]
      exact hold e he
    · rw [Ledger.rmPriv_priv]
      by_cases hz : z = u
      · subst hz
        rw [Function.update_self]
        exact .inl hnone.symm
      · rw [Function.update_of_ne hz]
        exact .inl ((Function.update_of_ne hz _ _).trans (congrFun hadd.priv z))
  · rw [hl]
    have hol' : (l.use (o.urb u).dev 1).Owners := hol.congr rfl rfl rfl rfl
    refine ⟨hol'.begin hu hsize hall (fun i hi => hfree i hi (hall i hi))
      (fun i hi => (htds i hi (hall i hi)).2.2), hold, fun z => ?_⟩
    by_cases hz : z = u
    · subst hz
      refine .inr ⟨hnone, fun h hh => ?_⟩
      have hself := (Function.update_self _ _ _).symm.trans hh
      cases hself
      obtain ⟨hst, -, rfl⟩ | ⟨-, -, rfl⟩ := hadd
      · exact hst
      · intro hst
        have hun : EdState.edUnlink = .edNew := (Function.update_self _ _ _).symm.trans hst
        cases hun
    · exact .inl ((Function.update_of_ne hz _ _).trans (congrFun hadd.priv z))

/-- The accounts while no `td_submit_urb` is under way. -/
theorem Feed.ledger_idle (hn : s.job = none) : s.ledger = s.mem.ledger := by
  rw [Feed.ledger, hn]

theorem Feed.rest_idle (hn : s.job = none) : s.rest e = [] := by
  rw [Feed.rest, hn]

theorem Feed.Inv.accept (hi : s.Inv q) (hn : s.job = none) (hfresh : s.mem.FreshTds u dummy tds)
    (hsize : tdSize (s.mem.urb u) < 65536) :
    Feed.Inv { s with mem := (submitFirst s.mem u dummy tds).1 } q := by
  obtain ⟨howners, hold, hpriv⟩ := ledger_accept (Feed.ledger_idle hn ▸ hi.owners) hfresh hsize
  obtain ⟨head, hlinks, hheads⟩ := heads_submitFirst (o := s.mem) (u := u) dummy tds
  have hl := Feed.ledger_idle hn
  have hl' : Feed.ledger { s with mem := (submitFirst s.mem u dummy tds).1 }
      = (submitFirst s.mem u dummy tds).1.ledger :=
    Feed.ledger_idle hn
  have hhead : ∀ e, ((submitFirst s.mem u dummy tds).1.ed e).hwHeadP = head e := fun e =>
    congrFun (congrArg TdLinks.head hlinks) e
  refine hi.keep (by rw [hl']; exact howners) (fun z h hz => ?_) (fun e he => ?_) (fun e he => ?_)
    (fun e t _ => ?_)
    (fun e t ht h hp => ?_) (fun e => ⟨[], by rw [List.append_nil], ?_⟩) rfl (fun j hj => ?_)
  · rw [hl'] at hz ⊢
    obtain hsame | ⟨-, hnew⟩ := hpriv z
    · rw [hsame, ← hl] at hz
      exact (hold _ (hl ▸ hi.live z h hz)).1
    · exact hnew h hz
  · rw [hl'] at he ⊢
    rw [hl]
    by_cases hst : s.mem.ledger.state e = .edNew
    · refine .inr ⟨hi.fresh e (hl ▸ hst), (hhead e).trans ?_⟩
      obtain ⟨-, hsame⟩ | ⟨-, -, hh⟩ := hheads e
      · exact absurd (hsame hst) he
      · exact hh
    · exact .inl hst
  · rw [hl'] at ⊢
    rw [hl] at he ⊢
    refine ⟨(hold e he).1, (hold e he).2, (hhead e).trans ?_⟩
    obtain ⟨hh, -⟩ | ⟨hnew, -⟩ := hheads e
    · exact hh
    · exact absurd hnew he
  · dsimp only [Ohci.nextTD]
    rw [submitFirst_td]
    exact ⟨rfl, rfl⟩
  · rw [hl'] at ⊢
    rw [hl] at hp
    obtain hsame | ⟨hnone, -⟩ := hpriv (s.mem.td t).urb
    · exact ⟨hsame.trans hp, fun _ hv => hv⟩
    · rw [hnone] at hp
      cases hp
  · rw [Feed.rest_idle hn, List.append_nil]
    exact Feed.rest_idle hn
  · rw [hn] at hj
    cases hj

/-! ## A request comes and goes -/

/-- A URB of which the queues have no TD. -/
theorem Feed.Inv.notQueued (hi : s.Inv q) (hq : s.mem.NotQueued u) (ht : t ∈ q e) :
    (s.mem.td t).urb ≠ u := by
  obtain ⟨hstate, htail, -⟩ := s.ledger_same
  have hst : s.ledger.state e ≠ .edNew := by
    intro hnew
    rw [hi.fresh e hnew] at ht
    cases ht
  have hw := hi.walk e hst
  rw [htail] at hw
  exact hq e (q e) (fun hnew => hst ((congrFun hstate e).trans hnew)) hw t ht

theorem Feed.Inv.release (hi : s.Inv q) (hn : s.job = none) (hq : s.mem.NotQueued u) :
    Feed.Inv { s with mem := urbRmPriv s.mem u } q := by
  have hl := Feed.ledger_idle hn
  have hl' : Feed.ledger { s with mem := urbRmPriv s.mem u } = s.mem.ledger.rmPriv u :=
    (Feed.ledger_idle (s := { s with mem := urbRmPriv s.mem u }) hn).trans ledger_urbRmPriv
  have hpriv : ∀ z, z ≠ u → (s.mem.ledger.rmPriv u).priv z = s.mem.ledger.priv z := fun z hz => by
    rw [Ledger.rmPriv_priv, Function.update_of_ne hz]
  refine hi.keep (by rw [hl', ← hl]; exact hi.owners.rmPriv) (fun z h hz => ?_)
    (fun e he => .inl ?_) (fun e he => ?_)
    (fun e t _ => ?_) (fun e t ht h hp => ?_) (fun e => ⟨[], by rw [List.append_nil], ?_⟩) rfl
      (fun j hj => ?_)
  · rw [hl'] at hz ⊢
    rw [Ledger.rmPriv_state, ← hl]
    by_cases hzu : z = u
    · rw [hzu, Ledger.rmPriv_priv, Function.update_self] at hz
      cases hz
    · rw [hpriv z hzu, ← hl] at hz
      exact hi.live z h hz
  · rwa [hl', Ledger.rmPriv_state, ← hl] at he
  · rw [hl', Ledger.rmPriv_state, Ledger.rmPriv_tail, ← hl]
    exact ⟨he, rfl, by rw [urbRmPriv_ed]⟩
  · dsimp only [Ohci.nextTD]
    rw [urbRmPriv_td]
    exact ⟨rfl, rfl⟩
  · rw [hl', hpriv _ (hi.notQueued hq ht), ← hl]
    exact ⟨hp, fun _ hv => hv⟩
  · rw [Feed.rest_idle hn, List.append_nil]
    exact Feed.rest_idle hn
  · rw [hn] at hj
    cases hj

/-- **`td_submit_urb` is called.** -/
theorem Feed.Inv.submit (hi : s.Inv q) (hn : s.job = none) (hp : (s.mem.urb u).hcpriv = some p)
    (hq : s.mem.NotQueued u) (hlen : p.length = (s.mem.urb u).const.tdCount) (first : TdToggle) :
    Feed.Inv { s with
      mem := (submitStart s.mem u).log (.submitTds u)
      job := some
        { urb := u
          cnt := 0
          fill := default
          stmts := []
          calls := tdCalls (s.mem.urb u) p first }
      submitted := Function.update s.submitted p.ed
        (s.submitted p.ed ++ works u p.ed (s.mem.ed p.ed).type 0
          (tdCalls (s.mem.urb u) p first)) } q := by
  generalize hc : tdCalls (s.mem.urb u) p first = calls
  have hcalls : calls.length = p.length := by rw [← hc, length_tdCalls, hlen]
  have hl := Feed.ledger_idle hn
  have hl' : Feed.ledger { s with
      mem := (submitStart s.mem u).log (.submitTds u)
      job := some { urb := u, cnt := 0, fill := default, stmts := [], calls := calls }
      submitted := Function.update s.submitted p.ed
        (s.submitted p.ed ++ works u p.ed (s.mem.ed p.ed).type 0 calls) } = s.ledger := by
    refine (Filling.ledger_of_not_opened (fun hop => absurd hop.2 List.not_mem_nil)).trans ?_
    rw [hl]
    exact ledger_submitStart
  have hpu : s.ledger.priv u = some p.holding := by
    rw [hl]
    exact ledger_priv hp
  refine hi.keep (hl' ▸ hi.owners) (hl' ▸ hi.live) (fun e he => .inl (hl' ▸ he)) (fun e he => ?_)
    (fun e t _ => ⟨rfl, rfl⟩)
    (fun e t ht h hh => ?_) (fun e => ?_) rfl (fun j hj => ?_)
  · rw [hl']
    exact ⟨he, rfl, rfl⟩
  · refine ⟨hl' ▸ hh, fun k _ j hj hu => ?_⟩
    cases hj
    exact absurd hu.symm (hi.notQueued hq ht)
  · rw [Feed.rest_idle hn, Feed.rest_of_job rfl (hl' ▸ hpu)]
    by_cases he : p.ed = e
    · subst he
      exact ⟨_, Function.update_self _ _ _, if_pos rfl⟩
    · refine ⟨[], ?_, if_neg he⟩
      rw [List.append_nil]
      exact Function.update_of_ne (Ne.symm he) _ _
  · cases hj
    rw [hl']
    exact ⟨_, hpu, (Nat.zero_add _).trans hcalls, List.nil_suffix, fun hne => absurd rfl hne,
      fun _ hm => absurd hm List.not_mem_nil, fun hop => absurd hop.2 List.not_mem_nil⟩

/-! ## `td_submit_urb` goes on -/

/-- **The next call of `td_fill`**, or the return. -/
theorem Feed.Inv.goes (hi : s.Inv q) (hj : s.job = some j) (hs : s.go j = some s') :
    ∃ q', s'.Inv q' := by
  obtain ⟨h, hjob⟩ := hi.job j hj
  unfold Feed.go at hs
  split at hs
  · rename_i st ss cs hst
    cases hs
    exact hi.exec hj hst
  · rename_i c cs hst hcalls
    obtain ⟨p, hp, hs⟩ := Option.bind_eq_some_iff.mp hs
    obtain ⟨p', hp', -, hlen⟩ := s.priv_of_ledger hjob.priv
    rw [hp] at hp'
    cases hp'
    have hdone : j.done = j.cnt := if_neg (by simp [hst])
    have hpend : j.pending = c :: cs := (if_neg (by simp [hst])).trans hcalls
    have hcount := hjob.count
    rw [hdone, hpend, List.length_cons] at hcount
    rw [if_neg (by omega), Option.some.injEq] at hs
    subst hs
    have hop : ¬ j.opened := fun hop => absurd hop.2 (by simp [hst])
    have hfirst : FillStmt.oldTd ∈ tdFillStmts ∧ FillStmt.newTd ∈ tdFillStmts := by decide
    have hop' : ∀ f : Fill, ¬ Filling.opened ⟨j.urb, j.cnt + 1, f, tdFillStmts, cs⟩ :=
      fun f hop => hop.1 hfirst.2
    refine ⟨q, hi.goOn hj hjob.priv rfl ?_ rfl (fun _ => ⟨rfl, rfl⟩) (fun _ _ _ => ⟨rfl, rfl⟩) rfl
      hdone.symm hpend.symm
      ⟨hjob.priv, ?_, List.suffix_rfl, fun _ => ⟨rfl, rfl⟩, fun hm => absurd hfirst.1 hm,
        fun hop => absurd hop (hop' _)⟩⟩
    · unfold Feed.ledger
      rw [hj]
      exact (Filling.ledger_of_not_opened (hop' _)).trans (Filling.ledger_of_not_opened hop).symm
    · exact hcount
  · rename_i hst hcalls
    cases hs
    have hop : ¬ j.opened := fun hop => absurd hop.2 (by simp [hst])
    have hl : s.ledger = s.mem.ledger := by
      unfold Feed.ledger
      rw [hj]
      exact Filling.ledger_of_not_opened hop
    have hl' : Feed.ledger { s with job := none } = s.ledger := hl.symm
    have hpend : j.pending = [] := (if_neg (by simp [hst])).trans hcalls
    refine ⟨q, hi.keep (hl' ▸ hi.owners) (hl' ▸ hi.live) (fun e he => .inl (hl' ▸ he))
      (fun e he => ?_)
      (fun _ _ _ => ⟨rfl, rfl⟩) (fun e t _ h hp => ⟨hl' ▸ hp, fun _ _ _ hn => by cases hn⟩)
        (fun e => ⟨[], ?_, ?_⟩) rfl
      (fun i hi' => by cases hi')⟩
    · rw [hl']
      exact ⟨he, rfl, rfl⟩
    · exact (List.append_nil _).symm
    · rw [Feed.rest_of_job hj hjob.priv, hpend, List.append_nil]
      split <;> rfl

/-! ## The controller, and everything else -/

/-- What a `td_submit_urb` that is under way does not depend on. -/
theorem Filling.Inv.congr {l l' : Ledger} (hj : j.Inv o l h) (hpriv : l'.priv = l.priv)
    (htail : l'.tail = l.tail)
    (hmem : o'.ledger.priv = o.ledger.priv) (htype : (o'.ed h.ed).type = (o.ed h.ed).type)
    (htd : j.opened → ∃ x, o'.td j.fill.td = { o.td j.fill.td with nextDlTd := x }) :
    j.Inv o' l' h where
  priv := hpriv ▸ hj.priv
  count := hj.count
  part := hj.part
  call := hj.call
  old := hj.old
  new := fun hop => by
    obtain ⟨htail', hm, hwrote⟩ := hj.new hop
    rw [htail, hmem, htype]
    refine ⟨htail', hm, fun st hst => ?_⟩
    obtain ⟨x, hx⟩ := htd hop
    have hw := hwrote st hst
    rw [hx]
    cases st <;> exact hw

/-- The accounts of a memory in which the private parts are the same. -/
theorem Feed.ledger_priv_congr (hmem : o'.ledger.priv = s.mem.ledger.priv) :
    Feed.ledger { s with mem := o' } = { o'.ledger with priv := s.ledger.priv } := by
  unfold Feed.ledger Filling.ledger
  dsimp only
  cases s.job with
  | none =>
    dsimp only
    rw [← hmem]
  | some j =>
    dsimp only
    split
    · unfold Ledger.putBack
      dsimp only
      rw [hmem]
    · rw [← hmem]

/-- What is still to be put on a queue does not depend on the queues. -/
theorem Feed.rest_congr (hjob : s'.job = s.job) (hpriv : s'.mem.ledger.priv = s.mem.ledger.priv)
    (htype : (s'.mem.ed e).type = (s.mem.ed e).type) : s'.rest e = s.rest e := by
  have hed : ∀ u, (s'.mem.priv u).ed = (s.mem.priv u).ed := by
    intro u
    have hu : (s'.mem.urb u).hcpriv.map UrbPriv.holding
        = (s.mem.urb u).hcpriv.map UrbPriv.holding := congrFun hpriv u
    unfold Ohci.priv
    cases hp : (s.mem.urb u).hcpriv with
    | none =>
      rw [hp] at hu
      rw [Option.map_eq_none_iff.mp hu]
    | some p =>
      rw [hp] at hu
      obtain ⟨p', hp', hh⟩ := Option.map_eq_some_iff.mp hu
      rw [hp']
      exact congrArg Holding.ed hh
  unfold Feed.rest
  rw [hjob, htype]
  simp only [hed]

/-- **Something happens that does not concern the queues.** -/
theorem Feed.Inv.other (hi : s.Inv q) (ho : s.mem.SameQueues o) :
    Feed.Inv { s with mem := o } q := by
  obtain ⟨hstate, htail, halloc⟩ := s.ledger_same
  have hpriv : o.ledger.priv = s.mem.ledger.priv := funext ho.priv
  have hl := Feed.ledger_priv_congr (s := s) hpriv
  have htail' : o.ledger.tail = s.ledger.tail := by
    rw [htail]
    exact funext ho.tail
  have hst : ∀ e, o.ledger.state e = s.ledger.state e ∨ s.ledger.state e ≠ .edNew ∧
      o.ledger.state e = .edOper := by
    rw [hstate]
    exact ho.state
  have hnew : ∀ e, o.ledger.state e ≠ .edNew ↔ s.ledger.state e ≠ .edNew := by
    intro e
    obtain h | ⟨hold, h⟩ := hst e
    · rw [h]
    · rw [h]
      exact ⟨fun _ => hold, fun _ => by decide⟩
  have hwork : ∀ t, (o.td t).work = (s.mem.td t).work ∧ o.nextTD t = s.mem.nextTD t := by
    intro t
    rw [Ohci.nextTD, ho.td t]
    exact ⟨rfl, rfl⟩
  refine hi.keep ?_ (fun z h hz => ?_) (fun e he => .inl ?_) (fun e he => ?_)
    (fun _ t _ => hwork t)
    (fun e t _ h hp => ⟨?_, fun _ hv => hv⟩) (fun e => ⟨[], (List.append_nil _).symm, ?_⟩) rfl
      (fun j hj => ?_)
  · rw [hl]
    exact hi.owners.relabel (ho.alloc.trans halloc.symm) htail' rfl hst
  · rw [hl] at hz ⊢
    exact (hnew _).mpr (hi.live z h hz)
  · rw [hl] at he
    exact (hnew e).mp he
  · rw [hl]
    exact ⟨(hnew e).mpr he, congrFun htail' e, ho.head e⟩
  · rw [hl]
    exact hp
  · rw [List.append_nil]
    exact Feed.rest_congr rfl hpriv (ho.type e)
  · obtain ⟨h, hjob⟩ := hi.job j hj
    refine ⟨h, ?_⟩
    rw [hl]
    exact hjob.congr rfl htail' hpriv (ho.type _) (fun _ => ⟨_, ho.td _⟩)

/-- **The controller takes a TD.** -/
theorem Feed.Inv.consume (hi : s.Inv q) (hst : (s.mem.ed e).state ≠ .edNew)
    (hne : (s.mem.ed e).hwHeadP ≠ (s.mem.ed e).hwTailP) {f : Ed → Ed} {g : Td → Td}
    (hf : ∀ r, ((f r).hwINFO.fa, (f r).hwTailP, (f r).state) = (r.hwINFO.fa, r.hwTailP, r.state))
    (hhead : (f (s.mem.ed e)).hwHeadP = s.mem.nextTD (s.mem.ed e).hwHeadP)
    (htype : (f (s.mem.ed e)).type = (s.mem.ed e).type) :
    ∃ q', Feed.Inv { s with
      mem := (s.mem.modEd e f).modTd (s.mem.ed e).hwHeadP g
      consumed := Function.update s.consumed e
        (s.consumed e ++ [(s.mem.td (s.mem.ed e).hwHeadP).work]) } q' := by
  obtain ⟨hstate, htail, -⟩ := s.ledger_same
  have hse : s.ledger.state e ≠ .edNew := fun hn => hst ((congrFun hstate e).symm.trans hn)
  generalize ht : (s.mem.ed e).hwHeadP = t at hne hhead
  have hw := hi.walk e hse
  rw [ht, htail] at hw
  obtain ⟨rest, hq⟩ : ∃ rest, q e = t :: rest := by
    cases hq : q e with
    | nil =>
      rw [hq] at hw
      exact absurd hw hne
    | cons x rest =>
      rw [hq] at hw
      have hx : t = x := hw.1
      exact ⟨rest, by rw [hx]⟩
  have hmem : t ∈ q e := by
    rw [hq]
    exact List.mem_cons_self
  rw [hq] at hw
  have hrest : t ∉ rest := (List.nodup_cons.mp hw.nodup).1
  have hapart : ∀ x, x ≠ e → t ∉ q x := by
    intro x hx hm
    exact hx ((hi.part x t hm).1.symm.trans (hi.part e t hmem).1)
  -- the TDs that stay on the queues
  have hstay : ∀ x, ∀ y ∈ Function.update q e rest x, y ∈ q x ∧ y ≠ t := by
    intro x y hy
    rw [Function.update_apply] at hy
    split at hy
    · rename_i hx
      rw [hx, hq]
      exact ⟨List.mem_cons_of_mem _ hy, fun hyt => hrest (hyt ▸ hy)⟩
    · exact ⟨hy, fun hyt => hapart x ‹_› (hyt ▸ hy)⟩
  have hled : ((s.mem.modEd e f).modTd t g).ledger = s.mem.ledger := by
    rw [Ohci.ledger_modTd, Ohci.ledger_modEd_same hf]
  have htd : ∀ y, y ≠ t → ((s.mem.modEd e f).modTd t g).td y = s.mem.td y := fun y hy =>
    Ohci.modTd_td_of_ne _ _ _ _ hy
  have htypes : ∀ x, (((s.mem.modEd e f).modTd t g).ed x).type = (s.mem.ed x).type := by
    intro x
    rw [Ohci.modTd_ed, Ohci.modEd_ed]
    split
    · rw [htype, ‹x = e›]
    · rfl
  have hl : Feed.ledger { s with
      mem := (s.mem.modEd e f).modTd t g
      consumed := Function.update s.consumed e (s.consumed e ++ [(s.mem.td t).work]) }
        = s.ledger := by
    unfold Feed.ledger Filling.ledger
    simp only [hled]
  refine ⟨Function.update q e rest, ?_, fun z h hz => ?_, fun x hx => ?_, fun x hx => ?_,
    fun x y hy => ?_, fun x => ?_, fun j hj => ?_⟩
  · rw [hl]
    exact hi.owners
  · rw [hl] at hz ⊢
    exact hi.live z h hz
  · rw [hl] at hx ⊢
    have hsame : ∀ y ∈ Function.update q e rest x, ((s.mem.modEd e f).modTd t g).nextTD y
        = s.mem.nextTD y :=
      fun y hy => congrArg Td.hwNextTD (htd y (hstay x y hy).2)
    refine Walk.congr ?_ hsame
    dsimp only
    rw [Ohci.modTd_ed, Ohci.modEd_ed]
    by_cases hxe : x = e
    · rw [hxe, if_pos rfl, Function.update_self, hhead, htail]
      exact hw.2.2
    · rw [if_neg hxe, Function.update_of_ne hxe]
      exact hi.walk x hx
  · rw [hl] at hx
    have hxe : x ≠ e := fun hxe => hse (hxe ▸ hx)
    rw [Function.update_of_ne hxe]
    exact hi.fresh x hx
  · obtain ⟨hyq, hyt⟩ := hstay x y hy
    rw [hl]
    dsimp only
    rw [htd y hyt]
    exact hi.part x y hyq
  · have hfifo := hi.fifo x
    have hmap : (Function.update q e rest x).map
        (fun y => (((s.mem.modEd e f).modTd t g).td y).work)
        = (Function.update q e rest x).map (fun y => (s.mem.td y).work) :=
      List.map_congr_left (fun y hy => congrArg Td.work (htd y (hstay x y hy).2))
    have hr : Feed.rest { s with
        mem := (s.mem.modEd e f).modTd t g
        consumed := Function.update s.consumed e (s.consumed e ++ [(s.mem.td t).work]) } x
          = s.rest x :=
      Feed.rest_congr rfl (congrArg Ledger.priv hled) (htypes x)
    rw [hr]
    dsimp only
    rw [hmap, ← hfifo]
    by_cases hxe : x = e
    · rw [hxe, Function.update_self, Function.update_self, hq]
      simp only [List.map_cons, List.append_assoc, List.cons_append, List.nil_append]
    · rw [Function.update_of_ne hxe, Function.update_of_ne hxe]
  · obtain ⟨h, hjob⟩ := hi.job j hj
    refine ⟨h, ?_⟩
    rw [hl]
    refine hjob.congr rfl rfl (congrArg Ledger.priv hled) (htypes _)
      (fun hop => ⟨(s.mem.td j.fill.td).nextDlTd, ?_⟩)
    refine htd _ (Ne.symm ?_)
    rw [(hjob.new hop).1]
    exact hi.ne_tail hmem (hi.live _ _ hjob.priv)

/-- **Every step keeps the invariant.** -/
theorem Feed.Inv.step {a : FeedAct} (hi : s.Inv q) (hd : FeedDomain s a)
    (hs : s.step a = some s') :
    ∃ q', s'.Inv q' := by
  cases a with
  | accept u dummy tds =>
    simp only [Feed.step] at hs
    split at hs
    · rename_i hn
      cases hs
      exact ⟨q, hi.accept (Option.isNone_iff_eq_none.mp hn) hd.1 hd.2⟩
    · cases hs
  | release u =>
    simp only [Feed.step] at hs
    split at hs
    · rename_i hn
      cases hs
      exact ⟨q, hi.release (Option.isNone_iff_eq_none.mp hn) hd⟩
    · cases hs
  | submit u =>
    simp only [Feed.step] at hs
    split at hs
    · rename_i hn
      obtain ⟨p, hp, hs⟩ := Option.bind_eq_some_iff.mp hs
      cases hs
      exact ⟨q, hi.submit (Option.isNone_iff_eq_none.mp hn) hp hd.1 (hd.2 p hp) _⟩
    · cases hs
  | go =>
    obtain ⟨j, hj, hs⟩ := Option.bind_eq_some_iff.mp hs
    exact hi.goes hj hs
  | consume e cc cbp next psw halted carry =>
    simp only [Feed.step] at hs
    split at hs
    · cases hs
    · cases hs
      exact hi.consume hd ‹_› (by intro; rfl) rfl rfl
  | other o =>
    cases hs
    exact ⟨q, hi.other hd⟩

end Steps

/-- **The invariant holds in every run.** -/
theorem Feed.Reach.inv {s : Feed} (h : s.Reach) : ∃ q, s.Inv q := by
  induction h with
  | init o ho halloc =>
    have hstate : ∀ e, o.ledger.state e = .edNew := ho.state
    have hpriv : ∀ u, o.ledger.priv u = none := fun u => ledger_priv_none (ho.hcpriv u)
    refine ⟨fun _ => [], ⟨.none (fun p => ?_) halloc, ?_, ?_, ?_⟩, fun u h hu => ?_,
      fun e he => ?_, fun _ _ => rfl,
      fun e t ht => absurd ht List.not_mem_nil, fun e => rfl, fun j hj => by cases hj⟩
    · cases p with
      | dummy e => exact if_neg (not_not.mpr (hstate e))
      | slot u i =>
        rw [Ledger.tdAt]
        exact (congrArg (fun x : Option Holding => x.bind _) (hpriv u)).trans rfl
    · exact fun e he => absurd (hstate e) he
    · exact fun u h hu => by
        rw [show Feed.ledger _ = o.ledger from rfl, hpriv u] at hu
        cases hu
    · exact fun e he => absurd (hstate e) he
    · rw [show Feed.ledger _ = o.ledger from rfl, hpriv u] at hu
      cases hu
    · exact absurd (hstate e) he
  | step a _ hd hs ih =>
    obtain ⟨q, hi⟩ := ih
    exact hi.step hd hs

/-- **The queue of an ED is first in, first out.** In every run, and whatever
statement of `td_fill` is next: from `hwHeadP` the links lead to `hwTailP`, and the
TDs that the controller has taken, those on the queue and those still to be put on
it are together, in order, what `td_submit_urb` has been called for; so each has
been taken at most once, complete, and in its turn. -/
theorem queue_fifo {s : Feed} (h : s.Reach) {e : EdPtr} (he : (s.mem.ed e).state ≠ .edNew) :
    ∃ ts, Walk s.mem.nextTD (s.mem.ed e).hwTailP (s.mem.ed e).hwHeadP ts ∧
      s.consumed e ++ ts.map (fun t => (s.mem.td t).work) ++ s.rest e = s.submitted e := by
  obtain ⟨q, hi⟩ := h.inv
  obtain ⟨hstate, htail, -⟩ := s.ledger_same
  have hw := hi.walk e (fun hn => he ((congrFun hstate e).symm.trans hn))
  rw [htail] at hw
  exact ⟨q e, hw, hi.fifo e⟩

/-! ## Without the controller -/

section Alone

variable {s : Feed} {o o' : Ohci} {u : UrbPtr} {n m : ℕ}

/-- `td_submit_urb` goes on by several statements. -/
def Feed.goMany : ℕ → Feed → Option Feed
  | 0, s => some s
  | n + 1, s => (s.job.bind s.go).bind (Feed.goMany n)

end Alone

/-! ## A run to look at -/

/-- Before anything has been submitted nothing is on a queue. -/
theorem Feed.Reach.notQueued {s : Feed} (h : s.Reach) (hnone : ∀ e, s.submitted e = [])
    (u : UrbPtr) :
    s.mem.NotQueued u := by
  intro e ts he hw t ht
  obtain ⟨q, hi⟩ := h.inv
  obtain ⟨hstate, htail, -⟩ := s.ledger_same
  have hw' := hi.walk e (fun hn => he ((congrFun hstate e).symm.trans hn))
  rw [htail] at hw'
  have hfifo := hi.fifo e
  rw [hnone e] at hfifo
  simp only [List.append_eq_nil_iff, List.map_eq_nil_iff] at hfifo
  rw [hw.unique hw', hfifo.1.2] at ht
  cases ht

/-- Steps of `td_submit_urb` can always be taken. -/
theorem Feed.Reach.goes {s s' : Feed} {n : ℕ} (h : s.Reach) (hs : Feed.goMany n s = some s') :
    s'.Reach := by
  induction n generalizing s with
  | zero =>
    cases hs
    exact h
  | succ n ih =>
    obtain ⟨s₁, h₁, hs⟩ := Option.bind_eq_some_iff.mp hs
    exact ih (.step .go h trivial h₁) hs

/-- The controller takes the TD of a request when `td_fill` has one statement left. -/
theorem queue_fifo_taken :
    ∃ s : Feed, s.consumed 12 = [⟨1, 0, 12, genInfo .in .data0 true, 0, 0, 57344⟩] ∧
    (∃ j, s.job = some j ∧ j.stmts = [.dl]) ∧
    ∃ ts, Walk s.mem.nextTD (s.mem.ed 12).hwTailP (s.mem.ed 12).hwHeadP ts ∧
      s.consumed 12 ++ ts.map (fun t => (s.mem.td t).work) ++ s.rest 12 = s.submitted 12 := by
  have hinit : Feed.Reach ⟨bulkUrbs, none, fun _ => [], fun _ => []⟩ :=
    .init bulkUrbs bulkUrbs_idle (fun _ => rfl)
  obtain ⟨s₁, h₁, hsub, hlen, s₂, h₂, s₃, h₃, hst, s₄, h₄, hst', hcons, hjob⟩ : ∃ s₁ : Feed,
      Feed.step ⟨bulkUrbs, none, fun _ => [], fun _ => []⟩ (.accept 1 100 (fun _ => 101))
        = some s₁ ∧
      (∀ e, s₁.submitted e = []) ∧
      ((s₁.mem.urb 1).hcpriv.map UrbPriv.length = some (s₁.mem.urb 1).const.tdCount) ∧
      ∃ s₂, s₁.step (.submit 1) = some s₂ ∧ ∃ s₃, Feed.goMany 13 s₂ = some s₃ ∧
        (s₃.mem.ed 12).state ≠ .edNew ∧
      ∃ s₄, s₃.step (.consume 12 0 0 0 0 false false) = some s₄ ∧ (s₄.mem.ed 12).state ≠ .edNew ∧
      s₄.consumed 12 = [⟨1, 0, 12, genInfo .in .data0 true, 0, 0, 57344⟩] ∧ ∃ j, s₄.job = some j ∧
        j.stmts = [.dl] :=
    ⟨_, rfl, fun _ => rfl, rfl, _, rfl, _, rfl, by decide, _, rfl, by decide, rfl, _, rfl, rfl⟩
  have hr₁ := hinit.step (.accept 1 100 (fun _ => 101)) bulkUrbs_submit h₁
  have hr₂ := hr₁.step (.submit 1) ⟨hr₁.notQueued hsub 1, fun p hp => by
    rw [hp] at hlen
    exact Option.some.inj hlen⟩ h₂
  have hr₄ := (hr₂.goes h₃).step (.consume 12 0 0 0 0 false false) hst h₄
  exact ⟨s₄, hcons, hjob, queue_fifo hr₄ hst'⟩
