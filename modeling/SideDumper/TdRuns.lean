import SideDumper.TdPasses

/-!
# The TDs of a request are accounted for

The steps of the controller and of the driver keep the invariant of `TdMoves`, so the
TDs of every request are accounted for in every run of clean steps.
-/

section Moves

variable {s s' : Sys} {q : TdList → List TdPtr} {fill : UrbPtr → ℕ} {fuel : ℕ} {e : EdPtr}
    {t : TdPtr} {a : Act}
  {o : Ohci} {m : Move} {new : UrbPtr → Prop}

/-- **The controller retires a TD.** -/
theorem Sys.TdAcc.retired (hc : s.TdAcc q fill) (ho : s.mem.ledger.Owners)
    (ht : s.mem.tdLinks.head e = t)
    (h0 : t ≠ s.mem.ledger.tail e)
    (hbusy : ∀ f tail fa t tdP, .delQueue f e tail fa t tdP ∉ s.tasks)
    (hl : o.ledger = s.mem.ledger) (hk : o.tdLinks = { s.mem.tdLinks with
      head := Function.update s.mem.tdLinks.head e (s.mem.tdLinks.next t)
      next := Function.update s.mem.tdLinks.next t s.mem.tdLinks.reg
      reg := t }) : ∃ q', Sys.TdAcc { s with mem := o } q' fill ∧
        QueuesFrom new s.mem.tdLinks o.tdLinks q q' := by
  obtain ⟨rest, hq⟩ : ∃ rest, q (.queue e) = t :: rest := by
    have hw := hc.listed.threads.walk (.queue e)
    change Walk s.mem.tdLinks.next (s.mem.ledger.tail e) (s.mem.tdLinks.head e)
      (q (.queue e)) at hw
    rw [ht] at hw
    exact hw.cons_of_ne h0
  have hmem : t ∈ q (.queue e) := by
    rw [hq]
    exact List.mem_cons_self
  have hlist := hc.listed.retire ho hq
  rw [← hk, ← hl] at hlist
  refine ⟨_, hc.pass rfl hlist (congrArg Ledger.const hl) (fun z h' hz => ⟨h', hl ▸ hz, rfl⟩)
    (fun z _ => ⟨congrFun (congrArg Ledger.priv hl) z, by dsimp only; rw [hk]⟩) hc.shape
    (fun u e next hm => .inl hm) (fun f x tail fa t' tdP hm => ?_), .of_subset (by rw [hk])
      fun x y hy => ?_⟩
  swap
  · rw [Function.update_of_ne (by simp), Function.update_apply] at hy
    split at hy
    · rename_i hx
      rw [hx, hq]
      exact List.mem_cons_of_mem _ hy
    · exact hy
  have hx : x ≠ e := by
    rintro rfl
    exact hbusy f tail fa t' tdP hm
  have hxe : TdList.queue x ≠ .queue e := fun h => hx (TdList.queue.inj h)
  refine (hc.del f x tail fa t' tdP hm).keep (fun h => by dsimp only; rw [hl]; exact h)
    (fun h => by dsimp only at h; rw [hl] at h; exact h) (fun y hy => ?_) (fun _ => ?_) ⟨[], ?_⟩
  · dsimp only
    rw [hk]
    exact Function.update_of_ne (fun h : y = t => hc.listed.threads.notMem hmem hxe (h ▸ hy)) _ _
  · dsimp only
    rw [hk]
    exact Function.update_of_ne hx _ _
  · rw [Function.update_of_ne (by simp), Function.update_of_ne hxe, List.append_nil]

/-- **The controller hands its done queue over.** -/
theorem Sys.TdAcc.written (hc : s.TdAcc q fill) (h0 : s.mem.doneHead = 0) :
    ∃ q', Sys.TdAcc
      { s with mem := { s.mem with doneHead := s.mem.regDonehead, regDonehead := 0 } } q' fill ∧
      ∀ e, q' (.queue e) = q (.queue e) := by
  have hempty : q .done = [] := hc.empty nofun h0
  have hl : Listed s.mem.ledger { s.mem.tdLinks with done := s.mem.regDonehead, reg := 0 } s.todo
      s.rev fill _ :=
    hc.listed.transfer (i := .reg) (j := .done) nofun nofun nofun hempty rfl rfl rfl rfl
      (fun k hk hk' => by
      cases k with
      | reg => exact absurd rfl hk
      | done => exact absurd rfl hk'
      | queue | todo | rev => rfl)
  refine ⟨_, hc.pass rfl hl rfl (fun z h' hz => ⟨h', hz, rfl⟩) (fun _ _ => ⟨rfl, rfl⟩) hc.shape
    (fun u e next hm => .inl hm) (fun f x tail fa t tdP hm => ?_), fun e => ?_⟩
  · refine (hc.del f x tail fa t tdP hm).keep (fun h => h) (fun h => h) (fun _ _ => rfl)
      (fun _ => rfl) ⟨[], ?_⟩
    rw [Function.update_of_ne (by simp), Function.update_of_ne (by simp), List.append_nil]
  · rw [Function.update_of_ne (by simp), Function.update_of_ne (by simp)]

/-- **A pass of an interrupt routine.** -/
theorem Sys.TdAcc.resume (hc : s.TdAcc q fill) (hb : s.Base) (hi : s.TdInv)
    (hrest : ∀ t rev ks, s.tasks = .reverse t rev :: ks → t ≠ 0 → RestQueued s.mem t)
    (hs : s.step fuel .resume = some s') :
    ∃ q' fill', s'.TdAcc q' fill' ∧
      QueuesFrom (s.Fills .resume) s.mem.tdLinks s'.mem.tdLinks q q' := by
  simp only [Sys.step] at hs
  split at hs
  · cases hs
  rename_i task ks ht
  obtain ⟨⟨o, task'⟩, h, hs⟩ := Option.bind_eq_some_iff.mp hs
  cases hs
  cases task with
  | reverse t rev =>
    simp only [IrqTask.step] at h
    split at h
    · rename_i h0
      cases h
      exact ⟨q, fill, hc.reverseEnd (h0 ▸ ht), .of_urb rfl⟩
    · rename_i h0
      cases h
      obtain ⟨q', hc', hfrom⟩ := hc.reversed hi.owners ht h0 (hrest t rev ks ht h0)
      exact ⟨q', fill, hc', hfrom⟩
  | done t =>
    simp only [IrqTask.step] at h
    split at h
    · rename_i h0
      cases h
      exact ⟨q, fill, hc.doneEnd (h0 ▸ ht), .of_urb rfl⟩
    · rename_i h0
      obtain ⟨⟨o₁, again⟩, h₁, h⟩ := Option.bind_eq_some_iff.mp h
      cases h
      obtain ⟨q', hc', hfrom⟩ := hc.doneTd ht h0 h₁
      exact ⟨q', fill, hc', hfrom⟩
  | requeue u e next =>
    obtain ⟨o₁, h₁, h⟩ := Option.bind_eq_some_iff.mp h
    cases h
    obtain ⟨q', fill', hc', hfrom⟩ := hc.requeued hi.owners
      (fun x hx => hi.again u e next x (by rw [ht]; exact List.mem_cons_self) hx) ht h₁
    exact ⟨q', fill', hc', hfrom.mono fun z hz => .inr ⟨rfl, e, next, ks, hz ▸ ht⟩⟩
  | endEd e next =>
    obtain ⟨o₁, h₁, h⟩ := Option.bind_eq_some_iff.mp h
    cases h
    exact ⟨q, fill, hc.endEd hb ht h₁, .of_urb (congrArg TdLinks.urb (tdLinks_doneEd h₁))⟩
  | del f e =>
    simp only [IrqTask.step] at h
    split at h
    · cases h
      exact ⟨q, fill, hc.delDone ht, .of_urb (congrArg TdLinks.urb tdLinks_delEnd)⟩
    · cases h
      exact ⟨q, fill, hc.delStart ht, .of_urb rfl⟩
  | delQueue f e tail fa t tdP =>
    simp only [IrqTask.step] at h
    split at h
    · rename_i h0
      cases h
      exact ⟨q, fill, hc.delLeave hi (h0 ▸ ht), .of_urb (congrArg TdLinks.urb tdLinks_delEdEnd)⟩
    · rename_i h0
      obtain ⟨⟨o₁, tdP'⟩, h₁, h⟩ := Option.bind_eq_some_iff.mp h
      cases h
      obtain ⟨q', hc', hfrom, -⟩ := hc.delTd ht h0 h₁
      exact ⟨q', fill, hc', hfrom⟩

/-- **A step of the driver keeps the TDs accounted for.** -/
theorem Sys.TdAcc.act (hc : s.TdAcc q fill) (hb : s.Base) (hi : s.TdInv)
    (hok : MoveClean s (.act a))
    (ha : a.driver = true) (hs : s.step fuel a = some s') :
    ∃ q' fill', s'.TdAcc q' fill' ∧ QueuesFrom (s.Fills a) s.mem.tdLinks s'.mem.tdLinks q q' := by
  obtain ⟨hdom, hmark, hdrop, hrest⟩ := hok
  cases a with
  | submitFirst u dummy tds =>
    obtain ⟨fill', hc'⟩ := hc.first (Sys.step_entry hb hs) hdom.2 hs
    refine ⟨q, fill', hc', .of_urb ?_⟩
    obtain ⟨head, hlinks, -⟩ := heads_submitFirst (o := s.mem) (u := u) dummy tds
    simp only [Sys.step] at hs
    split at hs
    · cases hs
    · cases hs
      dsimp only
      rw [hlinks]
  | submitSecond u buf setup =>
    obtain ⟨q', fill', hc', hfrom⟩ := hc.second hi.owners hs
    exact ⟨q', fill', hc', hfrom.mono fun z hz => .inl ⟨buf, setup, hz ▸ rfl⟩⟩
  | unlink u =>
    refine ⟨q, fill, hc.unlink hs hdom (fun e he => hmark u e rfl he)
      (fun p hun hdev hp => hdrop u p rfl hun hdev hp), .of_urb ?_⟩
    cases hs
    exact tdLinks_unlinkUrb_urb
  | unlinkFinish u =>
    simp only [Sys.step] at hs
    split at hs
    · cases hs
      refine ⟨q, fill, hc.quiet tdLinks_unlinkFinish ?_,
        .of_urb (congrArg TdLinks.urb tdLinks_unlinkFinish)⟩
      rw [ledger_unlinkFinish]
      rfl
    · cases hs
  | freeEd e =>
    simp only [Sys.step] at hs
    split at hs
    · cases hs
    rename_i h0
    obtain ⟨o, h₁, hs⟩ := Option.bind_eq_some_iff.mp hs
    cases hs
    exact ⟨q, fill, hc.freeEd h0 hdom h₁, .of_urb (congrArg TdLinks.urb (tdLinks_freeEd h₁))⟩
  | doneIrq =>
    cases hs
    obtain ⟨q', hc', hsame⟩ := hc.doneIrq hdom
    exact ⟨q', fill, hc', .of_subset rfl fun e t ht => hsame e ▸ ht⟩
  | delIrq f =>
    cases hs
    exact ⟨q, fill, hc.delIrq hdom, .of_urb rfl⟩
  | resume => exact hc.resume hb hi (fun t rev ks ht h0 => hrest t rev ks rfl ht h0) hs
  | frame n =>
    cases hs
    exact ⟨q, fill, hc.quiet rfl rfl, .of_urb rfl⟩
  | hcData x b =>
    cases hs
    exact ⟨q, fill, hc.quiet rfl rfl, .of_urb rfl⟩
  | hcEd | hcTd | hcDone => cases ha

/-- What the interrupt routines rely on, where the accounts stay and no routine gets on
to a TD. -/
theorem Sys.TdInv.of_same (hi : s.TdInv) (hl : s'.mem.ledger = s.mem.ledger)
    (ht : s'.tasks ⊆ s.tasks) : s'.TdInv where
  owners := hl ▸ hi.owners
  walk := fun f e tail fa t tdP hm hdel => by
    rw [hl] at hdel ⊢
    exact hi.walk f e tail fa t tdP (ht hm) hdel
  again := fun u e next h hm hu => by
    rw [hl] at hu ⊢
    exact hi.again u e next h (ht hm) hu

/-- A TD that is to be settled has been filled in for its request. -/
theorem Sys.TdAcc.clean (hc : s.TdAcc q fill) (hok : MoveClean s (.act a))
    (h0 : ∀ ks, a = .resume → s.tasks ≠ .done 0 :: ks) : TdClean s a := by
  obtain ⟨hdom, hmark, -⟩ := hok
  refine ⟨?_, fun u e ha hun => hmark u e (by rw [ha]) hun⟩
  cases a with
  | submitFirst u dummy tds => exact hdom
  | unlink u => exact hdom
  | freeEd e => exact hdom
  | resume =>
    intro t ks p ht hp
    have hrev : s.rev = t := by
      rw [Sys.rev, ht]
      rfl
    have hne : t ≠ 0 := by
      rintro rfl
      exact h0 ks rfl ht
    have hw := hc.listed.threads.walk .rev
    rw [show TdList.start s.mem.tdLinks s.todo s.rev .rev = t from hrev] at hw
    obtain ⟨h, hpr, hed, -⟩ := hc.listed.part _ t (hw.start_mem hne)
    have hph : h = p.holding := by
      rw [show s.mem.ledger.priv (s.mem.tdLinks.urb t) = some p.holding from
        ledger_priv hp] at hpr
      exact (Option.some.inj hpr).symm
    rw [hph] at hed
    exact hed
  | submitSecond | unlinkFinish | doneIrq | delIrq | frame | hcEd | hcTd | hcDone
  | hcData => trivial

/-- **The controller retires a TD.** -/
theorem Sys.move_retire {cc cbp psw : ℕ} {halted carry : Bool}
    (h : s.move fuel (.retire e cc cbp psw halted carry) = some s') :
    ∃ o, s' = { s with mem := o } ∧ (s.mem.ed e).hwHeadP ≠ (s.mem.ed e).hwTailP ∧
      o.ledger = s.mem.ledger ∧
      o.tdLinks = { s.mem.tdLinks with
        head := Function.update s.mem.tdLinks.head e (s.mem.tdLinks.next (s.mem.ed e).hwHeadP)
        next := Function.update s.mem.tdLinks.next (s.mem.ed e).hwHeadP s.mem.tdLinks.reg
        reg := (s.mem.ed e).hwHeadP } := by
  simp only [Sys.move] at h
  split at h
  · cases h
  rename_i hrun
  obtain ⟨s₁, h₁, h⟩ := Option.bind_eq_some_iff.mp h
  obtain ⟨s₂, h₂, h⟩ := Option.bind_eq_some_iff.mp h
  cases h₁
  cases h₂
  cases h
  refine ⟨_, rfl, fun h => hrun (.inl h), ?_, ?_⟩
  · exact Ohci.ledger_modEd_same (o := s.mem) (e := e) (f := fun r => { r with
      hwHeadP := s.mem.nextTD (s.mem.ed e).hwHeadP, headHalted := halted, headCarry := carry })
        (by intro; rfl)
  · exact Ohci.tdLinks_retire (o := s.mem) (e := e) (fun _ => rfl) (fun _ => ⟨rfl, rfl, rfl, rfl⟩)

/-- **The controller works on a TD** that stays on its queue. -/
theorem Sys.move_advance {cc cbp psw : ℕ} (h : s.move fuel (.advance e cc cbp psw) = some s') :
    ∃ o, s' = { s with mem := o } ∧ o.ledger = s.mem.ledger ∧ o.tdLinks = s.mem.tdLinks := by
  simp only [Sys.move] at h
  split at h
  · cases h
  · cases h
    exact ⟨_, rfl, rfl, Ohci.tdLinks_modTd_same rfl fun _ => ⟨rfl, rfl, rfl⟩⟩

/-- **Every step keeps the invariants.** -/
theorem Sys.TdAcc.move (hc : s.TdAcc q fill) (hb : s.Base) (hi : s.TdInv) (hok : MoveClean s m)
    (hs : s.move fuel m = some s') : s'.Base ∧ s'.TdInv ∧ ∃ q' fill', s'.TdAcc q' fill' ∧
      QueuesFrom (fun u => ∃ a, m = .act a ∧ s.Fills a u) s.mem.tdLinks s'.mem.tdLinks q q' := by
  cases m with
  | act a =>
    simp only [Sys.move] at hs
    split at hs
    · rename_i hdriver
      obtain ⟨q', fill', hc', hfrom⟩ := hc.act hb hi hok hdriver hs
      refine ⟨Sys.step_base hb hs, ?_, q', fill', hc', hfrom.mono fun u hu => ⟨a, rfl, hu⟩⟩
      by_cases h0 : ∃ ks, a = .resume ∧ s.tasks = .done 0 :: ks
      · -- the end of the list: nothing is done
        obtain ⟨ks, rfl, ht⟩ := h0
        simp only [Sys.step] at hs
        rw [ht] at hs
        cases hs
        refine hi.of_same rfl ?_
        rw [ht]
        exact List.subset_cons_self _ _
      · refine hi.step (hc.clean hok (fun ks ha ht => h0 ⟨ks, ha, ht⟩)) hs (Sys.step_entry hb hs)
    · cases hs
  | advance e cc cbp psw =>
    obtain ⟨o, rfl, hl, hk⟩ := Sys.move_advance hs
    refine ⟨?_, hi.of_same hl (List.Subset.refl _), q, fill, hc.quiet hk (by rw [hl]),
      .of_subset (congrArg TdLinks.urb hk) fun _ _ ht => ht⟩
    exact hb.of_ledger (congrArg Ledger.priv hl) (congrArg Ledger.state hl)
  | retire e cc cbp psw halted carry =>
    obtain ⟨o, rfl, hne, hl, hk⟩ := Sys.move_retire hs
    have hbusy := hok.1
    obtain ⟨q', hc', hfrom⟩ :=
      hc.retired hi.owners rfl hne (fun f tail fa t tdP => hbusy f tail fa t tdP) hl hk
    refine ⟨?_, hi.of_same hl (List.Subset.refl _), q', fill, hc', hfrom⟩
    exact hb.of_ledger (congrArg Ledger.priv hl) (congrArg Ledger.state hl)
  | writeBack =>
    simp only [Sys.move] at hs
    split at hs
    · rename_i h0
      cases hs
      obtain ⟨q', hc', hsame⟩ := hc.written h0
      exact ⟨⟨hb.owner, hb.zero, hb.queue⟩, hi.of_same rfl (List.Subset.refl _), q', fill, hc',
        .of_subset rfl fun e t ht => hsame e ▸ ht⟩
    · cases hs

/-- **No TD is in use yet**: the queues are empty, and nothing has been retired. -/
structure Ohci.NoTds (o : Ohci) : Prop where
  alloc : ∀ t, o.tdAlloc t = false
  queue : ∀ e, (o.ed e).hwHeadP = (o.ed e).hwTailP
  done : o.doneHead = 0
  reg : o.regDonehead = 0

/-- When nothing has happened yet no TD is on a list. -/
theorem Ohci.Idle.tdAcc (ho : o.Idle) (hn : o.NoTds) :
    Sys.TdAcc ⟨o, [], [], []⟩ (fun _ => []) (fun _ => 0) := by
  have hnone : ∀ {u h} {P : Prop}, o.ledger.priv u = some h → P := by
    intro u h P hu
    rw [ledger_priv_none (ho.hcpriv u)] at hu
    cases hu
  have hno : ∀ {α : Type} {x : α} {P : Prop}, x ∈ ([] : List α) →
      P := fun h => absurd h List.not_mem_nil
  refine ⟨⟨⟨fun i => ?_, fun _ _ _ => hno⟩, fun _ _ => hno, fun _ _ => hno, fun _ _ => rfl,
    fun u h hu => hnone hu⟩,
    fun u h hu => hnone hu, fun _ _ _ => hno, ⟨List.nodup_nil, fun _ => hno⟩, .none,
      fun _ _ _ _ _ _ => hno⟩
  cases i with
  | queue e => exact hn.queue e
  | reg => exact hn.reg
  | done => exact hn.done
  | todo | rev => rfl

/-- The TDs are accounted for in every state of a run. -/
theorem Sys.Moves.tdAcc {o : Ohci} (h : Sys.Moves MoveClean ⟨o, [], [], []⟩ s) (ho : o.Idle)
    (hn : o.NoTds) :
    s.Base ∧ s.TdInv ∧ ∃ q fill, s.TdAcc q fill := by
  induction h with
  | start => exact ⟨ho.base, ho.tdInv hn.alloc, _, _, ho.tdAcc hn⟩
  | step fuel m _ hok hs ih =>
    obtain ⟨hb, hi, q, fill, hc⟩ := ih
    obtain ⟨hb', hi', q', fill', hc', -⟩ := hc.move hb hi hok hs
    exact ⟨hb', hi', q', fill', hc'⟩

end Moves

/-! ## A request that fails and is unlinked -/

/-- Several steps in a row. -/
def Sys.moves (fuel : ℕ) (s : Sys) : List Move → Option Sys
  | [] => some s
  | m :: ms => do
    let s ← s.move fuel m
    s.moves fuel ms

section Stretches

variable {ok : Sys → Move → Prop} {s₀ s s' : Sys} {fuel : ℕ} {m : Move} {ms ns : List Move}

theorem Sys.moves_append :
    s.moves fuel (ms ++ ns) = (s.moves fuel ms).bind (fun s => s.moves fuel ns) := by
  induction ms generalizing s with
  | nil => rfl
  | cons m ms ih =>
    rw [List.cons_append, Sys.moves, Sys.moves]
    cases h : s.move fuel m with
    | none => rfl
    | some s₁ => exact ih

/-- Where a run goes on. -/
theorem Sys.moves_next {β : Type*} {f : Sys → β} {v : β} (ns : List Move)
    (h : s₀.moves fuel ms = some s)
    (hv : (s₀.moves fuel (ms ++ ns)).map f = some v) :
    ∃ s', s.moves fuel ns = some s' ∧ f s' = v ∧
      s₀.moves fuel (ms ++ ns) = some s' := by
  obtain ⟨s', hs', hf⟩ := Option.map_eq_some_iff.mp hv
  have hns := hs'
  rw [Sys.moves_append, h, Option.bind_some] at hns
  exact ⟨s', hns, hf, hs'⟩

/-- Asking less of the steps. -/
theorem Sys.Moves.mono {ok' : Sys → Move → Prop} (h : Sys.Moves ok s₀ s)
    (hok : ∀ s m, ok s m → ok' s m) :
    Sys.Moves ok' s₀ s := by
  induction h with
  | start => exact .start
  | step fuel m _ hm hs ih => exact .step fuel m ih (hok _ m hm) hs

/-- **A step of which something is asked**, and steps of which nothing is asked. -/
theorem Sys.Moves.stretch (h : Sys.Moves ok s₀ s) (hm : ok s m) (hms : ∀ m ∈ ms, ∀ s, ok s m)
    (hr : s.moves fuel (m :: ms) = some s') : Sys.Moves ok s₀ s' := by
  induction ms generalizing s m with
  | nil =>
    obtain ⟨s₁, h₁, hr⟩ := Option.bind_eq_some_iff.mp hr
    cases hr
    exact .step fuel m h hm h₁
  | cons n ms ih =>
    obtain ⟨s₁, h₁, hr⟩ := Option.bind_eq_some_iff.mp hr
    exact ih (.step fuel m h hm h₁) (hms n List.mem_cons_self s₁)
      (fun m hm => hms m (List.mem_cons_of_mem _ hm)) hr

end Stretches

/-- A driver with control URBs of two TDs for one endpoint, whose ED is at the address
12. -/
def controlUrbs : Ohci :=
  { (default : Ohci) with
    usbDev := fun _ => { (default : UsbDev) with edBase := 10 }
    urb := fun _ => { (default : Urb) with
      pipe := ⟨.ctrl, 1, 1, false, false⟩, dev := 1, setupPacket := some (fun _ => 0) } }

theorem controlUrbs_idle : controlUrbs.Idle :=
  ⟨fun _ => rfl, rfl, fun l => by cases l <;> rfl, fun l => by cases l <;> rfl, fun _ => rfl,
    fun _ => rfl, fun _ => rfl⟩

theorem controlUrbs_noTds : controlUrbs.NoTds := ⟨fun _ => rfl, fun _ => rfl, rfl, rfl⟩

/-- A URB is submitted, and the controller retires the first of its two TDs with an
error. -/
def failFirst : List Move :=
  [.act (.submitFirst 1 100 (fun i => 101 + i)), .act (.submitSecond 1 0 4096),
    .retire 12 4 0 0 true false]

/-- What `failFirst` asks for. -/
theorem failFirst_clean {ms : List Move} {s : Sys} (hms : ∀ m ∈ ms, ∀ s, MoveClean s m)
    (h : Sys.moves 1 ⟨controlUrbs, [], [], []⟩ (failFirst ++ ms) = some s) :
    Sys.Moves MoveClean ⟨controlUrbs, [], [], []⟩ s := by
  obtain ⟨s₂, h₂, ht₂⟩ := Option.map_eq_some_iff.mp (show (Sys.moves 1 ⟨controlUrbs, [], [], []⟩
    (failFirst.take 2)).map Sys.tasks = some [] by decide +kernel)
  have hrun₂ : Sys.Moves MoveClean ⟨controlUrbs, [], [], []⟩ s₂ := by
    refine Sys.Moves.stretch (m := .act (.submitFirst 1 100 (fun i => 101 + i))) .start
      ⟨⟨⟨fun _ => rfl, fun i hi _ => ⟨rfl, ?_, fun j hj hji => ?_⟩⟩, by decide⟩, nofun, nofun,
        nofun⟩ ?_ h₂
    · change 101 + i ≠ 100
      omega
    · have hji' : 101 + j = 101 + i := hji
      omega
    · intro m hm s
      obtain rfl := List.mem_singleton.mp hm
      exact ⟨trivial, nofun, nofun, nofun⟩
  have hrest := h
  rw [show failFirst ++ ms = failFirst.take 2 ++ (.retire 12 4 0 0 true false :: ms) from rfl,
    Sys.moves_append, h₂, Option.bind_some] at hrest
  refine hrun₂.stretch (m := .retire 12 4 0 0 true false) ⟨?_, nofun, nofun, nofun⟩ hms hrest
  intro f tail fa t tdP hm
  rw [ht₂] at hm
  cases hm
