import SideDumper.HandOver
import SideDumper.Ohci

/-!
# The interrupt handler and the controller

The controller hands its done queue over by writing `hcca.done_head` and setting
the WDH bit of `intrstatus`, and it does not hand over again before that bit has
been cleared. `hc_interrupt` reads `hcca.done_head`, zeroes it, and clears the bit
last of all. Between its statements the controller goes on, requests are unlinked,
and frames pass.

Here is `hc_interrupt` one statement at a time, in the variant for this machine,
which looks at `hcca.done_head` and at `intrstatus`. A TD is a TD and the lists are
lists: what the links of the TDs do is in `DoneList` and `TdLists`.
-/

/-- **The interrupts**, by their bits. -/
inductive Intr
  | so
  | wdh
  | sf
  | rd
  | ue
  | fno
  | rhsc
  | oc
deriving DecidableEq, Repr

namespace Intr

/-- All of them. -/
def all : List Intr := [.so, .wdh, .sf, .rd, .ue, .fno, .rhsc, .oc]

end Intr

/-- Where `hc_interrupt` is, named by what comes next. `ints` is its variable. -/
inductive HcPc
  /-- `hcca.done_head` is looked at. -/
  | testDone
  /-- `intrstatus` and `intrenable` are read; `wdh` is what `hcca.done_head` said. -/
  | readStatus (wdh : Bool)
  | testUe (ints : Intr → Bool)
  | disableWdh (ints : Intr → Bool)
  /-- `dl_reverse_done_list` reads `hcca.done_head`. -/
  | readHead (ints : Intr → Bool)
  /-- It zeroes `hcca.done_head`. -/
  | zeroHead (ints : Intr → Bool) (tdListHc : List TdPtr)
  /-- It is at the top of its loop. -/
  | reverse (ints : Intr → Bool)
  /-- `dl_done_list` is at the top of its loop. -/
  | settle (ints : Intr → Bool)
  | enableWdh (ints : Intr → Bool)
  | testSo (ints : Intr → Bool)
  | readFrame (ints : Intr → Bool)
  | disableSf (ints : Intr → Bool) (frame : Bool)
  /-- The list of the other frames is looked at. -/
  | testOther (ints : Intr → Bool) (frame : Bool)
  /-- `dl_del_list` is at the top of its outer loop. -/
  | delList (ints : Intr → Bool) (frame : Bool) (es : List EdPtr)
  /-- The list of this frame is looked at. -/
  | testOwn (ints : Intr → Bool) (frame : Bool)
  | acknowledge (ints : Intr → Bool)
  | enableMie

/-- **The handler and the controller.** -/
structure HcSys where
  /-- The TDs that have been retired: the controller's own done queue, the one
  `hcca.done_head` leads to, and the two of the handler. -/
  done : HandOver TdPtr
  /-- Bit 0 of `hcca.done_head`: another interrupt is pending too. -/
  doneBit : Bool
  /-- The controller has written `hcca.done_head` and not yet set the WDH bit. -/
  writing : Bool
  intrstatus : Intr → Bool
  intrenable : Intr → Bool
  /-- `OHCI_INTR_MIE` of `intrenable`. -/
  mie : Bool
  disabled : ℕ
  /-- The parity of `hcca.frame_no`. -/
  frame : Bool
  edRmList : Bool → List EdPtr
  /-- How many `sohci_unlink_urb` calls made in interrupt context look at frames. -/
  polls : ℕ
  /-- Where the handler is, if it has been entered. -/
  pc : Option HcPc
  /-- The TDs that the controller has retired, the first one first. -/
  retired : List TdPtr
  /-- The TDs that `dl_done_list` has settled, the first one first. -/
  settled : List TdPtr

namespace HcSys

/-- `writel (i, &regs->intrenable)`. -/
def on (s : HcSys) (i : Intr) : HcSys :=
  { s with intrenable := Function.update s.intrenable i true }

/-- `writel (i, &regs->intrdisable)`. -/
def off (s : HcSys) (i : Intr) : HcSys :=
  { s with intrenable := Function.update s.intrenable i false }

theorem on_self (s : HcSys) (i : Intr) : (s.on i).intrenable i = true :=
  Function.update_self _ _ _

theorem on_of_ne (s : HcSys) (i j : Intr) (h : j ≠ i) : (s.on i).intrenable j = s.intrenable j :=
  Function.update_of_ne h _ _

theorem off_of_ne (s : HcSys) (i j : Intr) (h : j ≠ i) :
    (s.off i).intrenable j = s.intrenable j :=
  Function.update_of_ne h _ _

/-- The handler goes on at `pc`. -/
def goTo (s : HcSys) (pc : HcPc) : HcSys := { s with pc := some pc }

/-- **The next statement of `hc_interrupt`.** -/
def go (s : HcSys) : HcPc → HcSys
  | .testDone => s.goTo (.readStatus (decide (s.done.given ≠ []) && !s.doneBit))
  | .readStatus wdh =>
    let ints := fun i => (wdh && i == .wdh) || (s.intrstatus i && s.intrenable i)
    if Intr.all.any ints then s.goTo (.testUe ints) else { s with pc := none }
  | .testUe ints =>
    let s := if ints .ue then { s with disabled := s.disabled + 1 } else s
    s.goTo (if ints .wdh then .disableWdh ints else .testSo ints)
  | .disableWdh ints => (s.off .wdh).goTo (.readHead ints)
  | .readHead ints => s.goTo (.zeroHead ints s.done.given)
  | .zeroHead ints tdListHc =>
    { s with
      done := { s.done with given := [], todo := tdListHc }
      doneBit := false
      pc := some (.reverse ints) }
  | .reverse ints =>
    match s.done.todo with
    | [] => s.goTo (.settle ints)
    | t :: ts => { s with done := { s.done with todo := ts, turned := t :: s.done.turned } }
  | .settle ints =>
    match s.done.turned with
    | [] => s.goTo (.enableWdh ints)
    | t :: ts => { s with done := { s.done with turned := ts }, settled := s.settled ++ [t] }
  | .enableWdh ints => (s.on .wdh).goTo (.testSo ints)
  | .testSo ints =>
    let s := if ints .so then s.on .so else s
    s.goTo (if ints .sf then .readFrame ints else .acknowledge ints)
  | .readFrame ints => s.goTo (.disableSf ints s.frame)
  | .disableSf ints frame => (s.off .sf).goTo (.testOther ints frame)
  | .testOther ints frame =>
    s.goTo (if s.edRmList (!frame) ≠ [] then .delList ints frame (s.edRmList (!frame))
      else .testOwn ints frame)
  | .delList ints frame [] =>
    { s with
      edRmList := Function.update s.edRmList (!frame) []
      pc := some (.testOwn ints frame) }
  | .delList ints frame (_ :: es) => s.goTo (.delList ints frame es)
  | .testOwn ints frame =>
    (if s.edRmList frame ≠ [] then s.on .sf else s).goTo (.acknowledge ints)
  | .acknowledge ints =>
    { s with intrstatus := fun i => s.intrstatus i && !ints i, pc := some .enableMie }
  | .enableMie => { s with mie := true, pc := none }

end HcSys

/-- What can happen next. -/
inductive HcAct
  /-- The handler is entered. The line is shared, so it may be for another device. -/
  | enter
  /-- The handler goes on. -/
  | go
  /-- The controller retires a TD. -/
  | retire (t : TdPtr)
  /-- The controller writes `hcca.done_head`. -/
  | giveDone (bit : Bool)
  /-- The controller sets the WDH bit behind it. -/
  | signal
  /-- The controller sets another bit of `intrstatus`. -/
  | raise (i : Intr)
  /-- The frame counter moves. -/
  | frame (f : Bool)
  /-- `ep_rm_ed` puts an ED on its list, from wherever it is called. -/
  | remove (e : EdPtr)
  /-- A `sohci_unlink_urb` in interrupt context disables the SF interrupt. -/
  | pollStart
  /-- It has `dl_del_list` work off a list. -/
  | pollDel (f : Bool)
  /-- It enables the SF interrupt. -/
  | pollEnd

namespace HcSys

/-- **One step.** The controller does not hand over while the WDH bit is set. -/
def step (s : HcSys) : HcAct → Option HcSys
  | .enter => if s.pc.isNone then some (s.goTo .testDone) else none
  | .go => s.pc.map s.go
  | .retire t =>
    some { s with done := { s.done with own := t :: s.done.own }, retired := s.retired ++ [t] }
  | .giveDone bit =>
    if s.intrstatus .wdh ∨ s.writing then none
    else some
      { s with
        done := { s.done with own := [], given := s.done.own }
        doneBit := bit
        writing := true }
  | .signal =>
    if s.writing then some
      { s with writing := false, intrstatus := Function.update s.intrstatus .wdh true } else none
  | .raise i =>
    if i = .wdh then none else some { s with intrstatus := Function.update s.intrstatus i true }
  | .frame f => some { s with frame := f }
  | .remove e =>
    some { (s.on .sf) with
      intrstatus := Function.update s.intrstatus .sf false
      edRmList := Function.update s.edRmList s.frame (e :: s.edRmList s.frame) }
  | .pollStart => some { (s.off .sf) with polls := s.polls + 1 }
  | .pollDel f =>
    if s.polls = 0 then none else some { s with edRmList := Function.update s.edRmList f [] }
  | .pollEnd => if s.polls = 0 then none else some { (s.on .sf) with polls := s.polls - 1 }

/-- What `hc_start` leaves. -/
def start : HcSys where
  done := .empty
  doneBit := false
  writing := false
  intrstatus := fun _ => false
  intrenable := fun i => i == .ue || i == .wdh || i == .so
  mie := true
  disabled := 0
  frame := false
  edRmList := fun _ => []
  polls := 0
  pc := none
  retired := []
  settled := []

/-- **The states of the runs.** -/
inductive Reach : HcSys → Prop
  | start : Reach start
  | step {s s' : HcSys} (a : HcAct) : Reach s → s.step a = some s' → Reach s'

/-- Several steps in a row. -/
def run (s : HcSys) : List HcAct → Option HcSys
  | [] => some s
  | a :: as => do
    let s ← s.step a
    s.run as

theorem Reach.run {s s' : HcSys} (as : List HcAct) (h : s.Reach) (hr : s.run as = some s') :
    s'.Reach := by
  induction as generalizing s with
  | nil =>
    cases hr
    exact h
  | cons a as ih =>
    obtain ⟨s₁, h₁, hr⟩ := Option.bind_eq_some_iff.mp hr
    exact ih (.step a h h₁) hr

/-- The controller asserts its line. -/
def Asserted (s : HcSys) : Prop := s.mie = true ∧ ∃ i, s.intrstatus i = true ∧
  s.intrenable i = true

end HcSys

/-! ## The handshake -/

namespace HcPc

/-- The handler has taken on what has been retired, and not acknowledged it. -/
def handles : HcPc → Bool
  | .testDone | .enableMie => false
  | .readStatus wdh => wdh
  | .disableWdh _ | .readHead _ | .zeroHead _ _ | .reverse _ | .settle _ | .enableWdh _ => true
  | .testUe ints | .testSo ints | .readFrame ints | .disableSf ints _ | .testOther ints _
  | .delList ints _ _
  | .testOwn ints _ | .acknowledge ints => ints .wdh

/-- It has zeroed `hcca.done_head`, and not acknowledged that. -/
def emptied : HcPc → Bool
  | .reverse _ | .settle _ | .enableWdh _ => true
  | .testSo ints | .readFrame ints | .disableSf ints _ | .testOther ints _ | .delList ints _ _
  | .testOwn ints _
  | .acknowledge ints => ints .wdh
  | _ => false

/-- What it has read from `hcca.done_head` and not zeroed. -/
def read : HcPc → Option (List TdPtr)
  | .zeroHead _ tdListHc => some tdListHc
  | _ => none

theorem handles_of_emptied {p : HcPc} (h : p.emptied = true) : p.handles = true := by
  cases p <;> first | exact h | rfl | cases h

end HcPc

namespace HcSys

variable {s s' : HcSys} {p : HcPc} {a : HcAct}

/-- **What keeps the controller from handing over too early.** Where TDs have been handed
over, and as long as the handler is at them, the WDH bit is set or about to be. -/
structure Signalled (s : HcSys) : Prop where
  given : s.done.given ≠ [] → s.intrstatus .wdh = true ∨ s.writing = true
  handles : s.pc.any HcPc.handles = true → s.intrstatus .wdh = true ∨ s.writing = true
  emptied : s.pc.any HcPc.emptied = true → s.done.given = []
  read : ∀ ts, s.pc.bind HcPc.read = some ts → s.done.given = ts

theorem Signalled.start : HcSys.start.Signalled where
  given h := absurd rfl h
  handles := by rintro ⟨⟩
  emptied := by rintro ⟨⟩
  read := by rintro _ ⟨⟩

/-- A step that neither the controller's hand-over nor the handler's has a part in. -/
theorem Signalled.moved (h : s.Signalled) (hgiven : s'.done.given = s.done.given)
    (hst : (s'.intrstatus .wdh, s'.writing) = (s.intrstatus .wdh, s.writing))
    (hhandles : s'.pc.any HcPc.handles = true → s.pc.any HcPc.handles = true)
    (hemptied : s'.pc.any HcPc.emptied = true → s.pc.any HcPc.emptied = true)
    (hread : ∀ ts, s'.pc.bind HcPc.read = some ts → s.pc.bind HcPc.read = some ts) :
    s'.Signalled := by
  obtain ⟨hst, hw⟩ := Prod.mk.injEq .. ▸ hst
  refine ⟨fun hg => ?_, fun hh => ?_, fun he => hgiven.trans (h.emptied (hemptied he)),
    fun ts hr => ?_⟩
  · rw [hst, hw]
    exact h.given (hgiven ▸ hg)
  · rw [hst, hw]
    exact h.handles (hhandles hh)
  · exact hgiven.trans (h.read ts (hread ts hr))

/-- The handler goes on. -/
theorem Signalled.goes {p' : HcPc} (h : s.Signalled) (hpc : s.pc = some p)
    (hpc' : s'.pc = some p')
    (hgiven : s'.done.given = s.done.given)
    (hst : (s'.intrstatus .wdh, s'.writing) = (s.intrstatus .wdh, s.writing))
    (hhandles : p'.handles = true → p.handles = true) (hemptied : p'.emptied = true →
      p.emptied = true)
    (hread : p'.read = none) : s'.Signalled := by
  refine h.moved hgiven hst ?_ ?_ fun ts hr => ?_
  · rw [hpc, hpc']
    exact hhandles
  · rw [hpc, hpc']
    exact hemptied
  · rw [hpc'] at hr
    cases hread.symm.trans hr

/-- **A statement of the handler.** -/
theorem Signalled.go (h : s.Signalled) (hpc : s.pc = some p) : (s.go p).Signalled := by
  have hhandles : p.handles = true → s.intrstatus .wdh = true ∨ s.writing = true := fun hp =>
    h.handles (by rw [hpc]; exact hp)
  cases p with
  | testDone =>
    -- TDs that have been handed over are taken on
    refine ⟨h.given, fun hh => h.given ?_, (by rintro ⟨⟩), (by rintro _ ⟨⟩)⟩
    have hh : (decide (s.done.given ≠ []) && !s.doneBit) = true := hh
    simpa using (Bool.and_eq_true_iff.mp hh).1
  | readStatus wdh =>
    simp only [HcSys.go]
    split
    · refine ⟨h.given, fun hh => ?_, (by rintro ⟨⟩), (by rintro _ ⟨⟩)⟩
      have hh : ((wdh && (Intr.wdh == Intr.wdh)) || (s.intrstatus .wdh && s.intrenable .wdh))
          = true := hh
      obtain hw | hst := Bool.or_eq_true_iff.mp hh
      · exact hhandles (Bool.and_eq_true_iff.mp hw).1
      · exact .inl (Bool.and_eq_true_iff.mp hst).1
    · exact ⟨h.given, (by rintro ⟨⟩), (by rintro ⟨⟩), (by rintro _ ⟨⟩)⟩
  | readHead ints =>
    exact ⟨h.given, fun _ => hhandles rfl, (by rintro ⟨⟩), fun ts hr => Option.some.inj hr⟩
  | zeroHead ints ts =>
    exact ⟨fun hg => absurd rfl hg, fun _ => hhandles rfl, fun _ => rfl, (by rintro _ ⟨⟩)⟩
  | acknowledge ints =>
    refine ⟨fun hg => ?_, (by rintro ⟨⟩), (by rintro ⟨⟩), (by rintro _ ⟨⟩)⟩
    cases hw : ints .wdh with
    | false =>
      refine (h.given hg).imp_left fun hst => ?_
      change (s.intrstatus .wdh && !ints .wdh) = true
      rw [hst, hw]
      rfl
    | true =>
      -- what it acknowledges has been taken
      exact absurd (h.emptied (by rw [hpc]; exact hw)) hg
  | enableWdh ints =>
    -- from here on it is `ints` that says what is being handled
    exact ⟨fun hg => absurd (h.emptied (by rw [hpc]; rfl)) hg, fun _ => hhandles rfl,
      fun _ => h.emptied (by rw [hpc]; rfl), (by rintro _ ⟨⟩)⟩
  | testUe ints =>
    simp only [HcSys.go]
    cases hw : ints .wdh with
    | true =>
      rw [if_pos rfl]
      refine ⟨?_, fun _ => ?_, (by rintro ⟨⟩), (by rintro _ ⟨⟩)⟩
      · split <;> exact h.given
      · split <;> exact hhandles hw
    | false =>
      rw [if_neg Bool.false_ne_true]
      refine ⟨?_, fun hh => ?_, fun he => ?_, (by rintro _ ⟨⟩)⟩
      · split <;> exact h.given
      · cases hw.symm.trans hh
      · cases hw.symm.trans he
  | reverse ints | settle ints =>
    simp only [HcSys.go]
    split
    · exact h.goes hpc rfl rfl rfl id id rfl
    · exact h.moved rfl rfl id id fun _ => id
  | testSo ints =>
    simp only [HcSys.go]
    split <;> split <;> exact h.goes hpc rfl rfl rfl id id rfl
  | testOther ints frame | testOwn ints frame =>
    simp only [HcSys.go]
    split <;> exact h.goes hpc rfl rfl rfl id id rfl
  | delList ints frame es => cases es <;> exact h.goes hpc rfl rfl rfl id id rfl
  | enableMie => exact h.moved rfl rfl (by rintro ⟨⟩) (by rintro ⟨⟩) (by rintro _ ⟨⟩)
  | disableWdh ints | readFrame ints | disableSf ints frame =>
    exact h.goes hpc rfl rfl rfl id id rfl

/-- **Every step.** -/
theorem Signalled.step (h : s.Signalled) (hs : s.step a = some s') : s'.Signalled := by
  cases a with
  | enter =>
    simp only [HcSys.step] at hs
    split at hs
    · cases hs
      exact h.moved rfl rfl (by rintro ⟨⟩) (by rintro ⟨⟩) (by rintro _ ⟨⟩)
    · cases hs
  | go =>
    obtain ⟨p, hpc, rfl⟩ := Option.map_eq_some_iff.mp hs
    exact h.go hpc
  | giveDone bit =>
    simp only [HcSys.step] at hs
    split at hs
    · cases hs
    rename_i hfree
    cases hs
    -- the handler is not at what has been handed over before
    have hpc : s.pc.any HcPc.handles ≠ true := fun hh => hfree (h.handles hh)
    refine ⟨fun _ => .inr rfl, fun _ => .inr rfl, fun he => absurd ?_ hpc,
      fun ts hr => absurd ?_ hpc⟩
    · obtain ⟨p, hp, he⟩ := Option.any_eq_true _ _ |>.mp he
      exact Option.any_eq_true _ _ |>.mpr ⟨p, hp, HcPc.handles_of_emptied he⟩
    · obtain ⟨p, hp, hr⟩ := Option.bind_eq_some_iff.mp hr
      refine Option.any_eq_true _ _ |>.mpr ⟨p, hp, ?_⟩
      cases p <;> first | rfl | cases hr
  | signal =>
    simp only [HcSys.step] at hs
    split at hs
    · cases hs
      have hset : Function.update s.intrstatus .wdh true .wdh = true := Function.update_self _ _ _
      exact ⟨fun _ => .inl hset, fun _ => .inl hset, h.emptied, h.read⟩
    · cases hs
  | raise i =>
    simp only [HcSys.step] at hs
    split at hs
    · cases hs
    · rename_i hi
      cases hs
      refine h.moved rfl ?_ id id fun _ => id
      dsimp only
      rw [Function.update_of_ne (Ne.symm hi)]
  | pollDel | pollEnd =>
    simp only [HcSys.step] at hs
    split at hs
    · cases hs
    · cases hs
      exact h.moved rfl rfl id id fun _ => id
  | retire | frame | remove | pollStart =>
    cases hs
    exact h.moved rfl rfl id id fun _ => id

/-- **The controller hands over only when nothing is left** of what it has handed over
before. -/
theorem Signalled.given_nil (h : s.Signalled) {bit : Bool}
    (hs : s.step (.giveDone bit) = some s') : s.done.given = [] := by
  simp only [HcSys.step] at hs
  split at hs
  · cases hs
  · rename_i hfree
    by_contra hg
    exact hfree (h.given hg)

end HcSys

/-! ## Nothing is lost, and nothing comes twice -/

namespace HcPc

/-- The handler turns TDs around. -/
def turns : HcPc → Bool
  | .reverse _ => true
  | _ => false

/-- It turns TDs around or settles them. -/
def works : HcPc → Bool
  | .reverse _ | .settle _ => true
  | _ => false

end HcPc

namespace HcSys

variable {s s' : HcSys} {p : HcPc} {a : HcAct}

/-- **The handler has nothing in its hands** unless it is at it. -/
structure Lists (s : HcSys) : Prop where
  todo : s.pc.any HcPc.turns = false → s.done.todo = []
  turned : s.pc.any HcPc.works = false → s.done.turned = []

/-- **What a step does to the lists**, as a step of a queue that is handed over. -/
structure Moves (s s' : HcSys) : Prop where
  lists : s'.Lists
  queue : ∃ rs ss, s'.retired = s.retired ++ rs ∧ s'.settled = s.settled ++ ss ∧
    s.done.Step rs ss s'.done

/-- The handler goes on, and does nothing to the lists. -/
theorem Lists.goes (h : s.Lists)
    (hdone : (s'.done, s'.retired, s'.settled) = (s.done, s.retired, s.settled))
    (hturns : s'.pc.any HcPc.turns = false → s.pc.any HcPc.turns = false)
    (hworks : s'.pc.any HcPc.works = false → s.pc.any HcPc.works = false) : s.Moves s' := by
  simp only [Prod.mk.injEq] at hdone
  obtain ⟨hd, hr, hse⟩ := hdone
  refine ⟨⟨fun ht => ?_, fun ht => ?_⟩, [], [], ?_, ?_, ?_⟩
  · rw [hd]
    exact h.todo (hturns ht)
  · rw [hd]
    exact h.turned (hworks ht)
  · rw [hr, List.append_nil]
  · rw [hse, List.append_nil]
  · rw [hd]
    exact .rest

/-- **A statement of the handler.** -/
theorem Lists.go (h : s.Lists) (hsig : s.Signalled) (hpc : s.pc = some p) : s.Moves (s.go p) := by
  have hidle : p.turns = false → s.done.todo = [] := fun hp => h.todo (by rw [hpc]; exact hp)
  have hoff : p.works = false → s.done.turned = [] := fun hp => h.turned (by rw [hpc]; exact hp)
  cases p with
  | zeroHead ints ts =>
    have hread : s.done.given = ts := hsig.read ts (by rw [hpc]; rfl)
    refine ⟨⟨(by rintro ⟨⟩), (by rintro ⟨⟩)⟩, [], [], (List.append_nil _).symm,
      (List.append_nil _).symm, ?_⟩
    rw [HcSys.go, ← hread]
    exact .take (hidle rfl) (hoff rfl)
  | reverse ints =>
    simp only [HcSys.go]
    split
    · rename_i ht
      refine ⟨⟨fun _ => ht, (by rintro ⟨⟩)⟩, [], [], (List.append_nil _).symm,
        (List.append_nil _).symm, .rest⟩
    · rename_i t ts ht
      have hon : s.pc.any HcPc.turns = true := by
        rw [hpc]
        rfl
      have hon' : s.pc.any HcPc.works = true := by
        rw [hpc]
        rfl
      refine ⟨⟨fun hoff => ?_, fun hoff => ?_⟩, [], [], (List.append_nil _).symm,
        (List.append_nil _).symm, .turn t ts ht⟩
      · cases hon.symm.trans hoff
      · cases hon'.symm.trans hoff
  | settle ints =>
    simp only [HcSys.go]
    split
    · rename_i ht
      exact ⟨⟨fun _ => hidle rfl, fun _ => ht⟩, [], [], (List.append_nil _).symm,
        (List.append_nil _).symm, .rest⟩
    · rename_i t ts ht
      have hon : s.pc.any HcPc.works = true := by
        rw [hpc]
        rfl
      refine ⟨⟨fun _ => hidle rfl, fun hoff => ?_⟩, [], [t], (List.append_nil _).symm, rfl,
        .get t ts (hidle rfl) ht⟩
      cases hon.symm.trans hoff
  | readStatus | testUe | testSo | testOther | testOwn =>
    refine h.goes ?_ (fun _ => by rw [hpc]; rfl) (fun _ => by rw [hpc]; rfl)
    simp only [HcSys.go]
    repeat' split
    all_goals rfl
  | delList ints frame es =>
    cases es <;> exact h.goes rfl (fun _ => by rw [hpc]; rfl) (fun _ => by rw [hpc]; rfl)
  | testDone | disableWdh | readHead | enableWdh | readFrame | disableSf | acknowledge
  | enableMie =>
    exact h.goes rfl (fun _ => by rw [hpc]; rfl) (fun _ => by rw [hpc]; rfl)

/-- **Every step.** -/
theorem Lists.step (h : s.Lists) (hsig : s.Signalled) (hs : s.step a = some s') : s.Moves s' := by
  cases a with
  | enter =>
    simp only [HcSys.step] at hs
    split at hs
    · rename_i hpc
      cases hs
      have hnone : s.pc = none := Option.isNone_iff_eq_none.mp hpc
      exact h.goes rfl (fun _ => by rw [hnone]; rfl) (fun _ => by rw [hnone]; rfl)
    · cases hs
  | go =>
    obtain ⟨p, hpc, rfl⟩ := Option.map_eq_some_iff.mp hs
    exact h.go hsig hpc
  | retire t =>
    cases hs
    exact ⟨⟨h.todo, h.turned⟩, [t], [], rfl, (List.append_nil _).symm, .put t⟩
  | giveDone bit =>
    have hgiven := hsig.given_nil hs
    simp only [HcSys.step] at hs
    split at hs
    · cases hs
    · cases hs
      exact ⟨⟨h.todo, h.turned⟩, [], [], (List.append_nil _).symm, (List.append_nil _).symm,
        .give hgiven⟩
  | signal | raise | pollDel | pollEnd =>
    simp only [HcSys.step] at hs
    split at hs
    · cases hs <;> exact h.goes rfl id id
    · cases hs <;> exact h.goes rfl id id
  | frame | remove | pollStart =>
    cases hs
    exact h.goes rfl id id

/-- **The handler and the controller are a queue that is handed over.** -/
theorem Reach.queue (h : s.Reach) :
    s.Signalled ∧ s.Lists ∧ HandOver.Run .empty s.retired s.settled s.done := by
  induction h with
  | start => exact ⟨.start, ⟨fun _ => rfl, fun _ => rfl⟩, .start⟩
  | step a _ hs ih =>
    obtain ⟨hsig, hlists, hrun⟩ := ih
    obtain ⟨hlists', rs, ss, hr, hse, hstep⟩ := hlists.step hsig hs
    refine ⟨hsig.step hs, hlists', ?_⟩
    rw [hr, hse]
    exact .step hrun hstep

/-- **Every TD that the controller retires is settled once, and in the order in which
they were retired**: what has been retired is what has been settled and then what is
on its way. What the handler zeroes is what it has read, and the controller writes
`hcca.done_head` only when nothing is left there. -/
theorem hcInterrupt_fifo (h : s.Reach) :
    s.retired = s.settled ++ s.done.inFlight ∧
      (∀ ints ts, s.pc = some (.zeroHead ints ts) → s.done.given = ts) ∧
      ∀ bit s', s.step (.giveDone bit) = some s' → s.done.given = [] := by
  obtain ⟨hsig, -, hrun⟩ := h.queue
  exact ⟨hrun.fifo, fun ints ts hpc => hsig.read ts (by rw [hpc]; rfl),
    fun _ _ hs => hsig.given_nil hs⟩

/-- Two TDs have been handed over, a third has been retired since, and the handler is
about to zero `hcca.done_head`. -/
def twoRetired : HcSys :=
  (start.run ([.retire 5, .retire 7, .giveDone false, .signal, .retire 9,
    .enter] ++ List.replicate 5 .go)).getD start

theorem twoRetired_reach : twoRetired.Reach :=
  Reach.run ([.retire 5, .retire 7, .giveDone false, .signal, .retire 9, .enter] ++ List.replicate
    5 .go) .start rfl

theorem hcInterrupt_fifo_twoRetired :
    twoRetired.retired = [5, 7, 9] ∧ twoRetired.done.inFlight = [5, 7, 9] ∧
    twoRetired.done.given = [7, 5] := by
  obtain ⟨hall, hread, -⟩ := hcInterrupt_fifo twoRetired_reach
  exact ⟨rfl, hall.symm, hread _ _ rfl⟩

end HcSys

/-! ## Nothing is forgotten -/

namespace HcPc

/-- The handler has disabled the WDH interrupt. -/
def wdhOff : HcPc → Bool
  | .readHead _ | .zeroHead _ _ | .reverse _ | .settle _ | .enableWdh _ => true
  | _ => false

/-- It has disabled the SF interrupt and will look at this list, or work it off. -/
def sees (f : Bool) : HcPc → Bool
  | .testOther _ _ | .delList _ _ _ => true
  | .testOwn _ frame => f == frame
  | _ => false

end HcPc

namespace HcSys

variable {s s' : HcSys} {p : HcPc} {a : HcAct}

/-- **The interrupts that are waited for are enabled**, as long as no one has disabled
them who will enable them again. -/
structure Armed (s : HcSys) : Prop where
  wdh : s.pc.any HcPc.wdhOff = false → s.intrenable .wdh = true
  mie : s.mie = true
  removals : ∀ f, s.edRmList f ≠ [] → s.polls = 0 → s.intrenable .sf = true ∨
    s.pc.any (HcPc.sees f) = true

/-- A step that has no part in it. -/
theorem Armed.goes (h : s.Armed) (hmie : s'.mie = s.mie) (hrm : s'.edRmList = s.edRmList)
    (hpolls : s'.polls = s.polls)
    (hwdh : s'.pc.any HcPc.wdhOff = false → s'.intrenable .wdh = s.intrenable .wdh ∧
      s.pc.any HcPc.wdhOff = false)
    (hsf : s'.intrenable .sf = s.intrenable .sf)
    (hsees : ∀ f, s.pc.any (HcPc.sees f) = true → s'.pc.any (HcPc.sees f) = true) : s'.Armed := by
  refine ⟨fun hoff => ?_, hmie.trans h.mie, fun f hf h0 => ?_⟩
  · obtain ⟨hsame, hoff⟩ := hwdh hoff
    exact hsame.trans (h.wdh hoff)
  · rw [hsf]
    exact (h.removals f (hrm ▸ hf) (hpolls ▸ h0)).imp_right (hsees f)

theorem Armed.go (h : s.Armed) (hpc : s.pc = some p) : (s.go p).Armed := by
  have hnone : (∀ f, p.sees f = false) → ∀ f (P : Prop), s.pc.any (HcPc.sees f) = true → P := by
    intro hp f P hf
    rw [hpc] at hf
    cases (hp f).symm.trans hf
  cases p with
  | disableWdh ints =>
    refine h.goes rfl rfl rfl (by rintro ⟨⟩) (s.off_of_ne .wdh .sf (by simp)) fun f =>
      hnone (fun _ => rfl) f _
  | enableWdh ints =>
    refine ⟨fun _ => s.on_self .wdh, h.mie, fun f hf h0 => ?_⟩
    have hsame : (s.go (.enableWdh ints)).intrenable .sf = s.intrenable .sf :=
      s.on_of_ne .wdh .sf (by simp)
    rw [hsame]
    exact (h.removals f hf h0).imp_right (hnone (fun _ => rfl) f _)
  | disableSf ints frame =>
    refine ⟨fun _ => ?_, h.mie, fun f _ _ => .inr rfl⟩
    exact (s.off_of_ne .sf .wdh (by simp)).trans (h.wdh (by rw [hpc]; rfl))
  | testOther ints frame =>
    -- a list that is passed over here is empty
    refine ⟨fun _ => ?_, h.mie, fun f hf h0 => ?_⟩
    · exact h.wdh (by rw [hpc]; rfl)
    · simp only [HcSys.go]
      by_cases hother : s.edRmList (!frame) ≠ []
      · rw [if_pos hother]
        exact .inr rfl
      · rw [if_neg hother]
        refine .inr ?_
        change (f == frame) = true
        by_contra hne
        have hfo : f = !frame := Bool.eq_not.mpr (by simpa using hne)
        exact hother (hfo ▸ hf)
  | delList ints frame es =>
    cases es with
    | nil =>
      refine ⟨fun _ => h.wdh (by rw [hpc]; rfl), h.mie, fun f hf h0 => .inr ?_⟩
      change (f == frame) = true
      by_contra hne
      have hfo : f = !frame := Bool.eq_not.mpr (by simpa using hne)
      exact hf (hfo ▸ Function.update_self _ _ _)
    | cons e es => exact h.goes rfl rfl rfl (fun _ => ⟨rfl, by rw [hpc]; rfl⟩) rfl fun _ _ => rfl
  | testOwn ints frame =>
    simp only [HcSys.go]
    split
    · exact ⟨fun _ => (s.on_of_ne .sf .wdh (by simp)).trans (h.wdh (by rw [hpc]; rfl)), h.mie,
        fun f _ _ => .inl (s.on_self .sf)⟩
    · rename_i hown
      refine ⟨fun _ => h.wdh (by rw [hpc]; rfl), h.mie, fun f hf h0 => ?_⟩
      refine (h.removals f hf h0).imp_right fun hs => ?_
      rw [hpc] at hs
      have hff : f = frame := by simpa [HcPc.sees] using hs
      exact absurd (hff ▸ hf) hown
  | testSo ints =>
    simp only [HcSys.go]
    have hon : (if ints .so then s.on .so else s).Armed ∧
        (if ints .so then s.on .so else s).pc = s.pc := by
      split
      · exact ⟨h.goes rfl rfl rfl (fun hoff => ⟨s.on_of_ne .so .wdh (by simp), hoff⟩)
          (s.on_of_ne .so .sf (by simp)) fun _ => id, rfl⟩
      · exact ⟨h, rfl⟩
    obtain ⟨hon, hsame⟩ := hon
    refine hon.goes rfl rfl rfl (fun _ => ⟨rfl, ?_⟩) rfl fun f hf => ?_
    · rw [hsame, hpc]
      rfl
    · rw [hsame] at hf
      exact hnone (fun _ => rfl) f _ hf
  | testUe ints =>
    have hon : (if ints .ue then { s with disabled := s.disabled + 1 } else s).Armed ∧
        (if ints .ue then { s with disabled := s.disabled + 1 } else s).pc = s.pc := by
      split
      · exact ⟨h.goes rfl rfl rfl (fun hoff => ⟨rfl, hoff⟩) rfl fun _ => id, rfl⟩
      · exact ⟨h, rfl⟩
    obtain ⟨hon, hsame⟩ := hon
    refine hon.goes rfl rfl rfl (fun _ => ⟨rfl, ?_⟩) rfl fun f hf => ?_
    · rw [hsame, hpc]
      rfl
    · rw [hsame] at hf
      exact hnone (fun _ => rfl) f _ hf
  | readStatus wdh =>
    simp only [HcSys.go]
    split
    · exact h.goes rfl rfl rfl (fun _ => ⟨rfl, by rw [hpc]; rfl⟩) rfl fun f =>
        hnone (fun _ => rfl) f _
    · exact h.goes rfl rfl rfl (fun _ => ⟨rfl, by rw [hpc]; rfl⟩) rfl fun f =>
        hnone (fun _ => rfl) f _
  | reverse ints | settle ints =>
    simp only [HcSys.go]
    split
    · exact h.goes rfl rfl rfl (by rintro ⟨⟩) rfl fun f => hnone (fun _ => rfl) f _
    · exact h.goes rfl rfl rfl (fun hoff => ⟨rfl, hoff⟩) rfl fun _ => id
  | readHead ints | zeroHead ints ts =>
    exact h.goes rfl rfl rfl (by rintro ⟨⟩) rfl fun f => hnone (fun _ => rfl) f _
  | testDone | readFrame | acknowledge =>
    exact h.goes rfl rfl rfl (fun _ => ⟨rfl, by rw [hpc]; rfl⟩) rfl fun f =>
      hnone (fun _ => rfl) f _
  | enableMie =>
    exact h.goes h.mie.symm rfl rfl (fun _ => ⟨rfl, by rw [hpc]; rfl⟩) rfl fun f =>
      hnone (fun _ => rfl) f _

/-- **Every step.** -/
theorem Armed.step (h : s.Armed) (hs : s.step a = some s') : s'.Armed := by
  cases a with
  | enter =>
    simp only [HcSys.step] at hs
    split at hs
    · rename_i hpc
      cases hs
      have hnone : s.pc = none := Option.isNone_iff_eq_none.mp hpc
      refine h.goes rfl rfl rfl (fun _ => ⟨rfl, by rw [hnone]; rfl⟩) rfl fun f hf => ?_
      rw [hnone] at hf
      cases hf
    · cases hs
  | go =>
    obtain ⟨p, hpc, rfl⟩ := Option.map_eq_some_iff.mp hs
    exact h.go hpc
  | remove e =>
    cases hs
    exact ⟨fun hoff => (s.on_of_ne .sf .wdh (by simp)).trans (h.wdh hoff), h.mie,
      fun f _ _ => .inl (s.on_self .sf)⟩
  | pollStart =>
    cases hs
    refine ⟨fun hoff => ?_, h.mie, fun f _ h0 => ?_⟩
    · exact (s.off_of_ne .sf .wdh (by simp)).trans (h.wdh hoff)
    · cases h0
  | pollDel x =>
    simp only [HcSys.step] at hs
    split at hs
    · cases hs
    · rename_i hpolls
      cases hs
      exact ⟨h.wdh, h.mie, fun f _ h0 => absurd h0 hpolls⟩
  | pollEnd =>
    simp only [HcSys.step] at hs
    split at hs
    · cases hs
    · cases hs
      exact ⟨fun hoff => (s.on_of_ne .sf .wdh (by simp)).trans (h.wdh hoff), h.mie,
        fun f _ _ => .inl (s.on_self .sf)⟩
  | giveDone | signal | raise =>
    simp only [HcSys.step] at hs
    split at hs
    · cases hs <;> exact h.goes rfl rfl rfl (fun hoff => ⟨rfl, hoff⟩) rfl fun _ => id
    · cases hs <;> exact h.goes rfl rfl rfl (fun hoff => ⟨rfl, hoff⟩) rfl fun _ => id
  | retire | frame =>
    cases hs
    exact h.goes rfl rfl rfl (fun hoff => ⟨rfl, hoff⟩) rfl fun _ => id

theorem Reach.armed (h : s.Reach) : s.Armed := by
  induction h with
  | start => exact ⟨fun _ => rfl, rfl, fun _ hf => absurd rfl hf⟩
  | step a _ hs ih => exact ih.step hs

/-- **No work is forgotten.** When the handler is not running, TDs that have been handed
over assert the line; and as long as an ED waits for its removal and no one is looking
at frames, the SF interrupt is enabled. -/
theorem hcInterrupt_armed (h : s.Reach) (hpc : s.pc = none) :
    (s.done.given ≠ [] → s.writing = false → s.Asserted) ∧
      ∀ f, s.edRmList f ≠ [] → s.polls = 0 → s.mie = true ∧ s.intrenable .sf = true := by
  have ha := h.armed
  refine ⟨fun hg hw => ⟨ha.mie, .wdh, ?_, ha.wdh (by rw [hpc]; rfl)⟩, fun f hf h0 => ⟨ha.mie, ?_⟩⟩
  · exact (h.queue.1.given hg).resolve_right (by rw [hw]; simp)
  · exact (ha.removals f hf h0).resolve_right (by rw [hpc]; simp)

/-- A frame comes, but an ED has been put on the list of that very frame, so that the handler
leaves it there. -/
def leftForNext : List HcAct := [.remove 12, .raise .sf, .enter] ++ List.replicate 10 .go

theorem hcInterrupt_armed_leftForNext :
    ∃ s, start.run leftForNext = some s ∧ s.edRmList false = [12] ∧
    s.intrstatus .wdh = false ∧ s.intrstatus .sf = false ∧ s.mie = true ∧
      s.intrenable .sf = true := by
  obtain ⟨s, hs, hpc, hrm, hpolls, hwdh, hsf⟩ : ∃ s, start.run leftForNext = some s ∧
      s.pc = none ∧
      s.edRmList false = [12] ∧ s.polls = 0 ∧ s.intrstatus .wdh = false ∧
        s.intrstatus .sf = false :=
    ⟨_, rfl, rfl, rfl, rfl, rfl, rfl⟩
  have harmed :=
    (hcInterrupt_armed (Reach.run _ .start hs) hpc).2 false (by rw [hrm]; simp) hpolls
  exact ⟨s, hs, hrm, hwdh, hsf, harmed⟩

end HcSys
