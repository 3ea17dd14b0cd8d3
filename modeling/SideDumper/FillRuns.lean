import SideDumper.TdLists

/-!
# Filling a queue while the controller empties it

The controller takes TDs off the queue of an ED as long as `hwHeadP` is not
`hwTailP`, and it does so between any two statements of `td_fill`. `Feed` is the
memory with the `td_submit_urb` that is under way, statement by statement; the
requests come by the first phase of `sohci_submit_urb`, are submitted once or
many times, and go. It is recorded what `td_submit_urb` has been called for and
what the controller has found in the TDs it has taken.
-/

/-- **What a TD tells**: all that `td_fill` writes to it, but for its links. -/
@[ext]
structure Work where
  urb : UrbPtr
  index : ℕ
  ed : EdPtr
  info : TdInfo
  cbp : ℕ
  be : ℕ
  psw : ℕ
deriving DecidableEq

/-- What a TD tells. -/
def Td.work (r : Td) : Work := ⟨r.urb, r.index, r.ed, r.hwINFO, r.hwCBP, r.hwBE, r.hwPSW⟩

/-- What the TD of a call of `td_fill` is to tell. -/
def TdCall.work (c : TdCall) (u : UrbPtr) (e : EdPtr) (type : PipeType) (index : ℕ) : Work :=
  ⟨u, index % 256, e, c.info, c.cbp type, c.be, c.psw⟩

/-- What the TDs of one call after the other are to tell, the index counted up. -/
def works (u : UrbPtr) (e : EdPtr) (type : PipeType) : ℕ → List TdCall → List Work
  | _, [] => []
  | index, c :: cs => c.work u e type index :: works u e type (index + 1) cs

/-- **A `td_submit_urb` that is under way.** -/
structure Filling where
  urb : UrbPtr
  /-- `cnt`, the index of the next call of `td_fill`. -/
  cnt : ℕ
  /-- The arguments and local variables of the call of `td_fill` that is under way. -/
  fill : Fill
  /-- The statements it has left. -/
  stmts : List FillStmt
  /-- The calls that come after it. -/
  calls : List TdCall

namespace Filling

/-- How many TDs the controller can see. -/
def done (j : Filling) : ℕ := if .tail ∈ j.stmts then j.fill.index else j.cnt

/-- The calls whose TDs the controller cannot see yet. -/
def pending (j : Filling) : List TdCall :=
  if .tail ∈ j.stmts then j.fill.call :: j.calls else j.calls

end Filling

/-- **The memory while the TDs of requests are queued and taken.** -/
structure Feed where
  mem : Ohci
  /-- The `td_submit_urb` that is under way. -/
  job : Option Filling
  /-- What the calls of `td_submit_urb` for an ED were to put on its queue. -/
  submitted : EdPtr → List Work
  /-- What the TDs told that the controller has taken off the queue of an ED. -/
  consumed : EdPtr → List Work

/-- What can happen next. -/
inductive FeedAct
  /-- The first phase of `sohci_submit_urb`. -/
  | accept (u : UrbPtr) (dummy : TdPtr) (tds : ℕ → TdPtr)
  /-- `urb_rm_priv`. -/
  | release (u : UrbPtr)
  /-- `td_submit_urb` is called. -/
  | submit (u : UrbPtr)
  /-- `td_submit_urb` goes on by one statement. -/
  | go
  /-- The controller takes the first TD off the queue of an ED. -/
  | consume (e : EdPtr) (cc cbp next psw : ℕ) (halted carry : Bool)
  /-- Something happens that does not concern the queues. -/
  | other (o : Ohci)

/-- **`td_submit_urb` goes on by one statement**: the next one of `td_fill`, or
the next call of it, or the return. -/
def Feed.go (s : Feed) (j : Filling) : Option Feed :=
  match j.stmts, j.calls with
  | st :: ss, _ =>
    some { s with
      mem := (st.exec j.fill s.mem).2
      job := some { j with fill := (st.exec j.fill s.mem).1, stmts := ss } }
  | [], c :: cs => do
    let p ← (s.mem.urb j.urb).hcpriv
    some { s with job := some {
      urb := j.urb
      cnt := j.cnt + 1
      fill := ⟨j.urb, j.cnt, c, 0, 0⟩
      stmts := if p.length ≤ j.cnt then [] else tdFillStmts
      calls := cs } }
  | [], [] => some { s with job := none }

/-- **One step.** `td_submit_urb` is called under the lock, or in an interrupt:
nothing else of the driver that concerns the queues happens meanwhile. The
controller takes a TD when the queue is not empty. -/
def Feed.step (s : Feed) : FeedAct → Option Feed
  | .accept u dummy tds =>
    if s.job.isNone then some { s with mem := (submitFirst s.mem u dummy tds).1 } else none
  | .release u => if s.job.isNone then some { s with mem := urbRmPriv s.mem u } else none
  | .submit u =>
    if s.job.isNone then do
      let p ← (s.mem.urb u).hcpriv
      let calls := tdCalls (s.mem.urb u) p (s.mem.toggleOf (s.mem.urb u))
      some { s with
        mem := (submitStart s.mem u).log (.submitTds u)
        job := some { urb := u, cnt := 0, fill := default, stmts := [], calls := calls }
        submitted := Function.update s.submitted p.ed
          (s.submitted p.ed ++ works u p.ed (s.mem.ed p.ed).type 0 calls) }
    else none
  | .go => s.job.bind s.go
  | .consume e cc cbp next psw halted carry =>
    let t := (s.mem.ed e).hwHeadP
    if t = (s.mem.ed e).hwTailP then none
    else some { s with
      mem := (s.mem.modEd e (fun r => { r with
          hwHeadP := s.mem.nextTD t, headHalted := halted, headCarry := carry })).modTd t
            (fun r => { r with
          hwINFO := { r.hwINFO with cc := cc }, hwCBP := cbp, hwNextTD := next, hwPSW := psw })
      consumed := Function.update s.consumed e (s.consumed e ++ [(s.mem.td t).work]) }
  | .other o => some { s with mem := o }

/-- No queue has a TD of the URB. -/
def Ohci.NotQueued (o : Ohci) (u : UrbPtr) : Prop :=
  ∀ e ts, (o.ed e).state ≠ .edNew → Walk o.nextTD (o.ed e).hwTailP (o.ed e).hwHeadP ts →
    ∀ t ∈ ts, (o.td t).urb ≠ u

/-- **Nothing happens that concerns the queues.** EDs may be linked, done lists may
be worked on, the data of URBs and the counts of their private parts may change. -/
structure Ohci.SameQueues (o o' : Ohci) : Prop where
  head : ∀ e, (o'.ed e).hwHeadP = (o.ed e).hwHeadP
  tail : ∀ e, (o'.ed e).hwTailP = (o.ed e).hwTailP
  type : ∀ e, (o'.ed e).type = (o.ed e).type
  state : ∀ e, (o'.ed e).state = (o.ed e).state ∨ (o.ed e).state ≠ .edNew ∧
    (o'.ed e).state = .edOper
  td : ∀ t, o'.td t = { o.td t with nextDlTd := (o'.td t).nextDlTd }
  priv : ∀ u, (o'.urb u).hcpriv.map UrbPriv.holding = (o.urb u).hcpriv.map UrbPriv.holding
  alloc : o'.tdAlloc = o.tdAlloc

/-- **What the steps are about**: the allocator returns what is not in use, and the
TDs of a request are counted by 16 bits; a request is submitted, or goes, when all
its TDs have been taken, and its transfer fills exactly the TDs it has; the
controller works on EDs that have been set up. -/
def FeedDomain (s : Feed) : FeedAct → Prop
  | .accept u dummy tds => s.mem.FreshTds u dummy tds ∧ tdSize (s.mem.urb u) < 65536
  | .release u => s.mem.NotQueued u
  | .submit u => s.mem.NotQueued u ∧ ∀ p, (s.mem.urb u).hcpriv = some p →
      p.length = (s.mem.urb u).const.tdCount
  | .go => True
  | .consume e _ _ _ _ _ _ => (s.mem.ed e).state ≠ .edNew
  | .other o => s.mem.SameQueues o

/-- **The states of the runs** that begin when nothing has happened yet. -/
inductive Feed.Reach : Feed → Prop
  | init (o : Ohci) : o.Idle → (∀ t, o.tdAlloc t = false) →
      Feed.Reach ⟨o, none, fun _ => [], fun _ => []⟩
  | step {s s' : Feed} (a : FeedAct) : Feed.Reach s → FeedDomain s a → s.step a = some s' →
      Feed.Reach s'

/-- What `td_submit_urb` has still to put on the queue of an ED. -/
def Feed.rest (s : Feed) (e : EdPtr) : List Work :=
  match s.job with
  | none => []
  | some j =>
    if (s.mem.priv j.urb).ed = e then works j.urb e (s.mem.ed e).type j.done j.pending else []

/-! ## The invariant -/

/-- A TD of a URB is put back to its place. -/
def Ledger.putBack (l : Ledger) (u : UrbPtr) (i : ℕ) (t : TdPtr) : Ledger :=
  { l with
    priv := Function.update l.priv u
      ((l.priv u).map fun h => { h with td := Function.update h.td i t }) }

/-- `td_fill` has given the place of a TD to the old end of the queue, which is still
the end. -/
def Filling.opened (j : Filling) : Prop := .newTd ∉ j.stmts ∧ .tail ∈ j.stmts

instance (j : Filling) : Decidable j.opened := inferInstanceAs (Decidable (_ ∧ _))

/-- The accounts, with the TD that `td_fill` has in its hands at its place. -/
def Filling.ledger (j : Filling) (o : Ohci) : Ledger :=
  if j.opened then o.ledger.putBack j.urb j.fill.index j.fill.tdPt else o.ledger

/-- The accounts, with the TD that `td_fill` has in its hands at its place. -/
def Feed.ledger (s : Feed) : Ledger :=
  match s.job with
  | none => s.mem.ledger
  | some j => j.ledger s.mem

/-- A statement of `td_fill` has written its field. -/
def FillStmt.Wrote (f : Fill) (e : EdPtr) (type : PipeType) (r : Td) : FillStmt → Prop
  | .ed => r.ed = e
  | .index => r.index = f.index % 256
  | .urb => r.urb = f.urb
  | .info => r.hwINFO = f.call.info
  | .cbp => r.hwCBP = f.call.cbp type
  | .be => r.hwBE = f.call.be
  | .next => r.hwNextTD = f.tdPt
  | .psw => r.hwPSW = f.call.psw
  | _ => True

/-- **The invariant of a `td_submit_urb` that is under way**, for the private part of
its URB: the statements it has executed have written what they should. -/
structure Filling.Inv (j : Filling) (o : Ohci) (l : Ledger) (h : Holding) : Prop where
  priv : l.priv j.urb = some h
  count : j.done + j.pending.length = h.length
  part : j.stmts <:+ tdFillStmts
  call : j.stmts ≠ [] → j.fill.urb = j.urb ∧ j.cnt = j.fill.index + 1
  old : .oldTd ∉ j.stmts → .tail ∈ j.stmts → j.fill.tdPt = h.td j.fill.index
  new : j.opened → j.fill.td = l.tail h.ed ∧
    o.ledger.priv j.urb = some { h with td := Function.update h.td j.fill.index (l.tail h.ed) } ∧
    ∀ st, st ∉ j.stmts → st.Wrote j.fill h.ed (o.ed h.ed).type (o.td j.fill.td)

/-- The TD of a URB can be on a queue. -/
def Feed.Visible (s : Feed) (u : UrbPtr) (k : ℕ) : Prop := ∀ j, s.job = some j →
  j.urb = u → k < j.done

/-- **The invariant of the queues**: `q` has the TDs of each. -/
structure Feed.Inv (s : Feed) (q : EdPtr → List TdPtr) : Prop where
  owners : s.ledger.Owners
  live : ∀ u h, s.ledger.priv u = some h → s.ledger.state h.ed ≠ .edNew
  walk : ∀ e, s.ledger.state e ≠ .edNew →
    Walk s.mem.nextTD (s.ledger.tail e) (s.mem.ed e).hwHeadP (q e)
  fresh : ∀ e, s.ledger.state e = .edNew → q e = []
  part : ∀ e, ∀ t ∈ q e, (s.mem.td t).ed = e ∧ ∃ h, s.ledger.priv (s.mem.td t).urb = some h ∧
    ∃ k < h.length, h.td k = t ∧ s.Visible (s.mem.td t).urb k
  fifo : ∀ e, s.consumed e ++ (q e).map (fun t => (s.mem.td t).work) ++ s.rest e = s.submitted e
  job : ∀ j, s.job = some j → ∃ h, j.Inv s.mem s.ledger h

/-! ## The statements of `td_fill` -/

section Statements

variable {st : FillStmt} {ss : List FillStmt} {f : Fill} {o : Ohci} {e : EdPtr} {t : TdPtr}

/-- Where a statement stands among those of `td_fill`. -/
def FillStmt.Precedes (ss : List FillStmt) : FillStmt → Prop
  | .oldTd => .newTd ∈ ss ∧ .tail ∈ ss
  | .newTd => .oldTd ∉ ss ∧ .newTd ∉ ss ∧ .tail ∈ ss ∧ ∀ x, x ∉ ss → x = .oldTd ∨ x = .newTd
  | .tail => ss = [.dl]
  | .dl => ss = []
  | .cbp => .oldTd ∉ ss ∧ .newTd ∉ ss ∧ .tail ∈ ss ∧ .ed ∉ ss
  | _ => .oldTd ∉ ss ∧ .newTd ∉ ss ∧ .tail ∈ ss

theorem stmts_order (h : st :: ss <:+ tdFillStmts) : st.Precedes ss := by
  simp only [tdFillStmts, List.suffix_cons_iff, List.cons.injEq, List.suffix_nil, reduceCtorEq,
    or_false] at h
  rcases h with ⟨rfl, rfl⟩ | ⟨rfl, rfl⟩ | ⟨rfl, rfl⟩ | ⟨rfl, rfl⟩ | ⟨rfl, rfl⟩ | ⟨rfl,
    rfl⟩ | ⟨rfl, rfl⟩ | ⟨rfl, rfl⟩ |
    ⟨rfl, rfl⟩ | ⟨rfl, rfl⟩ | ⟨rfl, rfl⟩ | ⟨rfl, rfl⟩ | ⟨rfl, rfl⟩
  case inr.inl =>
    refine ⟨by decide, by decide, by decide, fun x hx => ?_⟩
    cases x <;> simp at hx ⊢
  all_goals simp [FillStmt.Precedes]

/-- Statements that write a field. -/
theorem exec_fill (h₁ : st ≠ .oldTd) (h₂ : st ≠ .newTd) : (st.exec f o).1 = f := by
  cases st <;> first | rfl | contradiction

theorem exec_head : ((st.exec f o).2.ed e).hwHeadP = (o.ed e).hwHeadP := by
  cases st with
  | cbp =>
    dsimp only [FillStmt.exec]
    split
    · rw [Ohci.modEd_ed]
      split
      · subst e
        rfl
      · rfl
    · rfl
  | tail =>
    dsimp only [FillStmt.exec]
    rw [Ohci.modEd_ed]
    split
    · subst e
      rfl
    · rfl
  | _ => rfl

theorem exec_type : ((st.exec f o).2.ed e).type = (o.ed e).type := by
  cases st with
  | cbp =>
    dsimp only [FillStmt.exec]
    split
    · rw [Ohci.modEd_ed]
      split
      · subst e
        rfl
      · rfl
    · rfl
  | tail =>
    dsimp only [FillStmt.exec]
    rw [Ohci.modEd_ed]
    split
    · subst e
      rfl
    · rfl
  | _ => rfl

/-- `td_fill` writes to no TD but the old end of the queue and the new one. -/
theorem exec_td (h₁ : t ≠ f.td) (h₂ : t ≠ f.tdPt) : (st.exec f o).2.td t = o.td t := by
  cases st with
  | oldTd | newTd | tail => rfl
  | ed | index | urb | info | be | next | psw | dl =>
    dsimp only [FillStmt.exec]
    rw [Ohci.modTd_td_of_ne _ _ _ _ h₁]
  | cbp =>
    dsimp only [FillStmt.exec]
    split
    · rw [Ohci.modEd_td, Ohci.modTd_td_of_ne _ _ _ _ h₁]
    · rw [Ohci.modTd_td_of_ne _ _ _ _ h₁]
  | endNext =>
    dsimp only [FillStmt.exec]
    rw [Ohci.modTd_td_of_ne _ _ _ _ h₂]

theorem exec_ledger (h₁ : st ≠ .newTd) (h₂ : st ≠ .tail) : (st.exec f o).2.ledger = o.ledger := by
  cases st with
  | newTd | tail => contradiction
  | cbp =>
    dsimp only [FillStmt.exec]
    split
    · rw [Ohci.ledger_modEd_same (by intro; rfl), Ohci.ledger_modTd]
    · rw [Ohci.ledger_modTd]
  | _ => rfl

/-- **A statement writes its field**, and leaves those that have been written. -/
theorem exec_wrote (h₁ : st ≠ .oldTd) (h₂ : st ≠ .newTd) (hne : f.tdPt ≠ f.td)
    (hpriv : (o.priv f.urb).ed = e)
    (hed : st = .cbp → (o.td f.td).ed = e) :
    st.Wrote f e (o.ed e).type ((st.exec f o).2.td f.td) ∧
      ∀ x : FillStmt, x.Wrote f e (o.ed e).type (o.td f.td) →
        x.Wrote f e (o.ed e).type ((st.exec f o).2.td f.td) := by
  have hself : ∀ g : Td → Td, (o.modTd f.td g).td f.td = g (o.td f.td) :=
    fun g => Ohci.modTd_td_self _ _ _
  cases st with
  | oldTd | newTd => contradiction
  | ed | index | urb | info | be | next | psw | dl =>
    dsimp only [FillStmt.exec]
    rw [hself]
    refine ⟨by trivial, fun x hx => ?_⟩
    cases x <;> first | exact hx | rfl | exact hpriv
  | cbp =>
    obtain rfl := hed rfl
    have htd : ((FillStmt.cbp.exec f o).2.td f.td)
        = { o.td f.td with hwCBP := f.call.cbp (o.ed (o.td f.td).ed).type } := by
      dsimp only [FillStmt.exec]
      split
      · rw [Ohci.modEd_td, hself]
      · rw [hself]
    rw [htd]
    refine ⟨rfl, fun x hx => ?_⟩
    cases x <;> first | exact hx | rfl
  | endNext =>
    dsimp only [FillStmt.exec]
    rw [Ohci.modTd_td_of_ne _ _ _ _ hne.symm]
    exact ⟨trivial, fun x hx => hx⟩
  | tail => exact ⟨trivial, fun x hx => hx⟩

end Statements

/-! ## What the invariant does not depend on -/

section Keep

variable {s s' : Feed} {q : EdPtr → List TdPtr} {l l' : Ledger} {u : UrbPtr} {h : Holding}
    {o o' : Ohci} {j : Filling}
  {e : EdPtr}

/-- The owners do not depend on which flags the state of an ED in use has. -/
theorem Ledger.Owners.relabel (ho : l.Owners) (halloc : l'.alloc = l.alloc)
    (htail : l'.tail = l.tail)
    (hpriv : l'.priv = l.priv)
    (hstate : ∀ e, l'.state e = l.state e ∨ l.state e ≠ .edNew ∧ l'.state e = .edOper) :
    l'.Owners := by
  have hnew : ∀ e, l'.state e ≠ .edNew ↔ l.state e ≠ .edNew := by
    intro e
    obtain hs | ⟨hold, hs⟩ := hstate e
    · rw [hs]
    · rw [hs]
      exact ⟨fun _ => hold, fun _ => by decide⟩
  refine ⟨ho.owned.congr ?_ halloc, fun e he => ?_, hpriv ▸ ho.full, fun e he => ?_⟩
  · funext p
    cases p with
    | dummy e => simp only [Ledger.tdAt, hnew, htail]
    | slot u i => simp only [Ledger.tdAt, hpriv]
  · rw [htail]
    exact ho.tail e ((hnew e).mp he)
  · obtain hs | ⟨-, hs⟩ := hstate e
    · rw [hs] at he ⊢
      exact ho.flags e he
    · rw [hs]
      exact .inr (.inl rfl)

@[simp] theorem Ledger.putBack_state {i : ℕ} {t : TdPtr} : (l.putBack u i t).state = l.state :=
  rfl
@[simp] theorem Ledger.putBack_tail {i : ℕ} {t : TdPtr} : (l.putBack u i t).tail = l.tail := rfl
@[simp] theorem Ledger.putBack_alloc {i : ℕ} {t : TdPtr} : (l.putBack u i t).alloc = l.alloc :=
  rfl

/-- Where the accounts are those of the memory. -/
theorem Feed.ledger_same (s : Feed) :
    s.ledger.state = s.mem.ledger.state ∧ s.ledger.tail = s.mem.ledger.tail ∧
    s.ledger.alloc = s.mem.ledger.alloc := by
  unfold Feed.ledger Filling.ledger
  cases s.job with
  | none => exact ⟨rfl, rfl, rfl⟩
  | some j =>
    dsimp only
    split <;> exact ⟨rfl, rfl, rfl⟩

/-- The private part of a URB, but for the TD that `td_fill` has in its hands. -/
theorem Feed.priv_of_ledger (hu : s.ledger.priv u = some h) :
    ∃ p, (s.mem.urb u).hcpriv = some p ∧ p.ed = h.ed ∧ p.length = h.length := by
  have hmem : ∀ x, s.mem.ledger.priv u = some x → ∃ p, (s.mem.urb u).hcpriv = some p ∧
      p.holding = x := fun x hx =>
    Option.map_eq_some_iff.mp hx
  have hback : ∀ x, s.mem.ledger.priv u = some x → x.ed = h.ed ∧ x.length = h.length →
      ∃ p, (s.mem.urb u).hcpriv = some p ∧ p.ed = h.ed ∧ p.length = h.length := by
    intro x hx hsame
    obtain ⟨p, hp, rfl⟩ := hmem x hx
    exact ⟨p, hp, hsame⟩
  unfold Feed.ledger Filling.ledger at hu
  split at hu
  · exact hback h hu ⟨rfl, rfl⟩
  rename_i j _
  split at hu
  · dsimp only [Ledger.putBack] at hu
    rw [Function.update_apply] at hu
    split at hu
    · subst u
      obtain ⟨x, hx, rfl⟩ := Option.map_eq_some_iff.mp hu
      exact hback x hx ⟨rfl, rfl⟩
    · exact hback h hu ⟨rfl, rfl⟩
  · exact hback h hu ⟨rfl, rfl⟩

/-- What a `td_submit_urb` has still to put on a queue. -/
theorem Feed.rest_of_job (hj : s.job = some j) (hp : s.ledger.priv j.urb = some h) :
    s.rest e = if h.ed = e then works j.urb e (s.mem.ed e).type j.done j.pending else [] := by
  obtain ⟨p, hpriv, hpe, -⟩ := s.priv_of_ledger hp
  unfold Feed.rest
  rw [hj]
  dsimp only
  rw [Ohci.priv_eq hpriv, hpe]

/-- **The queues stay.** -/
theorem Feed.Inv.keep (hi : s.Inv q) (howners : s'.ledger.Owners)
    (hlive : ∀ u h, s'.ledger.priv u = some h → s'.ledger.state h.ed ≠ .edNew)
    (hnew : ∀ e, s'.ledger.state e ≠ .edNew → s.ledger.state e ≠ .edNew ∨
      q e = [] ∧ (s'.mem.ed e).hwHeadP = s'.ledger.tail e)
    (hold : ∀ e, s.ledger.state e ≠ .edNew → s'.ledger.state e ≠ .edNew ∧
      s'.ledger.tail e = s.ledger.tail e ∧
      (s'.mem.ed e).hwHeadP = (s.mem.ed e).hwHeadP)
    (htd : ∀ e, ∀ t ∈ q e, (s'.mem.td t).work = (s.mem.td t).work ∧
      s'.mem.nextTD t = s.mem.nextTD t)
    (hpart : ∀ e, ∀ t ∈ q e, ∀ h, s.ledger.priv (s.mem.td t).urb = some h →
      s'.ledger.priv (s.mem.td t).urb = some h ∧ ∀ k, s.Visible (s.mem.td t).urb k →
        s'.Visible (s.mem.td t).urb k)
    (hfifo : ∀ e, ∃ new, s'.submitted e = s.submitted e ++ new ∧ s'.rest e = s.rest e ++ new)
    (hcons : s'.consumed = s.consumed) (hjob : ∀ j, s'.job = some j →
      ∃ h, j.Inv s'.mem s'.ledger h) : s'.Inv q where
  owners := howners
  live := hlive
  walk := fun e he => by
    obtain hst | ⟨hq, hhead⟩ := hnew e he
    · obtain ⟨-, htail, hhead⟩ := hold e hst
      rw [htail, hhead]
      exact (hi.walk e hst).congr (fun t ht => (htd e t ht).2)
    · rw [hq]
      exact hhead
  fresh := fun e he => hi.fresh e (by
    by_contra hst
    exact (hold e hst).1 he)
  part := fun e t ht => by
    obtain ⟨hed, h, hp, k, hk, htk, hvis⟩ := hi.part e t ht
    have hwork := (htd e t ht).1
    have hed' : (s'.mem.td t).ed = (s.mem.td t).ed := congrArg Work.ed hwork
    have hurb' : (s'.mem.td t).urb = (s.mem.td t).urb := congrArg Work.urb hwork
    obtain ⟨hp', hvis'⟩ := hpart e t ht h hp
    rw [hed', hurb']
    exact ⟨hed, h, hp', k, hk, htk, hvis' k hvis⟩
  fifo := fun e => by
    obtain ⟨new, hsub, hrest⟩ := hfifo e
    rw [hsub, hrest, hcons, ← List.append_assoc, ← hi.fifo e]
    have hmap : (q e).map (fun t => (s'.mem.td t).work)
        = (q e).map (fun t => (s.mem.td t).work) :=
      List.map_congr_left (fun t ht => (htd e t ht).1)
    rw [hmap]
  job := hjob

end Keep

/-! ## A statement is executed -/

section Exec

variable {s s' : Feed} {q : EdPtr → List TdPtr} {h : Holding} {j j' : Filling} {e : EdPtr}
    {t : TdPtr} {st : FillStmt}
  {ss : List FillStmt}

/-- The slot of a private part is a place. -/
theorem Ledger.tdAt_priv {l : Ledger} {u : UrbPtr} {k : ℕ} (hp : l.priv u = some h)
    (hk : k < h.length) :
    l.tdAt (.slot u k) = some (h.td k) := by
  rw [Ledger.tdAt, hp, Option.bind_some, if_pos hk]

/-- A TD on a queue is not the end of one. -/
theorem Feed.Inv.ne_tail (hi : s.Inv q) (ht : t ∈ q e) {x : EdPtr}
    (hx : s.ledger.state x ≠ .edNew) :
    t ≠ s.ledger.tail x := by
  rintro rfl
  obtain ⟨-, h, hp, k, hk, htk, -⟩ := hi.part e _ ht
  have hdummy : s.ledger.tdAt (.dummy x) = some (s.ledger.tail x) := if_pos hx
  have hplace :=
    hi.owners.owned.single _ _ _ ((Ledger.tdAt_priv hp hk).trans (congrArg some htk)) hdummy
  cases hplace

/-- The TDs of a URB that have not been filled yet are on no queue. -/
theorem Feed.Inv.ne_slot (hi : s.Inv q) (hj : s.job = some j)
    (hp : s.ledger.priv j.urb = some h) {k : ℕ}
    (hdone : j.done ≤ k) (hk : k < h.length) (ht : t ∈ q e) : t ≠ h.td k := by
  rintro rfl
  obtain ⟨-, x, hx, i, hik, hxi, hvis⟩ := hi.part e _ ht
  have hplace :=
    hi.owners.owned.single _ _ _ ((Ledger.tdAt_priv hx hik).trans (congrArg some hxi))
    (Ledger.tdAt_priv hp hk)
  obtain ⟨hu, rfl⟩ := TdPlace.slot.inj hplace
  have hlt := hvis j hj hu.symm
  omega

/-- The old end of a queue is none of the TDs of a URB. -/
theorem Ledger.Owners.tail_ne_slot {l : Ledger} (ho : l.Owners) {u : UrbPtr} {k : ℕ}
    (hp : l.priv u = some h)
    (hk : k < h.length) {x : EdPtr} (hx : l.state x ≠ .edNew) : l.tail x ≠ h.td k := by
  intro heq
  have hdummy : l.tdAt (.dummy x) = some (l.tail x) := if_pos hx
  have hplace := ho.owned.single _ _ _ (Ledger.tdAt_priv hp hk) (heq ▸ hdummy)
  cases hplace

/-- **`td_submit_urb` goes on**, and the controller sees no more TDs. -/
theorem Feed.Inv.goOn (hi : s.Inv q) (hj : s.job = some j) (hp : s.ledger.priv j.urb = some h)
    (hj' : s'.job = some j') (hl : s'.ledger = s.ledger)
    (hrec : (s'.submitted, s'.consumed) = (s.submitted, s.consumed))
    (hed : ∀ e, (s'.mem.ed e).hwHeadP = (s.mem.ed e).hwHeadP ∧
      (s'.mem.ed e).type = (s.mem.ed e).type)
    (htd : ∀ e, ∀ t ∈ q e, (s'.mem.td t).work = (s.mem.td t).work ∧
      s'.mem.nextTD t = s.mem.nextTD t)
    (hurb : j'.urb = j.urb) (hdone : j'.done = j.done) (hpend : j'.pending = j.pending)
    (hinv : j'.Inv s'.mem s.ledger h) : s'.Inv q := by
  obtain ⟨hsub, hcons⟩ := Prod.mk.inj hrec
  have hrest : ∀ e, s'.rest e = s.rest e := by
    intro e
    rw [Feed.rest_of_job hj hp, Feed.rest_of_job hj' (by rw [hl, hurb]; exact hp), hurb, hdone,
      hpend, (hed e).2]
  refine hi.keep (hl ▸ hi.owners) (hl ▸ hi.live) (fun e he => .inl (hl ▸ he)) (fun e he => ?_) htd
    (fun e t ht x hx => ?_)
    (fun e => ⟨[], by rw [hsub, List.append_nil], by rw [hrest e, List.append_nil]⟩) hcons
      (fun i hi' => ?_)
  · rw [hl]
    exact ⟨he, rfl, (hed e).1⟩
  · refine ⟨hl ▸ hx, fun k hvis i hi' hu => ?_⟩
    rw [hj'] at hi'
    cases hi'
    rw [hdone]
    exact hvis j hj (hurb.symm.trans hu)
  · rw [hj'] at hi'
    cases hi'
    rw [hl]
    exact ⟨h, hinv⟩

/-- A statement of `td_fill` has been executed. -/
def Feed.exec (s : Feed) (j : Filling) (st : FillStmt) (ss : List FillStmt) : Feed :=
  { s with
    mem := (st.exec j.fill s.mem).2
    job := some { j with fill := (st.exec j.fill s.mem).1, stmts := ss } }

/-- The accounts while `td_fill` has nothing in its hands. -/
theorem Filling.ledger_of_not_opened {o : Ohci} (hj : ¬ j.opened) :
    j.ledger o = o.ledger := if_neg hj

/-- What a call of `td_fill` is for stays. -/
theorem done_exec (hst : j.stmts = st :: ss) (hne : st ≠ .tail) {f : Fill}
    (hi : f.index = j.fill.index)
    (hc : f.call = j.fill.call) : ({ j with fill := f, stmts := ss } : Filling).done = j.done ∧
      ({ j with fill := f, stmts := ss } : Filling).pending = j.pending := by
  have hmem : .tail ∈ ss ↔ .tail ∈ j.stmts := by
    rw [hst, List.mem_cons]
    exact ⟨.inr, fun hm => hm.resolve_left (Ne.symm hne)⟩
  unfold Filling.done Filling.pending
  simp only [hmem, hi, hc, and_self]

/-- The first two statements of `td_fill`, which take the TD of the request in hand. -/
theorem Feed.Inv.exec_take (hi : s.Inv q) (hj : s.job = some j) (hst : j.stmts = st :: ss)
    (htake : st = .oldTd ∨ st = .newTd) : (s.exec j st ss).Inv q := by
  obtain ⟨h, hjob⟩ := hi.job j hj
  have horder := stmts_order (hst ▸ hjob.part)
  obtain ⟨hurb, hcnt⟩ := hjob.call (by simp [hst])
  have hpart : ss <:+ tdFillStmts := (List.suffix_cons st ss).trans (hst ▸ hjob.part)
  have hmem : st = .oldTd ∨ st = .newTd → ¬ j.opened := by
    rintro (rfl | rfl) hop
    · exact hop.1 (by rw [hst]; exact List.mem_cons_of_mem _ horder.1)
    · exact hop.1 (by rw [hst]; exact List.mem_cons_self)
  have hl : s.ledger = s.mem.ledger := by
    unfold Feed.ledger
    rw [hj]
    exact Filling.ledger_of_not_opened (hmem htake)
  have hled : s.mem.ledger.priv j.urb = some h := hl ▸ hjob.priv
  obtain ⟨p, hp, hph⟩ := Option.map_eq_some_iff.mp hled
  have hprivp : s.mem.priv j.fill.urb = p := Ohci.priv_eq (by rw [hurb]; exact hp)
  subst hph
  obtain rfl | rfl := htake
  · -- the TD of the request is read
    obtain ⟨hnew, htail⟩ := horder
    obtain ⟨hdone, hpend⟩ :=
      done_exec (f := { j.fill with tdPt := (s.mem.priv j.fill.urb).td j.fill.index }) hst
      (by decide) rfl rfl
    refine hi.goOn hj hjob.priv rfl ?_ rfl (fun _ => ⟨rfl, rfl⟩) (fun _ _ _ => ⟨rfl, rfl⟩)
      rfl hdone hpend
      ⟨hjob.priv, ?_, hpart, fun _ => ⟨hurb, hcnt⟩, fun _ _ => ?_, fun hop => absurd hnew hop.1⟩
    · rw [hl]
      exact Filling.ledger_of_not_opened (fun hop => hop.1 hnew)
    · exact (congrArg₂ (fun a b => a + List.length b) hdone hpend).trans hjob.count
    · exact congrArg (fun x : UrbPriv => x.td j.fill.index) hprivp
  · -- the old end of the queue takes its place
    obtain ⟨hold, hnew, htail, hall⟩ := horder
    have hat : j.fill.tdPt = p.td j.fill.index :=
      hjob.old (by simp [hst, hold]) (by simp [hst, htail])
    have hdum : (s.mem.ed (s.mem.priv j.fill.urb).ed).hwTailP = s.mem.ledger.tail p.ed := by
      rw [hprivp]
      rfl
    have hmem' : (FillStmt.newTd.exec j.fill s.mem).2.ledger = s.mem.ledger.setPriv j.urb
        (some { p.holding with
          td := Function.update p.td j.fill.index (s.mem.ledger.tail p.ed) }) := by
      dsimp only [FillStmt.exec]
      rw [hurb] at hdum ⊢
      rw [Ohci.ledger_modPriv hp, hdum]
      rfl
    obtain ⟨hdone, hpend⟩ :=
      done_exec (f := { j.fill with td := (s.mem.ed (s.mem.priv j.fill.urb).ed).hwTailP }) hst
      (by decide) rfl rfl
    have hop : (Filling.opened { j with
        fill := { j.fill with td := (s.mem.ed (s.mem.priv j.fill.urb).ed).hwTailP }
        stmts := ss }) := ⟨hnew, htail⟩
    refine hi.goOn hj hjob.priv rfl ?_ rfl (fun _ => ⟨rfl, rfl⟩) (fun _ _ _ => ⟨rfl, rfl⟩)
      rfl hdone hpend
      ⟨hjob.priv, ?_, hpart, fun _ => ⟨hurb, hcnt⟩, fun _ _ => hat,
        fun _ => ⟨?_, ?_, fun x hx => ?_⟩⟩
    · rw [hl]
      refine (if_pos hop).trans ?_
      rw [show (s.exec j .newTd ss).mem.ledger = _ from hmem']
      dsimp only [FillStmt.exec]
      rw [hat]
      ext1
      case priv =>
        funext z
        dsimp only [Ledger.putBack, Ledger.setPriv]
        rw [Function.update_self, Function.update_idem, Function.update_apply]
        split
        · subst z
          rw [hled]
          dsimp only [Option.map_some, UrbPriv.holding]
          rw [Function.update_idem, Function.update_eq_self]
        · rfl
      all_goals rfl
    · exact (congrArg₂ (fun a b => a + List.length b) hdone hpend).trans hjob.count
    · rw [hl]
      exact hdum
    · rw [hl]
      refine (congrFun (congrArg Ledger.priv hmem') j.urb).trans ?_
      exact Function.update_self _ _ _
    · obtain rfl | rfl := hall x hx <;> trivial

/-- The statements of `td_fill` that write the TD, before the controller can see it. -/
theorem Feed.Inv.exec_write (hi : s.Inv q) (hj : s.job = some j) (hst : j.stmts = st :: ss)
    (h₁ : st ≠ .oldTd) (h₂ : st ≠ .newTd) (h₃ : st ≠ .tail) (h₄ : st ≠ .dl) :
    (s.exec j st ss).Inv q := by
  obtain ⟨h, hjob⟩ := hi.job j hj
  have horder := stmts_order (hst ▸ hjob.part)
  obtain ⟨hurb, hcnt⟩ := hjob.call (by simp [hst])
  have hpart : ss <:+ tdFillStmts := (List.suffix_cons st ss).trans (hst ▸ hjob.part)
  obtain ⟨hold, hnew, htail, hcbp⟩ : .oldTd ∉ ss ∧ .newTd ∉ ss ∧ .tail ∈ ss ∧
      (st = .cbp → .ed ∉ ss) := by
    cases st with
    | oldTd | newTd | tail | dl => contradiction
    | cbp => exact ⟨horder.1, horder.2.1, horder.2.2.1, fun _ => horder.2.2.2⟩
    | _ => exact ⟨horder.1, horder.2.1, horder.2.2, nofun⟩
  have hop : j.opened := ⟨by simp [hst, h₂.symm, hnew], by simp [hst, htail]⟩
  have hop' : Filling.opened { j with fill := j.fill, stmts := ss } := ⟨hnew, htail⟩
  have hat := hjob.old (by simp [hst, h₁.symm, hold]) hop.2
  obtain ⟨htd, hmem, hwrote⟩ := hjob.new hop
  have hk : j.fill.index < h.length := by
    have hcount := hjob.count
    rw [Filling.done, if_pos hop.2, Filling.pending, if_pos hop.2, List.length_cons] at hcount
    omega
  have hstate := hi.live _ _ hjob.priv
  have hne : j.fill.tdPt ≠ j.fill.td := by
    rw [hat, htd]
    exact (hi.owners.tail_ne_slot hjob.priv hk hstate).symm
  have hf : (st.exec j.fill s.mem).1 = j.fill := exec_fill h₁ h₂
  have hled : (st.exec j.fill s.mem).2.ledger = s.mem.ledger := exec_ledger h₂ h₃
  obtain ⟨p, hp, hph⟩ := Option.map_eq_some_iff.mp hmem
  have hpe : (s.mem.priv j.fill.urb).ed = h.ed := by
    rw [Ohci.priv_eq (by rw [hurb]; exact hp)]
    exact congrArg Holding.ed hph
  have hed : st = .cbp → (s.mem.td j.fill.td).ed = h.ed := fun hc =>
    hwrote .ed (by simp [hst, hc, hcbp hc])
  obtain ⟨hself, hkeep⟩ := exec_wrote h₁ h₂ hne hpe hed
  obtain ⟨hdone, hpend⟩ := done_exec (f := j.fill) hst h₃ rfl rfl
  have hexec : s.exec j st ss
      = { s with mem := (st.exec j.fill s.mem).2, job := some { j with stmts := ss } } := by
    rw [Feed.exec, hf]
  rw [hexec]
  refine hi.goOn hj hjob.priv rfl ?_ rfl (fun _ => ⟨exec_head, exec_type⟩) (fun e t ht => ?_)
    rfl hdone hpend
    ⟨hjob.priv, ?_, hpart, fun _ => ⟨hurb, hcnt⟩, fun _ _ => hat,
      fun _ => ⟨htd, ?_, fun x hx => ?_⟩⟩
  · unfold Feed.ledger
    rw [hj]
    dsimp only
    rw [Filling.ledger, Filling.ledger, if_pos hop, if_pos hop', hled]
  · have h₁ : t ≠ j.fill.td := by
      rw [htd]
      exact hi.ne_tail ht hstate
    have h₂ : t ≠ j.fill.tdPt := by
      rw [hat]
      refine hi.ne_slot hj hjob.priv ?_ hk ht
      rw [Filling.done, if_pos hop.2]
    have hsame : (st.exec j.fill s.mem).2.td t = s.mem.td t := exec_td h₁ h₂
    exact ⟨congrArg Td.work hsame, congrArg Td.hwNextTD hsame⟩
  · exact (congrArg₂ (fun a b => a + List.length b) hdone hpend).trans hjob.count
  · exact (congrFun (congrArg Ledger.priv hled) _).trans hmem
  · dsimp only
    rw [exec_type]
    by_cases hxs : x = st
    · rw [hxs]
      exact hself
    · exact hkeep x (hwrote x (by simp [hst, hxs, hx]))

/-- The last statement of `td_fill`, behind the controller's back. -/
theorem Feed.Inv.exec_dl (hi : s.Inv q) (hj : s.job = some j) (hst : j.stmts = .dl :: ss) :
    (s.exec j .dl ss).Inv q := by
  obtain ⟨h, hjob⟩ := hi.job j hj
  have horder : FillStmt.Precedes ss .dl := stmts_order (hst ▸ hjob.part)
  obtain rfl : ss = [] := horder
  have hop : ¬ j.opened := fun hop => absurd hop.2 (by simp [hst])
  have hop' : ¬ Filling.opened { j with stmts := [] } := fun hop => absurd hop.2 List.not_mem_nil
  obtain ⟨hdone, hpend⟩ := done_exec (f := j.fill) hst (by decide) rfl rfl
  have htd : ∀ t, ∃ x, (s.exec j .dl []).mem.td t = { s.mem.td t with nextDlTd := x } := by
    intro t
    dsimp only [Feed.exec, FillStmt.exec]
    rw [Ohci.modTd_td]
    split
    · subst t
      exact ⟨0, rfl⟩
    · exact ⟨_, rfl⟩
  refine hi.goOn hj hjob.priv rfl ?_ rfl (fun _ => ⟨rfl, rfl⟩) (fun e t _ => ?_) rfl hdone hpend
    ⟨hjob.priv, ?_, List.nil_suffix, fun hn => absurd rfl hn,
      fun _ hm => absurd hm List.not_mem_nil, fun hn => absurd hn hop'⟩
  · unfold Feed.ledger
    rw [hj]
    exact (Filling.ledger_of_not_opened hop').trans (Filling.ledger_of_not_opened hop).symm
  · obtain ⟨x, hx⟩ := htd t
    rw [Ohci.nextTD, hx]
    exact ⟨rfl, rfl⟩
  · exact (congrArg₂ (fun a b => a + List.length b) hdone hpend).trans hjob.count

/-- What the TD is when the controller is shown it. -/
theorem Filling.Inv.tail_work {o : Ohci} {l : Ledger} (hjob : j.Inv o l h)
    (hst : j.stmts = [.tail, .dl]) :
    (o.td j.fill.td).work = j.fill.call.work j.urb h.ed (o.ed h.ed).type j.fill.index ∧
    (o.td j.fill.td).hwNextTD = h.td j.fill.index := by
  have hop : j.opened := ⟨by simp [hst], by simp [hst]⟩
  obtain ⟨hurb, -⟩ := hjob.call (by simp [hst])
  have hat := hjob.old (by simp [hst]) hop.2
  obtain ⟨-, -, hwrote⟩ := hjob.new hop
  refine ⟨?_, (hwrote .next (by simp [hst])).trans hat⟩
  ext1
  case urb => exact (hwrote .urb (by simp [hst])).trans hurb
  case index => exact hwrote .index (by simp [hst])
  case ed => exact hwrote .ed (by simp [hst])
  case info => exact hwrote .info (by simp [hst])
  case cbp => exact hwrote .cbp (by simp [hst])
  case be => exact hwrote .be (by simp [hst])
  case psw => exact hwrote .psw (by simp [hst])

/-- Then the end of the queue and the place of the TD in the private part have been
exchanged. -/
theorem Feed.ledger_exec_tail (hj : s.job = some j) (hjob : j.Inv s.mem s.ledger h)
    (hst : j.stmts = [.tail, .dl]) (hne : s.ledger.tail h.ed ≠ h.td j.fill.index) :
    (s.exec j .tail [.dl]).ledger = s.ledger.swap j.urb h j.fill.index := by
  have hop : j.opened := ⟨by simp [hst], by simp [hst]⟩
  have hop' : ¬ Filling.opened { j with stmts := [.dl] } := fun hop => absurd hop.2 (by simp)
  obtain ⟨hwork, hnext⟩ := hjob.tail_work hst
  have hed : (s.mem.td j.fill.td).ed = h.ed := congrArg Work.ed hwork
  obtain ⟨-, hmem, -⟩ := hjob.new hop
  obtain ⟨hsame, htail, halloc⟩ := s.ledger_same
  have hl : s.ledger = s.mem.ledger.putBack j.urb j.fill.index j.fill.tdPt := by
    unfold Feed.ledger
    rw [hj]
    exact if_pos hop
  have hmem' : (s.exec j .tail [.dl]).ledger = { s.mem.ledger with
      tail := Function.update s.mem.ledger.tail h.ed (h.td j.fill.index) } := by
    refine (Filling.ledger_of_not_opened hop').trans ?_
    dsimp only [Feed.exec, FillStmt.exec]
    rw [Ohci.ledger_modEd, hed, hnext]
    ext1
    case fa => exact Function.update_eq_self h.ed s.mem.ledger.fa
    case state => exact Function.update_eq_self h.ed s.mem.ledger.state
    all_goals rfl
  rw [hmem']
  unfold Ledger.swap
  rw [if_neg hne]
  ext1
  case priv =>
    funext z
    dsimp only
    rw [Function.update_apply]
    split
    · subst z
      exact hmem
    · rw [hl]
      exact (Function.update_of_ne ‹_› _ _).symm
  case tail =>
    dsimp only
    rw [htail]
  case state => exact hsame.symm
  case alloc => exact halloc.symm
  all_goals
    rw [hl]
    rfl

/-- **The controller is shown the TD.** -/
theorem Feed.Inv.exec_tail (hi : s.Inv q) (hj : s.job = some j) (hst : j.stmts = .tail :: ss) :
    ∃ x, (s.exec j .tail ss).Inv (Function.update q x (q x ++ [j.fill.td])) := by
  obtain ⟨h, hjob⟩ := hi.job j hj
  have horder : FillStmt.Precedes ss .tail := stmts_order (hst ▸ hjob.part)
  obtain rfl : ss = [.dl] := horder
  obtain ⟨hurb, hcnt⟩ := hjob.call (by simp [hst])
  have hop : j.opened := ⟨by simp [hst], by simp [hst]⟩
  have hop' : ¬ Filling.opened { j with stmts := [.dl] } := fun hop => absurd hop.2 (by simp)
  obtain ⟨htd, -, -⟩ := hjob.new hop
  have hdone : j.done = j.fill.index := if_pos hop.2
  have hpend : j.pending = j.fill.call :: j.calls := if_pos hop.2
  have hcount : j.fill.index + (j.calls.length + 1) = h.length := by
    have hc := hjob.count
    rwa [hdone, hpend, List.length_cons] at hc
  have hk : j.fill.index < h.length := by omega
  have hstate := hi.live _ _ hjob.priv
  have hne := hi.owners.tail_ne_slot hjob.priv hk hstate
  obtain ⟨hwork, hnext⟩ := hjob.tail_work hst
  have hed : (s.mem.td j.fill.td).ed = h.ed := congrArg Work.ed hwork
  have hu : (s.mem.td j.fill.td).urb = j.urb := congrArg Work.urb hwork
  have hled := Feed.ledger_exec_tail hj hjob hst hne
  have hpriv : (s.ledger.swap j.urb h j.fill.index).priv j.urb
      = some { h with td := Function.update h.td j.fill.index (s.ledger.tail h.ed) } :=
        Function.update_self _ _ _
  have hother : ∀ z, z ≠ j.urb → (s.ledger.swap j.urb h j.fill.index).priv z = s.ledger.priv z :=
    fun z hz =>
    Function.update_of_ne hz _ _
  have hswap : (s.ledger.swap j.urb h j.fill.index).tail
      = Function.update s.ledger.tail h.ed (h.td j.fill.index) := by
    rw [Ledger.swap, if_neg hne]
  have hvis : ∀ k, k ≤ j.fill.index → (s.exec j .tail [.dl]).Visible j.urb k := by
    intro k hle i hi' _
    cases hi'
    exact (by omega : k < j.cnt)
  have htds : (s.exec j .tail [.dl]).mem.td = s.mem.td := rfl
  have hhead : ∀ e, ((s.exec j .tail [.dl]).mem.ed e).hwHeadP = (s.mem.ed e).hwHeadP :=
    fun e => exec_head
  refine ⟨h.ed, ?_, fun u x hx => ?_, fun e he => ?_, fun e he => ?_, fun e t ht => ?_,
    fun e => ?_, fun i hi' => ?_⟩
  · rw [hled]
    exact hi.owners.swap hjob.priv hk hstate
  · rw [hled] at hx ⊢
    by_cases hz : u = j.urb
    · rw [hz, hpriv] at hx
      cases hx
      exact hstate
    · rw [hother u hz] at hx
      exact hi.live u x hx
  · rw [hled] at he ⊢
    rw [hhead, hswap]
    by_cases hx : e = h.ed
    · subst hx
      rw [Function.update_self, Function.update_self, htd]
      refine (hi.walk h.ed hstate).concat (fun hm => ?_) hne ?_ (fun _ _ => rfl)
      · exact hi.ne_slot hj hjob.priv (by rw [hdone]) hk hm rfl
      · rw [← htd]
        exact hnext
    · rw [Function.update_of_ne hx, Function.update_of_ne hx]
      exact hi.walk e he
  · rw [hled] at he
    have hx : e ≠ h.ed := by
      rintro rfl
      exact hstate he
    rw [Function.update_of_ne hx]
    exact hi.fresh e he
  · rw [htds, hled]
    -- the TD is the new one, or has been there
    have hcases : t = j.fill.td ∧ e = h.ed ∨ t ∈ q e := by
      rw [Function.update_apply] at ht
      split at ht
      · rename_i hx
        obtain ht | ht := List.mem_append.mp ht
        · exact .inr (hx ▸ ht)
        · exact .inl ⟨List.mem_singleton.mp ht, hx⟩
      · exact .inr ht
    obtain ⟨rfl, rfl⟩ | ht := hcases
    · rw [hu]
      exact ⟨hed, _, hpriv, j.fill.index, hk, (Function.update_self _ _ _).trans htd.symm,
        hvis _ le_rfl⟩
    · obtain ⟨hte, x, hx, k, hkx, htk, hv⟩ := hi.part e t ht
      refine ⟨hte, ?_⟩
      by_cases hz : (s.mem.td t).urb = j.urb
      · rw [hz] at hx hv ⊢
        rw [hjob.priv] at hx
        cases hx
        have hlt := hv j hj rfl
        rw [hdone] at hlt
        exact ⟨_, hpriv, k, hkx, (Function.update_of_ne (by omega) _ _).trans htk,
          hvis k (by omega)⟩
      · rw [hother _ hz]
        refine ⟨x, hx, k, hkx, htk, fun i hi' hiu => ?_⟩
        cases hi'
        exact absurd hiu.symm hz
  · have hfifo := hi.fifo e
    have hrest' :=
      Feed.rest_of_job (s := s.exec j .tail [.dl]) (e := e) rfl (by rw [hled]; exact hpriv)
    have htype : ((s.exec j .tail [.dl]).mem.ed e).type = (s.mem.ed e).type := exec_type
    rw [htype] at hrest'
    rw [Feed.rest_of_job hj hjob.priv, hdone, hpend, works, ← hcnt] at hfifo
    rw [hrest', htds]
    refine Eq.trans ?_ hfifo
    by_cases hx : h.ed = e
    · subst hx
      rw [Function.update_self, if_pos rfl, if_pos rfl, List.map_append,
        List.map_singleton, hwork]
      simp only [List.append_assoc, List.singleton_append]
      rfl
    · rw [Function.update_of_ne (Ne.symm hx), if_neg hx, if_neg hx]
      rfl
  · cases hi'
    rw [hled]
    refine ⟨_, hpriv, ?_, ?_, fun _ => ⟨hurb, hcnt⟩, fun _ hm => absurd hm (by simp),
      fun hn => absurd hn hop'⟩
    · have hd : Filling.done { j with fill := j.fill, stmts := [.dl] } = j.cnt := if_neg (by simp)
      have hp : Filling.pending { j with fill := j.fill, stmts := [.dl] } = j.calls :=
        if_neg (by simp)
      refine (congrArg₂ (fun a b => a + List.length b) hd hp).trans ?_
      dsimp only
      omega
    · exact (List.suffix_cons _ _).trans (hst ▸ hjob.part)

/-- **`td_fill` executes a statement.** -/
theorem Feed.Inv.exec (hi : s.Inv q) (hj : s.job = some j) (hst : j.stmts = st :: ss) :
    ∃ q', (s.exec j st ss).Inv q' := by
  cases st with
  | oldTd => exact ⟨q, hi.exec_take hj hst (.inl rfl)⟩
  | newTd => exact ⟨q, hi.exec_take hj hst (.inr rfl)⟩
  | tail =>
    obtain ⟨x, hx⟩ := hi.exec_tail hj hst
    exact ⟨_, hx⟩
  | dl => exact ⟨q, hi.exec_dl hj hst⟩
  | ed | index | urb | info | cbp | be | next | psw | endNext =>
    exact ⟨q, hi.exec_write hj hst (by decide) (by decide) (by decide) (by decide)⟩

end Exec
