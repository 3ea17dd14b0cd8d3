import SideDumper.LedgerEntries

/-!
# Returning a periodic URB

In the middle of `sohci_return_urb` stands the completion callback. For a
periodic URB the function goes on behind it with what it has read before: the
pointer `urb_priv`. `Callback` is the memory while a callback runs, with what
has become of the URB that is being completed. A callback may submit and
unlink, and the `dl_del_list` inside an unlink takes TDs off the queues;
whatever else it or the controller does leaves the private parts alone.
-/

/-- **The memory while a completion callback runs**, and what has become of the
URB that is being completed. -/
structure Callback where
  mem : Ohci
  /-- Its private part has been freed. -/
  freed : Bool
  /-- `sohci_unlink_urb` has been called for it. -/
  unlinked : Bool

/-- What a callback can do. -/
inductive CallbackAct
  /-- `sohci_submit_urb`. -/
  | submit (v : UrbPtr) (dummy : TdPtr) (tds : ℕ → TdPtr) (buf setup : ℕ)
  /-- `sohci_unlink_urb`, up to its wait. -/
  | unlink (v : UrbPtr)
  /-- The end of a synchronous `sohci_unlink_urb`. -/
  | unlinkFinish (v : UrbPtr)
  /-- `dl_del_list` gets to a TD. -/
  | delTd (e : EdPtr) (t : TdPtr) (tdP : TdLink)
  /-- Anything that leaves the private parts. -/
  | other (f : Ohci → Ohci) (keeps : ∀ o v, ((f o).urb v).hcpriv = (o.urb v).hcpriv)

namespace Callback

/-- **What an act does to the memory.** -/
def exec (fuel : ℕ) (o : Ohci) : CallbackAct → Option Ohci
  | .submit v dummy tds buf setup =>
    let (o, more) := submitFirst o v dummy tds
    if more then (submitSecond fuel o v buf setup).map Prod.fst else some o
  | .unlink v => some (unlinkUrb o v).1
  | .unlinkFinish v => some (unlinkFinish o v)
  | .delTd e t tdP => (delTd o e t tdP).map Prod.fst
  | .other f _ => some (f o)

/-- Whether an act is the unlinking of a URB; without a device it is refused. -/
def unlinks (u : UrbPtr) (o : Ohci) : CallbackAct → Bool
  | .unlink v => v = u ∧ (o.urb u).dev ≠ 0
  | _ => false

/-- The callback is called. -/
def start (o : Ohci) : Callback := ⟨o, false, false⟩

/-- **One act of a callback.** The pointer to a private part becomes null where
the private part is freed, and only there. -/
def step (fuel : ℕ) (u : UrbPtr) (c : Callback) (a : CallbackAct) : Option Callback :=
  (exec fuel c.mem a).map (fun o =>
    { mem := o
      freed := c.freed || (o.urb u).hcpriv.isNone
      unlinked := c.unlinked || unlinks u c.mem a })

/-- A whole callback. -/
def run (fuel : ℕ) (u : UrbPtr) (c : Callback) : List CallbackAct → Option Callback
  | [] => some c
  | a :: as => (c.step fuel u a).bind (fun c => c.run fuel u as)

/-- Whether `sohci_return_urb` reads `URB_DEL` in `urb_priv->state` behind the
callback. What has been a private part may hold anything. -/
def readsDel (u : UrbPtr) (c : Callback) (garbage : Bool) : Bool :=
  if c.freed then garbage else (c.mem.priv u).urbDel

/-- **`sohci_return_urb` is right to go on**: what it reads is there, and if it
calls `td_submit_urb` the URB has a private part and has not been unlinked. -/
structure Safe (u : UrbPtr) (c : Callback) : Prop where
  reads : c.freed = false
  submits : ∀ garbage, c.readsDel u garbage = false → (c.mem.urb u).hcpriv ≠ none
  requeues : ∀ garbage, c.readsDel u garbage = false → c.unlinked = false

/-- **The private part stays**: an act is not the unlinking of the URB while it
counts as finished or the controller is disabled, nor does it take the last TD
of the URB off a queue. -/
def Keeps (u : UrbPtr) (o : Ohci) : CallbackAct → Prop
  | .unlink v => v = u → (o.urb u).dev ≠ 0 → (o.urb u).status = .einprogress ∧ o.disabled = false
  | .delTd e t _ => (o.td t).urb = u → ∀ p, (o.urb u).hcpriv = some p →
      p.urbDel = true ∨ (o.ed e).state.del = true → (p.tdCnt + 1) % 65536 ≠ p.length
  | _ => True

/-- All acts of a callback are of this kind. -/
def Keeping (fuel : ℕ) (u : UrbPtr) (c : Callback) : List CallbackAct → Prop
  | [] => True
  | a :: as => Keeps u c.mem a ∧ ∀ c', c.step fuel u a = some c' → c'.Keeping fuel u as

section Proofs

variable {o o' : Ohci} {u : UrbPtr} {fuel : ℕ} {a : CallbackAct} {as : List CallbackAct}
    {c c' : Callback}
  {h : Holding}

/-- What an act does to a private part: it stays, and is marked by an
unlinking, or it is freed. -/
def Fate (u : UrbPtr) (o o' : Ohci) (h : Holding) (a : CallbackAct) : Prop :=
  (Keeps u o a → ∃ h', o'.ledger.priv u = some h' ∧
      (h.urbDel = true ∨ unlinks u o a = true → h'.urbDel = true)) ∧
    (¬ Keeps u o a → o'.ledger.priv u = none)

/-- An act that leaves the private part. -/
theorem Fate.of_same (hh : o.ledger.priv u = some h) (hk : Keeps u o a)
    (hu : unlinks u o a = false) (hs : o'.ledger.priv u = o.ledger.priv u) : Fate u o o' h a := by
  refine ⟨fun _ => ⟨h, hs.trans hh, ?_⟩, fun hn => absurd hk hn⟩
  rw [hu]
  simp

theorem fate_submit {v : UrbPtr} {dummy : TdPtr} {tds : ℕ → TdPtr} {buf setup : ℕ}
    (ha : exec fuel o (.submit v dummy tds buf setup) = some o') (hh : o.ledger.priv u = some h) :
    Fate u o o' h (.submit v dummy tds buf setup) := by
  refine .of_same hh trivial rfl ?_
  unfold exec at ha
  dsimp only at ha
  obtain ⟨o₁, b, hfirst⟩ : ∃ o₁ b, submitFirst o v dummy tds = (o₁, b) := ⟨_, _, rfl⟩
  rw [hfirst] at ha
  by_cases hv : u = v
  · subst v
    -- a URB that has a private part is refused
    obtain ⟨rfl, rfl, -⟩ | ⟨-, hnone, -⟩ := ledger_submitFirst hfirst
    · cases ha
      rfl
    · rw [hh] at hnone
      cases hnone
  · have hsame := submitFirst_priv_of_ne (o := o) hv dummy tds
    rw [hfirst] at hsame
    dsimp only at ha
    split at ha
    · obtain ⟨⟨o₂, b⟩, h₂, rfl⟩ := Option.map_eq_some_iff.mp ha
      exact (submitSecond_priv_of_ne hv h₂).trans hsame
    · cases ha
      exact hsame

theorem fate_unlink {v : UrbPtr} (hh : o.ledger.priv u = some h) :
    Fate u o (unlinkUrb o v).1 h (.unlink v) := by
  by_cases hv : u = v
  · subst v
    obtain ⟨-, ho, hno⟩ | ⟨hdev, p, hp, ⟨hpend, -, hl⟩ | ⟨hpend, -, hl⟩⟩ :=
      ledger_unlinkUrb (Prod.eta (unlinkUrb o u)).symm
    · rw [ho]
      have hdev : (o.urb u).dev = 0 := hno.resolve_right (fun hn => by
        rw [ledger_priv_none hn] at hh
        cases hh)
      exact .of_same hh (fun _ h0 => absurd hdev h0) (by simp [unlinks, hdev]) rfl
    · refine ⟨fun _ => ⟨{ p.holding with urbDel := true }, ?_, fun _ => rfl⟩,
        fun hn => absurd (fun _ _ => hpend) hn⟩
      rw [hl, Ledger.setState_priv]
      exact Function.update_self u _ _
    · refine ⟨fun hk => absurd (hk rfl hdev) hpend, fun _ => ?_⟩
      rw [hl, Ledger.use_priv, Ledger.rmPriv_priv, Function.update_self]
  · exact .of_same hh (fun hvu => absurd hvu.symm hv) (by simp [unlinks, Ne.symm hv])
      (unlinkUrb_priv_of_ne hv)

theorem fate_delTd {e : EdPtr} {t : TdPtr} {tdP tdP' : TdLink}
    (ha : delTd o e t tdP = some (o', tdP'))
    (hh : o.ledger.priv u = some h) : Fate u o o' h (.delTd e t tdP) := by
  obtain ⟨p, hp, ⟨hkeep, rfl, -⟩ | ⟨hdel, -, hl⟩⟩ := ledger_delTd ha
  · refine .of_same hh (fun htu q hq hd => absurd hd ?_) rfl rfl
    rw [htu, hq, Option.some.injEq] at hp
    exact hp ▸ hkeep
  · have hpriv : o'.ledger.priv u = (if (p.tdCnt + 1) % 65536 = p.length then
        o.ledger.rmPriv (o.td t).urb else o.ledger).priv u := by rw [hl, Ledger.report_priv]
    by_cases htu : (o.td t).urb = u
    · by_cases hlast : (p.tdCnt + 1) % 65536 = p.length
      · refine ⟨fun hk => absurd hlast (hk htu p (htu ▸ hp) hdel), fun _ => ?_⟩
        rw [hpriv, if_pos hlast, htu, Ledger.rmPriv_priv, Function.update_self]
      · refine .of_same hh (fun _ q hq _ => ?_) rfl (by rw [hpriv, if_neg hlast])
        rw [htu, hq, Option.some.injEq] at hp
        exact hp ▸ hlast
    · refine .of_same hh (fun hu => absurd hu htu) rfl ?_
      rw [hpriv]
      split
      · exact Ledger.rmPriv_priv_of_ne (Ne.symm htu)
      · rfl

/-- **What an act does to the private part.** -/
theorem exec_fate (ha : exec fuel o a = some o') (hh : o.ledger.priv u = some h) :
    Fate u o o' h a := by
  cases a with
  | submit v dummy tds buf setup => exact fate_submit ha hh
  | unlink v =>
    cases ha
    exact fate_unlink hh
  | unlinkFinish v =>
    cases ha
    exact .of_same hh trivial rfl (by rw [ledger_unlinkFinish, Ledger.use_priv])
  | delTd e t tdP =>
    obtain ⟨⟨o₁, tdP'⟩, h₁, rfl⟩ := Option.map_eq_some_iff.mp ha
    exact fate_delTd h₁ hh
  | other f keeps =>
    cases ha
    exact .of_same hh trivial rfl (congrArg (Option.map UrbPriv.holding) (keeps o u))

/-- The private part is there, and marked if the URB has been unlinked. -/
def Live (u : UrbPtr) (c : Callback) : Prop :=
  c.freed = false ∧ ∃ h, c.mem.ledger.priv u = some h ∧ (c.unlinked = true → h.urbDel = true)

theorem step_live (hc : c.Live u) (hs : c.step fuel u a = some c') :
    (Keeps u c.mem a → c'.Live u) ∧ (¬ Keeps u c.mem a → c'.freed = true) := by
  obtain ⟨hfree, h, hh, hun⟩ := hc
  obtain ⟨o, ho, rfl⟩ := Option.map_eq_some_iff.mp hs
  have hfate := exec_fate ho hh
  refine ⟨fun hk => ?_, fun hk => ?_⟩
  · obtain ⟨h', hh', hdel⟩ := hfate.1 hk
    refine ⟨?_, h', hh', fun hu => hdel ((Bool.or_eq_true _ _ ▸ hu).imp hun id)⟩
    have hsome : (o.urb u).hcpriv.isNone = false := by
      obtain ⟨p, hp, -⟩ := Option.map_eq_some_iff.mp hh'
      rw [hp]
      rfl
    rw [hfree, hsome, Bool.or_false]
  · have hnone : (o.urb u).hcpriv.isNone = true :=
      Option.isNone_iff_eq_none.mpr (Option.map_eq_none_iff.mp (hfate.2 hk))
    rw [hnone, Bool.or_true]

/-- What has been freed stays so. -/
theorem run_freed (hc : c.freed = true) (hr : c.run fuel u as = some c') : c'.freed = true := by
  induction as generalizing c with
  | nil =>
    cases hr
    exact hc
  | cons a as ih =>
    obtain ⟨c₁, h₁, hr⟩ := Option.bind_eq_some_iff.mp hr
    obtain ⟨o, -, rfl⟩ := Option.map_eq_some_iff.mp h₁
    exact ih (by rw [hc, Bool.true_or]) hr

/-- **A whole callback.** -/
theorem run_live (hc : c.Live u) (hr : c.run fuel u as = some c') :
    (c.Keeping fuel u as → c'.Live u) ∧ (¬ c.Keeping fuel u as → c'.freed = true) := by
  induction as generalizing c with
  | nil =>
    cases hr
    exact ⟨fun _ => hc, fun hn => absurd trivial hn⟩
  | cons a as ih =>
    obtain ⟨c₁, h₁, hr⟩ := Option.bind_eq_some_iff.mp hr
    have hone := step_live hc h₁
    by_cases hk : Keeps u c.mem a
    · have hrest := ih (hone.1 hk) hr
      refine ⟨fun hkeep => hrest.1 (hkeep.2 c₁ h₁),
        fun hnot => hrest.2 (fun hkeep => hnot ⟨hk, ?_⟩)⟩
      intro c₂ h₂
      rw [h₁, Option.some.injEq] at h₂
      exact h₂ ▸ hkeep
    · exact ⟨fun hkeep => absurd hkeep.1 hk, fun _ => run_freed (hone.2 hk) hr⟩

theorem Live.safe (hc : c.Live u) : c.Safe u := by
  obtain ⟨hfree, h, hh, hun⟩ := hc
  obtain ⟨p, hp, rfl⟩ : ∃ p, (c.mem.urb u).hcpriv = some p ∧ p.holding = h :=
    Option.map_eq_some_iff.mp hh
  refine ⟨hfree, fun _ _ => by rw [hp]; simp, fun garbage hread => ?_⟩
  have hlive : p.urbDel = false := by
    rw [readsDel, hfree, if_neg (by decide), Ohci.priv_eq hp] at hread
    exact hread
  by_contra hnot
  have hdel : p.urbDel = true := hun (by simpa using hnot)
  rw [hlive] at hdel
  cases hdel

end Proofs

end Callback

/-- Before the callback of a periodic URB is called nothing has been freed. -/
theorem returnUrb_live {o : Ohci} {u : UrbPtr} (hret : (returnUrb o u).2 = true) :
    (Callback.start (returnUrb o u).1).Live u := by
  obtain ⟨p, hp⟩ : ∃ p, (o.urb u).hcpriv = some p := by
    refine Option.ne_none_iff_exists'.mp (fun hnone => ?_)
    unfold returnUrb at hret
    rw [hnone] at hret
    split at hret <;> cases hret
  obtain ⟨-, hno⟩ | hl := ledger_returnUrb hp
  · rw [hret] at hno
    cases hno
  · refine ⟨rfl, p.holding, ?_, fun hu => nomatch hu⟩
    rw [Callback.start, hl]
    exact ledger_priv hp

/-- **When returning a periodic URB is safe**: when all acts of the callback
leave the private part. -/
theorem periodicReturn_safe_iff {fuel : ℕ} {o : Ohci} {u : UrbPtr} {as : List CallbackAct}
    {c : Callback}
    (hret : (returnUrb o u).2 = true)
    (hrun : (Callback.start (returnUrb o u).1).run fuel u as = some c) :
    c.Safe u ↔ (Callback.start (returnUrb o u).1).Keeping fuel u as := by
  have h := Callback.run_live (returnUrb_live hret) hrun
  refine ⟨fun hsafe => ?_, fun hk => (h.1 hk).safe⟩
  by_contra hk
  have hfreed := h.2 hk
  rw [hsafe.reads] at hfreed
  cases hfreed

/-- An interrupt URB whose one TD has been settled. -/
def settledInterrupt : Ohci :=
  { (default : Ohci) with
    urb := fun _ => { (default : Urb) with
      pipe := ⟨.int, 1, 1, false, false⟩
      dev := 1
      complete := true
      hcpriv := some { (default : UrbPriv) with
        ed := 12
        length := 1
        tdCnt := 1
        td := fun _ => 101 } } }

/-- A callback may unlink another URB. -/
theorem periodicReturn_safe_other : ∃ c,
    (Callback.start (returnUrb settledInterrupt 1).1).run 0 1 [.unlink 2,
      .submit 1 0 (fun _ => 0) 0 0]
      = some c ∧ c.Safe 1 := by
  obtain ⟨c, hc⟩ : ∃ c, (Callback.start (returnUrb settledInterrupt 1).1).run 0 1
      [.unlink 2, .submit 1 0 (fun _ => 0) 0 0] = some c := ⟨_, rfl⟩
  have hret : (returnUrb settledInterrupt 1).2 = true := by rfl
  exact ⟨c, hc, (periodicReturn_safe_iff hret hc).mpr
    ⟨fun h => absurd h (by decide), fun _ _ => ⟨trivial, fun _ _ => trivial⟩⟩⟩

/-- **A callback that unlinks the URB it is called for**: its status is not
pending, the private part is freed at once, and what is read behind the
callback decides whether `td_submit_urb` is called. -/
theorem periodicReturn_unsafe :
    ¬ ∀ (fuel : ℕ) (o : Ohci) (u : UrbPtr) (as : List CallbackAct) (c : Callback),
    (returnUrb o u).2 = true → (Callback.start (returnUrb o u).1).run fuel u as = some c →
      c.Safe u := by
  intro hclaim
  have hsafe := hclaim 0 settledInterrupt 1 [.unlink 1] _ rfl rfl
  exact absurd hsafe.reads (by decide)
