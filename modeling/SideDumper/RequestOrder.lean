import SideDumper.BounceTds
import SideDumper.SettleOrder

/-!
# The TDs of a request are settled in the order of their indices

`td_submit_urb` puts the TDs of a request on the queue of its ED in the order of
their indices, and the controller retires the first one. What happens in between
takes TDs off the queue, wherever they are, and other requests put theirs behind
it, so that the TDs of a request stay in this order: those that have been retired
and then those on the queue.
-/

section Walks

variable {α : Type*} {next : α → α} {stop a b : α} {xs ys : List α}

/-- **Two walks to one end**: one that starts on the other is the rest of it. -/
theorem Walk.suffix (h : Walk next stop a xs) (h' : Walk next stop b ys)
    (hsub : ∀ y ∈ ys, y ∈ xs) : ys <:+ xs := by
  cases ys with
  | nil => exact List.nil_suffix
  | cons y ys =>
    obtain ⟨front, rest, rfl⟩ := List.append_of_mem (hsub y List.mem_cons_self)
    have hrest : Walk next stop y (y :: rest) := h.drop
    obtain rfl := h'.1
    rw [h'.unique hrest]
    exact List.suffix_append _ _

end Walks

/-! ## What is ahead of a request -/

/-- **What is ahead of a request**: its TDs that are to be settled, those that have been
retired and then those on the queue of an ED. -/
def TdList.ahead (urb : TdPtr → UrbPtr) (q : TdList → List TdPtr) (e : EdPtr) (u : UrbPtr) :
    List TdPtr :=
  ((TdList.handOver q).inFlight ++ q (.queue e)).filter (fun t => urb t = u)

/-- **Accepted requests are in order.** -/
def Sys.InOrder (s : Sys) (q : TdList → List TdPtr) : Prop :=
  ∀ u h, s.mem.ledger.priv u = some h → u ∉ s.pend →
    (TdList.ahead s.mem.tdLinks.urb q h.ed u).Sublist ((List.range h.length).map h.td)

/-- A private part stays, or goes. -/
def Ledger.KeepsPriv (l l' : Ledger) (z : UrbPtr) : Prop :=
  ∀ h', l'.priv z = some h' → ∃ h, l.priv z = some h ∧ h.ed = h'.ed ∧ h.length = h'.length ∧
    h.td = h'.td

/-- **Steps that put no TD on a list.** -/
structure Sys.Orderly (s s' : Sys) (q q' : TdList → List TdPtr) : Prop where
  urb : s'.mem.tdLinks.urb = s.mem.tdLinks.urb
  queue : ∀ e, (q' (.queue e)).Sublist (q (.queue e))
  priv : ∀ z, z ∉ s'.pend → s.mem.ledger.KeepsPriv s'.mem.ledger z
  pend : ∀ z, z ∉ s'.pend → z ∉ s.pend

section Orders

variable {s s' : Sys} {q q' q'' : TdList → List TdPtr} {fill fill' fill'' : UrbPtr → ℕ}
    {K : UrbPtr → ℕ → Prop}
  {o o' : Ohci} {z : UrbPtr} {ss : List TdPtr} {e : EdPtr}

theorem Ledger.KeepsPriv.refl (l : Ledger) (z : UrbPtr) : l.KeepsPriv l z :=
  fun h hz => ⟨h, hz, rfl, rfl, rfl⟩

theorem Ohci.SameData.keepsPriv (h : Ohci.SameData K o o') : o.ledger.KeepsPriv o'.ledger z := by
  intro h' hz
  obtain ⟨p', hp', rfl⟩ := Option.map_eq_some_iff.mp
    (show (o'.urb z).hcpriv.map UrbPriv.holding = some h' from hz)
  obtain ⟨p, hp, hl⟩ := h.priv z p' hp'
  simp only [UrbPriv.layout, Prod.mk.injEq] at hl
  exact ⟨p.holding, ledger_priv hp, hl.1.symm, hl.2.1.symm, hl.2.2.2.symm⟩

/-- **The order stays** when TDs are settled or taken off queues. -/
theorem Sys.InOrder.keep (ho : s.InOrder q) (h : s.Orderly s' q q')
    (hstep : (TdList.handOver q).Step [] ss (TdList.handOver q')) : s'.InOrder q' := by
  intro u h' hu hnot
  obtain ⟨x, hx, hed, hlen, htd⟩ := h.priv u hnot h' hu
  have hflight : (TdList.handOver q').inFlight.Sublist (TdList.handOver q).inFlight := by
    have heq := hstep.inFlight
    rw [List.append_nil] at heq
    rw [← heq]
    exact List.sublist_append_right _ _
  have hold := ho u x hx (h.pend u hnot)
  rw [hed, hlen, htd] at hold
  rw [h.urb]
  exact ((hflight.append (h.queue h'.ed)).filter _).trans hold

/-- The lists are what the memory says. -/
theorem Sys.TdAcc.lists_eq (hc : s.TdAcc q fill) (hc' : s.TdAcc q' fill') : q = q' := by
  funext i
  exact (hc.listed.threads.walk i).unique (hc'.listed.threads.walk i)

/-- The lists stay. -/
theorem Sys.Orderly.of_same (hc' : s'.TdAcc q' fill') (hc'' : s'.TdAcc q fill'')
    (hurb : s'.mem.tdLinks.urb = s.mem.tdLinks.urb) (hdata : Ohci.SameData K s.mem s'.mem)
    (hpend : s'.pend = s.pend) :
    s.Orderly s' q q' := by
  refine ⟨hurb, fun e => ?_, fun z _ => hdata.keepsPriv, fun z hz => hpend ▸ hz⟩
  rw [hc'.lists_eq hc'']

/-- A queue that is walked as before. -/
theorem Sys.TdAcc.queue_same (hc : s.TdAcc q fill) (hc' : s'.TdAcc q' fill')
    (hnext : ∀ t ∈ q (.queue e), s'.mem.tdLinks.next t = s.mem.tdLinks.next t)
    (hhead : s'.mem.tdLinks.head e = s.mem.tdLinks.head e)
    (htail : s'.mem.ledger.tail e = s.mem.ledger.tail e) :
    q' (.queue e) = q (.queue e) := by
  have hw := (hc.listed.threads.walk (.queue e)).congr hnext
  refine (hc'.listed.threads.walk (.queue e)).unique ?_
  change Walk s'.mem.tdLinks.next (s'.mem.ledger.tail e) (s'.mem.tdLinks.head e) (q (.queue e))
  rw [htail, hhead]
  exact hw

end Orders

section Passes

variable {s s' : Sys} {q q' : TdList → List TdPtr} {fill fill' : UrbPtr → ℕ}
    {K : UrbPtr → ℕ → Prop} {o : Ohci}
  {u : UrbPtr} {e : EdPtr} {t rev tail : TdPtr} {ks : List IrqTask} {b f : Bool} {fa fuel : ℕ}
    {tdP tdP' : TdLink}

/-- The links stay: what has gone of a queue was in front. -/
theorem Sys.Orderly.of_links (hc : s.TdAcc q fill) (hc' : s'.TdAcc q' fill')
    (hnext : s'.mem.tdLinks.next = s.mem.tdLinks.next)
    (htail : s'.mem.ledger.tail = s.mem.ledger.tail)
    (hfrom : QueuesFrom (fun _ => False) s.mem.tdLinks s'.mem.tdLinks q q')
    (hpriv : ∀ z, s.mem.ledger.KeepsPriv s'.mem.ledger z) (hpend : s'.pend = s.pend) :
    s.Orderly s' q q' := by
  refine ⟨funext fun t => (hfrom.1 t).resolve_right id, fun e => List.IsSuffix.sublist ?_,
    fun z _ => hpriv z, fun z hz => hpend ▸ hz⟩
  have hw' : Walk s'.mem.tdLinks.next (s'.mem.ledger.tail e) (s'.mem.tdLinks.head e)
      (q' (.queue e)) :=
    hc'.listed.threads.walk (.queue e)
  rw [hnext, htail] at hw'
  exact (hc.listed.threads.walk (.queue e)).suffix hw' fun y hy =>
    (hfrom.2 e y hy).resolve_right id

/-- The first phase of `sohci_submit_urb`. -/
theorem Sys.Orderly.first {dummy : TdPtr} {tds : ℕ → TdPtr} (hc : s.TdAcc q fill) (hb : s.Base)
    (hsize : tdSize (s.mem.urb u) < 65536) (hs : s.step fuel (.submitFirst u dummy tds) = some s')
    (hc' : s'.TdAcc q' fill') : s.Orderly s' q q' := by
  obtain ⟨fill'', hc''⟩ := hc.first (Sys.step_entry hb hs) hsize hs
  obtain rfl := hc''.lists_eq hc'
  obtain ⟨head, hlinks, -⟩ := heads_submitFirst (o := s.mem) (u := u) dummy tds
  obtain ⟨honly, -, hfail⟩ := only_submitFirst (show submitFirst s.mem u dummy tds
    = ((submitFirst s.mem u dummy tds).1, (submitFirst s.mem u dummy tds).2) from rfl)
  simp only [Sys.step] at hs
  split at hs
  · cases hs
  cases hs
  refine ⟨by dsimp only; rw [hlinks], fun e => .refl _, fun z hz h' hh => ?_, fun z hz hin => ?_⟩
  · obtain ⟨p', hp', rfl⟩ :=
      Option.map_eq_some_iff.mp (show ((submitFirst s.mem u dummy tds).1.urb z).hcpriv.map
      UrbPriv.holding = some h' from hh)
    have hsame : ((submitFirst s.mem u dummy tds).1.urb z).hcpriv = (s.mem.urb z).hcpriv := by
      by_cases hzu : z = u
      · subst hzu
        dsimp only at hz
        split at hz
        · exact absurd List.mem_cons_self hz
        · obtain hurb | hnone := hfail (Bool.eq_false_iff.mpr ‹_›)
          · rw [hurb]
          · rw [hnone] at hp'
            cases hp'
      · rw [honly.other z hzu]
    rw [hsame] at hp'
    exact ⟨_, ledger_priv hp', rfl, rfl, rfl⟩
  · dsimp only at hz
    split at hz
    · exact hz (List.mem_cons_of_mem _ hin)
    · exact hz hin

/-- **A TD is turned around.** -/
theorem Sys.Orderly.reversed (hc : s.TdAcc q fill) (ho : s.mem.ledger.Owners)
    (ht : s.tasks = .reverse t rev :: ks)
    (h0 : t ≠ 0) (hrest : RestQueued s.mem t)
    (hc' : Sys.TdAcc { s with
      mem := reverseTd s.mem t rev
      tasks := .reverse ((reverseTd s.mem t rev).nextTD t) t :: ks } q' fill') :
    s.Orderly { s with
      mem := reverseTd s.mem t rev
      tasks := .reverse ((reverseTd s.mem t rev).nextTD t) t :: ks } q q' := by
  obtain ⟨q'', hc'', hfrom⟩ : ∃ q'', Sys.TdAcc _ q'' fill ∧
      QueuesFrom (fun _ => False) _ _ q q'' :=
    hc.reversed ho ht h0 hrest
  obtain rfl := hc''.lists_eq hc'
  have hl : (reverseTd s.mem t rev).ledger = s.mem.ledger := ledger_reverseTd
  refine .of_links hc hc' ?_ (congrArg Ledger.tail hl) hfrom (fun z => ?_) rfl
  · obtain hsame | ⟨-, -, p, -, -, hskip⟩ := tdLinks_reverseTd (o := s.mem) (t := t) rev
    · dsimp only
      rw [hsame]
    · dsimp only
      rw [hskip]
  · dsimp only
    rw [hl]
    exact .refl _ z

/-- **A TD is settled.** -/
theorem Sys.Orderly.doneTd (hc : s.TdAcc q fill) (ht : s.tasks = .done t :: ks) (h0 : t ≠ 0)
    (h : doneTd s.mem t = some (o, b))
    (hc' : Sys.TdAcc { s with
      mem := o
      tasks := (if b then .requeue (s.mem.td t).urb (s.mem.td t).ed (s.mem.td t).nextDlTd
        else .endEd (s.mem.td t).ed (s.mem.td t).nextDlTd) :: ks } q' fill') :
    s.Orderly { s with
      mem := o
      tasks := (if b then .requeue (s.mem.td t).urb (s.mem.td t).ed (s.mem.td t).nextDlTd
        else .endEd (s.mem.td t).ed (s.mem.td t).nextDlTd) :: ks } q q' := by
  obtain ⟨q'', hc'', hfrom⟩ : ∃ q'', Sys.TdAcc _ q'' fill ∧
      QueuesFrom (fun _ => False) _ _ q q'' := hc.doneTd ht h0 h
  obtain rfl := hc''.lists_eq hc'
  obtain ⟨o₁, hlen, hsame⟩ := sameData_doneTd (K := fun _ _ => False) h
  have hcpriv := dlTransferLength_hcpriv hlen
  refine .of_links hc hc' ?_ ?_ hfrom (fun z h' hz => ?_) rfl
  · obtain ⟨p, -, ⟨-, -, -, hk⟩ | ⟨-, ⟨-, -, hk⟩ | ⟨-, -, hk⟩⟩⟩ := tdLinks_doneTd h <;>
    · dsimp only
      rw [hk]
  · obtain ⟨hl, -⟩ | ⟨-, x, -, ⟨-, -, -, hl⟩ | ⟨-, hl⟩⟩ := ledger_doneTd h
    · exact congrArg Ledger.tail hl
    · exact (congrArg Ledger.tail hl).trans (Ledger.rmPriv_tail _ _)
    · exact (congrArg Ledger.tail hl).trans (Ledger.rmPriv_tail _ _)
  · obtain ⟨h, hh, hrest⟩ := (hsame fun _ hj => absurd hj id).keepsPriv h' hz
    refine ⟨h, ?_, hrest⟩
    exact (congrArg (Option.map UrbPriv.holding) (hcpriv z).symm).trans hh

/-- **A TD that `dl_del_list` comes to.** -/
theorem Sys.Orderly.delTd (hc : s.TdAcc q fill) (ht : s.tasks = .delQueue f e tail fa t tdP :: ks)
    (h0 : t ≠ tail)
    (h : delTd s.mem e t tdP = some (o, tdP'))
    (hc' : Sys.TdAcc
      { s with mem := o, tasks := .delQueue f e tail fa (s.mem.nextTD t) tdP' :: ks } q' fill') :
    s.Orderly { s with mem := o, tasks := .delQueue f e tail fa (s.mem.nextTD t) tdP' :: ks } q
      q' := by
  obtain ⟨q'', hc'', hfrom, -⟩ : ∃ q'', Sys.TdAcc _ q'' fill ∧
      QueuesFrom (fun _ => False) _ _ q q'' ∧ _ :=
    hc.delTd ht h0 h
  obtain rfl := hc''.lists_eq hc'
  obtain ⟨-, hend⟩ | ⟨-, kept, ys, zs, hq, rfl, hw, hexit, -⟩ :=
    hc.del f e tail fa t tdP (by rw [ht]; exact List.mem_cons_self)
  · exact absurd hend h0
  obtain ⟨ys, rfl⟩ := hw.cons_of_ne h0
  obtain ⟨o₁, hlen, hsame⟩ := sameData_delTd (K := fun _ _ => False) h
  have hpriv : ∀ z, s.mem.ledger.KeepsPriv o.ledger z := by
    intro z h' hz
    obtain ⟨x, hx, hrest⟩ := hsame.keepsPriv h' hz
    refine ⟨x, ?_, hrest⟩
    obtain rfl | hlen := hlen
    · exact hx
    · exact (congrArg (Option.map UrbPriv.holding) (dlTransferLength_hcpriv hlen z).symm).trans hx
  refine ⟨funext fun x => (hfrom.1 x).resolve_right id, fun x => ?_, fun z _ => hpriv z,
    fun z hz => hz⟩
  obtain ⟨p, -, ⟨-, rfl, -⟩ | ⟨-, -, hk⟩⟩ := tdLinks_delTd h
  · rw [hc.queue_same hc' (fun _ _ => rfl) rfl rfl]
  have hq : q (.queue e) = kept ++ t :: (ys ++ zs) := hq
  rw [tdLinks_setTdLink] at hk
  have htail : o.ledger.tail = s.mem.ledger.tail := by
    obtain ⟨p, -, ⟨-, rfl, -⟩ | ⟨-, -, hl⟩⟩ := ledger_delTd h
    · rfl
    · rw [hl, Ledger.report_tail]
      split
      · exact Ledger.rmPriv_tail _ _
      · rfl
  have hwalk : Walk o.tdLinks.next (o.ledger.tail x) (o.tdLinks.head x)
      (Function.update q (.queue e) (kept ++ (ys ++ zs)) (.queue x)) := by
    rw [hk, htail]
    exact (hc.listed.remove hq).walk (.queue x)
  rw [(hc'.listed.threads.walk (.queue x)).unique hwalk, Function.update_apply]
  split
  · rename_i hx
    rw [hx, hq]
    exact List.Sublist.append (.refl _) (List.sublist_cons_self _ _)
  · exact .refl _

end Passes

/-! ## Requests that are queued -/

section Refill

variable {o o' : Ohci} {u : UrbPtr} {p p' : UrbPriv} {cs : List TdCall} {n : ℕ}

/-- **The TDs of a request are on the queue in the order of their indices**, from its
former end on. -/
theorem Fills.walk (hf : Fills u p cs 0 n o o' p') (ha : o.TdsApart p) (hn : n ≤ p.length)
    (hcs : n ≤ cs.length) :
    Walk o'.tdLinks.next (o'.ed p.ed).hwTailP (o.ed p.ed).hwTailP ((List.range n).map p'.td) := by
  have hrest : ∀ k i, i + k = n → Walk o'.tdLinks.next (o'.ed p.ed).hwTailP
      (if i = 0 then (o.ed p.ed).hwTailP else p.td (i - 1)) ((List.range' i k).map p'.td) := by
    intro k
    induction k with
    | zero =>
      intro i hi
      change (if i = 0 then (o.ed p.ed).hwTailP else p.td (i - 1)) = (o'.ed p.ed).hwTailP
      rw [hf.tail, Nat.zero_add, ← hi, Nat.add_zero]
    | succ k ih =>
      intro i hi
      have hslot : p'.td i = if i = 0 then (o.ed p.ed).hwTailP else p.td (i - 1) := by
        rw [hf.slot, if_pos (by omega)]
      have htd := hf.td i (by omega) _ (List.getElem?_eq_getElem (show i < cs.length by omega))
      rw [Nat.zero_add] at htd
      have hnext : o'.tdLinks.next (p'.td i) = p.td i := by
        change (o'.td (p'.td i)).hwNextTD = p.td i
        rw [htd, tdOf]
      have hih := ih (i + 1) (by omega)
      rw [if_neg (Nat.succ_ne_zero i), Nat.add_sub_cancel] at hih
      rw [List.range'_succ, List.map_cons, ← hslot]
      refine ⟨rfl, ?_, by rw [hnext]; exact hih⟩
      rw [hslot, hf.tail, if_neg (show n ≠ 0 by omega), Nat.zero_add]
      split
      · exact (ha.tail _ (by omega)).symm
      · intro heq
        have := ha.slot _ (by omega) _ (by omega) heq
        omega
  rw [List.range_eq_range']
  exact hrest n 0 (Nat.zero_add n)

variable {s s' : Sys} {q q' : TdList → List TdPtr} {fill fill' : UrbPtr → ℕ} {fuel : ℕ}

/-- **`td_submit_urb` puts the TDs of a request behind those of the others.** -/
theorem Sys.InOrder.refill (hord : s.InOrder q) (hc : s.TdAcc q fill) (hc' : s'.TdAcc q' fill')
    (htasks : (s'.todo, s'.rev) = (s.todo, s.rev)) (hfill : s.Refill q u o p)
    (h : tdSubmitUrb o u = some s'.mem)
    (hpend : ∀ z, z ≠ u → z ∉ s'.pend → z ∉ s.pend) : s'.InOrder q' := by
  have hlisted := hfill.listed hc
  obtain ⟨hlinks, hpriv, -, -, howners, hp, hnew, hidle⟩ := hfill
  obtain ⟨q'', hl', -, ⟨⟨new, rfl⟩, hhead, hnext⟩, -⟩ := listed_tdSubmitUrb hlisted howners hp
    (by rw [hlinks]; exact hidle) hnew h
  simp only [Prod.mk.injEq] at htasks
  rw [← htasks.1, ← htasks.2] at hl'
  have hq' : q' = Function.update q (.queue p.ed) (q (.queue p.ed) ++ new) :=
    funext fun i => (hc'.listed.threads.walk i).unique (hl'.threads.walk i)
  obtain ⟨p', hf⟩ := fills_tdSubmitUrb hp (howners.tdsApart hp hnew) h
  have hapart := howners.tdsApart hp hnew
  -- the TDs of the request are what has been put on the queue
  have hnew' : new
      = (List.range (min (tdCalls (o.urb u) p (o.toggleOf (o.urb u))).length p.length)).map
        p'.td := by
    have hold : Walk o.tdLinks.next (o.ed p.ed).hwTailP (o.tdLinks.head p.ed) (q (.queue p.ed)) :=
      hlisted.threads.walk (.queue p.ed)
    have hall : Walk s'.mem.tdLinks.next (s'.mem.ed p.ed).hwTailP (o.tdLinks.head p.ed)
        (q (.queue p.ed) ++ new) := by
      have hw := hl'.threads.walk (.queue p.ed)
      rw [Function.update_self] at hw
      change Walk s'.mem.tdLinks.next (s'.mem.ed p.ed).hwTailP (s'.mem.tdLinks.head p.ed) _ at hw
      rw [hhead] at hw
      exact hw
    have hexit : exitLink s'.mem.tdLinks.next (o.tdLinks.head p.ed) (q (.queue p.ed))
        = (o.ed p.ed).hwTailP := by
      rw [exitLink_congr (hnext (.queue p.ed))]
      exact (walk_iff_trail.mp hold).2
    have hwalk := (walk_append.mp hall).2
    rw [hexit] at hwalk
    exact hwalk.unique (Fills.walk (p := { p with tdCnt := 0 }) hf ⟨hapart.tail, hapart.slot⟩
      (min_le_right _ _)
      (min_le_left _ _))
  have hflight : (TdList.handOver q').inFlight = (TdList.handOver q).inFlight := by
    rw [hq']
    simp [TdList.handOver]
  have hurb : ∀ i, ∀ t ∈ q i, s'.mem.tdLinks.urb t = s.mem.tdLinks.urb t := by
    intro i t ht
    have hsame : s'.mem.td t = o.td t := by
      refine hf.frame t (fun heq => ?_) fun k _ hk heq => ?_
      · exact hlisted.tail_notMem howners hnew (heq ▸ ht)
      · refine hidle i t ht ?_
        rw [← hlinks]
        refine (hlisted.place_unique howners ht (ledger_priv hp) (k := k) ?_ heq.symm).1
        exact (show k < p.length by omega)
    rw [← hlinks]
    exact congrArg Td.urb hsame
  have hmine : ∀ t ∈ new, s'.mem.tdLinks.urb t = u := by
    intro t ht
    rw [hnew'] at ht
    obtain ⟨k, hk, rfl⟩ := List.mem_map.mp ht
    have hk := List.mem_range.mp hk
    have htd := hf.td k hk _ (List.getElem?_eq_getElem (lt_of_lt_of_le hk (min_le_left _ _)))
    rw [Nat.zero_add] at htd
    exact congrArg Td.urb htd
  obtain ⟨honly, -⟩ := only_tdSubmitUrb h
  have hold : ∀ e, ∀ t ∈ (TdList.handOver q).inFlight ++ q (.queue e),
      s'.mem.tdLinks.urb t = s.mem.tdLinks.urb t ∧ s.mem.tdLinks.urb t ≠ u := by
    intro e t ht
    obtain ⟨i, hi⟩ : ∃ i, t ∈ q i := by
      obtain ht | ht := List.mem_append.mp ht
      · simp only [TdList.handOver, HandOver.inFlight, List.mem_append, List.mem_reverse] at ht
        obtain ((ht | ht) | ht) | ht := ht
        · exact ⟨_, ht⟩
        · exact ⟨_, ht⟩
        · exact ⟨_, ht⟩
        · exact ⟨_, ht⟩
      · exact ⟨_, ht⟩
    exact ⟨hurb i t hi, hidle i t hi⟩
  have hahead : ∀ e z, TdList.ahead s'.mem.tdLinks.urb q' e z
      = TdList.ahead s.mem.tdLinks.urb q e z ++
      if e = p.ed then new.filter (fun t => s'.mem.tdLinks.urb t = z) else [] := by
    intro e z
    have hqueue : q' (.queue e) = q (.queue e) ++ if e = p.ed then new else [] := by
      rw [hq', Function.update_apply]
      by_cases he : e = p.ed
      · rw [if_pos (congrArg TdList.queue he), if_pos he, he]
      · rw [if_neg (fun heq => he (TdList.queue.inj heq)), if_neg he, List.append_nil]
    rw [TdList.ahead, hflight, hqueue, ← List.append_assoc, List.filter_append, TdList.ahead,
      List.filter_congr fun t ht => by rw [(hold e t ht).1]]
    split <;> rfl
  intro z x hx hz
  rw [hahead]
  by_cases hzu : z = u
  · subst hzu
    have hxp : x = p'.holding := Option.some.inj (hx.symm.trans (ledger_priv hf.priv))
    have hed : p'.holding.ed = p.ed := hf.ed
    have hlen : p'.length = p.length := hf.length
    have hnone : TdList.ahead s.mem.tdLinks.urb q x.ed z = [] :=
      List.filter_eq_nil_iff.mpr fun t ht => by simpa using (hold _ t ht).2
    have hmore : min (tdCalls (o.urb z) p (o.toggleOf (o.urb z))).length p.length
        ≤ p'.length := by
      rw [hlen]
      exact min_le_right _ _
    subst hxp
    rw [hnone, List.nil_append, if_pos hed,
      List.filter_eq_self.mpr (fun t ht => by simpa using hmine t ht), hnew']
    exact (List.range_sublist.mpr hmore).map p'.td
  · have hpz : s.mem.ledger.priv z = some x := by
      rw [← hpriv]
      exact (congrArg (fun r : Urb => r.hcpriv.map UrbPriv.holding)
        (honly.other z hzu)).symm.trans hx
    have hnone : new.filter (fun t => s'.mem.tdLinks.urb t = z) = [] :=
      List.filter_eq_nil_iff.mpr fun t ht => by simpa [hmine t ht] using fun h => hzu h.symm
    rw [hnone, ite_self, List.append_nil]
    exact hord z x hpz (hpend z hzu hz)

end Refill

/-! ## Steps -/

section Steps

variable {s s' : Sys} {q q' : TdList → List TdPtr} {fill fill' : UrbPtr → ℕ} {fuel : ℕ} {o : Ohci}
    {u : UrbPtr}
  {e : EdPtr} {next : TdPtr} {ks : List IrqTask} {a : Act} {m : Move}

/-- The second phase of `sohci_submit_urb`. -/
theorem Sys.InOrder.second {buf setup : ℕ} {more : Bool} (hord : s.InOrder q)
    (hc : s.TdAcc q fill)
    (ho : s.mem.ledger.Owners) (hu : u ∈ s.pend)
    (h : submitSecond fuel s.mem u buf setup = some (o, more))
    (hc' : Sys.TdAcc { s with mem := o, pend := s.pend.erase u } q' fill')
    (hstep : (TdList.handOver q).Step [] [] (TdList.handOver q')) :
    Sys.InOrder { s with mem := o, pend := s.pend.erase u } q' := by
  have hpend : ∀ z, z ≠ u → z ∉ s.pend.erase u → z ∉ s.pend := fun z hz hn hin =>
    hn ((List.mem_erase_of_ne hz).mpr hin)
  obtain ⟨hlinks, hl⟩ | ⟨o₁, p, hfill, hsub⟩ := hc.second_cases ho hu h
  · -- it fails, and the private part goes
    have hpriv : o.ledger.priv = Function.update s.mem.ledger.priv u none := by
      rw [hl]
      exact Ledger.rmPriv_priv _ _
    have htail : o.ledger.tail = s.mem.ledger.tail := by
      rw [hl]
      exact Ledger.rmPriv_tail _ _
    intro z h' hz hnot
    dsimp only at hz hnot ⊢
    have hzu : z ≠ u := by
      rintro rfl
      rw [hpriv, Function.update_self] at hz
      cases hz
    rw [hpriv, Function.update_of_ne hzu] at hz
    have hqueue : q' (.queue h'.ed) = q (.queue h'.ed) :=
      hc.queue_same hc' (fun _ _ => by dsimp only; rw [hlinks])
      (by dsimp only; rw [hlinks]) (congrFun htail h'.ed)
    have hflight : (TdList.handOver q').inFlight = (TdList.handOver q).inFlight := by
      simpa using hstep.inFlight
    have hold := hord z h' hz (hpend z hzu hnot)
    rw [TdList.ahead, hflight, hqueue, hlinks]
    exact hold
  · exact hord.refill hc hc' rfl hfill hsub hpend

/-- A periodic request is queued again. -/
theorem Sys.InOrder.requeued (hord : s.InOrder q) (hc : s.TdAcc q fill) (ho : s.mem.ledger.Owners)
    (hgood : ∀ h, s.mem.ledger.priv u = some h → s.mem.ledger.Good h.ed)
    (ht : s.tasks = .requeue u e next :: ks) (h : requeueUrb s.mem u = some o)
    (hc' : Sys.TdAcc { s with mem := o, tasks := .endEd e next :: ks } q' fill')
    (hstep : (TdList.handOver q).Step [] [] (TdList.handOver q')) :
    Sys.InOrder { s with mem := o, tasks := .endEd e next :: ks } q' := by
  obtain ⟨htodo, hrev⟩ := Sys.todo_rev_first ht rfl
  have htasks : (Sys.todo { s with mem := o, tasks := .endEd e next :: ks },
      Sys.rev { s with mem := o, tasks := .endEd e next :: ks }) = (s.todo, s.rev) := by
    rw [htodo, hrev]
    rfl
  obtain ⟨hlinks, hl⟩ | ⟨o₁, p, hfill, hsub⟩ := hc.requeue_cases ho hgood ht h
  · refine hord.keep ⟨by dsimp only; rw [hlinks], fun e => ?_, fun z _ => ?_,
      fun _ hz => hz⟩ hstep
    · rw [hc.queue_same hc' (fun _ _ => by dsimp only; rw [hlinks]) (by dsimp only; rw [hlinks])
        (by dsimp only; rw [hl])]
    · dsimp only
      rw [hl]
      exact .refl _ z
  · exact hord.refill hc hc' htasks hfill hsub fun _ _ hz => hz

/-- **The controller retires a TD**, the next one of its queue. -/
theorem Sys.InOrder.retired {cc cbp psw : ℕ} {halted carry : Bool} (hord : s.InOrder q)
    (hc : s.TdAcc q fill)
    (ho : s.mem.ledger.Owners) (hs : s.move fuel (.retire e cc cbp psw halted carry) = some s')
    (hc' : s'.TdAcc q' fill') : s'.InOrder q' := by
  obtain ⟨o, rfl, hne, hl, hk⟩ := Sys.move_retire hs
  obtain ⟨rest, hq⟩ : ∃ rest, q (.queue e) = (s.mem.ed e).hwHeadP :: rest :=
    (hc.listed.threads.walk (.queue e)).cons_of_ne hne
  have hlist := hc.listed.retire ho hq
  rw [← hk, ← hl] at hlist
  have hq' := funext fun i => (hc'.listed.threads.walk i).unique (hlist.threads.walk i)
  have hflight : (TdList.handOver q').inFlight
      = (TdList.handOver q).inFlight ++ [(s.mem.ed e).hwHeadP] := by
    rw [hq']
    simp [TdList.handOver, HandOver.inFlight]
  have hurb : o.tdLinks.urb = s.mem.tdLinks.urb := by rw [hk]
  intro z x hx hz
  dsimp only at hx hz ⊢
  rw [hl] at hx
  have hold := hord z x hx hz
  rw [hurb]
  have hsame : TdList.ahead s.mem.tdLinks.urb q' x.ed z
      = TdList.ahead s.mem.tdLinks.urb q x.ed z := by
    rw [TdList.ahead, TdList.ahead, hflight]
    by_cases hxe : x.ed = e
    · rw [hxe, hq', Function.update_of_ne (by simp), Function.update_self, hq, List.append_assoc]
      rfl
    · -- a TD on the queue of another ED is not one of the request
      have hother : s.mem.tdLinks.urb (s.mem.ed e).hwHeadP ≠ z := by
        rintro rfl
        have hmem : (s.mem.ed e).hwHeadP ∈ q (.queue e) := by
          rw [hq]
          exact List.mem_cons_self
        obtain ⟨y, hy, hed, -⟩ := hc.listed.part _ _ hmem
        rw [hx] at hy
        cases hy
        exact hxe (hed.symm.trans (hc.listed.queue e _ hmem))
      rw [hq', Function.update_of_ne (by simp),
        Function.update_of_ne (fun h => hxe (TdList.queue.inj h)),
        List.filter_append, List.filter_append, List.filter_append,
          List.filter_cons_of_neg (by simpa using hother),
        List.filter_nil, List.append_nil]
  rw [hsame]
  exact hold

/-- **A pass of an interrupt routine.** -/
theorem Sys.InOrder.pass {k : IrqTask} {k' : Option IrqTask} (hord : s.InOrder q)
    (hc : s.TdAcc q fill) (hb : s.Base)
    (hi : s.TdInv) (hrest : ∀ t rev ks, s.tasks = .reverse t rev :: ks → t ≠ 0 →
      RestQueued s.mem t)
    (ht : s.tasks = k :: ks) (h : k.Passed fuel s.mem o k')
    (hc' : Sys.TdAcc { s with mem := o, tasks := k'.toList ++ ks } q' fill')
    (hstep : (TdList.handOver q).Step [] (s.settles (.act .resume)) (TdList.handOver q')) :
    Sys.InOrder { s with mem := o, tasks := k'.toList ++ ks } q' := by
  cases h with
  | reverseEnd rev =>
    exact hord.keep (.of_same (K := fun _ _ => True) hc' (hc.reverseEnd ht) rfl (.refl _) rfl)
      hstep
  | reverse t rev h0 =>
    exact hord.keep (.reversed hc hi.owners ht h0 (hrest t rev ks ht h0) hc') hstep
  | doneEnd =>
    exact hord.keep (.of_same (K := fun _ _ => True) hc' (hc.doneEnd ht) rfl (.refl _) rfl) hstep
  | done t o again h0 h => exact hord.keep (.doneTd hc ht h0 h hc') hstep
  | requeue u e next o h =>
    have hset : s.settles (.act .resume) = [] := by simp only [Sys.settles, ht]
    rw [hset] at hstep
    exact hord.requeued hc hi.owners (fun x hx =>
      hi.again u e next x (by rw [ht]; exact List.mem_cons_self) hx) ht h
      hc' hstep
  | endEd e next o h =>
    exact hord.keep (.of_same (K := fun _ _ => True) hc' (hc.endEd hb ht h)
      (congrArg TdLinks.urb (tdLinks_doneEd h))
      (sameData_doneEd h) rfl) hstep
  | delEnd f =>
    exact hord.keep (.of_same (K := fun _ _ => True) hc' (hc.delDone ht)
      (congrArg TdLinks.urb tdLinks_delEnd)
      sameData_delEnd rfl) hstep
  | delStart f e h0 =>
    exact hord.keep (.of_same (K := fun _ _ => True) hc' (hc.delStart ht) rfl (.refl _) rfl) hstep
  | delLeave f e tail fa tdP =>
    exact hord.keep (.of_same (K := fun _ _ => True) hc' (hc.delLeave hi ht)
      (congrArg TdLinks.urb tdLinks_delEdEnd)
      sameData_delEdEnd rfl) hstep
  | delTd f e tail fa t tdP tdP' o h0 h => exact hord.keep (.delTd hc ht h0 h hc') hstep

/-- **Every step keeps the order.** -/
theorem Sys.InOrder.move (hord : s.InOrder q) (hc : s.TdAcc q fill) (hb : s.Base) (hi : s.TdInv)
    (hok : MoveClean s m)
    (hs : s.move fuel m = some s') (hc' : s'.TdAcc q' fill') : s'.InOrder q' := by
  have hstep := hc.order_move hi hok.1 hs hc'
  obtain ⟨hdom, hmark, hdrop, hrest⟩ := hok
  cases Sys.moved hs with
  | first u dummy tds o more h =>
    exact hord.keep (.first hc hb hdom.2 (Sys.move_act hs) hc') hstep
  | second u buf setup o more hu h => exact hord.second hc hi.owners hu h hc' hstep
  | unlink u waiting =>
    have hacc := hc.unlink (Sys.move_act hs) hdom (fun e he => hmark u e rfl he)
      fun p hun hdev hp =>
      hdrop u p rfl hun hdev hp
    exact hord.keep (.of_same (K := fun _ _ => True) hc' hacc tdLinks_unlinkUrb_urb
      sameData_unlinkUrb rfl) hstep
  | unlinkFinish u =>
    have hlinks : (unlinkFinish s.mem u).tdLinks = s.mem.tdLinks := tdLinks_unlinkFinish
    refine hord.keep (.of_links hc hc' (by dsimp only; rw [hlinks]) ?_
      (.of_subset (by dsimp only; rw [hlinks])
      fun e t ht => ?_) (fun z => ?_) rfl) hstep
    · dsimp only
      rw [ledger_unlinkFinish]
      rfl
    · rwa [hc.queue_same hc' (fun _ _ => by dsimp only; rw [hlinks]) (by dsimp only; rw [hlinks])
        (by dsimp only; rw [ledger_unlinkFinish]; rfl)] at ht
    · exact (sameData_unlinkFinish (K := fun _ _ => True)).keepsPriv
  | freeEd e o h0 h =>
    exact hord.keep (.of_same (K := fun _ _ => True) hc' (hc.freeEd h0 hdom h)
      (congrArg TdLinks.urb (tdLinks_freeEd h)) (sameData_freeEd h) rfl) hstep
  | doneIrq =>
    obtain ⟨q'', hc'', hsame⟩ := hc.doneIrq hdom
    obtain rfl := hc''.lists_eq hc'
    exact hord.keep ⟨rfl, fun e => by rw [hsame e], fun z _ => .refl _ z, fun _ hz => hz⟩ hstep
  | delIrq f =>
    exact hord.keep (.of_same (K := fun _ _ => True) hc' (hc.delIrq hdom) rfl (.refl _) rfl) hstep
  | resume k ks o k' ht h =>
    exact hord.pass hc hb hi (fun t rev ks ht h0 => hrest t rev ks rfl ht h0) ht h hc' hstep
  | frame | hcData =>
    exact hord.keep (.of_same (K := fun _ _ => True) hc' (hc.quiet rfl rfl) rfl
      (.of_eq rfl rfl) rfl) hstep
  | advance e cc cbp psw =>
    obtain ⟨o, hs', hl, hk⟩ := Sys.move_advance hs
    rw [hs'] at hc' ⊢
    have hlists := hc'.lists_eq (hc.quiet hk (by rw [hl]))
    exact hord.keep ⟨congrArg TdLinks.urb hk, fun x => by rw [hlists], fun z _ => by
      dsimp only
      rw [hl]
      exact .refl _ z, fun _ hz => hz⟩ hstep
  | retire e cc cbp psw halted carry hne => exact hord.retired hc hi.owners hs hc'
  | writeBack h0 =>
    obtain ⟨q'', hc'', hsame⟩ := hc.written h0
    obtain rfl := hc''.lists_eq hc'
    exact hord.keep ⟨rfl, fun e => by rw [hsame e], fun z _ => .refl _ z, fun _ hz => hz⟩ hstep

end Steps

/-! ## Runs -/

section Runs

variable {o : Ohci} {s : Sys}

/-- **The TDs of every request are settled in the order of their indices**: in every run of
clean steps, those of an accepted request that are to be settled are among its TDs in
this order, each once, first the ones that have been retired and then the ones on
the queue of its ED. -/
theorem ahead_in_order (ho : o.Idle) (hn : o.NoTds) (h : Sys.Moves MoveClean ⟨o, [], [], []⟩ s) :
    ∃ q, s.Lists q ∧ ∀ u p, (s.mem.urb u).hcpriv = some p → u ∉ s.pend →
      (TdList.ahead (fun t => (s.mem.td t).urb) q p.ed u).Sublist
        ((List.range p.length).map p.td) := by
  have hinv : s.Base ∧ s.TdInv ∧ ∃ q fill, s.TdAcc q fill ∧ s.InOrder q := by
    induction h with
    | start =>
      refine ⟨ho.base, ho.tdInv hn.alloc, _, _, ho.tdAcc hn, fun u x hx => ?_⟩
      rw [ledger_priv_none (ho.hcpriv u)] at hx
      cases hx
    | step fuel m _ hok hs ih =>
      obtain ⟨hb, hi, q, fill, hc, hord⟩ := ih
      obtain ⟨hb', hi', q', fill', hc', -⟩ := hc.move hb hi hok hs
      exact ⟨hb', hi', q', fill', hc', hord.move hc hb hi hok hs hc'⟩
  obtain ⟨-, -, q, fill, hc, hord⟩ := hinv
  exact ⟨q, hc.listed.threads.walk, fun u p hp hu => hord u p.holding (ledger_priv hp) hu⟩

/-- A request of two TDs fails at its first: the one that has been retired is in front of
the one on the queue. -/
theorem ahead_in_order_failFirst : ∃ s : Sys, ∃ q, s.Lists q ∧
    (s.mem.urb 1).hcpriv.map (fun p => (p.ed, p.length, p.td 0, p.td 1))
      = some (12, 2, 100, 101) ∧
      TdList.ahead (fun t => (s.mem.td t).urb) q 12 1 = [100, 101] := by
  obtain ⟨s, hs, hobs⟩ := Option.map_eq_some_iff.mp (show (Sys.moves 1 ⟨controlUrbs, [], [], []⟩
    (failFirst ++ [])).map (fun s =>
      ((s.mem.urb 1).hcpriv.map (fun p => (p.ed, p.length, p.td 0, p.td 1)), s.pend))
      = some (some (12, 2, 100, 101), []) by decide +kernel)
  obtain ⟨hpriv, hpend⟩ := Prod.mk.inj hobs
  have hplaces : (Sys.moves 1 ⟨controlUrbs, [], [], []⟩ (failFirst ++ [])).map
      (fun s => (s.mem.regDonehead,
      (s.mem.ed 12).hwHeadP, (s.mem.ed 12).hwTailP, (s.mem.td 100).urb, (s.mem.td 101).urb))
      = some (100, 101, 102, 1, 1) := by decide +kernel
  rw [hs, Option.map_some, Option.some.injEq] at hplaces
  simp only [Prod.mk.injEq] at hplaces
  obtain ⟨hreg, hhead, htail, h100, h101⟩ := hplaces
  obtain ⟨q, hq, hord⟩ := ahead_in_order controlUrbs_idle controlUrbs_noTds
    (failFirst_clean (fun _ hm => absurd hm List.not_mem_nil) hs)
  refine ⟨s, q, hq, hpriv, ?_⟩
  obtain ⟨p, hp, hpp⟩ := Option.map_eq_some_iff.mp hpriv
  simp only [Prod.mk.injEq] at hpp
  obtain ⟨hed, hlen, h0, h1⟩ := hpp
  have hsub := hord 1 p hp (by rw [hpend]; exact List.not_mem_nil)
  rw [hed, hlen] at hsub
  simp only [List.range_succ, List.range_zero, List.nil_append, List.map_cons,
    List.map_nil, h0, h1, List.singleton_append] at hsub
  have hretired : 100 ∈ TdList.ahead (fun t => (s.mem.td t).urb) q 12 1 := by
    have hw : Walk s.mem.tdLinks.next 0 s.mem.regDonehead (q .reg) := hq .reg
    rw [hreg] at hw
    have hmem : 100 ∈ q .reg := hw.start_mem (by decide)
    simp [TdList.ahead, TdList.handOver, HandOver.inFlight, hmem, h100]
  have hqueued : 101 ∈ TdList.ahead (fun t => (s.mem.td t).urb) q 12 1 := by
    have hw : Walk s.mem.tdLinks.next (s.mem.ed 12).hwTailP (s.mem.ed 12).hwHeadP
        (q (.queue 12)) := hq (.queue 12)
    rw [hhead, htail] at hw
    have hmem : 101 ∈ q (.queue 12) := hw.start_mem (by decide)
    simp [TdList.ahead, hmem, h101]
  refine hsub.eq_of_length_le ?_
  have hboth : [100, 101] ⊆ TdList.ahead (fun t => (s.mem.td t).urb) q 12 1 := by
    simp [hretired, hqueued]
  exact List.Nodup.length_le_of_subset (by decide) hboth

end Runs
