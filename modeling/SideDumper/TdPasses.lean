import SideDumper.TdMoves

/-!
# The TDs in an interrupt

One pass of an interrupt routine keeps the invariant of `TdMoves`.
`dl_reverse_done_list` turns a TD around and may skip the rest of its request,
`dl_done_list` settles a TD, and `dl_del_list` keeps a TD or takes it off its queue.
-/

section Shape

variable {k : IrqTask} {ks : List IrqTask}

/-- A routine for retired TDs has interrupted no other routine. -/
theorem TaskShape.alone (h : TaskShape (k :: ks)) (hk : k.settles = true) : ks = [] := by
  cases h with
  | settle | del => rfl
  | nested hd _ =>
    rw [hk] at hd
    cases hd

/-- `dl_del_list` may have interrupted a routine for retired TDs. -/
theorem TaskShape.rest (h : TaskShape (k :: ks)) (hk : k.settles = false) :
    TaskShape ks ∧ ∀ d : IrqTask, d.settles = false → TaskShape (d :: ks) := by
  cases h with
  | settle hd =>
    rw [hk] at hd
    cases hd
  | del => exact ⟨.none, fun d hd => .del hd⟩
  | nested _ hk' => exact ⟨.settle hk', fun d hd => .nested hd hk'⟩

/-- `dl_del_list` is not what it has interrupted. -/
theorem TaskShape.rest_settles (h : TaskShape (k :: ks)) : ∀ d ∈ ks, d.settles = true := by
  cases h with
  | settle | del => simp
  | nested _ hk' => simpa using hk'

end Shape

/-- Where the lists of a routine for retired TDs begin. -/
theorem Sys.todo_rev_first {s : Sys} {k : IrqTask} {ks : List IrqTask} (ht : s.tasks = k :: ks)
    (hk : k.settles = true) : s.todo = k.todo ∧ s.rev = k.rev := by
  rw [Sys.todo, Sys.rev, ht, List.find?_cons_of_pos hk]
  exact ⟨rfl, rfl⟩

/-- What is left to settle of the request of a TD on a list. -/
theorem Listed.tdCnt_lt {o : Ohci} {todo rev t : TdPtr} {fill : UrbPtr → ℕ}
    {q : TdList → List TdPtr}
    {i : TdList} {p : UrbPriv} (hl : Listed o.ledger o.tdLinks todo rev fill q) (ht : t ∈ q i)
    (hp : (o.urb (o.td t).urb).hcpriv = some p) :
    p.tdCnt + 1 ≤ fill (o.td t).urb ∧ fill (o.td t).urb ≤ p.holding.length ∧
      p.holding.length < 65536 := by
  rw [← tdLinks_cnt hp]
  exact hl.count_lt ht (ledger_priv hp)

section Passes

variable {s s' : Sys} {q : TdList → List TdPtr} {fill : UrbPtr → ℕ} {fuel : ℕ}
    {u : UrbPtr} {e : EdPtr}
  {t rev next : TdPtr} {ks : List IrqTask} {o : Ohci} {b : Bool} {new : UrbPtr → Prop}

/-! ## Retired TDs -/

/-- `dl_reverse_done_list` is through. -/
theorem Sys.TdAcc.reverseEnd (hc : s.TdAcc q fill) (ht : s.tasks = .reverse 0 rev :: ks) :
    Sys.TdAcc { s with tasks := .done rev :: ks } q fill := by
  obtain rfl := (ht ▸ hc.shape).alone rfl
  obtain ⟨htodo, hrev⟩ : s.todo = 0 ∧ s.rev = rev := Sys.todo_rev_first ht rfl
  have hl := hc.listed
  rw [htodo, hrev] at hl
  exact hc.pass rfl hl rfl (fun z h' hz => ⟨h', hz, rfl⟩) (fun _ _ => ⟨rfl, rfl⟩) (.settle rfl)
    (by simp) (by simp)

/-- **The rest of a request that has failed is skipped.** -/
theorem Sys.TdAcc.skipped {p : UrbPriv} (hc : s.TdAcc q fill) (ho : s.mem.ledger.Owners)
    (hp : (s.mem.urb (s.mem.td t).urb).hcpriv = some p) (hi : (s.mem.td t).index + 1 < p.length)
    (hrest : Trail s.mem.tdLinks.next (s.mem.ledger.tail (s.mem.td t).ed)
      (s.mem.tdLinks.head (s.mem.td t).ed)
      ((List.range (p.length - (s.mem.td t).index - 1)).map
        fun i => p.td ((s.mem.td t).index + 1 + i))) :
    ∃ rest, Listed s.mem.ledger { s.mem.tdLinks with
        head := Function.update s.mem.tdLinks.head (s.mem.td t).ed
          (s.mem.nextTD (p.td (p.length - 1)))
        cnt := Function.update s.mem.tdLinks.cnt (s.mem.td t).urb
          ((p.tdCnt + (p.length - (s.mem.td t).index - 1)) % 65536) } s.todo s.rev fill
      (Function.update q (.queue (s.mem.td t).ed) rest) ∧
        ∀ x ∈ rest, x ∈ q (.queue (s.mem.td t).ed) := by
  have hpr := ledger_priv hp
  generalize (s.mem.td t).urb = u at hp hpr ⊢
  generalize (s.mem.td t).ed = e at hrest ⊢
  generalize (s.mem.td t).index = k at hi hrest ⊢
  obtain ⟨rest, hq⟩ := hrest.prefix_walk (hc.listed.threads.walk (.queue e))
  refine ⟨rest, ?_, fun x hx => hq ▸ List.mem_append_right _ hx⟩
  have hlen : p.length - k - 1 = p.length - k - 2 + 1 := by omega
  have hurb : ∀ x ∈ (List.range (p.length - k - 1)).map fun i => p.td (k + 1 + i),
      s.mem.tdLinks.urb x = u := by
    intro x hx
    obtain ⟨i, hi, rfl⟩ := List.mem_map.mp hx
    rw [List.mem_range] at hi
    refine (hc.listed.place_unique ho (i := .queue e) ?_ hpr (k := k + 1 + i) ?_ rfl).1
    · rw [hq]
      exact List.mem_append_left _ hx
    · exact (by omega : k + 1 + i < p.length)
  have hskip := hc.listed.skip hq hurb
  have hexit : exitLink s.mem.tdLinks.next (s.mem.tdLinks.head e)
      ((List.range (p.length - k - 1)).map fun i => p.td (k + 1 + i))
        = s.mem.nextTD (p.td (p.length - 1)) := by
    rw [hlen, List.range_succ, List.map_append, List.map_singleton, exitLink_concat]
    rw [show k + 1 + (p.length - k - 2) = p.length - 1 by omega]
    rfl
  rw [hexit, List.length_map, List.length_range, tdLinks_cnt hp] at hskip
  -- the count stays below the length, so it does not wrap
  have hcount := hskip.count u p.holding hpr
  dsimp only at hcount
  rw [Function.update_self] at hcount
  rw [Nat.mod_eq_of_lt (by omega)]
  exact hskip

/-- **`dl_reverse_done_list` turns a TD around.** -/
theorem Sys.TdAcc.reversed (hc : s.TdAcc q fill) (ho : s.mem.ledger.Owners)
    (ht : s.tasks = .reverse t rev :: ks)
    (h0 : t ≠ 0) (hrest : RestQueued s.mem t) :
    ∃ q', Sys.TdAcc { s with
      mem := reverseTd s.mem t rev
      tasks := .reverse ((reverseTd s.mem t rev).nextTD t) t :: ks } q' fill ∧
      QueuesFrom new s.mem.tdLinks (reverseTd s.mem t rev).tdLinks q q' := by
  obtain rfl := (ht ▸ hc.shape).alone rfl
  obtain ⟨htodo, hrev⟩ : s.todo = t ∧ s.rev = rev := Sys.todo_rev_first ht rfl
  have hl : (reverseTd s.mem t rev).ledger = s.mem.ledger := ledger_reverseTd
  have hmem : t ∈ q .todo := by
    have hw := hc.listed.threads.walk .todo
    rw [show TdList.start s.mem.tdLinks s.todo s.rev .todo = t from htodo] at hw
    exact hw.start_mem h0
  obtain ⟨x, hx, -⟩ := hc.listed.part _ t hmem
  have hend : ∀ q' n', (reverseTd s.mem t rev).tdLinks = n' →
      Listed s.mem.ledger n' (s.mem.tdLinks.next t) t fill q' → n'.next = s.mem.tdLinks.next →
      (∀ z, z ≠ (s.mem.td t).urb → n'.cnt z = s.mem.tdLinks.cnt z) →
      Sys.TdAcc { s with
        mem := reverseTd s.mem t rev
        tasks := [.reverse ((reverseTd s.mem t rev).nextTD t) t] } q' fill := by
    rintro q' n' rfl hq hnext hcnt
    have hnx : (reverseTd s.mem t rev).nextTD t = s.mem.tdLinks.next t := congrFun hnext t
    refine hc.pass rfl ?_ (congrArg Ledger.const hl) (fun z h' hz => ⟨h', ?_, rfl⟩)
      (fun z hz => ⟨?_, ?_⟩) (.settle rfl)
      (by simp) (by simp)
    · dsimp only
      rw [hl]
      change Listed s.mem.ledger _ ((reverseTd s.mem t rev).nextTD t) t fill q'
      rw [hnx]
      exact hq
    · rw [← hl]
      exact hz
    · exact congrFun (congrArg Ledger.priv hl) z
    · exact hcnt z (fun h => hz _ t hmem h.symm)
  have hne : s.todo ≠ 0 := htodo ▸ h0
  rcases tdLinks_reverseTd (o := s.mem) (t := t) rev with hsame | ⟨hcc, hhalt, p, hp, hi, hskip⟩
  · have hturn := hc.listed.reverse hne
    rw [htodo, hrev] at hturn
    refine ⟨_, hend _ _ hsame hturn rfl (fun _ _ => rfl), .of_subset (by rw [hsame])
      fun e x hx => ?_⟩
    rwa [Function.update_of_ne (by simp), Function.update_of_ne (by simp)] at hx
  · obtain ⟨rest, hsk, hsub⟩ := hc.skipped ho hp hi (hrest hcc hhalt p hp hi)
    have hturn := hsk.reverse hne
    rw [htodo, hrev] at hturn
    refine ⟨_, hend _ _ hskip hturn rfl (fun z hz => Function.update_of_ne hz _ _),
      .of_subset (by rw [hskip]) fun e x hx => ?_⟩
    rw [Function.update_of_ne (by simp), Function.update_of_ne (by simp),
      Function.update_apply] at hx
    split at hx
    · rename_i he
      exact he ▸ hsub x hx
    · exact hx

/-- **A TD is settled by `dl_done_list`.** -/
theorem Sys.TdAcc.doneTd (hc : s.TdAcc q fill) (ht : s.tasks = .done t :: ks) (h0 : t ≠ 0)
    (h : doneTd s.mem t = some (o, b)) :
    ∃ q', Sys.TdAcc { s with
      mem := o
      tasks := (if b then .requeue (s.mem.td t).urb (s.mem.td t).ed (s.mem.td t).nextDlTd
        else .endEd (s.mem.td t).ed (s.mem.td t).nextDlTd) :: ks } q' fill ∧
      QueuesFrom new s.mem.tdLinks o.tdLinks q q' := by
  obtain rfl := (ht ▸ hc.shape).alone rfl
  obtain ⟨htodo, hrev⟩ : s.todo = 0 ∧ s.rev = t := Sys.todo_rev_first ht rfl
  obtain ⟨rest, hq⟩ : ∃ rest, q .rev = t :: rest := by
    have hw := hc.listed.threads.walk .rev
    rw [show TdList.start s.mem.tdLinks s.todo s.rev .rev = t from hrev] at hw
    exact hw.cons_of_ne h0
  have hmem : t ∈ q .rev := by
    rw [hq]
    exact List.mem_cons_self
  obtain ⟨p, hp, hcases⟩ := tdLinks_doneTd h
  have hpr : s.mem.ledger.priv (s.mem.td t).urb = some p.holding := ledger_priv hp
  obtain ⟨hlt, hle, hmax⟩ := hc.listed.tdCnt_lt hmem hp
  have hmod : (p.tdCnt + 1) % 65536 = p.tdCnt + 1 := Nat.mod_eq_of_lt (by omega)
  have hfull := hc.full _ _ hpr
  have hnot : (s.mem.td t).urb ∉ s.pend := by
    intro hin
    rw [if_pos hin] at hfull
    omega
  rw [hmod] at hcases
  have hsettled : Listed s.mem.ledger { s.mem.tdLinks with
      cnt := Function.update s.mem.tdLinks.cnt (s.mem.td t).urb (p.tdCnt + 1) } 0
        (s.mem.td t).nextDlTd fill
      (Function.update q .rev rest) := by
    refine hc.listed.settle (.of_eq hq) ?_ rfl rfl ?_
    · refine (hc.listed.threads.drop [t] hq rfl (fun j hj => ?_)).congr (fun _ => rfl)
        (fun _ => rfl)
        (fun j x _ => TdList.next_congr rfl rfl)
      cases j with
      | rev => exact absurd rfl hj
      | todo => exact htodo.symm
      | queue | reg | done => rfl
    · rw [← tdLinks_cnt hp]
      rfl
  have hqueues : ∀ {n'}, o.tdLinks = n' → n'.urb = s.mem.tdLinks.urb →
      QueuesFrom new s.mem.tdLinks o.tdLinks q (Function.update q .rev rest) := by
    rintro n' rfl hurb
    refine .of_subset hurb fun e x hx => ?_
    rwa [Function.update_of_ne (by simp)] at hx
  refine ⟨Function.update q .rev rest, ?_⟩
  have hsame : ∀ n', o.tdLinks = n' → o.ledger = s.mem.ledger →
      n' = { s.mem.tdLinks with
        cnt := Function.update s.mem.tdLinks.cnt (s.mem.td t).urb (p.tdCnt + 1) } →
      (b = true → p.tdCnt + 1 = p.length) → Sys.TdAcc { s with
        mem := o
        tasks := [if b then .requeue (s.mem.td t).urb (s.mem.td t).ed (s.mem.td t).nextDlTd
          else .endEd (s.mem.td t).ed (s.mem.td t).nextDlTd] } (Function.update q .rev rest)
            fill := by
    rintro n' hn hl rfl hlast
    have hlist : Listed o.ledger o.tdLinks 0 (s.mem.td t).nextDlTd fill
        (Function.update q .rev rest) := by
      rw [hn, hl]
      exact hsettled
    refine hc.pass rfl ?_ (congrArg Ledger.const hl) (fun z h' hz => ⟨h', ?_, rfl⟩)
      (fun z hz => ⟨?_, ?_⟩) ?_ ?_ ?_
    · cases b <;> exact hlist
    · rw [← hl]
      exact hz
    · exact congrFun (congrArg Ledger.priv hl) z
    · dsimp only
      rw [hn]
      exact Function.update_of_ne (fun h => hz _ t hmem h.symm) _ _
    · cases b <;> exact .settle rfl
    · intro u e next hm
      cases b with
      | false => simp at hm
      | true =>
        simp only [if_pos, List.mem_singleton, IrqTask.requeue.injEq] at hm
        obtain ⟨rfl, -, -⟩ := hm
        refine .inr ⟨p.holding, ?_, hnot, ?_⟩
        · dsimp only
          rw [hl]
          exact hpr
        · dsimp only
          rw [hn]
          dsimp only
          rw [Function.update_self]
          exact hlast rfl
    · cases b <;> simp
  obtain ⟨-, rfl, hl, hk⟩ | ⟨hlast, ⟨rfl, hl, hk⟩ | ⟨rfl, hnone, hk⟩⟩ := hcases
  · exact ⟨hsame _ hk hl rfl nofun, hqueues hk rfl⟩
  · exact ⟨hsame _ hk hl rfl (fun _ => hlast), hqueues hk rfl⟩
  · -- the request goes with its last TD
    refine ⟨?_, hqueues hk rfl⟩
    have hpriv : o.ledger.tail = s.mem.ledger.tail ∧ o.ledger.state = s.mem.ledger.state ∧
        o.ledger.const = s.mem.ledger.const ∧
        o.ledger.priv = Function.update s.mem.ledger.priv (s.mem.td t).urb none := by
      obtain ⟨hl, -⟩ | ⟨-, x, -, ⟨-, -, -, hl⟩ | ⟨-, hl⟩⟩ := ledger_doneTd h
      · rw [hl] at hnone
        rw [show s.mem.ledger.priv (s.mem.td t).urb = some p.holding from hpr] at hnone
        cases hnone
      · rw [hl, Ledger.use_tail, Ledger.use_state, Ledger.use_priv, Ledger.rmPriv_tail,
          Ledger.rmPriv_state, Ledger.rmPriv_priv]
        exact ⟨rfl, rfl, Ledger.rmPriv_const _ _, rfl⟩
      · rw [hl, Ledger.rmPriv_tail, Ledger.rmPriv_state, Ledger.rmPriv_priv, Ledger.rmPriv_const]
        exact ⟨rfl, rfl, rfl, rfl⟩
    obtain ⟨htail, hstate, hconst, hpriv⟩ := hpriv
    have hlist := hsettled.drop_settled hpr ((Function.update_self _ _ _).trans hlast) htail
      hstate hpriv
    dsimp only at hlist
    rw [Function.update_idem, ← hk] at hlist
    refine hc.pass rfl hlist hconst (fun z h' hz => ⟨h', ?_, rfl⟩) (fun z hz => ⟨?_, ?_⟩)
      (.settle rfl) (by simp)
      (by simp)
    · dsimp only at hz
      rw [hpriv, Function.update_apply] at hz
      split at hz
      · cases hz
      · exact hz
    · dsimp only
      rw [hpriv]
      exact Function.update_of_ne (fun h => hz _ t hmem h.symm) _ _
    · dsimp only
      rw [hk]
      exact Function.update_of_ne (fun h => hz _ t hmem h.symm) _ _

/-- The lists do not see where in the body of its loop `dl_done_list` is. -/
theorem Sys.TdAcc.goOn {k k' : IrqTask} (hc : s.TdAcc q fill) (ht : s.tasks = k :: ks)
    (hk : k.settles = true)
    (hk' : k'.settles = true) (htodo : k'.todo = k.todo) (hrev : k'.rev = k.rev)
    (hreq : ∀ u e next, k' ≠ .requeue u e next) : Sys.TdAcc { s with tasks := [k'] } q fill := by
  obtain ⟨htodos, hrevs⟩ := Sys.todo_rev_first ht hk
  obtain ⟨htodos', hrevs'⟩ := Sys.todo_rev_first (s := { s with tasks := [k'] }) rfl hk'
  refine hc.pass rfl ?_ rfl (fun z h' hz => ⟨h', hz, rfl⟩) (fun _ _ => ⟨rfl, rfl⟩)
    (.settle hk') ?_ ?_
  · rw [htodos', hrevs', htodo, hrev, ← htodos, ← hrevs]
    exact hc.listed
  · intro u e next hm
    exact absurd (List.mem_singleton.mp hm).symm (hreq u e next)
  · intro f e tail fa t tdP hm
    rw [← List.mem_singleton.mp hm] at hk'
    cases hk'

/-- **A periodic request is queued again.** -/
theorem Sys.TdAcc.requeued (hc : s.TdAcc q fill) (ho : s.mem.ledger.Owners)
    (hgood : ∀ h, s.mem.ledger.priv u = some h → s.mem.ledger.Good h.ed)
    (ht : s.tasks = .requeue u e next :: ks)
    (h : requeueUrb s.mem u = some o) :
    ∃ q' fill', Sys.TdAcc { s with mem := o, tasks := .endEd e next :: ks } q' fill' ∧
      QueuesFrom (· = u) s.mem.tdLinks o.tdLinks q q' := by
  obtain rfl := (ht ▸ hc.shape).alone rfl
  obtain ⟨x, hx, hnot, hcnt⟩ := hc.idle u e next (by rw [ht]; exact List.mem_cons_self)
  have hidle := hc.settled hx (.inr hcnt)
  have hc' : Sys.TdAcc { s with tasks := [.endEd e next] } q fill :=
    hc.goOn ht rfl rfl rfl rfl nofun
  obtain ⟨p, hp, ⟨hlinks, hl⟩ | ⟨o₁, hlinks, hl, hsub⟩⟩ := tdLinks_requeueUrb h
  · refine ⟨q, fill, hc'.same rfl rfl hlinks (congrArg Ledger.const hl) (congrArg Ledger.tail hl)
      ?_ ?_ ?_ ?_, .of_urb (by rw [hlinks])⟩ <;> dsimp only <;> rw [hl]
    · exact fun _ h => h
    · exact fun z h' hz => ⟨h', hz, rfl, rfl, rfl⟩
    · exact fun z h' hz => ⟨h', hz⟩
    · exact fun _ _ h => h
  · have hpu : (o₁.urb u).hcpriv.map UrbPriv.holding = some p.holding :=
      (congrFun (congrArg Ledger.priv hl) u).trans (ledger_priv hp)
    obtain ⟨p₁, hp₁, hpp⟩ := Option.map_eq_some_iff.mp hpu
    refine Sys.TdAcc.refill (s := { s with tasks := [.endEd e next] }) (o := o₁) (p := p₁) hc' rfl
      hlinks (congrArg Ledger.priv hl)
      (congrArg Ledger.tail hl) (congrArg Ledger.const hl) (fun e he => ?_) (fun e he => ?_)
      (hl ▸ ho) hp₁ hidle ?_ hsub
      ⟨hc.pend.1, hnot, fun _ _ => .rfl⟩ (by simp)
    · rw [← hl]
      exact he
    · rw [← hl]
      exact he
    · have hne := (hgood p.holding (ledger_priv hp)).1
      rw [← hl, show p.holding.ed = p₁.ed from congrArg Holding.ed hpp.symm] at hne
      exact hne

/-- **The end of the body of the loop of `dl_done_list`.** -/
theorem Sys.TdAcc.endEd (hc : s.TdAcc q fill) (hb : s.Base) (ht : s.tasks = .endEd e next :: ks)
    (h : doneEd fuel s.mem e = some o) :
    Sys.TdAcc { s with mem := o, tasks := .done next :: ks } q fill := by
  obtain rfl := (ht ▸ hc.shape).alone rfl
  have hc' : Sys.TdAcc { s with tasks := [.done next] } q fill := hc.goOn ht rfl rfl rfl rfl nofun
  have hlinks := tdLinks_doneEd h
  have hl : o.ledger = s.mem.ledger ∨ o.ledger = s.mem.ledger.setState e .edUnlink := by
    by_cases h0 : e = 0
    · subst h0
      have hzero : (s.mem.ed 0).state = .edNew := hb.zero
      unfold doneEd at h
      rw [if_neg (by rw [hzero]; simp [EdState.edNew, EdState.edOper])] at h
      cases h
      exact .inl rfl
    · obtain hl | ⟨-, hl⟩ := ledger_doneEd h0 h
      · exact .inl hl
      · exact .inr hl
  have hst : ∀ x, o.ledger.state x = s.mem.ledger.state x ∨ o.ledger.state x = .edUnlink := by
    intro x
    obtain hl | hl := hl
    · exact .inl (congrFun (congrArg Ledger.state hl) x)
    · rw [hl]
      simp only [Ledger.setState, Function.update_apply]
      split
      · exact .inr rfl
      · exact .inl rfl
  have hrest : (o.ledger.const, o.ledger.tail, o.ledger.priv)
      = (s.mem.ledger.const, s.mem.ledger.tail, s.mem.ledger.priv) := by
    obtain hl | hl := hl
    · rw [hl]
    · rw [hl]
      rfl
  simp only [Prod.mk.injEq] at hrest
  obtain ⟨hconst, htail, hpriv⟩ := hrest
  refine hc'.same rfl rfl hlinks hconst htail (fun x hx => ?_) (fun z h' hz => ?_)
    (fun z h' hz => ?_)
    (fun _ x hx => ?_)
  · obtain hs | hs := hst x
    · exact hs ▸ hx
    · rw [show o.ledger.state x = .edNew from hx] at hs
      cases hs
  · exact ⟨h', hpriv ▸ hz, rfl, rfl, rfl⟩
  · exact ⟨h', hpriv ▸ hz⟩
  · obtain hs | hs := hst x
    · exact hs ▸ hx
    · have hx' : (o.ledger.state x).del = true := hx
      rw [hs] at hx'
      cases hx'

/-- `dl_done_list` is through. -/
theorem Sys.TdAcc.doneEnd (hc : s.TdAcc q fill) (ht : s.tasks = .done 0 :: ks) :
    Sys.TdAcc { s with tasks := ks } q fill := by
  obtain rfl := (ht ▸ hc.shape).alone rfl
  obtain ⟨htodo, hrev⟩ : s.todo = 0 ∧ s.rev = 0 := Sys.todo_rev_first ht rfl
  have hl := hc.listed
  rw [htodo, hrev] at hl
  exact hc.pass rfl hl rfl (fun z h' hz => ⟨h', hz, rfl⟩) (fun _ _ => ⟨rfl, rfl⟩) .none
    (by simp) (by simp)

end Passes

/-! ## `dl_del_list` -/

section Deletion

variable {s s' : Sys} {q q' : TdList → List TdPtr} {fill : UrbPtr → ℕ} {e : EdPtr} {t : TdPtr}
    {ks : List IrqTask}
  {o : Ohci} {f : Bool} {tail : TdPtr} {fa : ℕ} {tdP tdP' : TdLink} {new : UrbPtr → Prop}

/-- `dl_del_list` is not what the lists depend on. -/
theorem Sys.todo_rev_rest {k : IrqTask} {k' : Option IrqTask} (ht : s.tasks = k :: ks)
    (hk : k.settles = false)
    (ht' : s'.tasks = k'.toList ++ ks) (hk' : ∀ d ∈ k', d.settles = false) :
    s'.todo = s.todo ∧ s'.rev = s.rev := by
  have hfind : s'.tasks.find? IrqTask.settles = s.tasks.find? IrqTask.settles := by
    rw [ht, ht', List.find?_cons_of_neg (by simp [hk])]
    cases k' with
    | none => rfl
    | some d =>
      rw [Option.toList_some, List.singleton_append, List.find?_cons_of_neg (by simp [hk' d rfl])]
  rw [Sys.todo, Sys.todo, Sys.rev, Sys.rev, hfind]
  exact ⟨rfl, rfl⟩

/-- **A pass of `dl_del_list`.** -/
theorem Sys.TdAcc.delPass {k : IrqTask} (hc : s.TdAcc q fill) (k' : Option IrqTask)
    (ht : s.tasks = k :: ks)
    (hk : k.settles = false) (hk' : ∀ d ∈ k', d.settles = false)
    (hl : Listed o.ledger o.tdLinks s.todo s.rev fill q')
    (hconst : o.ledger.const = s.mem.ledger.const)
    (hlen : ∀ z h', o.ledger.priv z = some h' → s.mem.ledger.priv z = some h')
    (hidle : ∀ z, (∀ i, ∀ t ∈ q i, s.mem.tdLinks.urb t ≠ z) →
      o.ledger.priv z = s.mem.ledger.priv z ∧ o.tdLinks.cnt z = s.mem.tdLinks.cnt z)
    (hdel : ∀ f e tail fa t tdP, k' = some (.delQueue f e tail fa t tdP) →
      DelAt o.ledger o.tdLinks q' e tail t tdP) :
    Sys.TdAcc { s with mem := o, tasks := k'.toList ++ ks } q' fill := by
  have hshape := ht ▸ hc.shape
  obtain ⟨htodo, hrev⟩ : Sys.todo { s with mem := o, tasks := k'.toList ++ ks } = s.todo ∧
      Sys.rev { s with mem := o, tasks := k'.toList ++ ks } = s.rev :=
        Sys.todo_rev_rest ht hk rfl hk'
  refine hc.pass rfl ?_ hconst (fun z h' hz => ⟨h', hlen z h' hz, rfl⟩) hidle ?_ ?_ ?_
  · rw [htodo, hrev]
    exact hl
  · cases k' with
    | none => exact (hshape.rest hk).1
    | some d => exact (hshape.rest hk).2 d (hk' d rfl)
  · intro u e next hm
    obtain hm | hm := List.mem_append.mp hm
    · have hd := hk' _ (Option.mem_toList.mp hm)
      cases hd
    · exact .inl (by rw [ht]; exact List.mem_cons_of_mem _ hm)
  · intro f e tail fa t tdP hm
    obtain hm | hm := List.mem_append.mp hm
    · exact hdel f e tail fa t tdP (Option.mem_toList.mp hm)
    · have hd := hshape.rest_settles _ hm
      cases hd

/-- `dl_del_list` is through. -/
theorem Sys.TdAcc.delDone (hc : s.TdAcc q fill) (ht : s.tasks = .del f e :: ks) :
    Sys.TdAcc { s with mem := delEnd s.mem f, tasks := ks } q fill := by
  have hl : (delEnd s.mem f).ledger = s.mem.ledger := ledger_delEnd
  have hk : (delEnd s.mem f).tdLinks = s.mem.tdLinks := tdLinks_delEnd
  refine hc.delPass none ht rfl (by simp) ?_ (congrArg Ledger.const hl) (fun z h' hz => hl ▸ hz)
    (fun z _ => ⟨congrFun (congrArg Ledger.priv hl) z, congrFun (congrArg TdLinks.cnt hk) z⟩)
    (by rintro _ _ _ _ _ _ ⟨⟩)
  rw [hl, hk]
  exact hc.listed

/-- **`dl_del_list` gets to the TDs of an ED.** -/
theorem Sys.TdAcc.delStart (hc : s.TdAcc q fill) (ht : s.tasks = .del f e :: ks) :
    Sys.TdAcc { s with
      tasks := .delQueue f e (s.mem.ed e).hwTailP (s.mem.ed e).hwINFO.fa (s.mem.ed e).hwHeadP
        (.head e) :: ks }
      q fill := by
  refine hc.delPass (some _) ht rfl (by rintro _ ⟨⟩; rfl) hc.listed rfl (fun z h' hz => hz)
    (fun _ _ => ⟨rfl, rfl⟩) ?_
  rintro f e tail fa t tdP ⟨⟩
  have hw : Walk s.mem.tdLinks.next (s.mem.ed e).hwTailP (s.mem.ed e).hwHeadP (q (.queue e)) :=
    hc.listed.threads.walk (.queue e)
  by_cases hnew : s.mem.ledger.state e = .edNew
  · refine .inl ⟨by rw [hnew]; rfl, ?_⟩
    rw [hc.listed.fresh e hnew] at hw
    exact hw
  · exact .inr ⟨hnew, [], q (.queue e), [], by rw [List.append_nil]; rfl, rfl, hw, rfl,
      fun _ => rfl⟩

/-- **`dl_del_list` leaves the queue of an ED.** -/
theorem Sys.TdAcc.delLeave (hc : s.TdAcc q fill) (hi : s.TdInv)
    (ht : s.tasks = .delQueue f e tail fa tail tdP :: ks) :
    Sys.TdAcc { s with
      mem := delEdEnd s.mem e tail fa
      tasks := .del f ((delEdEnd s.mem e tail fa).ed e).edRmList :: ks } q fill := by
  have hk : (delEdEnd s.mem e tail fa).tdLinks = s.mem.tdLinks := tdLinks_delEdEnd
  have hat := hc.del f e tail fa tail tdP (by rw [ht]; exact List.mem_cons_self)
  have hrest : ((delEdEnd s.mem e tail fa).ledger.tail, (delEdEnd s.mem e tail fa).ledger.priv,
      (delEdEnd s.mem e tail fa).ledger.const)
      = (s.mem.ledger.tail, s.mem.ledger.priv, s.mem.ledger.const) := by
    obtain ⟨-, hl⟩ | ⟨-, hl⟩ := ledger_delEdEnd (o := s.mem) (e := e) tail fa
    · rw [hl]
      rfl
    · rw [hl]
      rfl
  simp only [Prod.mk.injEq] at hrest
  obtain ⟨htail, hpriv, hconst⟩ := hrest
  have hfresh : ∀ x, (delEdEnd s.mem e tail fa).ledger.state x = .edNew → q (.queue x) = [] := by
    intro x hx
    obtain ⟨hdel, hl⟩ | ⟨hdel, hl⟩ := ledger_delEdEnd (o := s.mem) (e := e) tail fa
    · by_cases hxe : x = e
      · -- all TDs of an ED that is removed have been taken off its queue
        subst hxe
        obtain ⟨hno, -⟩ | ⟨-, kept, ys, zs, hq, -, hw, hexit, hkept⟩ := hat
        · rw [show (s.mem.ledger.state x).del = true from hdel] at hno
          cases hno
        · obtain rfl := hkept hdel
          obtain rfl := hw.unique (show Walk s.mem.tdLinks.next tail tail [] from rfl)
          have hwq := hc.listed.threads.walk (.queue x)
          have hstop := hi.walk f x tail fa tail tdP (by rw [ht]; exact List.mem_cons_self) hdel
          have hstart : s.mem.tdLinks.head x = tail := hexit
          change Walk s.mem.tdLinks.next (s.mem.ledger.tail x) (s.mem.tdLinks.head x)
            (q (.queue x)) at hwq
          rw [hstart, ← hstop] at hwq
          exact hwq.unique rfl
      · refine hc.listed.fresh x ?_
        rw [hl] at hx
        exact (Function.update_of_ne hxe _ _).symm.trans hx
    · refine hc.listed.fresh x ?_
      rw [hl] at hx
      by_cases hxe : x = e
      · subst hxe
        have hst : ({ s.mem.ledger.state x with urbDel := false } : EdState) = .edNew :=
          (Function.update_self _ _ _).symm.trans hx
        by_contra hnew
        have hflags := hi.owners.flags x hnew
        simp only [EdState.edNew, EdState.mk.injEq] at hst
        simp [hst] at hflags
      · exact (Function.update_of_ne hxe _ _).symm.trans hx
  refine hc.delPass (some _) ht rfl (by rintro _ ⟨⟩; rfl) ?_ hconst (fun z h' hz => hpriv ▸ hz)
    (fun z _ => ⟨congrFun hpriv z, congrFun (congrArg TdLinks.cnt hk) z⟩)
      (by rintro _ _ _ _ _ _ ⟨⟩)
  refine hc.listed.keep ?_ (by rw [hk]) (by rw [hk]) hfresh (fun i t _ h hp => ⟨h, hpriv ▸ hp,
    rfl, rfl, rfl⟩)
    (fun z h' hz => .inl ⟨h', hpriv ▸ hz, rfl, rfl, by rw [hk], rfl⟩)
  rw [TdList.stop_congr htail, hk]
  exact hc.listed.threads

/-- The pass goes on behind a TD that has been taken off. -/
theorem DelAt.removed {l l' : Ledger} {n n' : TdLinks} {v : TdPtr} {kept ys zs : List TdPtr}
    (hnd : (kept ++ t :: (ys ++ zs)).Nodup) (hnew : l.state e ≠ .edNew)
    (hkept : (l.state e).del = true → kept = []) (hys : Walk n.next tail v ys)
    (hst : l'.state = l.state) (hn : n'.next = (n.setLink (.after e kept) v).next)
    (hh : n'.head = (n.setLink (.after e kept) v).head) :
    DelAt l' n' (Function.update q (.queue e) (kept ++ (ys ++ zs))) e tail v (.after e kept) := by
  refine .inr ⟨by rw [hst]; exact hnew, kept, ys, zs, Function.update_self _ _ _, rfl, ?_, ?_,
    fun hdel => ?_⟩
  · refine hys.congr (fun x hx => ?_)
    rw [hn]
    refine TdLinks.setLink_next (fun hxk => ?_)
    exact (List.nodup_append.mp hnd).2.2 x hxk x
      (List.mem_cons_of_mem _ (List.mem_append_left _ hx)) rfl
  · rw [hn, hh]
    exact exitLink_setLink
  · rw [hst] at hdel
    exact hkept hdel

/-- A TD stays on the queue. -/
theorem Sys.TdAcc.delKept {kept ys zs : List TdPtr} (hc : s.TdAcc q fill)
    (ht : s.tasks = .delQueue f e tail fa t tdP :: ks) (hnew : s.mem.ledger.state e ≠ .edNew)
    (hstays : (s.mem.ledger.state e).del = false) (hq : q (.queue e) = kept ++ t :: (ys ++ zs))
    (hys : Walk s.mem.tdLinks.next tail (s.mem.nextTD t) ys) :
    Sys.TdAcc { s with
      tasks := .delQueue f e tail fa (s.mem.nextTD t) (.next t) :: ks } q fill := by
  refine hc.delPass (some _) ht rfl (by rintro _ ⟨⟩; rfl) hc.listed rfl (fun z h' hz => hz)
    (fun _ _ => ⟨rfl, rfl⟩) ?_
  rintro f e tail fa t tdP ⟨⟩
  refine .inr ⟨hnew, kept ++ [t], ys, zs, ?_, TdLink.after_concat.symm, hys, exitLink_concat,
    fun hdel => ?_⟩
  · rw [hq, List.append_assoc]
    rfl
  · rw [hstays] at hdel
    cases hdel

/-- **A TD that `dl_del_list` comes to** is kept or taken off. -/
theorem Sys.TdAcc.delTd (hc : s.TdAcc q fill) (ht : s.tasks = .delQueue f e tail fa t tdP :: ks)
    (h0 : t ≠ tail)
    (h : delTd s.mem e t tdP = some (o, tdP')) :
    ∃ q', Sys.TdAcc { s with
      mem := o
      tasks := .delQueue f e tail fa (s.mem.nextTD t) tdP' :: ks } q' fill ∧
      QueuesFrom new s.mem.tdLinks o.tdLinks q q' ∧
      ∀ p, (s.mem.urb (s.mem.td t).urb).hcpriv = some p → p.urbDel = true ∨
        (s.mem.ed e).state.del = true →
        t ∉ q' (.queue e) := by
  obtain ⟨-, hend⟩ | ⟨hnew, kept, ys, zs, hq, rfl, hw, hexit, hkept⟩ :=
    hc.del f e tail fa t tdP (by rw [ht]; exact List.mem_cons_self)
  · exact absurd hend h0
  obtain ⟨ys, rfl⟩ := hw.cons_of_ne h0
  have hq : q (.queue e) = kept ++ t :: (ys ++ zs) := hq
  have hmem : t ∈ q (.queue e) := by
    rw [hq]
    exact List.mem_append_right _ List.mem_cons_self
  have hnd : (kept ++ t :: (ys ++ zs)).Nodup := hq ▸ (hc.listed.threads.walk (.queue e)).nodup
  have hwys : Walk s.mem.tdLinks.next tail (s.mem.tdLinks.next t) ys := hw.2.2
  obtain ⟨p, hp, hcases⟩ := tdLinks_delTd h
  obtain ⟨p₂, hp₂, hled⟩ := ledger_delTd h
  rw [hp] at hp₂
  cases hp₂
  obtain ⟨hkeep, rfl, rfl⟩ | ⟨hgone, rfl, hk⟩ := hcases
  · -- the TD stays on the queue
    have hstays : (s.mem.ledger.state e).del = false := by
      by_contra hdel
      exact hkeep (.inr (eq_true_of_ne_false hdel))
    refine ⟨q, hc.delKept ht hnew hstays hq hwys, .of_urb rfl, fun p' hp' hgone => ?_⟩
    rw [hp] at hp'
    cases hp'
    exact absurd hgone hkeep
  obtain ⟨hkeep, -⟩ | ⟨-, -, hl⟩ := hled
  · exact absurd hgone hkeep
  have hpr : s.mem.ledger.priv (s.mem.td t).urb = some p.holding := ledger_priv hp
  obtain ⟨hlt, hle, hmax⟩ := hc.listed.tdCnt_lt hmem hp
  have hmod : (p.tdCnt + 1) % 65536 = p.tdCnt + 1 := Nat.mod_eq_of_lt (by omega)
  rw [hmod] at hk hl
  rw [tdLinks_setTdLink] at hk
  obtain ⟨hsed, hsurb, hscnt⟩ := s.mem.tdLinks.setLink_rest (.after e kept) (s.mem.nextTD t)
  have hsettled :
      Listed s.mem.ledger { s.mem.tdLinks.setLink (.after e kept) (s.mem.nextTD t) with
      cnt := Function.update s.mem.tdLinks.cnt (s.mem.td t).urb (p.tdCnt + 1) } s.todo s.rev fill
      (Function.update q (.queue e) (kept ++ (ys ++ zs))) := by
    refine hc.listed.settle (t := t) ?_ ?_ hsed hsurb ?_
    · rw [hq]
      exact List.perm_middle
    · exact (hc.listed.remove hq).congr (fun j => by cases j <;> rfl) (fun _ => rfl)
        (fun j x _ => TdList.next_congr rfl rfl)
    · rw [← tdLinks_cnt hp]
      rfl
  have hurb : o.tdLinks.urb = s.mem.tdLinks.urb := by
    split at hk <;> exact hk ▸ hsurb
  have hnext : o.tdLinks.next
      = (s.mem.tdLinks.setLink (.after e kept) (s.mem.nextTD t)).next := by
    split at hk <;> rw [hk]
  have hhead : o.tdLinks.head
      = (s.mem.tdLinks.setLink (.after e kept) (s.mem.nextTD t)).head := by
    split at hk <;> rw [hk]
  refine ⟨Function.update q (.queue e) (kept ++ (ys ++ zs)), ?_, .remove hurb hq, fun _ _ _ => ?_⟩
  rotate_left
  · rw [Function.update_self]
    exact (List.nodup_cons.mp (List.nodup_middle.mp hnd)).1
  split at hk
  · -- it was the last one of its request
    rename_i hlast
    rw [if_pos hlast] at hl
    have htail : o.ledger.tail = s.mem.ledger.tail := by
      rw [hl, Ledger.report_tail, Ledger.rmPriv_tail]
    have hstate : o.ledger.state = s.mem.ledger.state := by
      rw [hl, Ledger.report_state, Ledger.rmPriv_state]
    have hconst : o.ledger.const = s.mem.ledger.const := by
      rw [hl, Ledger.report_const, Ledger.rmPriv_const]
    have hpriv : o.ledger.priv = Function.update s.mem.ledger.priv (s.mem.td t).urb none := by
      rw [hl, Ledger.report_priv, Ledger.rmPriv_priv]
    have hlist := hsettled.drop_settled hpr ((Function.update_self _ _ _).trans hlast) htail
      hstate hpriv
    dsimp only at hlist
    rw [Function.update_idem, ← hk] at hlist
    refine hc.delPass (some _) ht rfl (by rintro _ ⟨⟩; rfl) hlist hconst (fun z h' hz => ?_)
      (fun z hz => ⟨?_, ?_⟩)
      (by rintro _ _ _ _ _ _ ⟨⟩; exact .removed hnd hnew hkept hwys hstate hnext hhead)
    · rw [hpriv, Function.update_apply] at hz
      split at hz
      · cases hz
      · exact hz
    · rw [hpriv]
      exact Function.update_of_ne (fun h => hz _ t hmem h.symm) _ _
    · rw [hk]
      exact Function.update_of_ne (fun h => hz _ t hmem h.symm) _ _
  · rename_i hlast
    rw [if_neg hlast] at hl
    have htail : o.ledger.tail = s.mem.ledger.tail := by rw [hl, Ledger.report_tail]
    have hstate : o.ledger.state = s.mem.ledger.state := by rw [hl, Ledger.report_state]
    have hconst : o.ledger.const = s.mem.ledger.const := by rw [hl, Ledger.report_const]
    have hpriv : o.ledger.priv = s.mem.ledger.priv := by rw [hl, Ledger.report_priv]
    have hlist : Listed o.ledger o.tdLinks s.todo s.rev fill _ := hsettled.keep
      (hsettled.threads.congr (fun j => by rw [hk])
        (fun j => congrFun (TdList.stop_congr htail) j)
        (fun j x _ => by rw [hk])) (by rw [hk]) (by rw [hk]) (fun x hx =>
          hsettled.fresh x (hstate ▸ hx))
      (fun i t _ h hp => ⟨h, hpriv ▸ hp, rfl, rfl, rfl⟩)
      (fun z h' hz => .inl ⟨h', hpriv ▸ hz, rfl, rfl, by rw [hk], rfl⟩)
    refine hc.delPass (some _) ht rfl (by rintro _ ⟨⟩; rfl) hlist hconst
      (fun z h' hz => hpriv ▸ hz) (fun z hz => ⟨congrFun hpriv z, ?_⟩)
      (by rintro _ _ _ _ _ _ ⟨⟩; exact .removed hnd hnew hkept hwys hstate hnext hhead)
    rw [hk]
    exact Function.update_of_ne (fun h => hz _ t hmem h.symm) _ _

end Deletion
