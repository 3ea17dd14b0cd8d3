import SideDumper.BounceTds
import SideDumper.Completions
import SideDumper.StepCases

/-!
# Nothing is written behind a buffer

`Portable_PrepareUrbOnReturn` copies `actual_length` bytes to the caller's buffer
and looks at no other length. `actual_length` comes from the addresses that
the controller leaves in the TDs, so it is at most the length of the buffer as long
as these are in the bounce buffer: as `td_fill` has left them, and as a controller
does that moves bytes of the TD and no others. For all requests but isochronous
ones that is so in every run, in whatever order TDs are worked on, retired, settled,
skipped and removed, whether the controller has moved a part of them or not.
-/

/-! ## Steps -/

/-- **What is behind a buffer**, of a request that is not isochronous. -/
def Ohci.Behind (o : Ohci) (u : UrbPtr) (j : ℕ) : Prop :=
  (o.urb u).pipe.type ≠ .iso ∧ (o.urb u).transferBufferLength ≤ j

/-- What has been counted is in the buffer. -/
def Ohci.Within (o : Ohci) (u : UrbPtr) : Prop :=
  0 ≤ (o.urb u).actualLength ∧ (o.urb u).actualLength ≤ (o.urb u).transferBufferLength

/-- **What is behind the buffers stays**, and the lengths are not more than theirs. -/
structure Ohci.KeepsBehind (o o' : Ohci) : Prop where
  const : ∀ u, (o'.urb u).const = (o.urb u).const
  buffer : ∀ u j, o.Behind u j → (o'.urb u).transferBuffer j = (o.urb u).transferBuffer j
  within : ∀ u, (o.urb u).pipe.type ≠ .iso → o.Within u → o'.Within u

/-- What a step keeps. -/
def Sys.KeepsBuffers (s s' : Sys) : Prop := s.mem.KeepsBehind s'.mem ∧ s'.mem.InBuffers s'.pend

section Keeping

variable {o o' o'' : Ohci} {u : UrbPtr} {s s' : Sys} {pend pend' : List UrbPtr}

theorem Ohci.KeepsBehind.refl (o : Ohci) : o.KeepsBehind o :=
  ⟨fun _ => rfl, fun _ _ _ => rfl, fun _ _ h => h⟩

theorem Ohci.KeepsBehind.trans (h : o.KeepsBehind o') (h' : o'.KeepsBehind o'') :
    o.KeepsBehind o'' := by
  have htype : ∀ u, (o'.urb u).pipe.type = (o.urb u).pipe.type :=
    fun u => congrArg (·.pipe.type) (h.const u)
  have hlen : ∀ u, (o'.urb u).transferBufferLength = (o.urb u).transferBufferLength := fun u =>
    congrArg UrbConst.transferBufferLength (h.const u)
  refine ⟨fun u => (h'.const u).trans (h.const u),
    fun u j hj => (h'.buffer u j ?_).trans (h.buffer u j hj),
    fun u hgen hu => h'.within u (by rw [htype]; exact hgen) (h.within u hgen hu)⟩
  rw [Ohci.Behind, htype, hlen]
  exact hj

/-- What is behind the buffers stays when no length is touched. -/
theorem Ohci.KeepsBehind.andThen (h : o.KeepsBehind o') (h' : Ohci.SameData o.Behind o' o'') :
    o.KeepsBehind o'' := by
  refine ⟨fun u => (h'.const u).trans (h.const u),
    fun u j hj => (h'.buffer u j hj).trans (h.buffer u j hj), fun u hgen hu => ?_⟩
  rw [Ohci.Within, h'.actual, show (o''.urb u).transferBufferLength
    = (o'.urb u).transferBufferLength from
    congrArg UrbConst.transferBufferLength (h'.const u)]
  exact h.within u hgen hu

theorem Ohci.SameData.keepsBehind (h : Ohci.SameData o.Behind o o') : o.KeepsBehind o' :=
  (Ohci.KeepsBehind.refl o).andThen h

theorem Ohci.Only.keepsBehind (h : Ohci.Only u o o') : o.KeepsBehind o' := by
  have hsame : ∀ z, (o'.urb z).const = (o.urb z).const ∧
      (o'.urb z).transferBuffer = (o.urb z).transferBuffer := by
    intro z
    by_cases hz : z = u
    · rw [hz]
      exact ⟨h.const, h.buffer⟩
    · rw [h.other z hz]
      exact ⟨rfl, rfl⟩
  refine ⟨fun z => (hsame z).1, fun z j _ => by rw [(hsame z).2], fun z _ hz => ?_⟩
  rw [Ohci.Within, show (o'.urb z).transferBufferLength = (o.urb z).transferBufferLength from
    congrArg UrbConst.transferBufferLength (hsame z).1]
  by_cases hzu : z = u
  · subst hzu
    obtain hkept | hzero := h.actual
    · rw [hkept]
      exact hz
    · rw [hzero]
      omega
  · rw [h.other z hzu]
    exact hz

/-- **A TD is counted** that `td_submit_urb` has filled for its request. -/
theorem Ohci.InBuffers.counted {t : TdPtr} {p : UrbPriv} {k : ℕ} (hb : o.InBuffers pend)
    (hp : (o.urb (o.td t).urb).hcpriv = some p)
    (hk : k < min (o.urb (o.td t).urb).const.tdCount p.length)
    (hkt : p.td k = t) (hu : (o.td t).urb ∉ pend) (h : dlTransferLength o t = some o') :
    o.KeepsBehind o' ∧ o'.InBuffers pend := by
  obtain ⟨hother, htd, hsame⟩ := dlTransferLength_rest h
  have hself : (o.urb (o.td t).urb).pipe.type ≠ .iso → o'.InBuffer (o.td t).urb p := fun hgen =>
    inBuffer_dlTransferLength (hb _ p hp hu hgen) hp hk hkt h
  refine ⟨⟨fun z => (hsame z).1, fun z j _ => by rw [(hsame z).2], fun z hgen hz => ?_⟩,
    fun z r hr hz hgen => ?_⟩
  · by_cases hzu : z = (o.td t).urb
    · subst hzu
      exact (hself hgen).actual
    · rw [Ohci.Within, hother z hzu]
      exact hz
  · rw [dlTransferLength_hcpriv h] at hr
    by_cases hzu : z = (o.td t).urb
    · subst hzu
      rw [hp] at hr
      cases hr
      exact hself fun heq => hgen ((congrArg (·.pipe.type) (hsame _).1).trans heq)
    · rw [hother z hzu] at hgen
      exact (hb z r hr hz hgen).other (hother z hzu) fun k _ => by rw [htd]

/-- Steps that touch one URB, and no TD of another one. -/
theorem Ohci.InBuffers.only (hb : o.InBuffers pend) (h : Ohci.Only u o o')
    (htd : ∀ z q, z ≠ u → (o.urb z).hcpriv = some q →
      ∀ k < q.length, o'.td (q.td k) = o.td (q.td k))
    (hpend : ∀ z, z ≠ u → z ∉ pend' → z ∉ pend)
    (hu : ∀ p, (o'.urb u).hcpriv = some p → u ∉ pend' → (o'.urb u).pipe.type ≠ .iso →
      o'.InBuffer u p) :
    o'.InBuffers pend' := by
  intro z p hp hz hgen
  by_cases hzu : z = u
  · subst hzu
    exact hu p hp hz hgen
  · have hsame := h.other z hzu
    rw [hsame] at hp hgen
    exact (hb z p hp (hpend z hzu hz) hgen).other hsame fun k hk => by rw [htd z p hzu hp k hk]

/-- Steps that touch no length. -/
theorem Sys.KeepsBuffers.same (hb : s.mem.InBuffers s.pend)
    (h : Ohci.SameData s.mem.Behind s.mem s'.mem)
    (hpend : s'.pend = s.pend) : s.KeepsBuffers s' := by
  refine ⟨h.keepsBehind, ?_⟩
  rw [hpend]
  exact hb.same h

end Keeping

/-- **What a controller writes to a TD** for `hwCBP`: zero when the buffer has been used
up, or else the address of the byte that comes next. -/
def Td.KeepsTo (td : Td) (cbp : ℕ) : Prop :=
  td.hwINFO.iso = true ∨ cbp = 0 ∨ td.hwCBP ≠ 0 ∧ td.hwCBP ≤ cbp ∧ cbp ≤ td.hwBE

/-- **A controller that keeps to the buffers**, with the TDs it works on and with those
it retires. -/
def HcKeeps (s : Sys) : Move → Prop
  | .advance e _ cbp _ | .retire e _ cbp _ _ _ => (s.mem.td (s.mem.ed e).hwHeadP).KeepsTo cbp
  | _ => True

/-- **The steps of a run**: clean ones, of a controller that keeps to the buffers; and an
endpoint for isochronous requests is not used for others. -/
structure BufferClean (s : Sys) (m : Move) : Prop where
  clean : MoveClean s m
  keeps : HcKeeps s m
  type : ∀ a u p, m = .act a → s.Fills a u → (s.mem.urb u).hcpriv = some p →
    (s.mem.urb u).pipe.type ≠ .iso →
    (s.mem.ed p.ed).type ≠ .iso

section Steps

variable {s s' : Sys} {q : TdList → List TdPtr} {fill : UrbPtr → ℕ} {fuel : ℕ} {o : Ohci}
    {u : UrbPtr} {e : EdPtr}
  {t : TdPtr} {ks : List IrqTask} {b : Bool} {m : Move}

/-- **A TD on a list** has been filled in for its request. -/
theorem Sys.TdAcc.slot {i : TdList} {p : UrbPriv} (hc : s.TdAcc q fill) (ht : t ∈ q i)
    (hp : (s.mem.urb (s.mem.td t).urb).hcpriv = some p) :
    ∃ k < min (s.mem.urb (s.mem.td t).urb).const.tdCount p.length, p.td k = t := by
  obtain ⟨x, hx, -, k, hk, hkt⟩ := hc.listed.part _ t ht
  have hxp : x = p.holding := Option.some.inj (hx.symm.trans (ledger_priv hp))
  subst hxp
  have hfull := hc.full _ _ hx
  split at hfull
  · omega
  · refine ⟨k, ?_, ?_⟩
    · rw [hfull] at hk
      exact hk
    · have hlen : k < p.length := by
        rw [hfull] at hk
        exact lt_of_lt_of_le hk (min_le_right _ _)
      exact hkt

/-- `td_submit_urb` is called. -/
theorem Ohci.Calls.keepsBuffers {o₁ : Ohci} {p : UrbPriv} (hb : s.mem.InBuffers s.pend)
    (hc : s.mem.Calls o₁ s'.mem u)
    (hown : o₁.ledger.Owners) (hp : (o₁.urb u).hcpriv = some p)
    (hnew : (o₁.ed p.ed).state ≠ .edNew)
    (htype : (s.mem.urb u).pipe.type ≠ .iso → (s.mem.ed p.ed).type ≠ .iso)
    (hpend : ∀ z, z ≠ u → z ∉ s'.pend → z ∉ s.pend) : s.KeepsBuffers s' := by
  have honly : Ohci.Only u s.mem s'.mem := hc.only.trans (only_tdSubmitUrb hc.submit).1
  refine ⟨honly.keepsBehind, hb.only honly (fun z q hz hq k hk => ?_) hpend
    fun p' hp' _ hgen => ?_⟩
  · exact (hc.other hown hp hnew hz hq).2 k hk
  · have hgen' : (s.mem.urb u).pipe.type ≠ .iso :=
      fun h => hgen ((congrArg (·.pipe.type) honly.const).trans h)
    exact hc.inBuffer hown hp hnew (htype hgen') hgen' hp'

/-- The second phase of `sohci_submit_urb`. -/
theorem Sys.keepsBuffers_second {buf setup : ℕ} (hb : s.mem.InBuffers s.pend)
    (ho : s.mem.ledger.Owners)
    (htype : ∀ p, (s.mem.urb u).hcpriv = some p → (s.mem.urb u).pipe.type ≠ .iso →
      (s.mem.ed p.ed).type ≠ .iso)
    (h : submitSecond fuel s.mem u buf setup = some (o, b)) :
    s.KeepsBuffers { s with mem := o, pend := s.pend.erase u } := by
  have hpend : ∀ z, z ≠ u → z ∉ s.pend.erase u → z ∉ s.pend := fun z hz hn hin =>
    hn ((List.mem_erase_of_ne hz).mpr hin)
  obtain ⟨p, hp, ⟨hnone, htd, honly⟩ | ⟨o₁, hc, hl, hnew⟩⟩ := submitSecond_calls h
  · refine ⟨honly.keepsBehind, hb.only honly (fun _ _ _ _ _ _ => by dsimp only; rw [htd]) hpend
      fun p' hp' => ?_⟩
    rw [show (o.urb u).hcpriv = some p' from hp'] at hnone
    cases hnone
  · obtain ⟨p₁, hp₁, -⟩ := Option.bind_eq_some_iff.mp hc.submit
    have hpe : p₁.ed = p.ed := by
      have hpr := ledger_priv hp₁
      rw [hl] at hpr
      have hpr' : s.mem.ledger.priv u = some p₁.holding := hpr
      rw [ledger_priv hp] at hpr'
      exact congrArg Holding.ed (Option.some.inj hpr').symm
    have hst : o₁.ledger.state p₁.ed = .edOper := by
      rw [hl, hpe]
      exact Function.update_self _ _ _
    refine Ohci.Calls.keepsBuffers hb hc (hl ▸ ho.setState hnew (.inr (.inl rfl))) hp₁ ?_ ?_ hpend
    · intro h
      rw [show o₁.ledger.state p₁.ed = .edNew from h] at hst
      cases hst
    · rw [hpe]
      exact htype p hp

/-- A periodic request is queued again. -/
theorem Sys.keepsBuffers_requeue {k : IrqTask} (hb : s.mem.InBuffers s.pend)
    (ho : s.mem.ledger.Owners)
    (hgood : ∀ h, s.mem.ledger.priv u = some h → s.mem.ledger.Good h.ed)
    (htype : ∀ p, (s.mem.urb u).hcpriv = some p → (s.mem.urb u).pipe.type ≠ .iso →
      (s.mem.ed p.ed).type ≠ .iso)
    (h : requeueUrb s.mem u = some o) : s.KeepsBuffers { s with mem := o, tasks := k :: ks } := by
  obtain ⟨p, hp, ⟨hp', hactual, htd, honly⟩ | ⟨o₁, hc, hl⟩⟩ := requeueUrb_calls h
  · -- it is left as it is, with nothing counted
    refine ⟨honly.keepsBehind, hb.only honly (fun _ _ _ _ _ _ => by dsimp only; rw [htd])
      (fun _ _ hn => hn)
      fun r hr hn hgen => ?_⟩
    rw [show (o.urb u).hcpriv = some r from hr, Option.some.injEq] at hp'
    subst hp'
    have hin := hb u r hp hn fun h => hgen ((congrArg (·.pipe.type) honly.const).trans h)
    refine ⟨?_, fun k hk => ?_⟩
    · dsimp only
      rw [hactual]
      omega
    · have hconst : (o.urb u).const = (s.mem.urb u).const := honly.const
      dsimp only at hk ⊢
      rw [hconst] at hk ⊢
      rw [htd]
      exact hin.td k hk
  · obtain ⟨p₁, hp₁, -⟩ := Option.bind_eq_some_iff.mp hc.submit
    have hpr : s.mem.ledger.priv u = some p₁.holding := hl ▸ ledger_priv hp₁
    have hpe : p₁.ed = p.ed := by
      rw [ledger_priv hp] at hpr
      exact congrArg Holding.ed (Option.some.inj hpr).symm
    refine Ohci.Calls.keepsBuffers hb hc (hl ▸ ho) hp₁ ?_ (hpe ▸ htype p hp) fun _ _ hn => hn
    have hgood' := (hgood _ hpr).1
    rw [← hl] at hgood'
    exact hgood'

/-- **A TD is settled.** -/
theorem Sys.keepsBuffers_done {k : IrqTask} (hb : s.mem.InBuffers s.pend) (hc : s.TdAcc q fill)
    (ht : t ∈ q .rev)
    (h : doneTd s.mem t = some (o, b)) :
    s.KeepsBuffers { s with mem := o, tasks := k :: ks } := by
  obtain ⟨p, -, -, hp, -⟩ := doneTd_outcome h
  obtain ⟨o₁, hlen, hsame⟩ := sameData_doneTd (K := s.mem.Behind) h
  obtain ⟨k', hk, hkt⟩ := hc.slot ht hp
  obtain ⟨hkeeps, hb₁⟩ := hb.counted hp hk hkt (hc.notMem_pend ht) hlen
  -- only what has arrived is copied to the buffer
  have hsame : Ohci.SameData s.mem.Behind o₁ o := by
    refine hsame fun j hj => ?_
    have hconst := hkeeps.const (s.mem.td t).urb
    have hgen : (o₁.urb (s.mem.td t).urb).pipe.type ≠ .iso := fun heq =>
      hj.1 ((congrArg (·.pipe.type) hconst).symm.trans heq)
    have hp₁ := (dlTransferLength_hcpriv hlen (s.mem.td t).urb).trans hp
    have hbound := (hb₁ _ p hp₁ (hc.notMem_pend ht) hgen).actual.2
    have hlt := hj.2
    rw [show (o₁.urb (s.mem.td t).urb).transferBufferLength
      = (s.mem.urb (s.mem.td t).urb).transferBufferLength from
      congrArg UrbConst.transferBufferLength hconst] at hbound
    omega
  exact ⟨hkeeps.andThen hsame, hb₁.same hsame⟩

/-- **A TD that `dl_del_list` comes to.** -/
theorem Sys.keepsBuffers_delTd {tdP tdP' : TdLink} (hb : s.mem.InBuffers s.pend)
    (hc : s.TdAcc q fill)
    (ht : t ∈ q (.queue e)) (h : delTd s.mem e t tdP = some (o, tdP')) :
    s.KeepsBuffers { s with mem := o, tasks := ks } := by
  obtain ⟨p, hp, -⟩ := delTd_outcome h
  obtain ⟨o₁, hlen, hsame⟩ := sameData_delTd (K := s.mem.Behind) h
  obtain ⟨hkeeps, hb₁⟩ : s.mem.KeepsBehind o₁ ∧ o₁.InBuffers s.pend := by
    obtain rfl | hlen := hlen
    · exact ⟨.refl _, hb⟩
    · obtain ⟨k, hk, hkt⟩ := hc.slot ht hp
      exact hb.counted hp hk hkt (hc.notMem_pend ht) hlen
  exact ⟨hkeeps.andThen hsame, hb₁.same hsame⟩

/-- **A pass of an interrupt routine.** -/
theorem Sys.keepsBuffers_pass {k : IrqTask} {k' : Option IrqTask} (hb : s.mem.InBuffers s.pend)
    (hc : s.TdAcc q fill)
    (hi : s.TdInv)
    (htype : ∀ u p, s.Fills .resume u → (s.mem.urb u).hcpriv = some p →
      (s.mem.urb u).pipe.type ≠ .iso →
      (s.mem.ed p.ed).type ≠ .iso)
    (ht : s.tasks = k :: ks) (h : k.Passed fuel s.mem o k') :
    s.KeepsBuffers { s with mem := o, tasks := k'.toList ++ ks } := by
  cases h with
  | reverseEnd | doneEnd | delStart => exact .same hb (.refl _) rfl
  | reverse t rev h0 => exact .same hb (sameData_reverseTd rev) rfl
  | done t o again h0 h => exact Sys.keepsBuffers_done hb hc (hc.mem_rev ht h0) h
  | requeue u e next o h =>
    exact Sys.keepsBuffers_requeue hb hi.owners
      (fun x hx => hi.again u e next x (by rw [ht]; exact List.mem_cons_self) hx)
      (fun p => htype u p (.inr ⟨rfl, e, next, ks, ht⟩)) h
  | endEd e next o h => exact .same hb (sameData_doneEd h) rfl
  | delEnd f => exact .same hb sameData_delEnd rfl
  | delLeave f e tail fa tdP => exact .same hb sameData_delEdEnd rfl
  | delTd f e tail fa t tdP tdP' o h0 h =>
    exact Sys.keepsBuffers_delTd hb hc (hc.mem_queue ht h0) h

/-- The first phase of `sohci_submit_urb`. -/
theorem Sys.keepsBuffers_first {dummy : TdPtr} {tds : ℕ → TdPtr} (hb : s.mem.InBuffers s.pend)
    (h : submitFirst s.mem u dummy tds = (o, b)) :
    s.KeepsBuffers { s with mem := o, pend := if b then u :: s.pend else s.pend } := by
  obtain ⟨honly, htd, hfail⟩ := only_submitFirst h
  refine ⟨honly.keepsBehind, hb.only honly (fun _ _ _ _ _ _ => by dsimp only; rw [htd])
    (fun z _ hn hin => ?_)
    fun p hp hn hgen => ?_⟩
  · dsimp only at hn
    split at hn
    · exact hn (List.mem_cons_of_mem _ hin)
    · exact hn hin
  · dsimp only at hp hn hgen ⊢
    split at hn
    · exact absurd List.mem_cons_self hn
    · obtain hurb | hnone := hfail (Bool.eq_false_iff.mpr ‹_›)
      · rw [hurb] at hp hgen
        exact (hb u p hp hn hgen).other (congrFun hurb u) fun k _ => by rw [htd]
      · rw [hnone] at hp
        cases hp

/-- **The controller writes to a TD** how far it has got with it. -/
theorem Sys.keepsBuffers_write {cbp : ℕ} (hb : s.mem.InBuffers s.pend)
    (hk : (s.mem.td t).KeepsTo cbp)
    (hurb : s'.mem.urb = s.mem.urb) (hpend : s'.pend = s.pend)
    (hother : ∀ x, x ≠ t → s'.mem.td x = s.mem.td x)
    (hself : (s'.mem.td t).data = (cbp, (s.mem.td t).data.2)) : s.KeepsBuffers s' := by
  refine ⟨⟨fun u => by rw [hurb], fun u j _ => by rw [hurb],
    fun u _ hu => by rw [Ohci.Within, hurb]; exact hu⟩, fun u p hp hu hgen => ?_⟩
  rw [hurb] at hp hgen
  rw [hpend] at hu
  have hin := hb u p hp hu hgen
  refine ⟨by rw [hurb]; exact hin.actual, fun k hklt => ?_⟩
  rw [hurb] at hklt ⊢
  have htd := hin.td k hklt
  by_cases hkt : p.td k = t
  · rw [hkt] at htd ⊢
    rw [hself]
    refine ⟨htd.general, htd.index, htd.be, fun hdata hbe hcbp => ?_⟩
    obtain hiso | rfl | ⟨hne, hlow, hhigh⟩ := hk
    · have hgeneral : (s.mem.td t).hwINFO.iso = false := htd.general
      rw [hgeneral] at hiso
      cases hiso
    · exact absurd rfl hcbp
    · obtain ⟨hfrom, -⟩ := htd.cbp hdata hbe hne
      exact ⟨le_trans hfrom hlow, hhigh⟩
  · rw [hother _ hkt]
    exact htd

/-- **Every step keeps to the buffers.** -/
theorem Sys.keepsBuffers_move (hb : s.mem.InBuffers s.pend) (hc : s.TdAcc q fill) (hi : s.TdInv)
    (hok : BufferClean s m) (hs : s.move fuel m = some s') : s.KeepsBuffers s' := by
  cases Sys.moved hs with
  | first u dummy tds o more h => exact Sys.keepsBuffers_first hb h
  | second u buf setup o more hu h =>
    exact Sys.keepsBuffers_second hb hi.owners
      (fun p => hok.type _ u p rfl (.inl ⟨buf, setup, rfl⟩)) h
  | unlink u waiting => exact .same hb sameData_unlinkUrb rfl
  | unlinkFinish u => exact .same hb sameData_unlinkFinish rfl
  | freeEd e o h0 h => exact .same hb (sameData_freeEd h) rfl
  | doneIrq | frame | hcData | writeBack => exact .same hb (.of_eq rfl rfl) rfl
  | delIrq f => exact .same hb (.refl _) rfl
  | resume k ks o k' ht h =>
    exact Sys.keepsBuffers_pass hb hc hi (fun u p => hok.type _ u p rfl) ht h
  | advance e cc cbp psw hne =>
    refine Sys.keepsBuffers_write hb hok.keeps rfl rfl (fun t ht => ?_) ?_
    · dsimp only
      rw [Ohci.modTd_td_of_ne _ _ _ _ ht]
    · dsimp only
      rw [Ohci.modTd_td_self]
      rfl
  | retire e cc cbp psw halted carry hne =>
    refine Sys.keepsBuffers_write hb hok.keeps rfl rfl (fun t ht => ?_) ?_
    · dsimp only
      rw [Ohci.modTd_td_of_ne _ _ _ _ ht, Ohci.modEd_td]
    · dsimp only
      rw [Ohci.modTd_td_self]
      rfl

end Steps

/-! ## Runs -/

section Runs

variable {o : Ohci} {s : Sys}

/-- **No request leaves its buffer**, in any run of clean steps: `actual_length` is at most
the length of the buffer, and whatever is returned, the bytes behind the buffer stay
as they are. -/
theorem buffers_kept (ho : o.Idle) (hn : o.NoTds) (h0 : ∀ u, (o.urb u).actualLength = 0)
    (h : Sys.Moves BufferClean ⟨o, [], [], []⟩ s) : ∀ u, (o.urb u).pipe.type ≠ .iso →
      (0 ≤ (s.mem.urb u).actualLength ∧
        (s.mem.urb u).actualLength ≤ (o.urb u).transferBufferLength) ∧
        ∀ j, (o.urb u).transferBufferLength ≤ j → (s.mem.urb u).transferBuffer j
          = (o.urb u).transferBuffer j := by
  have hinv : (s.Base ∧ s.TdInv ∧ ∃ q fill, s.TdAcc q fill) ∧ o.KeepsBehind s.mem ∧
      s.mem.InBuffers s.pend := by
    induction h with
    | start =>
      refine ⟨⟨ho.base, ho.tdInv hn.alloc, _, _, ho.tdAcc hn⟩, .refl _, fun u p hp => ?_⟩
      rw [ho.hcpriv u] at hp
      cases hp
    | step fuel m _ hok hs ih =>
      obtain ⟨⟨hbase, hi, q, fill, hc⟩, hkeeps, hb⟩ := ih
      obtain ⟨hbase', hi', q', fill', hc', -⟩ := hc.move hbase hi hok.clean hs
      obtain ⟨hkeeps', hb'⟩ := Sys.keepsBuffers_move hb hc hi hok hs
      exact ⟨⟨hbase', hi', q', fill', hc'⟩, hkeeps.trans hkeeps', hb'⟩
  obtain ⟨-, hkeeps, -⟩ := hinv
  refine fun u hgen => ⟨?_, fun j hj => hkeeps.buffer u j ⟨hgen, hj⟩⟩
  have hwithin := hkeeps.within u hgen ⟨(h0 u).ge, by rw [h0 u]; omega⟩
  rw [Ohci.Within, show (s.mem.urb u).transferBufferLength = (o.urb u).transferBufferLength from
    congrArg UrbConst.transferBufferLength (hkeeps.const u)] at hwithin
  exact hwithin

end Runs

/-! ## A short read -/

/-- A driver with requests for three bytes from a bulk endpoint, whose ED is at the address 12. -/
def bulkReads : Ohci :=
  { (default : Ohci) with
    usbDev := fun _ => { (default : UsbDev) with edBase := 10 }
    urb := fun _ => { (default : Urb) with
      pipe := ⟨.bulk, 1, 1, false, false⟩, dev := 1, complete := true, asyncUnlink := true
      transferBufferLength := 3, transferBuffer := fun _ => 9 } }

theorem bulkReads_idle : bulkReads.Idle :=
  ⟨fun _ => rfl, rfl, fun l => by cases l <;> rfl, fun l => by cases l <;> rfl, fun _ => rfl,
    fun _ => rfl, fun _ => rfl⟩

theorem bulkReads_noTds : bulkReads.NoTds := ⟨fun _ => rfl, fun _ => rfl, rfl, rfl⟩

/-- Steps that fill no TD. -/
theorem BufferClean.of_clean {s : Sys} {a : Act} (hok : MoveClean s (.act a))
    (hno : ∀ u, ¬ s.Fills a u) :
    BufferClean s (.act a) := by
  refine ⟨hok, trivial, ?_⟩
  rintro _ u p ⟨⟩ hu
  exact absurd hu (hno u)

/-- A request for three bytes of which one has arrived. -/
def readOne : List Move :=
  [.act (.submitFirst 1 100 (fun i => 101 + i)), .act (.submitSecond 1 4096 0),
    .act (.hcData 4096 5), .advance 12 0 4097 0]

/-- What `readOne` leads to. -/
theorem readOne_clean : ∃ s, Sys.moves 1 ⟨bulkReads, [], [], []⟩ readOne = some s ∧
    Sys.Moves BufferClean ⟨bulkReads, [], [], []⟩ s ∧
    (s.tasks, unlinksEd s.mem 1, (s.mem.ed 12).state) = ([], some 12, .edOper) := by
  obtain ⟨s₁, h₁, hobs⟩ := Option.map_eq_some_iff.mp (show (Sys.moves 1 ⟨bulkReads, [], [], []⟩
    [.act (.submitFirst 1 100 (fun i => 101 + i))]).map (fun s =>
      ((s.mem.urb 1).hcpriv.map UrbPriv.ed, (s.mem.ed 12).type))
        = some (some 12, .bulk) by decide +kernel)
  obtain ⟨hed, htype⟩ := Prod.mk.inj hobs
  have hrun₁ : Sys.Moves BufferClean ⟨bulkReads, [], [], []⟩ s₁ := by
    refine Sys.Moves.stretch (m := .act (.submitFirst 1 100 (fun i => 101 + i))) .start (.of_clean
      ⟨⟨⟨fun _ => rfl, fun i hi _ =>
        ⟨rfl, ?_, fun j hj hji => ?_⟩⟩, by decide⟩, by simp, by simp, by simp⟩
      (by simp [Sys.Fills])) (by simp) h₁
    · change 101 + i ≠ 100
      omega
    · have hji' : 101 + j = 101 + i := hji
      omega
  obtain ⟨s₂, h₂, hobs, hs₂⟩ :=
    Sys.moves_next [.act (.submitSecond 1 4096 0), .act (.hcData 4096 5)] h₁
    (f := fun s => (s.tasks, (s.mem.ed 12).hwHeadP, (s.mem.td 100).hwCBP, (s.mem.td 100).hwBE))
    (v := ([], 100, 4096, 4098)) (by decide +kernel)
  have hrun₂ : Sys.Moves BufferClean ⟨bulkReads, [], [], []⟩ s₂ := by
    refine hrun₁.stretch (m := .act (.submitSecond 1 4096 0))
      ⟨⟨trivial, by simp, by simp, by simp⟩, trivial, ?_⟩ ?_ h₂
    · rintro _ u p ⟨⟩ (⟨_, _, ⟨⟩⟩ | ⟨⟨⟩, _⟩) hp -
      rw [hp, Option.map_some, Option.some.injEq] at hed
      rw [hed, htype]
      decide
    · intro m hm s
      obtain rfl := List.mem_singleton.mp hm
      exact .of_clean (by simp [MoveClean, MoveDomain]) (by simp [Sys.Fills])
  simp only [Prod.mk.injEq] at hobs
  obtain ⟨ht₂, hhead, hcbp, hbe⟩ := hobs
  obtain ⟨s₃, h₃, hobs, hs₃⟩ := Sys.moves_next [.advance 12 0 4097 0] hs₂ (f := fun s =>
    (s.tasks, unlinksEd s.mem 1, (s.mem.ed 12).state)) (v :=
      ([], some 12, .edOper)) (by decide +kernel)
  exact ⟨s₃, hs₃, hrun₂.stretch (m := .advance 12 0 4097 0)
    ⟨⟨by simp [MoveDomain, ht₂], by simp, by simp, by simp⟩,
    .inr (.inr (by rw [hhead, hcbp, hbe]; decide)), by simp⟩ (by simp) h₃, hobs⟩

/-- A second byte arrives and no third one, and the request is returned. -/
theorem readOne_returned :
    ∃ s, Sys.Moves BufferClean ⟨bulkReads, [], [], []⟩ s ∧ (s.mem.urb 1).actualLength = 2 ∧
    (List.range 5).map (s.mem.urb 1).transferBuffer = [5, 6, 9, 9, 9] := by
  obtain ⟨s₁, hs₁, hrun₁, -⟩ := readOne_clean
  obtain ⟨s₂, h₂, hobs, hs₂⟩ := Sys.moves_next [.act (.hcData 4097 6)] hs₁ (f := fun s =>
    (s.tasks, (s.mem.ed 12).hwHeadP, (s.mem.td 100).hwCBP, (s.mem.td 100).hwBE)) (v :=
      ([], 100, 4097, 4098))
    (by decide +kernel)
  have hrun₂ := hrun₁.stretch (m := .act (.hcData 4097 6))
    (.of_clean (by simp [MoveClean, MoveDomain]) (by simp [Sys.Fills])) (by simp) h₂
  simp only [Prod.mk.injEq] at hobs
  obtain ⟨ht₂, hhead, hcbp, hbe⟩ := hobs
  obtain ⟨s₃, h₃, ht₃, hs₃⟩ :=
    Sys.moves_next [.retire 12 0 4098 0 false false, .writeBack] hs₂ (f := Sys.tasks)
    (v := []) (by decide +kernel)
  have hrun₃ := hrun₂.stretch (m := .retire 12 0 4098 0 false false)
    ⟨⟨by simp [MoveDomain, ht₂], by simp, by simp, by simp⟩,
      .inr (.inr (by rw [hhead, hcbp, hbe]; decide)), by simp⟩
    (fun m hm s => by
      obtain rfl := List.mem_singleton.mp hm
      exact ⟨by simp [MoveClean, MoveDomain], trivial, by simp⟩) h₃
  obtain ⟨s₄, h₄, hobs, hs₄⟩ :=
    Sys.moves_next [.act .doneIrq] hs₃ (f := fun s => (s.tasks, (s.mem.td 100).hwINFO.cc))
    (v := ([.reverse 100 0], 0)) (by decide +kernel)
  obtain ⟨ht₄, hcc⟩ := Prod.mk.inj hobs
  have hrun₄ := hrun₃.stretch (m := .act .doneIrq) (.of_clean ⟨ht₃, by simp, by simp, by simp⟩
    (by simp [Sys.Fills]))
    (by simp) h₄
  obtain ⟨s₅, h₅, ht₅, hs₅⟩ :=
    Sys.moves_next [.act .resume] hs₄ (f := Sys.tasks) (v := [.reverse 0 100])
    (by decide +kernel)
  have hrun₅ := hrun₄.stretch (m := .act .resume) (.of_clean ⟨trivial, by simp, by simp, (by
    rintro t rev ks - ht -
    rw [ht₄] at ht
    cases ht
    exact fun hne => absurd hcc hne)⟩ (by simp [Sys.Fills, ht₄])) (by simp) h₅
  obtain ⟨s₆, h₆, ht₆, hs₆⟩ :=
    Sys.moves_next [.act .resume] hs₅ (f := Sys.tasks) (v := [.done 100])
    (by decide +kernel)
  have hrun₆ := hrun₅.stretch (m := .act .resume) (.of_clean ⟨trivial, by simp, by simp, (by
    rintro t rev ks - ht h0
    rw [ht₅] at ht
    cases ht
    exact absurd rfl h0)⟩ (by simp [Sys.Fills, ht₅])) (by simp) h₆
  obtain ⟨s, h, hobs, -⟩ :=
    Sys.moves_next [.act .resume] hs₆ (f := fun s => ((s.mem.urb 1).actualLength,
    (List.range 5).map (s.mem.urb 1).transferBuffer)) (v := (2, [5, 6, 9, 9, 9]))
      (by decide +kernel)
  exact ⟨s, hrun₆.stretch (m := .act .resume)
    (.of_clean ⟨trivial, by simp, by simp, by simp [ht₆]⟩
    (by simp [Sys.Fills, ht₆])) (by simp) h, Prod.mk.inj hobs⟩

/-- The request is unlinked, and `dl_del_list` counts the byte when it removes the TD. -/
theorem readOne_removed :
    ∃ s, Sys.Moves BufferClean ⟨bulkReads, [], [], []⟩ s ∧ (s.mem.urb 1).actualLength = 1 := by
  obtain ⟨s₁, hs₁, hrun₁, hobs⟩ := readOne_clean
  simp only [Prod.mk.injEq] at hobs
  obtain ⟨ht₁, hun, hstate⟩ := hobs
  obtain ⟨s₂, h₂, ht₂, hs₂⟩ :=
    Sys.moves_next [.act (.unlink 1), .act (.frame 1)] hs₁ (f := Sys.tasks) (v := [])
    (by decide +kernel)
  have hunlink : MoveClean s₁ (.act (.unlink 1)) := by
    refine ⟨fun e next hm => ?_, ?_, ?_, by simp⟩
    · rw [ht₁] at hm
      cases hm
    · rintro _ e ⟨⟩ he
      rw [hun] at he
      cases he
      rw [hstate]
      decide
    · rintro _ p ⟨⟩ hno
      rw [hun] at hno
      cases hno
  have hrun₂ := hrun₁.stretch (m := .act (.unlink 1)) (.of_clean hunlink (by simp [Sys.Fills]))
    (fun m hm s => by
    obtain rfl := List.mem_singleton.mp hm
    exact .of_clean (by simp [MoveClean, MoveDomain]) (by simp [Sys.Fills])) h₂
  obtain ⟨s₃, h₃, ht₃, hs₃⟩ :=
    Sys.moves_next [.act (.delIrq false)] hs₂ (f := Sys.tasks) (v := [.del false 12])
    (by decide +kernel)
  have hrun₃ := hrun₂.stretch (m := .act (.delIrq false))
    (.of_clean ⟨by simp [MoveDomain, ht₂], by simp, by simp, by simp⟩ (by simp [Sys.Fills]))
      (by simp) h₃
  obtain ⟨s₄, h₄, ht₄, hs₄⟩ := Sys.moves_next [.act .resume] hs₃ (f := Sys.tasks)
    (v := [.delQueue false 12 101 1 100 (.head 12)]) (by decide +kernel)
  have hrun₄ :=
    hrun₃.stretch (m := .act .resume) (.of_clean ⟨trivial, by simp, by simp, by simp [ht₃]⟩
    (by simp [Sys.Fills, ht₃])) (by simp) h₄
  obtain ⟨s, h, hlen, -⟩ :=
    Sys.moves_next [.act .resume] hs₄ (f := fun s => (s.mem.urb 1).actualLength) (v := 1)
    (by decide +kernel)
  exact ⟨s, hrun₄.stretch (m := .act .resume)
    (.of_clean ⟨trivial, by simp, by simp, by simp [ht₄]⟩
    (by simp [Sys.Fills, ht₄])) (by simp) h, hlen⟩

/-- Of the three bytes one has arrived when the request is unlinked, or two when it is
returned. -/
theorem buffers_kept_short : (∃ s : Sys, (s.mem.urb 1).actualLength = 1 ∧
      (s.mem.urb 1).actualLength ≤ 3 ∧ ∀ j, 3 ≤ j → (s.mem.urb 1).transferBuffer j = 9) ∧
    ∃ s : Sys, (s.mem.urb 1).actualLength = 2 ∧ (List.range 5).map (s.mem.urb 1).transferBuffer
      = [5, 6, 9, 9, 9] ∧
      (s.mem.urb 1).actualLength ≤ 3 ∧ ∀ j, 3 ≤ j → (s.mem.urb 1).transferBuffer j = 9 := by
  constructor
  · obtain ⟨s, hrun, hlen⟩ := readOne_removed
    obtain ⟨⟨-, hle⟩, hrest⟩ :=
      buffers_kept bulkReads_idle bulkReads_noTds (fun _ => rfl) hrun 1 (by decide)
    exact ⟨s, hlen, hle, hrest⟩
  · obtain ⟨s, hrun, hlen, hbuf⟩ := readOne_returned
    obtain ⟨⟨-, hle⟩, hrest⟩ :=
      buffers_kept bulkReads_idle bulkReads_noTds (fun _ => rfl) hrun 1 (by decide)
    exact ⟨s, hlen, hbuf, hle, hrest⟩
