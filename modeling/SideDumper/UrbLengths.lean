import SideDumper.SubmitFailures
import SideDumper.TdFills

/-!
# The lengths of URBs

`actual_length` is set to zero when a request is queued, and counted up by
`dl_transfer_length`. Nothing else writes it, nothing but `sohci_return_urb` writes
to the caller's buffer, and of the TDs only `td_fill` writes what
`dl_transfer_length` reads.
-/

/-- What `dl_transfer_length` reads of a general TD. -/
def Td.data (td : Td) : ℕ × ℕ × ℕ × Bool := (td.hwCBP, td.hwBE, td.index, td.hwINFO.iso)

/-- What the driver does not change of a private part that it keeps. -/
def UrbPriv.layout (p : UrbPriv) : EdPtr × ℕ × ℕ × (ℕ → TdPtr) :=
  (p.ed, p.length, p.transferBuffer, p.td)

/-- **The lengths and the TDs stay**: private parts go and do not come, and of the
buffers what is to be kept is. -/
structure Ohci.SameData (K : UrbPtr → ℕ → Prop) (o o' : Ohci) : Prop where
  td : ∀ t, (o'.td t).data = (o.td t).data
  const : ∀ u, (o'.urb u).const = (o.urb u).const
  actual : ∀ u, (o'.urb u).actualLength = (o.urb u).actualLength
  priv : ∀ u p', (o'.urb u).hcpriv = some p' → ∃ p, (o.urb u).hcpriv = some p ∧
    p'.layout = p.layout
  buffer : ∀ u j, K u j → (o'.urb u).transferBuffer j = (o.urb u).transferBuffer j

/-- A change of a URB that leaves the lengths. -/
structure SameUrb (K : ℕ → Prop) (r r' : Urb) : Prop where
  const : r'.const = r.const
  actual : r'.actualLength = r.actualLength
  priv : ∀ p', r'.hcpriv = some p' → ∃ p, r.hcpriv = some p ∧ p'.layout = p.layout
  buffer : ∀ j, K j → r'.transferBuffer j = r.transferBuffer j

theorem SameUrb.refl (K : ℕ → Prop) (r : Urb) : SameUrb K r r :=
  ⟨rfl, rfl, fun p hp => ⟨p, hp, rfl⟩, fun _ _ => rfl⟩

namespace Ohci.SameData

variable {K : UrbPtr → ℕ → Prop} {o o' o'' : Ohci} {e : EdPtr} {t : TdPtr} {u : UrbPtr} {fuel : ℕ}

theorem of_urb (htd : o'.td = o.td) (hurb : ∀ u, SameUrb (K u) (o.urb u) (o'.urb u)) :
    SameData K o o' where
  td := fun t => by rw [htd]
  const := fun u => (hurb u).const
  actual := fun u => (hurb u).actual
  priv := fun u => (hurb u).priv
  buffer := fun u => (hurb u).buffer

theorem of_eq (htd : o'.td = o.td) (hurb : o'.urb = o.urb) : SameData K o o' :=
  of_urb htd fun u => by
    rw [hurb]
    exact .refl _ _

theorem refl (o : Ohci) : SameData K o o := of_eq rfl rfl

theorem trans (h : SameData K o o') (h' : SameData K o' o'') : SameData K o o'' where
  td := fun t => (h'.td t).trans (h.td t)
  const := fun u => (h'.const u).trans (h.const u)
  actual := fun u => (h'.actual u).trans (h.actual u)
  priv := fun u p hp => by
    obtain ⟨p', hp', hl'⟩ := h'.priv u p hp
    obtain ⟨p'', hp'', hl''⟩ := h.priv u p' hp'
    exact ⟨p'', hp'', hl'.trans hl''⟩
  buffer := fun u j hj => (h'.buffer u j hj).trans (h.buffer u j hj)

/-- Behind a step that touches no TD and no URB. -/
theorem after (h : SameData K o' o'') (htd : o'.td = o.td) (hurb : o'.urb = o.urb) :
    SameData K o o'' :=
  (of_eq htd hurb).trans h

theorem of_queues (h : o'.queues = o.queues) : SameData K o o' :=
  of_eq (congrArg Queues.td h) (congrArg Queues.urb h)

theorem modUrb {f : Urb → Urb} (hf : SameUrb (K u) (o.urb u) (f (o.urb u))) :
    SameData K o (o.modUrb u f) :=
  of_urb rfl fun z => by
    rw [Ohci.modUrb_urb]
    split
    · rw [‹z = u›]
      exact hf
    · exact .refl _ _

theorem modPriv {f : UrbPriv → UrbPriv} (hf : ∀ p, (f p).layout = p.layout) :
    SameData K o (o.modPriv u f) :=
  modUrb ⟨rfl, rfl, fun p' hp' => by
    obtain ⟨p, hp, rfl⟩ := Option.map_eq_some_iff.mp hp'
    exact ⟨p, hp, hf p⟩, fun _ _ => rfl⟩

theorem modTd {f : Td → Td} (hf : (f (o.td t)).data = (o.td t).data) :
    SameData K o (o.modTd t f) where
  td := fun x => by
    rw [Ohci.modTd_td]
    split
    · rw [‹x = t›, hf]
    · rfl
  const := fun _ => rfl
  actual := fun _ => rfl
  priv := fun _ p hp => ⟨p, hp, rfl⟩
  buffer := fun _ _ _ => rfl

theorem status (s : Status) : SameData K o (o.modUrb u (fun r => { r with status := s })) :=
  modUrb ⟨rfl, rfl, fun p hp => ⟨p, hp, rfl⟩, fun _ _ => rfl⟩

end Ohci.SameData

section Functions

variable {K : UrbPtr → ℕ → Prop} {o o' : Ohci} {e : EdPtr} {t : TdPtr} {u : UrbPtr}
    {p : UrbPriv} {fuel : ℕ}

theorem sameData_urbRmPriv : Ohci.SameData K o (urbRmPriv o u) := by
  refine .of_urb (urbRmPriv_td o u) fun z => ?_
  rw [urbRmPriv_urb, Function.update_apply]
  split
  · rw [‹z = u›]
    exact ⟨rfl, rfl, (by rintro _ ⟨⟩), fun _ _ => rfl⟩
  · exact .refl _ _

theorem sameData_rmDec : Ohci.SameData K o (decDevUse (urbRmPriv o u) u) :=
  sameData_urbRmPriv.trans (.of_eq rfl rfl)

theorem sameData_decRm : Ohci.SameData K o (urbRmPriv (decDevUse o u) u) :=
  sameData_urbRmPriv.after rfl rfl

theorem sameData_prepareUrbOnReturn (hk : ∀ j, K u j → (o.urb u).actualLength ≤ j) :
    Ohci.SameData K o (prepareUrbOnReturn o u p) := by
  unfold prepareUrbOnReturn
  dsimp only
  split
  · exact .modUrb ⟨rfl, rfl, fun q hq => ⟨q, hq, rfl⟩, fun j hj => if_neg (not_lt.mpr (hk j hj))⟩
  · exact .refl _

/-- `sohci_return_urb` writes what has arrived. -/
theorem sameData_returnUrb (hk : ∀ j, K u j → (o.urb u).actualLength ≤ j) :
    Ohci.SameData K o (returnUrb o u).1 := by
  unfold returnUrb
  split
  · exact sameData_rmDec
  split
  · exact .refl _
  rename_i p hp
  dsimp only
  split
  · exact (sameData_prepareUrbOnReturn hk).trans (.of_eq rfl rfl)
  · have hlog : Ohci.SameData K o ((prepareUrbOnReturn o u p).log (.returnUrb u
        ((prepareUrbOnReturn o u p).urb u).status
          ((prepareUrbOnReturn o u p).urb u).actualLength)) :=
      (sameData_prepareUrbOnReturn hk).trans (.of_eq rfl rfl)
    exact (hlog.trans sameData_rmDec).trans (.of_eq rfl rfl)

theorem sameData_finishUrb {st : EdState} {cc : ℕ} {b : Bool}
    (hk : ∀ j, K u j → (o.urb u).actualLength ≤ j)
    (h : finishUrb o u p st cc = (o', b)) : Ohci.SameData K o o' := by
  unfold finishUrb at h
  split at h
  · have hreturn :
        Ohci.SameData K o (returnUrb (o.modUrb u (fun r => { r with status := ccToError cc }))
          u).1 := by
      refine (Ohci.SameData.status _).trans (sameData_returnUrb fun j hj => ?_)
      rw [Ohci.modUrb_urb_self]
      exact hk j hj
    rw [h] at hreturn
    exact hreturn
  · cases h
    exact sameData_urbRmPriv

theorem sameData_countTd : Ohci.SameData K o (countTd o u) := .modPriv fun _ => rfl

theorem sameData_haltOnStall (cc : ℕ) : Ohci.SameData K o (haltOnStall o u cc) := by
  unfold haltOnStall
  dsimp only
  split
  · exact .of_eq rfl rfl
  · exact .refl _

theorem sameData_reverseTd (rev : TdPtr) : Ohci.SameData K o (reverseTd o t rev) := by
  have hskip : Ohci.SameData K o (skipRest o t) := by
    unfold skipRest
    dsimp only
    split
    · exact .of_eq rfl rfl
    split
    · refine Ohci.SameData.after (.modPriv ?_) rfl rfl
      intro q
      rfl
    · exact .of_eq rfl rfl
  unfold reverseTd
  dsimp only
  split
  · exact hskip.trans (.modTd rfl)
  · exact .modTd rfl

theorem sameData_setTdLink (tdP : TdLink) (v : TdPtr) :
    Ohci.SameData K o (o.setTdLink tdP v) := by
  cases tdP with
  | head e => exact .of_eq rfl rfl
  | next x =>
    show Ohci.SameData K o (o.modTd x (fun r => { r with hwNextTD := v }))
    exact .modTd rfl

theorem sameData_reportDel : Ohci.SameData K o (reportDel o u) := by
  unfold reportDel
  split
  · have hdec : Ohci.SameData K o (decDevUse o u) := .of_eq rfl rfl
    exact (hdec.trans (.status .econnreset)).trans (.of_eq rfl rfl)
  · exact .of_eq rfl rfl

theorem sameData_delEdEnd {tail : TdPtr} {fa : ℕ} : Ohci.SameData K o (delEdEnd o e tail fa) := by
  unfold delEdEnd
  dsimp only
  split
  · split <;> exact .of_eq rfl rfl
  · exact .of_eq rfl rfl

theorem sameData_delEnd {frame : Bool} : Ohci.SameData K o (delEnd o frame) := by
  unfold delEnd
  dsimp only
  split <;> exact .of_eq rfl rfl

theorem sameData_epRmEd : Ohci.SameData K o (epRmEd o e) := by
  unfold epRmEd
  split
  · exact .refl _
  dsimp only
  split <;> exact .of_eq rfl rfl

theorem sameData_unlinkPending : Ohci.SameData K o (unlinkPending o u p) := by
  have hdel : Ohci.SameData K o (o.modPriv u (fun p => { p with urbDel := true })) := by
    refine .modPriv ?_
    intro q
    rfl
  have hmark : Ohci.SameData K o
      ((epRmEd (o.modPriv u (fun p => { p with urbDel := true })) p.ed).modEd p.ed
        (fun r => { r with state := { r.state with urbDel := true } })) :=
    hdel.trans (sameData_epRmEd.trans (.of_eq rfl rfl))
  unfold unlinkPending
  dsimp only
  split
  · exact hmark.trans (.status _)
  · exact hmark

theorem sameData_unlinkNow : Ohci.SameData K o (unlinkNow o u) := by
  unfold unlinkNow
  dsimp only
  split
  · exact sameData_decRm.trans ((Ohci.SameData.status _).after rfl rfl)
  · exact sameData_decRm.trans (.status _)

theorem sameData_unlinkUrb : Ohci.SameData K o (unlinkUrb o u).1 := by
  unfold unlinkUrb
  split
  · exact .refl _
  split
  · exact .refl _
  split
  · exact sameData_unlinkPending
  · exact sameData_unlinkNow

theorem sameData_unlinkFinish : Ohci.SameData K o (unlinkFinish o u) :=
  (Ohci.SameData.status _).trans (.of_eq rfl rfl)

/-- Behind `dl_transfer_length`, `dl_done_list` writes what has arrived. -/
theorem sameData_doneTd {b : Bool} (h : doneTd o t = some (o', b)) :
    ∃ o₁, dlTransferLength o t = some o₁ ∧
    ((∀ j, K (o.td t).urb j → (o₁.urb (o.td t).urb).actualLength ≤ j) →
      Ohci.SameData K o₁ o') := by
  obtain ⟨p, o₁, o₂, -, hlen, -, rfl, -, hend⟩ := doneTd_outcome h
  refine ⟨o₁, hlen, fun hk => ?_⟩
  have hcount : Ohci.SameData K o₁ (countTd (haltOnStall o₁ (o.td t).urb (o.td t).hwINFO.cc)
      (o.td t).urb) :=
    (sameData_haltOnStall _).trans sameData_countTd
  obtain ⟨-, -, rfl⟩ | ⟨-, cc, hfin⟩ := hend
  · exact hcount
  · refine hcount.trans (sameData_finishUrb (fun j hj => ?_) hfin)
    rw [hcount.actual]
    exact hk j hj

theorem sameData_delTd {tdP tdP' : TdLink} (h : delTd o e t tdP = some (o', tdP')) :
    ∃ o₁, (o₁ = o ∨ dlTransferLength o t = some o₁) ∧ Ohci.SameData K o₁ o' := by
  obtain ⟨p, -, ⟨-, rfl, -⟩ | ⟨-, -, o₁, o₂, hlen, -, rfl, rfl⟩⟩ := delTd_outcome h
  · exact ⟨o', .inl rfl, .refl _⟩
  have hcount : Ohci.SameData K o₁ (countTd (o₁.setTdLink tdP (o₁.nextTD t)) (o.td t).urb) :=
    (sameData_setTdLink _ _).trans sameData_countTd
  refine ⟨o₁, hlen, ?_⟩
  split
  · exact hcount.trans (sameData_urbRmPriv.trans sameData_reportDel)
  · exact hcount.trans sameData_reportDel

theorem sameData_freeEd (h : freeEd fuel o e = some o') : Ohci.SameData K o o' := by
  unfold freeEd at h
  split at h
  · cases h
    exact .refl _
  dsimp only at h
  split at h
  · obtain ⟨o₁, h₁, h⟩ := Option.bind_eq_some_iff.mp h
    cases h
    exact (Ohci.SameData.of_queues (queues_epUnlink h₁)).trans
      (sameData_epRmEd.trans (.of_eq rfl rfl))
  · cases h
    exact sameData_epRmEd.trans (.of_eq rfl rfl)

theorem sameData_doneEd (h : doneEd fuel o e = some o') : Ohci.SameData K o o' := by
  unfold doneEd at h
  split at h
  · exact .of_queues (queues_epUnlink h)
  · cases h
    exact .refl _

end Functions

/-- **Only one URB changes**, of that neither what is constant nor the buffer, and its
length is kept or set to zero. -/
structure Ohci.Only (u : UrbPtr) (o o' : Ohci) : Prop where
  other : ∀ z, z ≠ u → o'.urb z = o.urb z
  const : (o'.urb u).const = (o.urb u).const
  buffer : (o'.urb u).transferBuffer = (o.urb u).transferBuffer
  actual : (o'.urb u).actualLength = (o.urb u).actualLength ∨ (o'.urb u).actualLength = 0

section Only

variable {o o' o'' : Ohci} {u : UrbPtr}

theorem Ohci.Only.of_eq (h : o'.urb = o.urb) : Ohci.Only u o o' :=
  ⟨fun z _ => by rw [h], by rw [h], by rw [h], .inl (by rw [h])⟩

theorem Ohci.Only.trans (h : Ohci.Only u o o') (h' : Ohci.Only u o' o'') : Ohci.Only u o o'' := by
  refine ⟨fun z hz => (h'.other z hz).trans (h.other z hz), h'.const.trans h.const,
    h'.buffer.trans h.buffer, ?_⟩
  obtain hkept | hzero := h'.actual
  · rw [hkept]
    exact h.actual
  · exact .inr hzero

theorem Ohci.Only.modUrb {f : Urb → Urb} (hc : ∀ r, (f r).const = r.const)
    (hb : ∀ r, (f r).transferBuffer = r.transferBuffer)
    (ha : ∀ r, (f r).actualLength = r.actualLength ∨ (f r).actualLength = 0) :
    Ohci.Only u o (o.modUrb u f) :=
  ⟨fun z hz => by rw [Ohci.modUrb_urb, if_neg hz], by rw [Ohci.modUrb_urb_self, hc],
    by rw [Ohci.modUrb_urb_self, hb], by rw [Ohci.modUrb_urb_self]; exact ha _⟩

theorem Ohci.Only.modPriv (f : UrbPriv → UrbPriv) : Ohci.Only u o (o.modPriv u f) :=
  .modUrb (fun _ => rfl) (fun _ => rfl) fun _ => .inl rfl

/-- The private part is freed. -/
theorem Ohci.Only.urbRmPriv : Ohci.Only u o (urbRmPriv o u) := by
  refine ⟨fun z hz => ?_, ?_, ?_, .inl ?_⟩
  · rw [urbRmPriv_urb, Function.update_of_ne hz]
  · rw [urbRmPriv_urb_self]
    rfl
  · rw [urbRmPriv_urb_self]
  · rw [urbRmPriv_urb_self]

/-- What the first phase of `sohci_submit_urb` touches. -/
theorem only_submitFirst {dummy : TdPtr} {tds : ℕ → TdPtr} {b : Bool}
    (h : submitFirst o u dummy tds = (o', b)) :
    Ohci.Only u o o' ∧ o'.td = o.td ∧ (b = false → o'.urb = o.urb ∨
      (o'.urb u).hcpriv = none) := by
  obtain ⟨rfl, rfl, -⟩ | ⟨-, hnone, ⟨rfl, -, rfl⟩ | ⟨-, r, o₁, hep, hcases⟩⟩ :=
    submitFirst_outcome h
  · exact ⟨.of_eq rfl, rfl, fun _ => .inl rfl⟩
  · exact ⟨.of_eq rfl, rfl, fun _ => .inl rfl⟩
  obtain ⟨hurb, htd, -⟩ := epAddEd_leaves hep
  have hstart : Ohci.Only u o o₁ := .of_eq hurb
  obtain ⟨-, rfl, rfl⟩ | ⟨e, o₂, -, ho₂, hend⟩ := hcases
  · exact ⟨hstart.trans (.of_eq rfl), htd, fun _ => .inl hurb⟩
  have hpriv : Ohci.Only u o o₂ ∧ o₂.td = o.td := by
    have hiso : Ohci.Only u o₁
          (if (o.urb u).pipe.type = .iso then o₁.modUrb u resetPackets else o₁) ∧
        (if (o.urb u).pipe.type = .iso then o₁.modUrb u resetPackets else o₁).td = o₁.td := by
      split
      · exact ⟨.modUrb (fun _ => rfl) (fun _ => rfl) fun _ => .inl rfl, rfl⟩
      · exact ⟨.of_eq rfl, rfl⟩
    have hset : ∀ o₃ : Ohci, Ohci.Only u o₃ (o₃.modUrb u (fun r =>
        { r with hcpriv := some (newPriv e (tdSize (o.urb u)) tds) })) := fun _ =>
      .modUrb (fun _ => rfl) (fun _ => rfl) fun _ => .inl rfl
    rw [ho₂]
    exact ⟨((hstart.trans hiso.1).trans (hset _)).trans (.of_eq rfl), hiso.2.trans htd⟩
  obtain ⟨rfl, -, rfl⟩ | ⟨rfl, -, rfl⟩ := hend
  · refine ⟨(hpriv.1.trans (.of_eq (decDevUse_urb _ u))).trans .urbRmPriv,
      (urbRmPriv_td _ u).trans hpriv.2, fun _ => .inr ?_⟩
    rw [urbRmPriv_urb_self]
  · exact ⟨hpriv.1, hpriv.2, (by rintro ⟨⟩)⟩

end Only
