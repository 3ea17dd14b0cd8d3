import SideDumper.TdLists
import SideDumper.UrbLengths

/-!
# TDs in the bounce buffer

`td_fill` fills the TDs of a request, the setup packet apart, with addresses in its
bounce buffer. As long as they stay there, what `dl_transfer_length` counts is no
more than the length of the buffer.
-/

/-- **A TD of a request is in the bounce buffer**, but for the setup packet of a control
request. `k` is its index. -/
structure TdInBuffer (r : UrbConst) (buf k : ℕ) (d : ℕ × ℕ × ℕ × Bool) : Prop where
  general : d.2.2.2 = false
  index : r.pipe.type = .ctrl → d.2.2.1 = k
  be : ¬ (r.pipe.type = .ctrl ∧ k = 0) → d.2.1 ≠ 0 → buf ≤ d.2.1 ∧
    d.2.1 < buf + r.transferBufferLength
  cbp : ¬ (r.pipe.type = .ctrl ∧ k = 0) → d.2.1 ≠ 0 → d.1 ≠ 0 → buf ≤ d.1 ∧ d.1 ≤ d.2.1

/-- **A request keeps to its buffer**: `actual_length` is no longer, and the TDs that
`td_submit_urb` has filled are in the bounce buffer. -/
structure Ohci.InBuffer (o : Ohci) (u : UrbPtr) (p : UrbPriv) : Prop where
  actual : 0 ≤ (o.urb u).actualLength ∧ (o.urb u).actualLength ≤ (o.urb u).transferBufferLength
  td : ∀ k < min (o.urb u).const.tdCount p.length,
    TdInBuffer (o.urb u).const p.transferBuffer k (o.td (p.td k)).data

section InBuffer

variable {K : UrbPtr → ℕ → Prop} {o o' : Ohci} {t : TdPtr} {u : UrbPtr} {p p' : UrbPriv} {k : ℕ}
  {pend : List UrbPtr}

theorem Ohci.InBuffer.same (hb : o.InBuffer u p) (h : Ohci.SameData K o o')
    (hl : p'.layout = p.layout) :
    o'.InBuffer u p' := by
  simp only [UrbPriv.layout, Prod.mk.injEq] at hl
  obtain ⟨-, hlength, hbuf, htd⟩ := hl
  have hlen : (o'.urb u).transferBufferLength = (o.urb u).transferBufferLength :=
    congrArg UrbConst.transferBufferLength (h.const u)
  refine ⟨by rw [h.actual, hlen]; exact hb.actual, fun k hk => ?_⟩
  rw [h.const u, hlength] at hk
  rw [h.const u, hbuf, htd, h.td]
  exact hb.td k hk

/-- Nothing of the request is touched. -/
theorem Ohci.InBuffer.other (hb : o.InBuffer u p) (hurb : o'.urb u = o.urb u)
    (htd : ∀ k < p.length, (o'.td (p.td k)).data = (o.td (p.td k)).data) : o'.InBuffer u p := by
  refine ⟨by rw [hurb]; exact hb.actual, fun k hk => ?_⟩
  rw [hurb] at hk ⊢
  rw [htd k (lt_of_lt_of_le hk (min_le_right _ _))]
  exact hb.td k hk

/-- **All requests that have been accepted keep to their buffers**, but for
isochronous ones. -/
def Ohci.InBuffers (o : Ohci) (pend : List UrbPtr) : Prop :=
  ∀ u p, (o.urb u).hcpriv = some p → u ∉ pend → (o.urb u).pipe.type ≠ .iso → o.InBuffer u p

theorem Ohci.InBuffers.same (hb : o.InBuffers pend) (h : Ohci.SameData K o o') :
    o'.InBuffers pend := by
  intro u p' hp' hu hgen
  obtain ⟨p, hp, hl⟩ := h.priv u p' hp'
  have htype : (o'.urb u).pipe.type = (o.urb u).pipe.type := congrArg (·.pipe.type) (h.const u)
  exact (hb u p hp hu (htype ▸ hgen)).same h hl

/-- **The length that a TD gives** is no longer than the buffer. -/
theorem countGeneral_bounds {r : Urb} {td : Td}
    (ht : TdInBuffer r.const p.transferBuffer k td.data)
    (hr : 0 ≤ r.actualLength ∧ r.actualLength ≤ r.transferBufferLength) :
    0 ≤ (countGeneral r p td).actualLength ∧ (countGeneral r p td).actualLength
      ≤ r.transferBufferLength := by
  unfold countGeneral
  split
  · rename_i hcounts
    obtain ⟨hctrl, hne⟩ := hcounts
    have hdata : ¬ (r.const.pipe.type = .ctrl ∧ k = 0) :=
      fun h => hctrl ⟨h.1, .inl ((ht.index h.1).trans h.2)⟩
    obtain ⟨hlow, hhigh⟩ : p.transferBuffer ≤ td.hwBE ∧
        td.hwBE < p.transferBuffer + r.transferBufferLength :=
      ht.be hdata hne
    dsimp only
    split
    · omega
    · rename_i hcbp
      obtain ⟨hfrom, hto⟩ : p.transferBuffer ≤ td.hwCBP ∧ td.hwCBP ≤ td.hwBE :=
        ht.cbp hdata hne hcbp
      omega
  · exact hr

/-- `dl_transfer_length` changes lengths of the URB of the TD. -/
theorem dlTransferLength_rest (h : dlTransferLength o t = some o') :
    (∀ z, z ≠ (o.td t).urb → o'.urb z = o.urb z) ∧ o'.td = o.td ∧
      ∀ z, (o'.urb z).const = (o.urb z).const ∧
        (o'.urb z).transferBuffer = (o.urb z).transferBuffer := by
  have hmod : ∀ f : Urb → Urb, (∀ r, (f r).const = r.const ∧
      (f r).transferBuffer = r.transferBuffer) → ∀ z,
      ((o.modUrb (o.td t).urb f).urb z).const = (o.urb z).const ∧
        ((o.modUrb (o.td t).urb f).urb z).transferBuffer = (o.urb z).transferBuffer := by
    intro f hf z
    rw [Ohci.modUrb_urb]
    split
    · rw [‹z = _›]
      exact hf _
    · exact ⟨rfl, rfl⟩
  unfold dlTransferLength at h
  dsimp only at h
  split at h
  · cases h
    refine ⟨fun z hz => by rw [Ohci.modUrb_urb, if_neg hz], rfl, hmod _ fun r => ?_⟩
    unfold countIso
    dsimp only
    split <;> exact ⟨rfl, rfl⟩
  · obtain ⟨p, -, h⟩ := Option.bind_eq_some_iff.mp h
    cases h
    refine ⟨fun z hz => by rw [Ohci.modUrb_urb, if_neg hz], rfl, hmod _ fun r => ?_⟩
    unfold countGeneral
    split <;> exact ⟨rfl, rfl⟩

/-- **`dl_transfer_length` keeps to the buffer.** -/
theorem inBuffer_dlTransferLength (hb : o.InBuffer (o.td t).urb p)
    (hp : (o.urb (o.td t).urb).hcpriv = some p)
    (hk : k < min (o.urb (o.td t).urb).const.tdCount p.length)
    (ht : p.td k = t) (h : dlTransferLength o t = some o') : o'.InBuffer (o.td t).urb p := by
  have hin := hb.td k hk
  rw [ht] at hin
  have hgen : (o.td t).hwINFO.iso = false := hin.general
  unfold dlTransferLength at h
  dsimp only at h
  rw [if_neg (by rw [hgen]; decide), hp] at h
  cases h
  have hconst : (countGeneral (o.urb (o.td t).urb) p (o.td t)).const
      = (o.urb (o.td t).urb).const := by
    unfold countGeneral
    split <;> rfl
  have hlen : (countGeneral (o.urb (o.td t).urb) p (o.td t)).transferBufferLength
      = (o.urb (o.td t).urb).transferBufferLength := congrArg UrbConst.transferBufferLength hconst
  refine ⟨?_, ?_⟩
  · rw [Ohci.modUrb_urb_self, hlen]
    exact countGeneral_bounds hin hb.actual
  · rw [Ohci.modUrb_urb_self, hconst]
    exact hb.td

end InBuffer

/-! ## Filling -/

section Filled

variable {o o' : Ohci} {u : UrbPtr} {r : Urb} {p p' : UrbPriv} {c : TdCall} {k data len : ℕ}
    {first : TdToggle}

/-- A call of `td_fill` for a part of a buffer. -/
structure TdCall.Within (c : TdCall) (buf len : ℕ) : Prop where
  general : c.info.iso = false
  range : c.data ≠ 0 → c.len ≠ 0 → buf ≤ c.data ∧ c.data + c.len ≤ buf + len

theorem bulkCalls_within {out : Bool} (hc : c ∈ bulkCalls out first data len) :
    c.Within data len := by
  have hle : 4096 * ((len - 1) / 4096) ≤ len := by omega
  unfold bulkCalls at hc
  dsimp only at hc
  obtain hc | hc := List.mem_append.mp hc
  · obtain ⟨cnt, hcnt, rfl⟩ := List.mem_map.mp hc
    have hcnt := List.mem_range.mp hcnt
    refine ⟨rfl, fun _ _ => ?_⟩
    dsimp only
    omega
  · rw [List.mem_singleton.mp hc]
    refine ⟨rfl, fun _ _ => ?_⟩
    dsimp only
    omega

/-- **The calls of `td_submit_urb`** for a request that is not isochronous, but for the
setup packet, are for parts of the bounce buffer. -/
theorem tdCalls_within (hgen : r.pipe.type ≠ .iso) (hc : (tdCalls r p first)[k]? = some c) :
    c.info.iso = false ∧ (r.pipe.type = .ctrl → k < 3) ∧
      (¬ (r.pipe.type = .ctrl ∧ k = 0) → c.Within p.transferBuffer r.transferBufferLength) := by
  have hmem := List.mem_of_getElem? hc
  unfold tdCalls at hc hmem
  cases hty : r.pipe.type with
  | iso => exact absurd hty hgen
  | bulk =>
    rw [hty] at hmem
    have hw := bulkCalls_within hmem
    exact ⟨hw.general, (by rintro ⟨⟩), fun _ => hw⟩
  | int =>
    rw [hty] at hmem
    obtain rfl := List.mem_singleton.mp hmem
    exact ⟨rfl, (by rintro ⟨⟩), fun _ => ⟨rfl, fun _ _ => ⟨Nat.le_refl _, Nat.le_refl _⟩⟩⟩
  | ctrl =>
    rw [hty] at hc
    dsimp only [controlCalls] at hc
    have hstatus : ∀ dp, TdCall.Within ⟨genInfo dp .data1 false, 0, 0⟩ p.transferBuffer
        r.transferBufferLength :=
      fun dp => ⟨rfl, fun h => absurd rfl h⟩
    by_cases hlen : r.transferBufferLength = 0
    · rw [if_pos hlen] at hc
      obtain _ | _ | k := k
      · cases hc
        exact ⟨rfl, fun _ => by decide, fun h => absurd ⟨rfl, rfl⟩ h⟩
      · cases hc
        exact ⟨rfl, fun _ => by decide, fun _ => hstatus _⟩
      · cases hc
    · rw [if_neg hlen] at hc
      obtain _ | _ | _ | k := k
      · cases hc
        exact ⟨rfl, fun _ => by decide, fun h => absurd ⟨rfl, rfl⟩ h⟩
      · cases hc
        exact ⟨rfl, fun _ => by decide, fun _ => ⟨rfl, fun _ _ => ⟨Nat.le_refl _, Nat.le_refl _⟩⟩⟩
      · cases hc
        exact ⟨rfl, fun _ => by decide, fun _ => hstatus _⟩
      · cases hc

/-- A TD that `td_fill` has filled. -/
theorem tdOf_inBuffer {e : EdPtr} {type : PipeType} {next : TdPtr} (htype : type ≠ .iso)
    (hgen : r.pipe.type ≠ .iso)
    (hc : (tdCalls r p first)[k]? = some c) :
    TdInBuffer r.const p.transferBuffer k (tdOf u e type c k next).data := by
  obtain ⟨hiso, hctrl, hw⟩ := tdCalls_within hgen hc
  have hbe : c.be ≠ 0 → c.data ≠ 0 ∧ c.len ≠ 0 ∧ c.be = c.data + c.len - 1 ∧
      c.cbp type = c.data := by
    intro hne
    by_cases hnone : c.data = 0 ∨ c.len = 0
    · exact absurd (if_pos hnone) hne
    · rw [not_or] at hnone
      refine ⟨hnone.1, hnone.2, if_neg (not_or.mpr hnone), ?_⟩
      rw [TdCall.cbp, if_neg htype, TdCall.start, if_neg (not_or.mpr hnone)]
  refine ⟨hiso, fun h => Nat.mod_eq_of_lt (by have := hctrl h; omega), fun hk hne => ?_,
    fun hk hne hcbp => ?_⟩
  · obtain ⟨hdata, hlen, heq, -⟩ := hbe hne
    have hrange := (hw hk).range hdata hlen
    show p.transferBuffer ≤ c.be ∧ c.be < p.transferBuffer + r.transferBufferLength
    omega
  · obtain ⟨hdata, hlen, heq, hstart⟩ := hbe hne
    have hrange := (hw hk).range hdata hlen
    show p.transferBuffer ≤ c.cbp type ∧ c.cbp type ≤ c.be
    omega

end Filled

/-! ## Requests that are queued -/

section Submit

variable {o o' o'' : Ohci} {u : UrbPtr} {p : UrbPriv} {cs : List TdCall} {i : ℕ}

/-- `td_submit_urb` changes the private part of its URB, and of no other. -/
theorem only_tdSubmitUrb (h : tdSubmitUrb o u = some o') :
    Ohci.Only u o o' ∧ (o'.urb u).actualLength = (o.urb u).actualLength := by
  have hfills : ∀ cs i o, tdFills u cs i o = some o' →
      Ohci.Only u o o' ∧ (o'.urb u).actualLength = (o.urb u).actualLength := by
    intro cs
    induction cs with
    | nil =>
      intro i o h
      cases h
      exact ⟨.of_eq rfl, rfl⟩
    | cons c cs ih =>
      intro i o h
      obtain ⟨o₁, h₁, h⟩ := Option.bind_eq_some_iff.mp h
      obtain ⟨p, hp, -⟩ := Option.bind_eq_some_iff.mp h₁
      obtain ⟨hrest, hlen⟩ := ih _ _ h
      by_cases hi : i < p.length
      · rw [tdFill_eq hp hi, Option.some.injEq] at h₁
        have hmod : ∀ f, Ohci.Only u o (o.modPriv u f) := fun f => .modPriv f
        have hurb : o₁.urb = (o.modPriv u (fun q =>
            { q with td := Function.update q.td i (o.ed p.ed).hwTailP })).urb := by
          rw [← h₁, fillTd_urb]
        refine ⟨((hmod _).trans (.of_eq hurb)).trans hrest, hlen.trans ?_⟩
        rw [hurb, Ohci.modPriv_urb_self]
      · rw [tdFill_of_le hp (by omega), Option.some.injEq] at h₁
        subst h₁
        exact ⟨hrest, hlen⟩
  obtain ⟨p, hp, h⟩ := Option.bind_eq_some_iff.mp h
  obtain ⟨hrest, hlen⟩ := hfills _ _ _ h
  have hstart := submitStart_urb hp
  have hother : ∀ z, z ≠ u → ((submitStart o u).log (.submitTds u)).urb z = o.urb z :=
    fun z hz => by
    unfold submitStart
    dsimp only
    rw [Ohci.log_urb, Ohci.modPriv, Ohci.modUrb_urb, if_neg hz, Ohci.modDev_urb]
  refine ⟨Ohci.Only.trans ⟨hother, ?_, ?_, .inl ?_⟩ hrest, hlen.trans ?_⟩ <;> rw [hstart]
  rfl

theorem only_prepareUrbOnSubmit (buf setup : ℕ) :
    Ohci.Only u o (prepareUrbOnSubmit o u buf setup).1 ∧
    (prepareUrbOnSubmit o u buf setup).1.td = o.td ∧
      (prepareUrbOnSubmit o u buf setup).1.ed = o.ed := by
  have hcopy : ∀ (o₁ : Ohci) (f : UrbPriv → UrbPriv) (dst n : ℕ) (src : ℕ → UInt8),
      Ohci.Only u o₁ (copyIn (o₁.modPriv u f) dst src n) := fun o₁ f dst n src =>
    (Ohci.Only.modPriv f).trans (.of_eq rfl)
  have hdata : ∀ (n : ℕ) (src : ℕ → UInt8), Ohci.Only u o
      (if n ≠ 0 then copyIn (o.modPriv u (fun p => { p with transferBuffer := buf })) buf src n
        else o) ∧
        (if n ≠ 0 then copyIn (o.modPriv u (fun p =>
        { p with transferBuffer := buf })) buf src n else o).td = o.td ∧
          (if n ≠ 0 then copyIn (o.modPriv u (fun p =>
          { p with transferBuffer := buf })) buf src n else o).ed = o.ed := by
    intro n src
    split
    · exact ⟨hcopy _ _ _ _ _, rfl, rfl⟩
    · exact ⟨.of_eq rfl, rfl, rfl⟩
  unfold prepareUrbOnSubmit
  dsimp only
  split
  · exact ⟨.of_eq rfl, rfl, rfl⟩
  split
  · exact hdata _ _
  split
  · exact hdata _ _
  · obtain ⟨honly, htd, hed⟩ := hdata (o.urb u).transferBufferLength (o.urb u).transferBuffer
    exact ⟨honly.trans (hcopy _ _ _ _ _), htd, hed⟩

end Submit

section Submitted

variable {o o' : Ohci} {u z : UrbPtr} {p p' q : UrbPriv} {fuel buf setup : ℕ} {b : Bool}

/-- **What `td_submit_urb` is called with**: a URB that has nothing counted. -/
structure Ohci.Calls (o o₁ o' : Ohci) (u : UrbPtr) : Prop where
  submit : tdSubmitUrb o₁ u = some o'
  only : Ohci.Only u o o₁
  td : o₁.td = o.td
  type : ∀ e, (o₁.ed e).type = (o.ed e).type
  actual : (o₁.urb u).actualLength = 0

/-- The second phase of `sohci_submit_urb`. -/
theorem submitSecond_calls (h : submitSecond fuel o u buf setup = some (o', b)) :
    ∃ p, (o.urb u).hcpriv = some p ∧ ((o'.urb u).hcpriv = none ∧ o'.td = o.td ∧ Ohci.Only u o o' ∨
      ∃ o₁, o.Calls o₁ o' u ∧ o₁.ledger = o.ledger.setState p.ed .edOper ∧
        (o.ed p.ed).state ≠ .edNew) := by
  obtain ⟨p, hp, ⟨-, -, rfl⟩ | ⟨hnew, -, n, o₁, ho₁, hend⟩⟩ := submitSecond_outcome h
  · refine ⟨p, hp, .inl ⟨?_, urbRmPriv_td o u,
      Ohci.Only.urbRmPriv.trans (.of_eq (decDevUse_urb _ u))⟩⟩
    rw [decDevUse_urb, urbRmPriv_urb_self]
  refine ⟨p, hp, ?_⟩
  have hframe : Ohci.Only u o (o.modUrb u (fun r => { r with startFrame := n })) :=
    .modUrb (fun _ => rfl) (fun _ => rfl) fun _ => .inl rfl
  have hprep : Ohci.Only u o o₁ ∧ o₁.td = o.td ∧ o₁.ed = o.ed ∧ o₁.ledger = o.ledger := by
    obtain ⟨honly, htd, hed⟩ := only_prepareUrbOnSubmit (u := u)
      (o := o.modUrb u (fun r => { r with startFrame := n })) buf setup
    rw [ho₁]
    refine ⟨hframe.trans honly, htd, hed, ?_⟩
    rw [ledger_prepareUrbOnSubmit]
    exact Ohci.ledger_modUrb_same (by intro; rfl) (by intro; rfl)
  obtain ⟨honly, htd, hed, hled⟩ := hprep
  obtain ⟨-, -, rfl⟩ | ⟨-, -, h₁⟩ := hend
  · refine .inl ⟨?_, (urbRmPriv_td _ u).trans htd,
      (honly.trans (.of_eq (decDevUse_urb _ u))).trans .urbRmPriv⟩
    rw [urbRmPriv_urb_self]
  obtain ⟨o₂, h₂, hsub⟩ := submitLink_steps h₁
  have hqueues : o₂.queues
      = (o₁.modUrb u (fun r => { r with status := .einprogress, actualLength := 0 })).queues := by
    obtain ⟨-, rfl⟩ | ⟨-, h₂⟩ := h₂
    · rfl
    · exact queues_epLink h₂
  have hstat :
      Ohci.Only u o₁
        (o₁.modUrb u (fun r => { r with status := .einprogress, actualLength := 0 })) :=
    .modUrb (fun _ => rfl) (fun _ => rfl) fun _ => .inr rfl
  have hurb₂ := congrArg Queues.urb hqueues
  refine .inr ⟨_, ⟨hsub, ?_, ?_, fun e => ?_, ?_⟩, ?_, hnew⟩
  · exact ((honly.trans hstat).trans (.of_eq hurb₂)).trans (.modUrb (fun _ => rfl) (fun _ => rfl)
      fun _ => .inl rfl)
  · exact (congrArg Queues.td hqueues).trans htd
  · have htype := congrArg EdQueue.type (congrFun (congrArg Queues.queue hqueues) e)
    rw [← hed]
    exact htype
  · rw [Ohci.modUrb_urb_self]
    show (o₂.urb u).actualLength = 0
    rw [show o₂.urb = _ from hurb₂]
    show ((o₁.modUrb u (fun r => { r with status := .einprogress, actualLength := 0 })).urb
      u).actualLength = 0
    rw [Ohci.modUrb_urb_self]
  · exact (Ohci.ledger_modUrb_same (by intro; rfl) (by intro; rfl)).trans
      (ledger_submitLink hled h₂)

/-- `sohci_return_urb` behind the callback of a periodic request. -/
theorem requeueUrb_calls (h : requeueUrb o u = some o') : ∃ p, (o.urb u).hcpriv = some p ∧
    ((o'.urb u).hcpriv = some p ∧ (o'.urb u).actualLength = 0 ∧ o'.td = o.td ∧ Ohci.Only u o o' ∨
      ∃ o₁, o.Calls o₁ o' u ∧ o₁.ledger = o.ledger) := by
  obtain ⟨p, hp, h⟩ := Option.bind_eq_some_iff.mp h
  refine ⟨p, hp, ?_⟩
  have hagain :
      Ohci.Only u o
        (o.modUrb u (fun r => { r with actualLength := 0, status := .einprogress })) :=
    .modUrb (fun _ => rfl) (fun _ => rfl) fun _ => .inr rfl
  have hled : (o.modUrb u (fun r => { r with actualLength := 0, status := .einprogress })).ledger
      = o.ledger :=
    Ohci.ledger_modUrb_same (by intro; rfl) (by intro; rfl)
  dsimp only at h
  split at h
  · split at h
    · cases h
      refine .inl ⟨?_, ?_, rfl, hagain.trans (.modUrb (fun _ => rfl) (fun _ => rfl)
        fun _ => .inl rfl)⟩
      · rw [Ohci.modUrb_urb_self, Ohci.modUrb_urb_self]
        exact hp
      · rw [Ohci.modUrb_urb_self, Ohci.modUrb_urb_self]
    · refine .inr ⟨_, ⟨h, ?_, rfl, fun _ => rfl, ?_⟩, ?_⟩
      · have hreset : ∀ o₁ : Ohci, Ohci.Only u o₁ (o₁.modUrb u resetPackets) := fun _ =>
          .modUrb (fun _ => rfl) (fun _ => rfl) fun _ => .inl rfl
        exact (hagain.trans (.modUrb (by intro; rfl) (by intro; rfl)
          (by intro; exact .inl rfl))).trans (hreset _)
      · rw [Ohci.modUrb_urb_self, Ohci.modUrb_urb_self, Ohci.modUrb_urb_self]
        rfl
      · exact (Ohci.ledger_modUrb_same (by intro; rfl) (by intro; rfl)).trans
          ((Ohci.ledger_modUrb_same (by intro; rfl) (by intro; rfl)).trans hled)
  · split at h
    · cases h
      refine .inl ⟨?_, ?_, rfl, hagain⟩
      · rw [Ohci.modUrb_urb_self]
        exact hp
      · rw [Ohci.modUrb_urb_self]
    · refine .inr ⟨_, ⟨h, hagain, rfl, fun _ => rfl, ?_⟩, hled⟩
      rw [Ohci.modUrb_urb_self]

end Submitted

section Filling

variable {o o₁ o' : Ohci} {u z : UrbPtr} {p q : UrbPriv}

/-- **The TDs of other requests** are not written by `td_submit_urb`. -/
theorem Ohci.Calls.other (hc : o.Calls o₁ o' u) (hown : o₁.ledger.Owners)
    (hp : (o₁.urb u).hcpriv = some p)
    (hnew : (o₁.ed p.ed).state ≠ .edNew) (hz : z ≠ u) (hq : (o.urb z).hcpriv = some q) :
    o'.urb z = o.urb z ∧ ∀ k < q.length, o'.td (q.td k) = o.td (q.td k) := by
  obtain ⟨hlater, -⟩ := only_tdSubmitUrb hc.submit
  obtain ⟨p', hf⟩ := fills_tdSubmitUrb hp (hown.tdsApart hp hnew) hc.submit
  have hq₁ : (o₁.urb z).hcpriv = some q := by
    rw [hc.only.other z hz]
    exact hq
  have hplace : ∀ {x r}, (o₁.urb x).hcpriv = some r → ∀ k < r.length, o₁.ledger.tdAt (.slot x k)
      = some (r.td k) := by
    intro x r hr k hk
    rw [Ledger.tdAt, ledger_priv hr, Option.bind_some]
    exact if_pos hk
  have hdummy : o₁.ledger.tdAt (.dummy p.ed) = some (o₁.ed p.ed).hwTailP := if_pos hnew
  refine ⟨(hlater.other z hz).trans (hc.only.other z hz), fun k hk => ?_⟩
  rw [← hc.td]
  refine hf.frame _ (fun heq => ?_) fun j _ hj heq => ?_
  · -- it is not the end of the queue
    have hslot := hplace hq₁ k hk
    rw [heq] at hslot
    cases hown.owned.single _ _ _ hslot hdummy
  · -- and it is not a TD of the URB
    have hslot := hplace hq₁ k hk
    rw [heq] at hslot
    exact hz (TdPlace.slot.inj (hown.owned.single _ _ _ hslot (hplace hp j (by omega)))).1

/-- **`td_submit_urb` fills in the TDs for the bounce buffer.** -/
theorem Ohci.Calls.inBuffer (hc : o.Calls o₁ o' u) (hown : o₁.ledger.Owners)
    (hp : (o₁.urb u).hcpriv = some p)
    (hnew : (o₁.ed p.ed).state ≠ .edNew) (htype : (o.ed p.ed).type ≠ .iso)
    (hgen : (o.urb u).pipe.type ≠ .iso)
    (hq : (o'.urb u).hcpriv = some q) : o'.InBuffer u q := by
  obtain ⟨hlater, hactual⟩ := only_tdSubmitUrb hc.submit
  obtain ⟨p', hf⟩ := fills_tdSubmitUrb hp (hown.tdsApart hp hnew) hc.submit
  rw [hf.priv] at hq
  cases hq
  have hconst : (o'.urb u).const = (o₁.urb u).const := hlater.const
  have hgen₁ : (o₁.urb u).pipe.type ≠ .iso :=
    fun h => hgen ((congrArg (·.pipe.type) hc.only.const).symm.trans h)
  refine ⟨?_, fun k hk => ?_⟩
  · rw [hactual, hc.actual]
    omega
  · rw [hconst, hf.length] at hk
    rw [hconst, hf.transferBuffer]
    have hlt : k < (tdCalls (o₁.urb u) p (o₁.toggleOf (o₁.urb u))).length := by
      rw [length_tdCalls]
      exact lt_of_lt_of_le hk (min_le_left _ _)
    have htd :=
      hf.td k (lt_min hlt (lt_of_lt_of_le hk (min_le_right _ _))) _ (List.getElem?_eq_getElem hlt)
    rw [Nat.zero_add] at htd
    rw [htd]
    exact tdOf_inBuffer (by rw [hc.type]; exact htype) hgen₁ (List.getElem?_eq_getElem hlt)

end Filling
