import SideDumper.DoneList
import SideDumper.QueueFrame

/-!
# The data of an OUT request

The controller does not reach the memory of the caller, so
`Portable_PrepareUrbOnSubmit` copies what is to be sent into a bounce buffer,
and the TDs point there. It does so once. Interrupt requests and isochronous
rings are queued again after their completion callback, which may have put new
data into `transfer_buffer`, and `sohci_return_urb` calls `td_submit_urb`
without another copy.

`OutRun` are the moments at which `td_submit_urb` is called for a request, and
`sendsCurrent_iff` says at which of them the data are those of the caller.
-/

/-- The calls of `td_fill` that have an effect and are for data: not the one
for the setup packet. -/
def dataCalls (o : Ohci) (u : UrbPtr) (p : UrbPriv) : List TdCall :=
  let calls := (tdCalls (o.urb u) p (o.toggleOf (o.urb u))).take p.length
  if (o.urb u).pipe.type = .ctrl then calls.tail else calls

/-- The bytes a TD points the controller at. -/
def TdCall.Points (c : TdCall) (a : ℕ) : Prop := c.data ≠ 0 ∧ c.data ≤ a ∧ a < c.data + c.len

instance (c : TdCall) (a : ℕ) : Decidable (c.Points a) := inferInstanceAs (Decidable (_ ∧ _))

/-- A byte that `td_submit_urb` sends. -/
def Sends (o : Ohci) (u : UrbPtr) (p : UrbPriv) (a : ℕ) :
    Prop := ∃ c ∈ dataCalls o u p, c.Points a

/-- **What is sent is the caller's data**: every byte sent is one of
`transfer_buffer`, as it is now. -/
def SendsCurrent (o : Ohci) (u : UrbPtr) (p : UrbPriv) : Prop :=
  ∀ a, Sends o u p a → ∃ j, j < (o.urb u).transferBufferLength ∧ a = p.transferBuffer + j ∧
    o.iop a = (o.urb u).transferBuffer j

/-! ## The calls of `td_submit_urb` -/

/-- The memory with which `sohci_submit_urb` calls `td_submit_urb`. -/
def submitCall (fuel : ℕ) (o : Ohci) (u : UrbPtr) (e : EdPtr) : Option Ohci := do
  let o := o.modUrb u (fun r => { r with status := .einprogress, actualLength := 0 })
  let o ← if (o.ed e).state ≠ .edOper then epLink fuel o e else some o
  some (o.modUrb u (fun r => { r with status := .einprogress }))

/-- The memory with which `sohci_return_urb` calls `td_submit_urb`. -/
def requeueCall (o : Ohci) (u : UrbPtr) (p : UrbPriv) : Ohci :=
  let o := o.modUrb u (fun r => { r with actualLength := 0, status := .einprogress })
  if (o.urb u).pipe.type = .iso then
    (o.modUrb u (fun r => { r with startFrame := (o.ed p.ed).lastIso + 1 })).modUrb u resetPackets
  else o

/-- **What lies between two calls of `td_submit_urb`**: anything that leaves
the bounce buffer alone, the pipe and the length. The contents of
`transfer_buffer` and the packets may change. -/
structure Meanwhile (u : UrbPtr) (o o' : Ohci) : Prop where
  out : (o'.urb u).pipe.out = (o.urb u).pipe.out
  length : (o'.urb u).transferBufferLength = (o.urb u).transferBufferLength
  buffer : (o'.urb u).hcpriv.map UrbPriv.transferBuffer
    = (o.urb u).hcpriv.map UrbPriv.transferBuffer
  bounce : ∀ p, (o.urb u).hcpriv = some p → ∀ j, j < (o.urb u).transferBufferLength →
    o'.iop (p.transferBuffer + j) = o.iop (p.transferBuffer + j)

/-- **The calls of `td_submit_urb` for an OUT request**, with the memory at the
call and after it; `sent` is what `transfer_buffer` held at the submission. The
two bounce buffers do not overlap. -/
inductive OutRun (fuel : ℕ) (u : UrbPtr) (sent : ℕ → UInt8) : Ohci → Ohci → Prop
  | first {o o₁ o₂ o₃ : Ohci} {p : UrbPriv} (buf setup : ℕ) :
      (o.urb u).pipe.out = true → (o.urb u).hcpriv = some p → (o.urb u).transferBuffer = sent →
      setup + 8 ≤ buf ∨ buf + (o.urb u).transferBufferLength ≤ setup →
      prepareUrbOnSubmit o u buf setup = (o₁, true) → submitCall fuel o₁ u p.ed = some o₂ →
      tdSubmitUrb o₂ u = some o₃ → OutRun fuel u sent o₂ o₃
  | again {oc o o₁ o₃ : Ohci} {p : UrbPriv} : OutRun fuel u sent oc o → Meanwhile u o o₁ →
      (o₁.urb u).hcpriv = some p → p.urbDel = false →
        tdSubmitUrb (requeueCall o₁ u p) u = some o₃ →
      OutRun fuel u sent (requeueCall o₁ u p) o₃

section Calls

variable {o o' o'' : Ohci} {u : UrbPtr} {p : UrbPriv} {e : EdPtr} {fuel : ℕ} {sent : ℕ → UInt8}

/-- These are the calls of `sohci_submit_urb`. -/
theorem submitLink_eq :
    submitLink fuel o u e = (submitCall fuel o u e).bind (fun o => tdSubmitUrb o u) := by
  unfold submitLink submitCall
  dsimp only
  split
  · simp only [Option.bind_eq_bind, Option.bind_assoc, Option.bind_some]
  · rfl

/-- These are the calls of `sohci_return_urb`. -/
theorem requeueUrb_eq (hp : (o.urb u).hcpriv = some p) (hdel : p.urbDel = false) :
    requeueUrb o u = tdSubmitUrb (requeueCall o u p) u := by
  unfold requeueUrb requeueCall
  rw [hp, Option.bind_eq_bind, Option.bind_some]
  dsimp only
  split
  · rw [if_neg (by rw [hdel]; decide)]
  · rw [if_neg (by rw [hdel]; decide)]

/-- A request that `sohci_return_urb` queues again. -/
theorem OutRun.requeued {oc : Ohci} (h : OutRun fuel u sent oc o) (hm : Meanwhile u o o')
    (hp : (o'.urb u).hcpriv = some p) (hdel : p.urbDel = false)
    (hs : requeueUrb o' u = some o'') :
    OutRun fuel u sent (requeueCall o' u p) o'' := by
  rw [requeueUrb_eq hp hdel] at hs
  exact .again h hm hp hdel hs

namespace Meanwhile

theorem refl (o : Ohci) : Meanwhile u o o := ⟨rfl, rfl, rfl, fun _ _ _ _ => rfl⟩

theorem trans (h : Meanwhile u o o') (h' : Meanwhile u o' o'') : Meanwhile u o o'' where
  out := h'.out.trans h.out
  length := h'.length.trans h.length
  buffer := h'.buffer.trans h.buffer
  bounce := by
    intro p hp j hj
    have hbuf := h.buffer
    rw [hp] at hbuf
    obtain ⟨p', hp', heq⟩ := Option.map_eq_some_iff.mp hbuf
    rw [← h.bounce p hp j hj, ← heq]
    exact h'.bounce p' hp' j (by rwa [h.length])

/-- A write to the URB that keeps the pipe, the length and the bounce buffer. -/
theorem modUrb (h : Meanwhile u o o') {f : Urb → Urb}
    (hf : ∀ r, ((f r).pipe, (f r).transferBufferLength, (f r).hcpriv.map UrbPriv.transferBuffer)
      = (r.pipe, r.transferBufferLength, r.hcpriv.map UrbPriv.transferBuffer)) :
    Meanwhile u o (o'.modUrb u f) := by
  have hr := hf (o'.urb u)
  simp only [Prod.mk.injEq] at hr
  refine h.trans ⟨?_, ?_, ?_, fun _ _ _ _ => rfl⟩
  · rw [Ohci.modUrb_urb_self, hr.1]
  · rw [Ohci.modUrb_urb_self, hr.2.1]
  · rw [Ohci.modUrb_urb_self, hr.2.2]

/-- A write to the private part that keeps the bounce buffer. -/
theorem modPriv (h : Meanwhile u o o') {f : UrbPriv → UrbPriv}
    (hf : ∀ p, (f p).transferBuffer = p.transferBuffer) : Meanwhile u o (o'.modPriv u f) := by
  refine h.modUrb fun r => ?_
  have hmap : (r.hcpriv.map f).map UrbPriv.transferBuffer
      = r.hcpriv.map UrbPriv.transferBuffer := by
    cases r.hcpriv with
    | none => rfl
    | some p => exact congrArg some (hf p)
  rw [hmap]

/-- A memory with the same URBs and the same bytes. -/
theorem of_eq (h : Meanwhile u o o') (hu : o''.urb = o'.urb) (hi : o''.iop = o'.iop) :
    Meanwhile u o o'' :=
  h.trans ⟨by rw [hu], by rw [hu], by rw [hu], fun _ _ _ _ => by rw [hi]⟩

end Meanwhile

theorem meanwhile_exec (st : FillStmt) (f : Fill) (hf : f.urb = u) :
    Meanwhile u o (st.exec f o).2 := by
  have hr := Meanwhile.refl (u := u) o
  cases st
  case newTd =>
    rw [FillStmt.exec, hf]
    exact hr.modPriv (by intro; rfl)
  case cbp =>
    rw [FillStmt.exec]
    dsimp only
    split
    · exact hr.of_eq rfl rfl
    · exact hr.of_eq rfl rfl
  all_goals exact hr.of_eq rfl rfl

theorem exec_urb (st : FillStmt) (f : Fill) : (st.exec f o).1.urb = f.urb := by
  cases st <;> rfl

theorem meanwhile_execAll (ss : List FillStmt) (f : Fill) (hf : f.urb = u) :
    Meanwhile u o (execAll ss f o).2 := by
  induction ss generalizing f o with
  | nil => exact Meanwhile.refl o
  | cons st ss ih => exact (meanwhile_exec st f hf).trans (ih _ ((exec_urb st f).trans hf))

/-- `td_submit_urb` writes no data. -/
theorem meanwhile_tdSubmitUrb (h : tdSubmitUrb o u = some o') : Meanwhile u o o' := by
  have hfill : ∀ (cs : List TdCall) (index : ℕ) (o : Ohci), tdFills u cs index o = some o' →
      Meanwhile u o o' := by
    intro cs
    induction cs with
    | nil =>
      intro index o h
      cases h
      exact Meanwhile.refl _
    | cons c cs ih =>
      intro index o h
      obtain ⟨o₁, h₁, h⟩ := Option.bind_eq_some_iff.mp h
      obtain ⟨p, -, h₁⟩ := Option.bind_eq_some_iff.mp h₁
      split at h₁
      · cases h₁
        exact ih _ _ h
      · cases h₁
        have hexec := meanwhile_execAll (u := u) (o := o) tdFillStmts ⟨u, index, c, 0, 0⟩ rfl
        exact hexec.trans (ih _ _ h)
  obtain ⟨p, -, h⟩ := Option.bind_eq_some_iff.mp h
  have hstart : Meanwhile u o ((submitStart o u).log (.submitTds u)) := by
    unfold submitStart
    dsimp only
    exact Meanwhile.of_eq (((Meanwhile.refl o).of_eq rfl rfl).modPriv (by intro; rfl)) rfl rfl
  exact hstart.trans (hfill _ _ _ h)

theorem meanwhile_submitCall (h : submitCall fuel o u e = some o') : Meanwhile u o o' := by
  have hpend : Meanwhile u o (o.modUrb u (fun r =>
      { r with status := .einprogress, actualLength := 0 })) := (Meanwhile.refl o).modUrb
        (by intro; rfl)
  unfold submitCall at h
  dsimp only at h
  split at h
  · obtain ⟨o₁, h₁, h⟩ := Option.bind_eq_some_iff.mp h
    cases h
    have hq := queues_epLink h₁
    exact (hpend.of_eq (congrArg Queues.urb hq) (congrArg Queues.iop hq)).modUrb (by intro; rfl)
  · cases h
    exact hpend.modUrb (by intro; rfl)

theorem meanwhile_requeueCall : Meanwhile u o (requeueCall o u p) := by
  have hpend : Meanwhile u o (o.modUrb u (fun r =>
      { r with actualLength := 0, status := .einprogress })) := (Meanwhile.refl o).modUrb
        (by intro; rfl)
  unfold requeueCall
  dsimp only
  split
  · exact (hpend.modUrb (by intro; rfl)).modUrb (by intro; rfl)
  · exact hpend

/-! ## What the bounce buffer holds -/

/-- **The bounce buffer holds what was there at the submission.** -/
structure Bounced (u : UrbPtr) (sent : ℕ → UInt8) (o : Ohci) : Prop where
  out : (o.urb u).pipe.out = true
  bounce : ∃ p, (o.urb u).hcpriv = some p ∧
    ∀ j, j < (o.urb u).transferBufferLength → o.iop (p.transferBuffer + j) = sent j

theorem Bounced.meanwhile (h : Bounced u sent o) (hm : Meanwhile u o o') : Bounced u sent o' := by
  obtain ⟨p, hp, hbytes⟩ := h.bounce
  have hbuf := hm.buffer
  rw [hp] at hbuf
  obtain ⟨p', hp', heq⟩ := Option.map_eq_some_iff.mp hbuf
  refine ⟨hm.out.trans h.out, p', hp', fun j hj => ?_⟩
  rw [hm.length] at hj
  rw [heq, hm.bounce p hp j hj, hbytes j hj]

/-- `Portable_PrepareUrbOnSubmit` fills it. -/
theorem bounced_prepare {buf setup : ℕ} (hout : (o.urb u).pipe.out = true)
    (hp : (o.urb u).hcpriv = some p) (hsent : (o.urb u).transferBuffer = sent)
    (hdisj : setup + 8 ≤ buf ∨ buf + (o.urb u).transferBufferLength ≤ setup)
    (h : prepareUrbOnSubmit o u buf setup = (o', true)) : Bounced u sent o' := by
  -- the data first
  have hdata : ∀ o₁ : Ohci, (if (o.urb u).transferBufferLength ≠ 0 then
      copyIn (o.modPriv u (fun p => { p with transferBuffer := buf })) buf
        (o.urb u).transferBuffer
        (o.urb u).transferBufferLength else o) = o₁ →
      (o₁.urb u).pipe.out = true ∧ (o₁.urb u).transferBufferLength
        = (o.urb u).transferBufferLength ∧
      ∃ q, (o₁.urb u).hcpriv = some q ∧ ((o.urb u).transferBufferLength ≠ 0 →
        q.transferBuffer = buf) ∧
        ∀ j, j < (o.urb u).transferBufferLength → o₁.iop (q.transferBuffer + j) = sent j := by
    intro o₁ h₁
    split at h₁
    · have hself := Ohci.modPriv_urb_self o u (fun p => { p with transferBuffer := buf })
      rw [hp] at hself
      have hurb : o₁.urb u = _ := (congrFun (congrArg Ohci.urb h₁.symm) u).trans hself
      rw [hurb]
      refine ⟨hout, rfl, _, rfl, fun _ => rfl, fun j hj => ?_⟩
      rw [← h₁, copyIn]
      dsimp only
      rw [if_pos ⟨Nat.le_add_right _ _, by omega⟩, Nat.add_sub_cancel_left, hsent]
    · subst h₁
      exact ⟨hout, rfl, p, hp, fun h => absurd h ‹_›, fun j hj => by omega⟩
  unfold prepareUrbOnSubmit at h
  dsimp only at h
  split at h
  · cases h
  obtain ⟨o₁, h₁⟩ : ∃ o₁, (if (o.urb u).transferBufferLength ≠ 0 then
      copyIn (o.modPriv u (fun p => { p with transferBuffer := buf })) buf
        (o.urb u).transferBuffer
        (o.urb u).transferBufferLength else o) = o₁ := ⟨_, rfl⟩
  rw [h₁] at h
  obtain ⟨hout₁, hlen₁, q, hq, hbuf, hbytes⟩ := hdata o₁ h₁
  split at h
  · cases h
    exact ⟨hout₁, q, hq, fun j hj => hbytes j (hlen₁ ▸ hj)⟩
  split at h
  · cases h
  -- then the setup packet, elsewhere
  rename_i packet _ _
  cases h
  have hself := Ohci.modPriv_urb_self o₁ u (fun p => { p with setupPacket := setup })
  rw [hq] at hself
  have hurb : (copyIn (o₁.modPriv u (fun p => { p with setupPacket := setup })) setup packet
      8).urb u = _ := hself
  refine ⟨?_, { q with setupPacket := setup }, ?_, fun j hj => ?_⟩
  · rw [hurb]
    exact hout₁
  · rw [hurb]
    rfl
  · rw [hurb] at hj
    have hj : j < (o.urb u).transferBufferLength := hlen₁ ▸ hj
    have hq := hbuf (by omega)
    rw [copyIn]
    dsimp only
    rw [if_neg (by omega)]
    exact hbytes j hj

/-- At each call of `td_submit_urb`, and after it, the bounce buffer holds what
was there at the submission. -/
theorem OutRun.bounced (h : OutRun fuel u sent o o') : Bounced u sent o ∧ Bounced u sent o' := by
  have hcall : ∀ o o' : Ohci, Bounced u sent o → tdSubmitUrb o u = some o' →
      Bounced u sent o ∧ Bounced u sent o' := fun o o' hb hs =>
    ⟨hb, hb.meanwhile (meanwhile_tdSubmitUrb hs)⟩
  induction h with
  | first buf setup hout hp hsent hdisj hprep hlink hs =>
    exact hcall _ _ ((bounced_prepare hout hp hsent hdisj hprep).meanwhile
      (meanwhile_submitCall hlink)) hs
  | again _ hm _ _ hs ih =>
    exact hcall _ _ ((ih.2.meanwhile hm).meanwhile meanwhile_requeueCall) hs

/-- **When the data sent are current**: exactly when every byte sent is one of
`transfer_buffer` that is as it was at the submission. -/
theorem sendsCurrent_iff (h : OutRun fuel u sent o o') (hp : (o.urb u).hcpriv = some p) :
    SendsCurrent o u p ↔ ∀ a, Sends o u p a → ∃ j, j < (o.urb u).transferBufferLength ∧
      a = p.transferBuffer + j ∧ (o.urb u).transferBuffer j = sent j := by
  obtain ⟨q, hq, hbytes⟩ := h.bounced.1.bounce
  rw [hp, Option.some.injEq] at hq
  subst hq
  refine forall₂_congr fun a _ => exists_congr fun j => and_congr_right fun hj => and_congr_right
    fun ha => ?_
  rw [ha, hbytes j hj, eq_comm]

/-- **What a TD says**: the bytes from `hwCBP` to `hwBE`, where the page offset
of an isochronous TD is in its status word. -/
def Td.Points (r : Td) (iso : Bool) (a : ℕ) : Prop :=
  r.hwBE ≠ 0 ∧ r.hwCBP + (if iso then r.hwPSW % 4096 else 0) ≤ a ∧ a ≤ r.hwBE

/-- An interrupt OUT request of one byte, which holds 1. -/
def oneByte : Urb :=
  { (default : Urb) with
    pipe := ⟨.int, 1, 1, true, false⟩
    transferBufferLength := 1
    transferBuffer := fun _ => 1
    hcpriv := some { (default : UrbPriv) with ed := 2, length := 1 } }

/-- This request at address 1, with its ED at address 2 on the schedule. -/
def oneByteOper : Ohci :=
  { (default : Ohci) with
    urb := fun u => if u = 1 then oneByte else default
    ed := fun _ => { (default : Ed) with state := .edOper, hwTailP := 3 } }

/-- The callback puts a 2 where the 1 was, and the 1 is sent again. -/
theorem not_sendsCurrent :
    ¬ ∀ (fuel : ℕ) (u : UrbPtr) (sent : ℕ → UInt8) (o o' : Ohci) (p : UrbPriv),
    OutRun fuel u sent o o' → (o.urb u).hcpriv = some p → SendsCurrent o u p := by
  intro hall
  obtain ⟨o, o', p, hrun, hp, hsends, hiop, hnew⟩ : ∃ o o' p, OutRun 0 1 (fun _ => 1) o o' ∧
      (o.urb 1).hcpriv = some p ∧ Sends o 1 p 500 ∧ o.iop 500 = 1 ∧
        ∀ j, (o.urb 1).transferBuffer j = 2 := by
    exact ⟨_, _, _, .requeued
      (.first (o := oneByteOper) 500 0 rfl rfl rfl (.inl (by decide)) rfl rfl rfl)
      ((Meanwhile.refl _).modUrb (f := fun r => { r with transferBuffer := fun _ => 2 })
        (by intro; rfl))
      rfl rfl rfl, rfl, ⟨_, List.mem_cons_self, by decide⟩, by decide, fun _ => rfl⟩
  obtain ⟨j, -, -, hbyte⟩ := hall 0 1 _ o o' p hrun hp 500 hsends
  rw [hiop, hnew] at hbyte
  exact absurd hbyte (by decide)

/-- The first time the 1 is sent while it is there. -/
theorem sendsCurrent_oneByte : ∃ o o' p, OutRun 0 1 (fun _ => 1) o o' ∧ Sends o 1 p 500 ∧
    SendsCurrent o 1 p := by
  obtain ⟨o, o', p, hrun, hp, hsends, honly, hlen, hbuf, hnew⟩ : ∃ o o' p,
      OutRun 0 1 (fun _ => 1) o o' ∧ (o.urb 1).hcpriv = some p ∧ Sends o 1 p 500 ∧
      (∀ a, Sends o 1 p a → a = 500) ∧ (o.urb 1).transferBufferLength = 1 ∧
        p.transferBuffer = 500 ∧
      (o.urb 1).transferBuffer = fun _ => 1 := by
    refine ⟨_, _, _, .first (o := oneByteOper) 500 0 rfl rfl rfl (.inl (by decide)) rfl rfl rfl,
      rfl, ⟨_, List.mem_cons_self, by decide⟩, ?_, rfl, rfl, rfl⟩
    rintro a ⟨c, hc, -, hle, hlt⟩
    have hc' := List.mem_singleton.mp hc
    subst hc'
    exact le_antisymm (Nat.lt_succ_iff.mp hlt) hle
  refine ⟨o, o', p, hrun, hsends, (sendsCurrent_iff hrun hp).mpr fun a ha => ⟨0, ?_, ?_, ?_⟩⟩
  · rw [hlen]
    decide
  · rw [honly a ha, hbuf]
  · rw [hnew]

end Calls
