import SideDumper.DoneList

/-!
# IN data on its way to the caller

The controller writes into a bounce buffer, and what arrives has to be copied
to the caller's buffer before the completion callback runs. Three paths end
in that callback. `sohci_return_urb` copies the first `actual_length` bytes;
`dl_del_list` and the branch of `sohci_unlink_urb` for a request that is not
pending copy nothing.

For bulk, control and interrupt requests `actual_length` is where the counted
data end, so the prefix is all of them. The packets of an isochronous request
lie at their own offsets, and only their lengths are added up. `dl_del_list`
counts what the controller has moved for the TD that it removes, before it
reports.
-/

/-- **The bytes counted in `actual_length`**, by their offset in the
buffer. -/
def Counted (r : Urb) (j : ℕ) : Prop :=
  if r.pipe.type = .iso then ∃ i < r.numberOfPackets,
    (r.isoFrameDesc i).offset ≤ j ∧
      j < (r.isoFrameDesc i).offset + (r.isoFrameDesc i).actualLength
  else (j : ℤ) < r.actualLength

/-- What the counted bytes depend on. -/
def Urb.counters (r : Urb) : Pipe × ℤ × ℕ × (ℕ → IsoFrame) :=
  (r.pipe, r.actualLength, r.numberOfPackets, r.isoFrameDesc)

/-- Every counted byte is in the caller's buffer as it is in the bounce
buffer. -/
def Delivered (o : Ohci) (u : UrbPtr) (buf : ℕ) : Prop :=
  ∀ j, Counted (o.urb u) j → (o.urb u).transferBuffer j = o.iop (buf + j)

/-- The memory with other contents of the caller's buffer and of the memory
the controller writes. -/
def Ohci.withData (o : Ohci) (u : UrbPtr) (f iop : ℕ → UInt8) : Ohci :=
  ({ o with iop := iop } : Ohci).modUrb u (fun r => { r with transferBuffer := f })

/-- The paths on which the completion callback of a URB runs. -/
inductive CallbackPath
  /-- `sohci_return_urb`. -/
  | returned
  /-- `dl_del_list`, at the TD `t` of the ED `e`. -/
  | deleted (e : EdPtr) (t : TdPtr) (tdP : TdLink)
  /-- `sohci_unlink_urb`, for a request that is not pending. -/
  | unlinked

/-- The memory the callback finds. -/
def CallbackPath.run (path : CallbackPath) (o : Ohci) (u : UrbPtr) : Option Ohci :=
  match path with
  | returned => some (returnUrb o u).1
  | deleted e t tdP => (delTd o e t tdP).map Prod.fst
  | unlinked => some (unlinkNow o u)

/-- **The callback of a URB runs on a path.** On the second one the TD is one
between `hwHeadP` and `hwTailP`, whether the controller has got to it or not. -/
def CallbackPath.Runs (path : CallbackPath) (o : Ohci) (u : UrbPtr) (p : UrbPriv) : Prop :=
  (o.urb u).hcpriv = some p ∧
    match path with
    | returned => (o.urb u).complete = true
    | deleted e t _ => (o.td t).urb = u ∧ (p.urbDel = true ∨ (o.ed e).state.del = true)
        ∧ (o.urb u).asyncUnlink = true
    | unlinked => (o.urb u).complete = true ∧ (o.urb u).asyncUnlink = true

/-- The URB as the path has counted it when the callback runs. -/
def CallbackPath.counted (path : CallbackPath) (o : Ohci) (u : UrbPtr) (p : UrbPriv) : Urb :=
  match path with
  | deleted _ t _ => if (o.td t).hwINFO.cc < 14 then countLength (o.urb u) p (o.td t) else o.urb u
  | returned | unlinked => o.urb u

section Paths

variable {o : Ohci} {u : UrbPtr} {p : UrbPriv} {path : CallbackPath} {f g : ℕ → UInt8}

theorem counted_congr {r r' : Urb} {j : ℕ} (h : r'.counters = r.counters) :
    Counted r' j ↔ Counted r j := by
  simp only [Urb.counters, Prod.mk.injEq] at h
  rw [Counted, Counted, h.1, h.2.1, h.2.2.1, h.2.2.2]

/-- **What a path does to the data**: the first `n` bytes are copied from the
bounce buffer, and nothing else changes. The bytes of `r` are counted then. -/
structure CopiesBack (o o' : Ohci) (u : UrbPtr) (r : Urb) (buf : ℕ) (n : ℤ) : Prop where
  iop : o'.iop = o.iop
  counted : ∀ j, Counted (o'.urb u) j ↔ Counted r j
  data : ∀ j : ℕ, (o'.urb u).transferBuffer j
    = if (j : ℤ) < n then o.iop (buf + j) else (o.urb u).transferBuffer j

theorem CopiesBack.delivered_iff {o' : Ohci} {r : Urb} {buf : ℕ} {n : ℤ}
    (h : CopiesBack o o' u r buf n) :
    Delivered o' u buf ↔ ∀ j, Counted r j → ¬ (j : ℤ) < n →
      (o.urb u).transferBuffer j = o.iop (buf + j) := by
  refine forall_congr' fun j => ?_
  rw [h.counted, h.data, h.iop]
  refine forall_congr' fun _ => ?_
  by_cases hj : (j : ℤ) < n <;> simp [hj]

/-- The prefix that a path copies. -/
def CallbackPath.prefixLength (path : CallbackPath) (r : Urb) : ℤ :=
  match path with
  | returned => r.actualLength
  | deleted _ _ _ | unlinked => 0

theorem prepareUrbOnReturn_copiesBack (hin : (o.urb u).pipe.out = false) :
    CopiesBack o (prepareUrbOnReturn o u p) u (o.urb u) p.transferBuffer
      (o.urb u).actualLength := by
  unfold prepareUrbOnReturn
  by_cases hlen : (o.urb u).actualLength = 0
  · rw [if_neg (by simp [hlen])]
    refine ⟨rfl, fun j => Iff.rfl, fun j => ?_⟩
    rw [hlen, if_neg (by omega)]
  · rw [if_pos (by simp [hin, hlen])]
    refine ⟨rfl, fun j => ?_, fun j => ?_⟩
    · rw [Ohci.modUrb_urb_self]
      exact counted_congr rfl
    · rw [Ohci.modUrb_urb_self]

/-- What does not touch the data copies no more and no less. -/
theorem CopiesBack.congr {o₁ o₂ : Ohci} {r : Urb} {buf : ℕ} {n : ℤ}
    (h : CopiesBack o o₁ u r buf n)
    (hiop : o₂.iop = o₁.iop) (hc : (o₂.urb u).counters = (o₁.urb u).counters)
    (hb : (o₂.urb u).transferBuffer = (o₁.urb u).transferBuffer) : CopiesBack o o₂ u r buf n where
  iop := hiop.trans h.iop
  counted := fun j => (counted_congr hc).trans (h.counted j)
  data := fun j => by rw [hb, h.data j]

theorem returnUrb_copiesBack (hp : (o.urb u).hcpriv = some p) (hc : (o.urb u).complete = true)
    (hin : (o.urb u).pipe.out = false) :
    CopiesBack o (returnUrb o u).1 u (o.urb u) p.transferBuffer (o.urb u).actualLength := by
  have h := prepareUrbOnReturn_copiesBack (p := p) hin
  rw [returnUrb, if_neg (by simp [hc]), hp]
  dsimp only
  split
  · exact h.congr rfl rfl rfl
  · exact h.congr (by simp) (by simp [Urb.counters]) (by simp)

/-- Reading through a path that copies nothing. -/
theorem CopiesBack.refl {buf : ℕ} : CopiesBack o o u (o.urb u) buf 0 := by
  refine ⟨rfl, fun j => Iff.rfl, fun j => ?_⟩
  rw [if_neg (by omega)]

theorem unlinkNow_copiesBack : CopiesBack o (unlinkNow o u) u (o.urb u) p.transferBuffer 0 := by
  unfold unlinkNow
  dsimp only
  split
  all_goals exact CopiesBack.refl.congr (by simp) (by simp [Urb.counters]) (by simp)

/-- What `dl_del_list` reports with. -/
theorem reportDel_copiesBack {o' : Ohci} {r : Urb} {buf : ℕ} (h : CopiesBack o o' u r buf 0) :
    CopiesBack o (reportDel o' u) u r buf 0 := by
  unfold reportDel
  split
  · exact h.congr (by simp) (by simp [Urb.counters]) (by simp)
  · exact h.congr rfl rfl rfl

/-- The count leaves the data and the private part. -/
theorem countLength_eq (r : Urb) (p : UrbPriv) (td : Td) :
    (countLength r p td).transferBuffer = r.transferBuffer ∧
      (countLength r p td).hcpriv = r.hcpriv := by
  unfold countLength countIso countGeneral
  split
  · dsimp only
    split <;> exact ⟨rfl, rfl⟩
  · split <;> exact ⟨rfl, rfl⟩

/-- Whatever is in the caller's buffer, the same bytes are counted. -/
theorem countLength_counters (r : Urb) (p : UrbPriv) (td : Td) (f : ℕ → UInt8) :
    (countLength { r with transferBuffer := f } p td).counters
      = (countLength r p td).counters := by
  unfold countLength
  split
  · unfold countIso
    dsimp only
    split <;> rfl
  · have hiff : countsData { r with transferBuffer := f } p td ↔ countsData r p td := Iff.rfl
    unfold countGeneral
    by_cases hd : countsData r p td
    · rw [if_pos hd, if_pos (hiff.mpr hd)]
      rfl
    · rw [if_neg hd, if_neg (mt hiff.mp hd)]
      rfl

theorem countMoved_urb (e : EdPtr) {t : TdPtr} (tdP : TdLink) (hu : (o.td t).urb = u) :
    (countMoved o t p).urb u = (CallbackPath.deleted e t tdP).counted o u p := by
  dsimp only [countMoved, CallbackPath.counted]
  split
  · rw [hu, Ohci.modUrb_urb_self]
  · rfl

theorem delTd_copiesBack {e : EdPtr} {t : TdPtr} {tdP : TdLink} (hu : (o.td t).urb = u)
    (hp : (o.urb u).hcpriv = some p) (hdel : p.urbDel = true ∨ (o.ed e).state.del = true) :
    ∃ o' l, delTd o e t tdP = some (o', l) ∧
      CopiesBack o o' u ((CallbackPath.deleted e t tdP).counted o u p) p.transferBuffer 0 := by
  refine ⟨_, _, delTd_eq hu hp hdel, reportDel_copiesBack ?_⟩
  obtain ⟨hdata, hpriv⟩ : ((countMoved o t p).urb u).transferBuffer = (o.urb u).transferBuffer ∧
      ((countMoved o t p).urb u).hcpriv = some p := by
    rw [countMoved_urb e tdP hu, ← hp]
    dsimp only [CallbackPath.counted]
    split
    · exact countLength_eq _ _ _
    · exact ⟨rfl, rfl⟩
  have hmoved : CopiesBack o (countMoved o t p) u ((CallbackPath.deleted e t tdP).counted o u p)
      p.transferBuffer 0 := by
    refine ⟨?_, fun j => ?_, fun j => ?_⟩
    · unfold countMoved
      split <;> rfl
    · rw [countMoved_urb e tdP hu]
    · rw [hdata, if_neg (by omega)]
  have hcount : CopiesBack o (countTd ((countMoved o t p).setTdLink tdP (o.nextTD t)) u) u
      ((CallbackPath.deleted e t tdP).counted o u p) p.transferBuffer 0 := by
    refine hmoved.congr (by simp [countTd, Ohci.modPriv]) ?_ ?_
    all_goals simp [countTd_urb_self (o := (countMoved o t p).setTdLink tdP (o.nextTD t))
      (p := p) (u := u)
      (by rw [setTdLink_urb, hpriv]), Urb.counters]
  split
  · exact hcount.congr (by simp) (by simp [Urb.counters]) (by simp)
  · exact hcount

/-- Whatever is in the two buffers, the same bytes are counted. -/
theorem counted_withData (j : ℕ) :
    Counted (path.counted (o.withData u f g) u p) j ↔ Counted (path.counted o u p) j := by
  have hurb : (o.withData u f g).urb u = { o.urb u with transferBuffer := f } :=
    Ohci.modUrb_urb_self _ _ _
  have htd : (o.withData u f g).td = o.td := rfl
  refine counted_congr ?_
  cases path with
  | returned | unlinked =>
    dsimp only [CallbackPath.counted]
    rw [hurb]
    rfl
  | deleted e t tdP =>
    dsimp only [CallbackPath.counted]
    rw [hurb, htd]
    split
    · exact countLength_counters _ _ _ _
    · rfl

/-- **When IN data reaches the caller.** On the path of `sohci_return_urb` it
does exactly when every counted byte lies in the first `actual_length` bytes;
on the other paths exactly when nothing has been counted, the count of the TD
at which `dl_del_list` reports included. -/
theorem callback_delivered_iff (hr : path.Runs o u p) (hin : (o.urb u).pipe.out = false) :
    (∀ f g, ∃ o', path.run (o.withData u f g) u = some o' ∧ Delivered o' u p.transferBuffer)
      ↔ ∀ j, Counted (path.counted o u p) j → (j : ℤ) < path.prefixLength (o.urb u) := by
  have hcopy : ∀ f g, ∃ o', path.run (o.withData u f g) u = some o' ∧
      CopiesBack (o.withData u f g) o' u (path.counted (o.withData u f g) u p) p.transferBuffer
        (path.prefixLength (o.urb u)) := by
    intro f g
    have hurb : (o.withData u f g).urb u = { o.urb u with transferBuffer := f } :=
      Ohci.modUrb_urb_self _ _ _
    obtain ⟨hp, hpath⟩ := hr
    cases path with
    | returned =>
      refine ⟨_, rfl, ?_⟩
      have h := returnUrb_copiesBack (o := o.withData u f g) (p := p) (u := u)
        (by rw [hurb]; exact hp) (by rw [hurb]; exact hpath) (by rw [hurb]; exact hin)
      have hlen : ((o.withData u f g).urb u).actualLength = (o.urb u).actualLength := by rw [hurb]
      rwa [hlen] at h
    | deleted e t tdP =>
      obtain ⟨hu, hdel, -⟩ := hpath
      obtain ⟨o', l, heq, h⟩ := delTd_copiesBack (o := o.withData u f g) (p := p) (u := u)
        (e := e) (t := t) hu (by rw [hurb]; exact hp) hdel
      exact ⟨o', by rw [CallbackPath.run, heq]; rfl, h⟩
    | unlinked => exact ⟨_, rfl, unlinkNow_copiesBack⟩
  constructor
  · -- a byte the path does not copy is told by what the two buffers hold
    intro h j hj
    by_contra hlen
    obtain ⟨o', heq, hd⟩ := h (fun _ => 0) (fun _ => 1)
    obtain ⟨o'', heq', hc⟩ := hcopy (fun _ => 0) (fun _ => 1)
    rw [heq, Option.some.injEq] at heq'
    subst heq'
    have hbyte := hc.delivered_iff.mp hd j ((counted_withData j).mpr hj) hlen
    simp [Ohci.withData] at hbyte
  · intro h f g
    obtain ⟨o', heq, hc⟩ := hcopy f g
    exact ⟨o', heq, hc.delivered_iff.mpr (fun j hj hlen =>
      absurd (h j ((counted_withData j).mp hj)) hlen)⟩

/-- A memory with the one request `r`, at the address 1. -/
def Ohci.ofUrb (r : Urb) : Ohci :=
  { (default : Ohci) with urb := fun u => if u = 1 then r else default }

/-- An isochronous request with two packets at the offsets 0 and 100 that
have brought ten bytes each, about to be returned. -/
def twoPackets : Urb :=
  { (default : Urb) with
    pipe := ⟨.iso, 1, 1, false, false⟩
    complete := true
    actualLength := 20
    numberOfPackets := 2
    isoFrameDesc := fun i => ⟨100 * i, 100, 10, .ok⟩
    hcpriv := some default }

/-- A bulk request whose only TD the controller has begun with when it is
unlinked: 100 of 4096 bytes have come in. -/
def partlyMoved : Ohci :=
  (Ohci.ofUrb { (default : Urb) with
    pipe := ⟨.bulk, 1, 1, false, false⟩
    complete := true
    asyncUnlink := true
    status := .einprogress
    hcpriv := some { (default : UrbPriv) with
      length := 1
      urbDel := true
      transferBuffer := 0x1000 } }).modTd 3
  (fun r => { r with
    urb := 1
    hwINFO := { genInfo .in .toggle true with cc := 0 }
    hwCBP := 0x1064
    hwBE := 0x1fff })

/-- The second packet of the isochronous request is not copied, and of the
bulk request nothing is when `dl_del_list` reports it. -/
theorem not_delivered : (¬ ∀ f g, ∃ o',
      (CallbackPath.deleted 2 3 (.head 2)).run (partlyMoved.withData 1 f g) 1 = some o' ∧
        Delivered o' 1 0x1000) ∧
    ¬ ∀ (path : CallbackPath) (o : Ohci) (u : UrbPtr) (p : UrbPriv),
      path.Runs o u p → (o.urb u).pipe.out = false → ∀ f g, ∃ o',
        path.run (o.withData u f g) u = some o' ∧ Delivered o' u p.transferBuffer := by
  constructor
  · intro h
    obtain ⟨o', heq, hd⟩ := h (fun _ => 0) (fun _ => 1)
    have hbyte := hd 0
    rw [← Option.some.inj heq] at hbyte
    exact absurd (hbyte (by decide : (0 : ℤ) < 100)) (by decide)
  · intro h
    obtain ⟨o', heq, hd⟩ := h .returned (.ofUrb twoPackets) 1 default ⟨rfl, rfl⟩ rfl
      (fun _ => 0) (fun _ => 1)
    have hbyte := hd 100
    rw [← Option.some.inj heq] at hbyte
    exact absurd (hbyte ⟨1, by decide, by decide, by decide⟩) (by decide)

/-- A bulk request of two TDs that have brought 5000 bytes. -/
def bulkDone : Urb :=
  { (default : Urb) with
    pipe := ⟨.bulk, 1, 1, false, false⟩
    complete := true
    actualLength := 5000
    hcpriv :=
      some { (default : UrbPriv) with length := 2, tdCnt := 2, transferBuffer := 0x1000 } }

/-- A bulk request that completes normally has all of its data. -/
theorem delivered_bulk : ∃ o', CallbackPath.returned.run
    ((Ohci.ofUrb bulkDone).withData 1 (fun _ => 0) (fun _ => 1)) 1 = some o'
      ∧ Delivered o' 1 0x1000 := by
  have hruns : CallbackPath.returned.Runs (.ofUrb bulkDone) 1
      { (default : UrbPriv) with length := 2, tdCnt := 2, transferBuffer := 0x1000 } := ⟨rfl, rfl⟩
  exact (callback_delivered_iff hruns rfl).mpr (fun _ hj => hj) _ _

end Paths
