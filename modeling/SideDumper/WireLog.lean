import SideDumper.OutData
import SideDumper.CopyBack
import SideDumper.TdFills
import SideDumper.TdLists
import SideDumper.BulkTds
import SideDumper.DumpHooks

/-!
# The log and the wire

`SideDumper_OnSubmit` copies the caller's buffer and `Portable_PrepareUrbOnSubmit`
copies it once more, into the bounce buffer that the TDs point to. `moved` are the
bytes that the controller moves when it goes along the queue of the ED from where
it ended before the request to where it ends now: for a control request the setup
packet and then the data, for a bulk request the pieces of 4096 bytes that it is
cut into. A TD reaches over two pages at most; the data of a control or interrupt
request have a single TD, whatever their length. The entry in the log is put
together from the very same bytes.

In the other direction `SideDumper_OnReturn` looks at the caller's buffer when what
has arrived has just been copied there.
-/

/-! ## Ranges of bytes -/

/-- The `n` bytes at an address. -/
def bytesAt (mem : ℕ → UInt8) (a n : ℕ) : List UInt8 := (List.range n).map fun k => mem (a + k)

section Ranges

variable {mem : ℕ → UInt8} {a n : ℕ}

theorem bytesAt_length : (bytesAt mem a n).length = n := by
  rw [bytesAt, List.length_map, List.length_range]

theorem bytesAt_add (mem : ℕ → UInt8) (a m n : ℕ) :
    bytesAt mem a (m + n) = bytesAt mem a m ++ bytesAt mem (a + m) n := by
  simp only [bytesAt, List.range_add, List.map_append, List.map_map, Function.comp_def,
    Nat.add_assoc]

theorem bytesAt_congr {mem' : ℕ → UInt8} {b : ℕ} (h : ∀ j < n, mem (a + j) = mem' (b + j)) :
    bytesAt mem a n = bytesAt mem' b n :=
  List.map_congr_left fun j hj => h j (List.mem_range.mp hj)

theorem bytesAt_take (mem : ℕ → UInt8) (a n m : ℕ) :
    (bytesAt mem a n).take m = bytesAt mem a (min m n) := by
  rw [bytesAt, ← List.map_take, List.take_range]
  rfl

/-- **A range that is cut into pieces.** -/
theorem bytesAt_chunks (mem : ℕ → UInt8) (a size n : ℕ) :
    (List.range n).flatMap (fun i => bytesAt mem (a + size * i) size)
      = bytesAt mem a (size * n) := by
  induction n with
  | zero => rfl
  | succ n ih =>
    rw [List.range_succ, List.flatMap_append, ih, List.flatMap_singleton, Nat.mul_succ,
      bytesAt_add]

end Ranges

/-! ## What the controller moves -/

/-- **The bytes of a general TD**: from `hwCBP` to `hwBE`, or none. Where these are
on different pages, the controller goes on at the start of the page of `hwBE` when
it comes to the end of the other one. -/
def Ohci.tdBytes (o : Ohci) (t : TdPtr) : List UInt8 :=
  let first := (o.td t).hwCBP
  let last := (o.td t).hwBE
  if first = 0 then []
  else if first / 4096 = last / 4096 then bytesAt o.iop first (last + 1 - first)
  else bytesAt o.iop first (4096 - first % 4096) ++ bytesAt o.iop (4096 * (last / 4096))
    (last % 4096 + 1)

/-- **The bytes that are moved** along a queue from `t` on, up to its end at
`stop`, by `n` TDs at most. -/
def Ohci.moved (o : Ohci) (stop : TdPtr) : ℕ → TdPtr → List UInt8
  | 0, _ => []
  | n + 1, t => if t = stop then [] else o.tdBytes t ++ o.moved stop n (o.nextTD t)

/-- The bytes of a call of `td_fill`. -/
def TdCall.bytes (mem : ℕ → UInt8) (c : TdCall) : List UInt8 :=
  if c.data = 0 ∨ c.len = 0 then [] else bytesAt mem c.data c.len

/-- A call of `td_fill` for bytes on two pages at most. -/
def TdCall.TwoPages (c : TdCall) : Prop := c.data % 4096 + c.len ≤ 8192

section Moved

variable {o o' : Ohci} {u : UrbPtr} {p p' : UrbPriv} {cs : List TdCall} {n : ℕ}

theorem tdBytes_tdOf {t : TdPtr} {e : EdPtr} {type : PipeType} {c : TdCall} {i : ℕ} {next : TdPtr}
    (htype : type ≠ .iso) (hpages : c.TwoPages) (h : o.td t = tdOf u e type c i next) :
    o.tdBytes t = c.bytes o.iop := by
  unfold Ohci.tdBytes
  rw [h, tdOf]
  dsimp only
  rw [TdCall.cbp, if_neg htype, TdCall.start, TdCall.be, TdCall.bytes]
  unfold TdCall.TwoPages at hpages
  by_cases hnone : c.data = 0 ∨ c.len = 0
  · simp only [if_pos hnone]
    rfl
  · have hdata : c.data ≠ 0 := fun h => hnone (.inl h)
    have hlen : c.len ≠ 0 := fun h => hnone (.inr h)
    simp only [if_neg hnone, if_neg hdata]
    split
    · rw [show c.data + c.len - 1 + 1 - c.data = c.len by omega]
    · -- the second page is the next one
      have hnext : 4096 * ((c.data + c.len - 1) / 4096)
          = c.data + (4096 - c.data % 4096) := by omega
      rw [hnext, ← bytesAt_add,
        show 4096 - c.data % 4096 + ((c.data + c.len - 1) % 4096 + 1) = c.len by omega]

/-- **The queue from its former end on** has the bytes of the calls, in order. -/
theorem Fills.moved (hf : Fills u p cs 0 cs.length o o' p') (ha : o.TdsApart p)
    (hlen : cs.length ≤ p.length)
    (htype : (o.ed p.ed).type ≠ .iso) (hpages : ∀ c ∈ cs, c.TwoPages) (hn : cs.length ≤ n) :
    o'.moved (o'.ed p.ed).hwTailP n (o.ed p.ed).hwTailP = cs.flatMap (TdCall.bytes o'.iop) := by
  have hsuffix : ∀ k i, i + k = cs.length → ∀ m, k ≤ m →
      o'.moved (o'.ed p.ed).hwTailP m (if i = 0 then
      (o.ed p.ed).hwTailP else p.td (i - 1)) = (cs.drop i).flatMap (TdCall.bytes o'.iop) := by
    intro k
    induction k with
    | zero =>
      intro i hi m _
      have htail : (o'.ed p.ed).hwTailP =
          if i = 0 then (o.ed p.ed).hwTailP else p.td (i - 1) := by
        rw [hf.tail, Nat.zero_add, ← hi, Nat.add_zero]
      rw [← htail, List.drop_of_length_le (by omega)]
      cases m with
      | zero => rfl
      | succ m => exact if_pos rfl
    | succ k ih =>
      intro i hi m hm
      obtain ⟨m, rfl⟩ := Nat.exists_eq_succ_of_ne_zero (show m ≠ 0 by omega)
      have hslot : p'.td i = if i = 0 then (o.ed p.ed).hwTailP else p.td (i - 1) := by
        rw [hf.slot, if_pos (by omega)]
      have hnot : ¬ (if i = 0 then (o.ed p.ed).hwTailP else p.td (i - 1))
          = (o'.ed p.ed).hwTailP := by
        rw [hf.tail, if_neg (show cs.length ≠ 0 by omega), Nat.zero_add]
        split
        · exact (ha.tail _ (by omega)).symm
        · intro heq
          have := ha.slot _ (by omega) _ (by omega) heq
          omega
      have htd := hf.td i (by omega) _ (List.getElem?_eq_getElem (show i < cs.length by omega))
      rw [Nat.zero_add, hslot] at htd
      have hnext : o'.nextTD (if i = 0 then (o.ed p.ed).hwTailP else p.td (i - 1)) = p.td i := by
        rw [Ohci.nextTD, htd, tdOf]
      rw [Ohci.moved, if_neg hnot, tdBytes_tdOf htype (hpages _ (List.getElem_mem _)) htd, hnext,
        List.drop_eq_getElem_cons (by omega), List.flatMap_cons]
      have hrest := ih (i + 1) (by omega) m (by omega)
      rw [if_neg (Nat.succ_ne_zero i), Nat.add_sub_cancel] at hrest
      rw [hrest]
  exact hsuffix cs.length 0 (Nat.zero_add _) n hn

end Moved

/-! ## The bytes of a request -/

section Calls

variable {mem : ℕ → UInt8} {r : Urb} {p : UrbPriv} {first : TdToggle} {data len : ℕ}

theorem bytes_of_ne {c : TdCall} (h : c.len ≠ 0 → c.data ≠ 0) :
    c.bytes mem = bytesAt mem c.data c.len := by
  rw [TdCall.bytes]
  by_cases h0 : c.len = 0
  · rw [if_pos (.inr h0), h0]
    rfl
  · rw [if_neg (not_or.mpr ⟨h h0, h0⟩)]

/-- The pieces of a bulk request are the buffer. -/
theorem bytes_bulkCalls (out : Bool) (first : TdToggle) (hdata : len ≠ 0 → data ≠ 0) :
    (bulkCalls out first data len).flatMap (TdCall.bytes mem) = bytesAt mem data len := by
  have hle : 4096 * ((len - 1) / 4096) ≤ len := by omega
  have hpieces : ∀ m ≤ (len - 1) / 4096, (List.range m).flatMap (fun cnt => TdCall.bytes mem
      ⟨genInfo (if out then .out else .in) (if cnt = 0 then first else .toggle) false,
        data + 4096 * cnt, 4096⟩)
        = bytesAt mem data (4096 * m) := by
    intro m hm
    rw [← bytesAt_chunks mem data 4096 m]
    refine List.flatMap_congr fun cnt hcnt => bytes_of_ne fun _ => ?_
    have hcnt := List.mem_range.mp hcnt
    have hlen := hdata (by omega)
    dsimp only
    omega
  unfold bulkCalls
  dsimp only
  rw [List.flatMap_append, List.flatMap_map, hpieces _ (Nat.le_refl _), List.flatMap_singleton,
    bytes_of_ne]
  · dsimp only
    rw [← bytesAt_add, Nat.add_sub_cancel' hle]
  · dsimp only
    intro h0
    have hlen := hdata (by omega)
    omega

/-- **The bytes of the TDs of a request.** -/
theorem bytes_tdCalls (htype : r.pipe.type ≠ .iso) (hdata : r.transferBufferLength ≠ 0 →
    p.transferBuffer ≠ 0)
    (hsetup : r.pipe.type = .ctrl → p.setupPacket ≠ 0) :
    (tdCalls r p first).flatMap (TdCall.bytes mem)
      = (if r.pipe.type = .ctrl then bytesAt mem p.setupPacket 8 else [])
        ++ bytesAt mem p.transferBuffer r.transferBufferLength := by
  unfold tdCalls
  cases hty : r.pipe.type with
  | iso => exact absurd hty htype
  | bulk =>
    rw [if_neg (by decide), List.nil_append]
    exact bytes_bulkCalls _ _ hdata
  | int =>
    rw [if_neg (by decide), List.nil_append]
    dsimp only [intCalls]
    rw [List.flatMap_singleton, bytes_of_ne]
    exact hdata
  | ctrl =>
    have hpacket : TdCall.bytes mem ⟨genInfo .setup .data0 false, p.setupPacket, 8⟩
        = bytesAt mem p.setupPacket 8 :=
      bytes_of_ne fun _ => hsetup hty
    have hstatus : ∀ dp, TdCall.bytes mem ⟨genInfo dp .data1 false, 0, 0⟩ = [] :=
      fun _ => if_pos (.inl rfl)
    rw [if_pos rfl]
    dsimp only [controlCalls]
    rw [List.flatMap_cons, List.flatMap_append, List.flatMap_singleton, hpacket, hstatus,
      List.append_nil]
    congr 1
    split
    · rename_i h0
      rw [h0]
      rfl
    · rw [List.flatMap_singleton, bytes_of_ne]
      exact hdata

/-- **When the TDs of a request reach over two pages at most**: the pieces of a bulk
request always do. -/
theorem twoPages_tdCalls (htype : r.pipe.type ≠ .iso)
    (hpages : r.pipe.type ≠ .bulk → r.transferBufferLength ≠ 0 →
      p.transferBuffer % 4096 + r.transferBufferLength ≤ 8192) :
    ∀ c ∈ tdCalls r p first, c.TwoPages := by
  unfold tdCalls TdCall.TwoPages
  cases hty : r.pipe.type with
  | iso => exact absurd hty htype
  | bulk =>
    intro c hc
    obtain hc | hc := List.mem_append.mp hc
    · obtain ⟨cnt, -, rfl⟩ := List.mem_map.mp hc
      dsimp only
      omega
    · rw [List.mem_singleton.mp hc]
      dsimp only
      omega
  | int =>
    intro c hc
    rw [List.mem_singleton.mp hc]
    dsimp only
    have := hpages (by rw [hty]; decide)
    omega
  | ctrl =>
    intro c hc
    obtain rfl | hc := List.mem_cons.mp hc
    · dsimp only
      omega
    obtain hc | hc := List.mem_append.mp hc
    · split at hc
      · cases hc
      · rw [List.mem_singleton.mp hc]
        exact hpages (by rw [hty]; decide) ‹_›
    · rw [List.mem_singleton.mp hc]
      dsimp only
      omega

end Calls

/-! ## The bounce buffers -/

section Bounce

variable {o o' : Ohci} {u : UrbPtr} {p : UrbPriv} {fuel buf setup : ℕ}

theorem modPriv_iop (f : UrbPriv → UrbPriv) : (o.modPriv u f).iop = o.iop := rfl

theorem fillTd_iop {c : TdCall} {i : ℕ} : (fillTd o u p c i).iop = o.iop := by
  unfold fillTd
  dsimp only
  split
  · rw [Ohci.modTd_iop, Ohci.modEd_iop, Ohci.modTd_iop, Ohci.modEd_iop, Ohci.modTd_iop,
      modPriv_iop]
  · rw [Ohci.modTd_iop, Ohci.modEd_iop, Ohci.modTd_iop, Ohci.modTd_iop, modPriv_iop]

theorem tdFills_iop {cs : List TdCall} {i : ℕ} (h : tdFills u cs i o = some o') :
    o'.iop = o.iop := by
  induction cs generalizing i o with
  | nil =>
    cases h
    rfl
  | cons c cs ih =>
    obtain ⟨o₁, h₁, h⟩ := Option.bind_eq_some_iff.mp h
    obtain ⟨p, hp, -⟩ := Option.bind_eq_some_iff.mp h₁
    rw [ih h]
    by_cases hi : i < p.length
    · rw [tdFill_eq hp hi, Option.some.injEq] at h₁
      rw [← h₁, fillTd_iop]
    · rw [tdFill_of_le hp (by omega), Option.some.injEq] at h₁
      rw [h₁]

theorem tdSubmitUrb_iop (h : tdSubmitUrb o u = some o') : o'.iop = o.iop := by
  obtain ⟨p, -, h⟩ := Option.bind_eq_some_iff.mp h
  have hstart : ((submitStart o u).log (.submitTds u)).iop = o.iop := by
    unfold submitStart
    rfl
  rw [tdFills_iop h, hstart]

/-- **What `Portable_PrepareUrbOnSubmit` leaves**, for a request with a private
part: the bounce buffers, with the caller's bytes in them. -/
structure Prepared (o o' : Ohci) (u : UrbPtr) (p q : UrbPriv) (buf setup : ℕ) : Prop where
  urb : o'.urb u = { o.urb u with hcpriv := some q }
  ed : o'.ed = o.ed
  td : o'.td = o.td
  priv : q.ed = p.ed ∧ q.length = p.length ∧ q.td = p.td
  buffer : (o.urb u).transferBufferLength ≠ 0 → q.transferBuffer = buf ∧ buf ≠ 0
  data : ∀ j < (o.urb u).transferBufferLength, o'.iop (q.transferBuffer + j)
    = (o.urb u).transferBuffer j
  packet : ∀ packet, (o.urb u).setupPacket = some packet → q.setupPacket ≠ 0 ∧
    ∀ j < 8, o'.iop (q.setupPacket + j) = packet j

/-- The part of `Portable_PrepareUrbOnSubmit` for the data. -/
theorem prepared_data (hp : (o.urb u).hcpriv = some p)
    (hbuf : (o.urb u).transferBufferLength ≠ 0 → buf ≠ 0)
    (ho' : (if (o.urb u).transferBufferLength ≠ 0 then
      copyIn (o.modPriv u (fun p => { p with transferBuffer := buf })) buf
        (o.urb u).transferBuffer
        (o.urb u).transferBufferLength else o) = o') :
    ∃ q, o'.urb u = { o.urb u with hcpriv := some q } ∧ o'.ed = o.ed ∧ o'.td = o.td ∧
      (q.ed = p.ed ∧ q.length = p.length ∧ q.td = p.td) ∧
      ((o.urb u).transferBufferLength ≠ 0 → q.transferBuffer = buf ∧ buf ≠ 0) ∧
      ∀ j < (o.urb u).transferBufferLength, o'.iop (q.transferBuffer + j)
        = (o.urb u).transferBuffer j := by
  subst ho'
  split
  · rename_i hlen
    have hself := Ohci.modPriv_urb_self o u (fun p => { p with transferBuffer := buf })
    rw [hp] at hself
    refine ⟨{ p with transferBuffer := buf }, hself, rfl, rfl, ⟨rfl, rfl, rfl⟩,
      fun _ => ⟨rfl, hbuf hlen⟩, fun j hj => ?_⟩
    rw [copyIn]
    dsimp only
    rw [if_pos ⟨Nat.le_add_right _ _, by omega⟩, Nat.add_sub_cancel_left]
  · rename_i hlen
    rw [not_not] at hlen
    refine ⟨p, ?_, rfl, rfl, ⟨rfl, rfl, rfl⟩, fun h => absurd hlen h, fun j hj => by omega⟩
    rw [← hp]

/-- **`Portable_PrepareUrbOnSubmit` copies the caller's bytes.** -/
theorem prepared_prepareUrbOnSubmit (hp : (o.urb u).hcpriv = some p)
    (hdisj : setup + 8 ≤ buf ∨ buf + (o.urb u).transferBufferLength ≤ setup)
    (h : prepareUrbOnSubmit o u buf setup = (o', true)) : ∃ q, Prepared o o' u p q buf setup := by
  unfold prepareUrbOnSubmit at h
  dsimp only at h
  split at h
  · cases h
  rename_i hbuf
  have hbuf : (o.urb u).transferBufferLength ≠ 0 → buf ≠ 0 := fun hlen h0 => hbuf ⟨hlen, h0⟩
  obtain ⟨o₁, h₁⟩ : ∃ o₁, (if (o.urb u).transferBufferLength ≠ 0 then
      copyIn (o.modPriv u (fun p => { p with transferBuffer := buf })) buf
        (o.urb u).transferBuffer
        (o.urb u).transferBufferLength else o) = o₁ := ⟨_, rfl⟩
  rw [h₁] at h
  obtain ⟨q, hurb, hed, htd, hpriv, hbuffer, hdata⟩ := prepared_data hp hbuf h₁
  split at h
  · rename_i hnone
    cases h
    exact ⟨q, hurb, hed, htd, hpriv, hbuffer, hdata,
      fun packet hpacket => by rw [hnone] at hpacket; cases hpacket⟩
  rename_i packet hpacket
  split at h
  · cases h
  rename_i hsetup
  cases h
  have hself := Ohci.modPriv_urb_self o₁ u (fun p => { p with setupPacket := setup })
  rw [hurb] at hself
  refine ⟨{ q with setupPacket := setup }, hself, hed, htd, hpriv, hbuffer, fun j hj => ?_,
    fun packet' hpacket' => ?_⟩
  · -- the setup packet lies elsewhere
    obtain ⟨heq, -⟩ := hbuffer (by omega)
    rw [copyIn]
    dsimp only
    rw [if_neg (by omega)]
    exact hdata j hj
  · rw [hpacket, Option.some.injEq] at hpacket'
    subst hpacket'
    refine ⟨hsetup, fun j hj => ?_⟩
    rw [copyIn]
    dsimp only
    rw [if_pos ⟨Nat.le_add_right _ _, by omega⟩, Nat.add_sub_cancel_left]

end Bounce

/-! ## What is sent -/

/-- **What a request sends**: the setup packet of a control request, and the data. -/
def Urb.outBytes (r : Urb) : List UInt8 :=
  (if r.pipe.type = .ctrl then bytesAt (r.setupPacket.getD fun _ => 0) 0 8 else [])
    ++ bytesAt r.transferBuffer 0 r.transferBufferLength

/-- **A request for `sohci_submit_urb` to queue**: it is not isochronous, a control
request has a setup packet, and its private part has TDs enough, which are
different from each other. -/
structure Ohci.SubmitReady (o : Ohci) (u : UrbPtr) (p : UrbPriv) : Prop where
  priv : (o.urb u).hcpriv = some p
  general : (o.urb u).pipe.type ≠ .iso
  ed : (o.ed p.ed).type ≠ .iso
  packet : (o.urb u).pipe.type = .ctrl → (o.urb u).setupPacket.isSome
  enough : (o.urb u).const.tdCount ≤ p.length
  apart : o.TdsApart p

section Sent

variable {o o' : Ohci} {u : UrbPtr} {p : UrbPriv} {fuel buf setup : ℕ}

/-- **The memory with which `sohci_submit_urb` calls `td_submit_urb`**: the bounce
buffers have the caller's bytes, and the queue is as it was. -/
structure Bounces (o o₁ : Ohci) (u : UrbPtr) (p q : UrbPriv) (buf : ℕ) : Prop where
  priv : (o₁.urb u).hcpriv = some q
  const : (o₁.urb u).const = (o.urb u).const
  slots : q.ed = p.ed ∧ q.length = p.length ∧ q.td = p.td
  queue : ∀ e, (o₁.ed e).hwTailP = (o.ed e).hwTailP ∧ (o₁.ed e).type = (o.ed e).type
  buffer : (o.urb u).transferBufferLength ≠ 0 → q.transferBuffer = buf ∧ buf ≠ 0
  data : ∀ j < (o.urb u).transferBufferLength, o₁.iop (q.transferBuffer + j)
    = (o.urb u).transferBuffer j
  packet : ∀ packet, (o.urb u).setupPacket = some packet → q.setupPacket ≠ 0 ∧
    ∀ j < 8, o₁.iop (q.setupPacket + j) = packet j

theorem submitSecond_call (hp : (o.urb u).hcpriv = some p)
    (hdisj : setup + 8 ≤ buf ∨ buf + (o.urb u).transferBufferLength ≤ setup)
    (h : submitSecond fuel o u buf setup = some (o', true)) :
    ∃ q o₁, tdSubmitUrb o₁ u = some o' ∧ Bounces o o₁ u p q buf := by
  obtain ⟨p₀, hp₀, ⟨hfalse, -⟩ | ⟨-, -, n, o₁, ho₁, ⟨hfalse, -⟩ | ⟨-, hok, hlink⟩⟩⟩ :=
    submitSecond_outcome h
  · cases hfalse
  · cases hfalse
  obtain rfl : p₀ = p := Option.some.inj (hp₀.symm.trans hp)
  have hurb₀ : (o.modUrb u (fun r => { r with startFrame := n })).urb u
      = { o.urb u with startFrame := n } :=
    Ohci.modUrb_urb_self _ _ _
  have hprep : prepareUrbOnSubmit (o.modUrb u (fun r => { r with startFrame := n })) u buf setup
      = (o₁, true) := by
    refine Prod.ext ho₁.symm ?_
    rw [prepareUrbOnSubmit_snd, hurb₀]
    exact hok
  obtain ⟨q, hq⟩ :=
    prepared_prepareUrbOnSubmit (by rw [hurb₀]; exact hp₀) (by rw [hurb₀]; exact hdisj) hprep
  obtain ⟨o₂, ho₂, hsubmit⟩ := submitLink_steps hlink
  have hqueues : o₂.queues
      = (o₁.modUrb u (fun r => { r with status := .einprogress, actualLength := 0 })).queues := by
    obtain ⟨-, rfl⟩ | ⟨-, hep⟩ := ho₂
    · rfl
    · exact queues_epLink hep
  have hurb := hq.urb
  have hbuffer := hq.buffer
  have hdata := hq.data
  have hpacket := hq.packet
  rw [hurb₀] at hurb hbuffer hdata hpacket
  have hurb₂ : o₂.urb u = { o₁.urb u with status := .einprogress, actualLength := 0 } :=
    (congrFun (congrArg Queues.urb hqueues) u).trans
      (Ohci.modUrb_urb_self o₁ u (fun r => { r with status := .einprogress, actualLength := 0 }))
  have hiop₂ : o₂.iop = o₁.iop := congrArg Queues.iop hqueues
  have hqueue₂ : ∀ e, (o₂.ed e).queue = (o₁.ed e).queue :=
    fun e => congrFun (congrArg Queues.queue hqueues) e
  refine ⟨q, _, hsubmit, ?_⟩
  have hurb₃ := Ohci.modUrb_urb_self o₂ u (fun r => { r with status := .einprogress })
  rw [hurb₂, hurb] at hurb₃
  refine ⟨?_, ?_, hq.priv, fun e => ?_, hbuffer, fun j hj => ?_, fun packet hpkt => ?_⟩
  · rw [hurb₃]
  · rw [hurb₃]
    rfl
  · have he := hqueue₂ e
    rw [hq.ed] at he
    exact ⟨congrArg EdQueue.hwTailP he, congrArg EdQueue.type he⟩
  · rw [Ohci.modUrb_iop, hiop₂]
    exact hdata j hj
  · rw [Ohci.modUrb_iop, hiop₂]
    exact hpacket packet hpkt

/-- **What is queued by `sohci_submit_urb` sends the caller's bytes**, those that
the caller's buffer holds when the bounce buffers are filled. -/
theorem moved_submitSecond (hr : o.SubmitReady u p)
    (hdisj : setup + 8 ≤ buf ∨ buf + (o.urb u).transferBufferLength ≤ setup)
    (hpages : (o.urb u).pipe.type ≠ .bulk → buf % 4096 + (o.urb u).transferBufferLength ≤ 8192)
    (h : submitSecond fuel o u buf setup = some (o', true)) :
    o'.moved (o'.ed p.ed).hwTailP p.length (o.ed p.ed).hwTailP = (o.urb u).outBytes := by
  obtain ⟨q, o₁, hsubmit, hb⟩ := submitSecond_call hr.priv hdisj h
  obtain ⟨hed, hlength, htd⟩ := hb.slots
  have hpipe : (o₁.urb u).pipe = (o.urb u).pipe := congrArg UrbConst.pipe hb.const
  have hlen : (o₁.urb u).transferBufferLength = (o.urb u).transferBufferLength :=
    congrArg UrbConst.transferBufferLength hb.const
  have ha : o₁.TdsApart { q with tdCnt := 0 } := by
    refine ⟨fun i hi => ?_, fun i hi j hj heq => ?_⟩
    · show q.td i ≠ (o₁.ed q.ed).hwTailP
      rw [htd, hed, (hb.queue p.ed).1]
      exact hr.apart.tail i (hlength ▸ hi)
    · exact hr.apart.slot i (hlength ▸ hi) j (hlength ▸ hj) (htd ▸ heq)
  obtain ⟨p', hf⟩ := fills_tdSubmitUrb hb.priv ⟨ha.tail, ha.slot⟩ hsubmit
  have hcount : (tdCalls (o₁.urb u) q (o₁.toggleOf (o₁.urb u))).length ≤ q.length := by
    rw [length_tdCalls, hb.const, hlength]
    exact hr.enough
  rw [Nat.min_eq_left hcount] at hf
  have htype : (o₁.ed q.ed).type ≠ .iso := by
    rw [hed, (hb.queue p.ed).2]
    exact hr.ed
  have hbuf : (o₁.urb u).transferBufferLength ≠ 0 → q.transferBuffer = buf ∧ buf ≠ 0 :=
    fun h0 => hb.buffer (hlen ▸ h0)
  have htwo : ∀ c ∈ tdCalls (o₁.urb u) q (o₁.toggleOf (o₁.urb u)), c.TwoPages := by
    refine twoPages_tdCalls (by rw [hpipe]; exact hr.general) fun hbulk h0 => ?_
    rw [(hbuf h0).1, hlen]
    exact hpages (hpipe ▸ hbulk)
  have hmoved := hf.moved ha hcount htype htwo hcount
  have hctrl : (o₁.urb u).pipe.type = .ctrl → q.setupPacket ≠ 0 := by
    intro hty
    obtain ⟨packet, hpacket⟩ := Option.isSome_iff_exists.mp (hr.packet (hpipe ▸ hty))
    exact (hb.packet packet hpacket).1
  rw [bytes_tdCalls (by rw [hpipe]; exact hr.general)
    (fun h0 => by rw [(hbuf h0).1]; exact (hbuf h0).2) hctrl, hlength, hpipe, hlen,
    tdSubmitUrb_iop hsubmit] at hmoved
  have hpacket : (if (o.urb u).pipe.type = .ctrl then bytesAt o₁.iop q.setupPacket 8 else [])
      = if (o.urb u).pipe.type = .ctrl then bytesAt ((o.urb u).setupPacket.getD fun _ => 0) 0 8
        else [] := by
    split
    · rename_i hty
      obtain ⟨packet, hpacket⟩ := Option.isSome_iff_exists.mp (hr.packet hty)
      refine bytesAt_congr fun j hj => ?_
      rw [hpacket, Option.getD_some, Nat.zero_add]
      exact (hb.packet packet hpacket).2 j hj
    · rfl
  have hdata : bytesAt o₁.iop q.transferBuffer (o.urb u).transferBufferLength
      = bytesAt (o.urb u).transferBuffer 0 (o.urb u).transferBufferLength :=
    bytesAt_congr fun j hj => by rw [Nat.zero_add]; exact hb.data j hj
  rw [hpacket, hdata] at hmoved
  dsimp only at hmoved
  rw [hed, (hb.queue p.ed).1] at hmoved
  exact hmoved

end Sent

/-! ## What is logged -/

/-- The setup packet that stands in eight bytes. -/
def SetupFields.ofBytes (b : Bytes) : SetupFields :=
  ⟨fieldValue b 0 1, fieldValue b 1 1, fieldValue b 2 2, fieldValue b 4 2, fieldValue b 6 2⟩

section Logged

variable {o o' : Ohci} {u : UrbPtr} {p : UrbPriv} {r : Urb} {d : UrbDump} {g g' : Inst}
    {env : HookEnv}
  {fuel buf setup : ℕ}

theorem fieldValue_congr {b b' : Bytes} {off size : ℕ} (h : ∀ i, off ≤ i → i < off + size →
    b i = b' i) :
    fieldValue b off size = fieldValue b' off size := by
  induction size generalizing off with
  | zero => rfl
  | succ size ih =>
    rw [fieldValue, fieldValue, h off (Nat.le_refl _) (by omega),
      ih fun i hi hlt => h i (by omega) (by omega)]

/-- It depends on eight bytes. -/
theorem ofBytes_congr {b b' : Bytes} (h : ∀ i < 8, b i = b' i) :
    SetupFields.ofBytes b = SetupFields.ofBytes b' := by
  unfold SetupFields.ofBytes
  congr 1 <;> exact fieldValue_congr fun i _ hi => h i (by omega)

/-- **What is dumped of an OUT request**, next to what it sends. -/
theorem logged_captures (hd : d.Captures r) (hout : r.pipe.out = true)
    (hpacket : r.pipe.type = .ctrl → r.setupPacket.isSome) :
    d.logged.head.uTbBytes = r.transferBufferLength ∧
      d.logged.setup = (if r.pipe.type = .ctrl then some (.ofBytes fun i => r.outBytes.getD i 0)
        else none) ∧
      d.logged.data = (r.outBytes.drop (if r.pipe.type = .ctrl then 8 else 0)).take
        d.settings.uOutLimit := by
  have hbytes : d.m.uTbBytes = r.transferBufferLength := by
    rw [MiniUrb.uTbBytes, hd.pipe, if_pos hout, hd.length]
  have hdata : d.logged.data = (bytesAt r.transferBuffer 0 r.transferBufferLength).take
      d.settings.uOutLimit := by
    have hlen : uTbLen d.settings d.m = min d.settings.uOutLimit r.transferBufferLength := by
      rw [uTbLen, hd.pipe, if_pos hout, hd.length]
    rw [bytesAt_take]
    show (List.range (uTbLen d.settings d.m)).map d.buf = _
    rw [hlen]
    refine List.map_congr_left fun j hj => ?_
    have hj := List.mem_range.mp hj
    rw [Nat.zero_add]
    exact hd.copy j (by rw [hbytes]; omega)
  refine ⟨hbytes, ?_, ?_⟩
  · show (if d.m.pipe.type = .ctrl then some d.m.setupFields else none) = _
    rw [hd.pipe]
    split
    · rename_i hctrl
      obtain ⟨packet, hpacket⟩ := Option.isSome_iff_exists.mp (hpacket hctrl)
      refine congrArg some (ofBytes_congr (b := d.m.setupPacket) fun i hi => ?_)
      rw [hd.packet packet hpacket i hi, Urb.outBytes, if_pos hctrl, hpacket, Option.getD_some,
        List.getD_append _ _ _ _ (by rw [bytesAt_length]; exact hi), bytesAt,
          List.getD_eq_getElem _ _ (by simpa using hi)]
      simp
    · rfl
  · rw [hdata, Urb.outBytes]
    split
    · rw [List.drop_left' bytesAt_length]
    · rw [List.nil_append, List.drop_zero]

/-- **A request to be sent**: it is not isochronous, a control request has a setup
packet, and its TDs can be counted with 16 bits. Its bounce buffers do not overlap,
and that for the single data TD of a control or interrupt request reaches over two
pages at most. -/
structure Urb.Sendable (r : Urb) (buf setup : ℕ) : Prop where
  general : r.pipe.type ≠ .iso
  out : r.pipe.out = true
  packet : r.pipe.type = .ctrl → r.setupPacket.isSome
  fits : tdSize r < 65536
  disjoint : setup + 8 ≤ buf ∨ buf + r.transferBufferLength ≤ setup
  pages : r.pipe.type ≠ .bulk → buf % 4096 + r.transferBufferLength ≤ 8192

/-- **A call of `sohci_submit_urb` that queues its request**, with the hook between
its two phases. What else happens there leaves the request alone, whose ED is not
an isochronous one and whose TDs are its own. -/
structure HookedSubmission (env : HookEnv) (g g' : Inst) (u : UrbPtr) (p : UrbPriv)
    (o o₁ o₂ o' : Ohci)
    (buf setup : ℕ) : Prop where
  first : ∃ dummy tds, submitFirst o u dummy tds = (o₁, true)
  hook : g.onSubmit env (o₁.urb u) = some g'
  meanwhile : o₂.urb u = o₁.urb u
  priv : (o₂.urb u).hcpriv = some p
  ed : (o₂.ed p.ed).type ≠ .iso
  apart : o₂.TdsApart p
  second : ∃ fuel, submitSecond fuel o₂ u buf setup = some (o', true)

/-- The first phase gives a request its private part, with TDs enough. -/
theorem submitFirst_priv {dummy : TdPtr} {tds : ℕ → TdPtr} (hiso : (o.urb u).pipe.type ≠ .iso)
    (hfits : tdSize (o.urb u) < 65536) (h : submitFirst o u dummy tds = (o', true)) :
    ∃ p, o'.urb u = { o.urb u with hcpriv := some p } ∧ (o.urb u).const.tdCount ≤ p.length := by
  obtain ⟨hf, -⟩ | ⟨-, -, ⟨hf, -⟩ | ⟨-, r, o₁, hadd,
      ⟨-, hf, -⟩ | ⟨e, o₂, -, ho₂, ⟨hf, -⟩ | ⟨-, -, rfl⟩⟩⟩⟩ :=
    submitFirst_outcome h
  · cases hf
  · cases hf
  · cases hf
  · cases hf
  have hurb : o₁.urb u = o.urb u := congrFun (skel_epAddEd hadd).2.1 u
  refine ⟨newPriv e (tdSize (o.urb u)) tds, ?_, ?_⟩
  · rw [ho₂, if_neg hiso]
    have hself :=
      Ohci.modUrb_urb_self o₁ u (fun r =>
        { r with hcpriv := some (newPriv e (tdSize (o.urb u)) tds) })
    rw [hurb] at hself
    exact hself
  · show _ ≤ tdSize (o.urb u) % 65536
    rw [Nat.mod_eq_of_lt hfits]
    unfold UrbConst.tdCount tdSize Urb.const
    cases hty : (o.urb u).pipe.type with
    | iso => exact absurd hty hiso
    | bulk | int => exact Nat.le_refl _
    | ctrl =>
      dsimp only
      split
      · omega
      · omega

/-- **The log says what is sent.** For an OUT request that `sohci_submit_urb` queues
for a device that is dumped, the controller moves the setup packet of a control
request and the caller's data. The request is captured, and whenever it is dumped
the entry has that setup packet, and of that data as many bytes as the limit lets
through. -/
theorem dumped_is_sent {o₁ o₂ : Ohci} (h : HookedSubmission env g g' u p o o₁ o₂ o' buf setup)
    (hr : (o.urb u).Sendable buf setup) (hg : g.Dumps env (o.urb u).dev)
    (hitem : (g.aDevSettings (env.devnum (o.urb u).dev)).oAsync ≠ 0 → env.item = true) :
    ∃ c, g.Takes g' env (o.urb u).dev c ∧ ∀ passes s,
      let wire := o'.moved (o'.ed p.ed).hwTailP p.length (o₂.ed p.ed).hwTailP
      let entry := (c.dump passes s).logged
      wire = (o.urb u).outBytes ∧ entry.head.uTbBytes = (o.urb u).transferBufferLength ∧
        entry.setup = (if (o.urb u).pipe.type = .ctrl then some (.ofBytes fun i => wire.getD i 0)
          else none) ∧
        entry.data = (wire.drop (if (o.urb u).pipe.type = .ctrl then 8 else 0)).take
          s.uOutLimit := by
  obtain ⟨dummy, tds, hfirst⟩ := h.first
  obtain ⟨fuel, hsecond⟩ := h.second
  obtain ⟨p', hp', hcount⟩ := submitFirst_priv hr.general hr.fits hfirst
  have hpriv := h.priv
  have hurb := h.meanwhile.trans hp'
  rw [hurb] at hpriv
  obtain rfl : p' = p := Option.some.inj hpriv
  have hready : o₂.SubmitReady u p' := by
    refine ⟨h.priv, ?_, h.ed, ?_, ?_, h.apart⟩
    · rw [hurb]
      exact hr.general
    · rw [hurb]
      exact hr.packet
    · rw [hurb]
      exact hcount
  have hmoved := moved_submitSecond hready (by rw [hurb]; exact hr.disjoint)
    (by rw [hurb]; exact hr.pages) hsecond
  have hout : (o₂.urb u).outBytes = (o.urb u).outBytes := by
    rw [hurb]
    rfl
  have hhook := h.hook
  rw [hp'] at hhook
  obtain ⟨c, htakes, hcaptures⟩ :=
    hook_takes (r := { o.urb u with hcpriv := some p' }) hg hr.out hitem hhook
  refine ⟨c, htakes, fun passes s => ?_⟩
  dsimp only
  rw [hmoved, hout]
  obtain ⟨hpipe, hlength, hactual, hpacket, hcopy⟩ := hcaptures passes s
  exact ⟨rfl, logged_captures ⟨hpipe, hlength, hactual, hpacket, hcopy⟩ hr.out hr.packet⟩

/-- A control request that sends the packet `0 1 2 … 7` and then the bytes `7 8 9`. -/
def ctrlOut : Ohci :=
  { (default : Ohci) with
    usbDev := fun _ => { (default : UsbDev) with edBase := 10 }
    urb := fun _ => { (default : Urb) with
      dev := 1
      pipe := ⟨.ctrl, 1, 0, true, false⟩
      transferBufferLength := 3
      transferBuffer := fun j => UInt8.ofNat (7 + j)
      setupPacket := some UInt8.ofNat } }

/-- The request behind the first phase, with its ED at the address 10. -/
def ctrlOutBetween : Ohci := (submitFirst ctrlOut 1 100 fun i => 101 + i).1

/-- Eleven bytes are sent, and the first two of the last three are dumped. -/
theorem dumped_is_sent_ctrl :
    ∃ g' o', HookedSubmission memoryLeft dumpSome g' 1 (newPriv 10 3 fun i => 101 + i)
      ctrlOut ctrlOutBetween ctrlOutBetween o' 0x1000 0x2000 ∧
    o'.moved (o'.ed 10).hwTailP 3 (ctrlOutBetween.ed 10).hwTailP
      = [0, 1, 2, 3, 4, 5, 6, 7, 7, 8, 9] ∧
    g'.dumps.map (fun d => d.logged.data) = [[7, 8]] := by
  obtain ⟨⟨o', ok⟩, hsecond, rfl⟩ : ∃ r ∈ submitSecond 1 ctrlOutBetween 1 0x1000 0x2000,
      r.2 = true := by
    decide +kernel
  obtain ⟨g', hook⟩ : ∃ g', dumpSome.onSubmit memoryLeft (ctrlOutBetween.urb 1) = some g' :=
    Option.isSome_iff_exists.mp (by decide +kernel)
  have hcall : HookedSubmission memoryLeft dumpSome g' 1 (newPriv 10 3 fun i => 101 + i) ctrlOut
      ctrlOutBetween
      ctrlOutBetween o' 0x1000 0x2000 :=
    ⟨⟨100, _, Prod.ext rfl (by decide +kernel)⟩, hook, rfl, rfl, by decide +kernel,
      ⟨by decide +kernel, by decide +kernel⟩, 1, hsecond⟩
  have hr : (ctrlOut.urb 1).Sendable 0x1000 0x2000 :=
    ⟨by decide, rfl, fun _ => rfl, by decide, .inr (by decide), fun _ => by decide⟩
  obtain ⟨c, htakes, hentry⟩ :=
    dumped_is_sent hcall hr ⟨by decide, by decide, by decide, by decide⟩ (fun h => absurd rfl h)
  obtain ⟨hwire, -, -, hdata⟩ := hentry 0 ⟨2, 1⟩
  refine ⟨g', o', hcall, hwire.trans rfl, ?_⟩
  rw [(htakes.sync rfl).2]
  refine congrArg (fun x => [x]) (hdata.trans ?_)
  exact (congrArg (fun wire => (wire.drop 8).take 2) hwire).trans rfl

/-- **What is dumped of an IN request.** -/
theorem logged_captures_in {n : ℕ} (hd : d.Captures r) (hin : r.pipe.out = false)
    (hn : asUnsigned r.actualLength = n) :
    d.logged.head.uTbBytes = n ∧ d.logged.data
      = (bytesAt r.transferBuffer 0 n).take d.settings.uInLimit := by
  have hlen : uTbLen d.settings d.m = min d.settings.uInLimit n := by
    rw [uTbLen, hd.pipe, hin, hd.actual, hn]
    rfl
  have hbytes : d.m.uTbBytes = n := by
    rw [MiniUrb.uTbBytes, hd.pipe, hin, hd.actual, hn]
    rfl
  refine ⟨hbytes, ?_⟩
  rw [bytesAt_take]
  show (List.range (uTbLen d.settings d.m)).map d.buf = _
  rw [hlen]
  refine List.map_congr_left fun j hj => ?_
  have hj := List.mem_range.mp hj
  rw [Nat.zero_add]
  exact hd.copy j (by rw [hbytes]; omega)

/-- **The log says what the caller gets.** For an IN request that `sohci_return_urb`
returns for a device that is dumped, the hook changes nothing for the driver, and the
completion callback finds in the caller's buffer the bytes that have arrived in the
bounce buffer. The request is captured, and whenever it is dumped the entry has as
many of these bytes as the limit lets through. -/
theorem dumped_is_received {b : Bool} {n : ℕ} (hp : (o.urb u).hcpriv = some p)
    (hc : (o.urb u).complete = true)
    (hin : (o.urb u).pipe.out = false) (hn : (o.urb u).actualLength = n) (hword : n < 0x80000000)
    (hg : g.Dumps env (o.urb u).dev)
    (hitem : (g.aDevSettings (env.devnum (o.urb u).dev)).oAsync ≠ 0 → env.item = true)
    (h : sohciReturnUrb g env o u = some (g', o', b)) :
    returnUrb o u = (o', b) ∧ bytesAt (o'.urb u).transferBuffer 0 n
      = bytesAt o.iop p.transferBuffer n ∧
      ∃ c, g.Takes g' env (o.urb u).dev c ∧ ∀ passes s,
        (c.dump passes s).logged.head.uTbBytes = n ∧
        (c.dump passes s).logged.data = (bytesAt o.iop p.transferBuffer n).take s.uInLimit := by
  have hret := returnUrb_of_hook h
  have hcopied : ∀ o₁ : Ohci, CopiesBack o o₁ u (o.urb u) p.transferBuffer
      (o.urb u).actualLength →
      bytesAt (o₁.urb u).transferBuffer 0 n = bytesAt o.iop p.transferBuffer n := by
    intro o₁ hcopy
    refine bytesAt_congr fun j hj => ?_
    rw [Nat.zero_add, hcopy.data, hn, if_pos (by omega)]
  have hkept : ((prepareUrbOnReturn o u p).urb u).dev = (o.urb u).dev ∧
      ((prepareUrbOnReturn o u p).urb u).pipe = (o.urb u).pipe ∧
      ((prepareUrbOnReturn o u p).urb u).actualLength = (o.urb u).actualLength := by
    unfold prepareUrbOnReturn
    dsimp only
    split
    · rw [Ohci.modUrb_urb_self]
      exact ⟨rfl, rfl, rfl⟩
    · exact ⟨rfl, rfl, rfl⟩
  obtain ⟨hdev, hpipe, hactual⟩ := hkept
  have hhook := onReturn_of_hook hc hp h
  rw [← hdev] at hg hitem ⊢
  obtain ⟨c, htakes, hcaptures⟩ := hook_takes hg (hpipe ▸ hin) hitem hhook
  refine ⟨hret, ?_, c, htakes, fun passes s => ?_⟩
  · have hfound := returnUrb_copiesBack hp hc hin
    rw [hret] at hfound
    exact hcopied o' hfound
  · have hsame : asUnsigned ((prepareUrbOnReturn o u p).urb u).actualLength = n := by
      rw [hactual, hn, asUnsigned]
      omega
    obtain ⟨hbytes, hdata⟩ := logged_captures_in (hcaptures passes s) (hpipe ▸ hin) hsame
    refine ⟨hbytes, hdata.trans ?_⟩
    rw [hcopied _ (prepareUrbOnReturn_copiesBack hin)]
    rfl

/-- A bulk IN request of which two bytes have arrived at address 4096. -/
def bulkInAlone : Ohci :=
  { bulkAlone 8 1 with
    iop := fun a => UInt8.ofNat (a - 0x1000 + 5)
    urb := fun u => if u = 1 then
        { (bulkAlone 8 1).urb 1 with
          dev := 1
          pipe := ⟨.bulk, 1, 1, false, false⟩
          complete := true
          actualLength := 2 }
      else default }

/-- The same limits, with `oAsync`. -/
def dumpSomeLater : Inst := ⟨1, fun _ => ⟨⟨2, 1⟩, 1, 1, 1⟩, [], []⟩

/-- The caller finds both bytes; the first one is dumped, by the worker. -/
theorem dumped_is_received_bulk :
    ∃ g' o' b, sohciReturnUrb dumpSomeLater memoryLeft bulkInAlone 1 = some (g', o', b) ∧
    bytesAt (o'.urb 1).transferBuffer 0 2 = [5, 6] ∧ g'.dumps = [] ∧
    (g'.workerPass 0).dumps.map (fun d => d.logged.data) = [[5]] := by
  obtain ⟨⟨g', o', b⟩, h⟩ : ∃ r, sohciReturnUrb dumpSomeLater memoryLeft bulkInAlone 1 = some r :=
    Option.isSome_iff_exists.mp (by decide +kernel)
  obtain ⟨-, hfound, c, htakes, hentry⟩ :=
    dumped_is_received (n := 2) (p := { (default : UrbPriv) with
    ed := 2, length := 1, td := fun i => 101 + i, transferBuffer := 0x1000 }) rfl rfl rfl
      rfl (by decide)
    ⟨by decide, by decide, by decide, by decide⟩ (fun _ => rfl) h
  obtain ⟨hqueue, hdumps⟩ := htakes.async (by decide)
  refine ⟨g', o', b, h, hfound.trans rfl, hdumps.trans rfl, ?_⟩
  have hsettings : g'.aDevSettings c.devnum = ⟨⟨2, 1⟩, 1, 1, 1⟩ := by
    rw [htakes.settings, htakes.devnum]; rfl
  rw [workerPass_dumps 0 (hqueue.trans rfl) (by rw [hsettings]; decide), hdumps, hsettings]
  exact congrArg (fun x => [x]) ((hentry 0 ⟨2, 1⟩).2.trans rfl)

end Logged
