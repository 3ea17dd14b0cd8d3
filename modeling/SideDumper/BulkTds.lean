import SideDumper.TdCount

/-!
# Bulk transfers

The case `PIPE_BULK` of `td_submit_urb` cuts a transfer into pieces of 4096
bytes with a pointer, a length and a counter that run along. `bulkCase` is this
loop; it makes the calls of `bulkCalls` and leaves the pointer and the length
at the last piece. What is in the TDs afterwards is `Ohci.Partition`.

The last statement reads the buffer once more, to have everything written
before the controller is told: `sync_and_flush` is given an address that is
computed from the pointer and the length as the loop has left them.
`flush_inside_iff` says when this address is in the buffer.
-/

/-- The variables of `td_submit_urb` that the bulk case counts up and down. -/
structure BulkVars where
  data : ℕ
  dataLen : ℕ
  cnt : ℕ
deriving DecidableEq, Repr

section Loop

variable (out : Bool) (first : TdToggle)

/-- The toggle bits of a bulk TD: `cnt? TD_T_TOGGLE:toggle`. -/
def bulkToggle (cnt : ℕ) : TdToggle := if cnt = 0 then first else .toggle

set_option maxRecDepth 20000 in
/-- The `while` loop of the bulk case, and the calls of `td_fill` it makes. -/
def bulkLoop (data dataLen cnt : ℕ) : List TdCall × BulkVars :=
  if 4096 < dataLen then
    let (calls, v) := bulkLoop (data + 4096) (dataLen - 4096) (cnt + 1)
    (⟨genInfo (if out then .out else .in) (bulkToggle first cnt) false, data, 4096⟩ :: calls, v)
  else ([], ⟨data, dataLen, cnt⟩)
termination_by dataLen
decreasing_by omega

/-- **The case `PIPE_BULK`**: the loop, and the call behind it. -/
def bulkCase (data dataLen : ℕ) : List TdCall × BulkVars :=
  let (calls, v) := bulkLoop out first data dataLen 0
  (calls ++ [⟨genInfo (if out then .out else .in) (bulkToggle first v.cnt) (!out), v.data,
    v.dataLen⟩], { v with cnt := v.cnt + 1 })

end Loop

/-- The argument of `sync_and_flush` in the bulk case,
`(const long*)(data) + data_len / 4 - 1`, where a `long` has 4 bytes. -/
def flushAddress (v : BulkVars) : ℕ := (v.data + 4 * (v.dataLen / 4) + 0xFFFFFFFC) % 0x100000000

/-- The address that `sync_and_flush` reads, `(unsigned long)(p) & ~3`. -/
def syncAndFlush (p : ℕ) : ℕ := p - p % 4

/-! ## The loop -/

section Loop

variable {out : Bool} {first : TdToggle}

/-- **The loop of the bulk case** makes a call for each 4096 bytes but the last
ones. -/
theorem bulkLoop_eq (data dataLen cnt : ℕ) : bulkLoop out first data dataLen cnt
    = ((List.range ((dataLen - 1) / 4096)).map (fun i =>
        ⟨genInfo (if out then .out else .in) (bulkToggle first (cnt + i)) false,
          data + 4096 * i, 4096⟩),
      ⟨data + 4096 * ((dataLen - 1) / 4096), dataLen - 4096 * ((dataLen - 1) / 4096),
        cnt + (dataLen - 1) / 4096⟩) := by
  induction data, dataLen, cnt using bulkLoop.induct out first with
  | case1 data dataLen cnt hlt _ _ _ ih =>
    have hn : (dataLen - 1) / 4096 = (dataLen - 4096 - 1) / 4096 + 1 := by omega
    rw [bulkLoop, if_pos hlt, ih, hn, List.range_succ_eq_map]
    dsimp only
    generalize (dataLen - 4096 - 1) / 4096 = n
    rw [List.map_cons, List.map_map]
    refine Prod.ext (congrArg₂ List.cons rfl (List.map_congr_left fun i _ => ?_)) ?_
    · rw [Function.comp_apply, Nat.add_right_comm cnt 1 i, Nat.add_assoc cnt i 1,
        show data + 4096 + 4096 * i = data + 4096 * i.succ by omega]
    · dsimp only
      rw [BulkVars.mk.injEq]
      omega
  | case2 data dataLen cnt hge =>
    have hn : (dataLen - 1) / 4096 = 0 := by omega
    rw [bulkLoop, if_neg hge, hn]
    rfl

/-- **The bulk case makes the calls of `bulkCalls`.** -/
theorem bulkCase_eq (data dataLen : ℕ) : bulkCase out first data dataLen
    = (bulkCalls out first data dataLen,
      ⟨data + 4096 * ((dataLen - 1) / 4096), dataLen - 4096 * ((dataLen - 1) / 4096),
        (dataLen - 1) / 4096 + 1⟩) := by
  unfold bulkCase
  rw [bulkLoop_eq]
  dsimp only
  rw [Nat.zero_add]
  refine Prod.ext (congrArg₂ List.append (List.map_congr_left fun i _ => ?_) ?_) rfl
  · rw [Nat.zero_add]
    rfl
  · rfl

/-- The calls of the bulk case, one by one. -/
theorem bulkCalls_getElem? {data dataLen i : ℕ} (hi : i ≤ (dataLen - 1) / 4096) :
    (bulkCalls out first data dataLen)[i]? = some
      ⟨genInfo (if out then .out else .in) (bulkToggle first i)
        (!out && decide (i = (dataLen - 1) / 4096)),
        data + 4096 * i, min 4096 (dataLen - 4096 * i)⟩ := by
  unfold bulkCalls
  dsimp only
  by_cases hlast : i = (dataLen - 1) / 4096
  · rw [List.getElem?_append_right (by rw [List.length_map, List.length_range]; omega),
      List.length_map,
      List.length_range, ← hlast, Nat.sub_self, List.getElem?_cons_zero, decide_eq_true rfl,
        Bool.and_true,
      Nat.min_eq_right (by omega)]
    rfl
  · rw [List.getElem?_append_left (by rw [List.length_map, List.length_range]; omega),
      List.getElem?_map,
      List.getElem?_range (by omega), Option.map_some, decide_eq_false hlast, Bool.and_false,
      Nat.min_eq_left (by omega)]
    rfl

end Loop

/-! ## The TDs -/

/-- **`n` TDs that cut a bulk transfer into pieces** of 4096 bytes, the first of
which has the toggle bits `first`. -/
structure Ohci.Partition (o : Ohci) (p : UrbPriv) (out : Bool) (first : TdToggle)
    (buf len n : ℕ) : Prop where
  count : n = max 1 ((len + 4095) / 4096)
  start : ∀ i < n, (o.td (p.td i)).hwCBP = if len = 0 then 0 else buf + 4096 * i
  stop : ∀ i < n, (o.td (p.td i)).hwBE = if len = 0 then 0 else buf + min (4096 * (i + 1)) len - 1
  /-- The bytes of the buffer, each in one TD. -/
  covers : ∀ a, (∃ i < n, (o.td (p.td i)).Points false a) ↔ buf ≤ a ∧ a < buf + len
  disjoint : ∀ i < n, ∀ j < n, ∀ a, (o.td (p.td i)).Points false a →
    (o.td (p.td j)).Points false a → i = j
  /-- The TDs are queued in this order, and the last one leads to the new end. -/
  order : ∀ i < n, (o.td (p.td i)).hwNextTD =
    if i + 1 < n then p.td (i + 1) else (o.ed p.ed).hwTailP
  pages : ∀ i < n, (o.td (p.td i)).hwBE / 4096 ≤ (o.td (p.td i)).hwCBP / 4096 + 1
  direction : ∀ i < n, (o.td (p.td i)).hwINFO.dp = if out then .out else .in
  toggle : ∀ i < n, (o.td (p.td i)).hwINFO.t = if i = 0 then first else .toggle
  rounding : ∀ i < n, (o.td (p.td i)).hwINFO.r = true ↔ out = false ∧ i + 1 = n

/-- **A bulk request that `td_submit_urb` is called for**: it has TDs enough and a
bounce buffer, and its ED has been set up for it. -/
structure Ohci.BulkReady (o : Ohci) (u : UrbPtr) (p : UrbPriv) : Prop where
  priv : (o.urb u).hcpriv = some p
  bulk : (o.urb u).pipe.type = .bulk
  ed : (o.ed p.ed).type = .bulk
  enough : (o.urb u).const.tdCount ≤ p.length
  buffer : (o.urb u).transferBufferLength ≠ 0 → p.transferBuffer ≠ 0
  apart : o.TdsApart p

section Partition

variable {o o' : Ohci} {u : UrbPtr} {p : UrbPriv} {n : ℕ}

/-- What is in a TD of a bulk request. -/
theorem Fills.bulk {p' : UrbPriv} {out : Bool} {first : TdToggle} {len i : ℕ}
    (hf : Fills u p (bulkCalls out first p.transferBuffer len) 0 ((len - 1) / 4096 + 1) o o' p')
    (hi : i ≤ (len - 1) / 4096) : o'.td (p'.td i) = tdOf u p.ed (o.ed p.ed).type
      ⟨genInfo (if out then .out else .in) (bulkToggle first i)
        (!out && decide (i = (len - 1) / 4096)),
        p.transferBuffer + 4096 * i, min 4096 (len - 4096 * i)⟩ i (p.td i) := by
  have htd := hf.td i (by omega) _ (bulkCalls_getElem? hi)
  rwa [Nat.zero_add] at htd

/-- Where it begins and ends. -/
theorem Fills.bulk_range {p' : UrbPriv} {out : Bool} {first : TdToggle} {len i : ℕ}
    (hf : Fills u p (bulkCalls out first p.transferBuffer len) 0 ((len - 1) / 4096 + 1) o o' p')
    (hed : (o.ed p.ed).type = .bulk) (hbuf : len ≠ 0 → p.transferBuffer ≠ 0)
    (hi : i ≤ (len - 1) / 4096) :
    (o'.td (p'.td i)).hwCBP = (if len = 0 then 0 else p.transferBuffer + 4096 * i) ∧
      (o'.td (p'.td i)).hwBE =
        if len = 0 then 0 else p.transferBuffer + min (4096 * (i + 1)) len - 1 := by
  rw [hf.bulk hi, tdOf, hed]
  dsimp only
  rw [TdCall.cbp, TdCall.start, TdCall.be, if_neg (by decide)]
  dsimp only
  by_cases h0 : len = 0
  · have hnone : p.transferBuffer + 4096 * i = 0 ∨ min 4096 (len - 4096 * i) = 0 :=
      .inr (by omega)
    rw [if_pos hnone, if_pos h0, if_pos hnone, if_pos h0]
    exact ⟨rfl, rfl⟩
  · have hsome : ¬ (p.transferBuffer + 4096 * i = 0 ∨ min 4096 (len - 4096 * i) = 0) := by
      have hnull := hbuf h0
      omega
    rw [if_neg hsome, if_neg h0, if_neg hsome, if_neg h0]
    exact ⟨rfl, by omega⟩

/-- The bytes it points to. -/
theorem Fills.bulk_points {p' : UrbPriv} {out : Bool} {first : TdToggle} {len i a : ℕ}
    (hf : Fills u p (bulkCalls out first p.transferBuffer len) 0 ((len - 1) / 4096 + 1) o o' p')
    (hed : (o.ed p.ed).type = .bulk) (hbuf : len ≠ 0 → p.transferBuffer ≠ 0)
    (hi : i ≤ (len - 1) / 4096) :
    (o'.td (p'.td i)).Points false a ↔
      p.transferBuffer + 4096 * i ≤ a ∧ a < p.transferBuffer + min (4096 * (i + 1)) len := by
  obtain ⟨hcbp, hbe⟩ := hf.bulk_range hed hbuf hi
  unfold Td.Points
  rw [hcbp, hbe, if_neg Bool.false_ne_true]
  by_cases h0 : len = 0
  · rw [if_pos h0, if_pos h0]
    omega
  · have hnull := hbuf h0
    rw [if_neg h0, if_neg h0]
    omega

/-- **The TDs of the bulk case** partition the transfer. -/
theorem Fills.partition {p' : UrbPriv} {out : Bool} {first : TdToggle} {len : ℕ}
    (hf : Fills u p (bulkCalls out first p.transferBuffer len) 0 ((len - 1) / 4096 + 1) o o' p')
    (hed : (o.ed p.ed).type = .bulk) (hbuf : len ≠ 0 → p.transferBuffer ≠ 0) :
    o'.Partition p' out first p.transferBuffer len ((len - 1) / 4096 + 1) where
  count := by omega
  start i hi := (hf.bulk_range hed hbuf (by omega)).1
  stop i hi := (hf.bulk_range hed hbuf (by omega)).2
  covers a := by
    refine ⟨fun ⟨i, hi, ha⟩ => ?_, fun ha => ?_⟩
    · rw [hf.bulk_points hed hbuf (by omega)] at ha
      omega
    · refine ⟨(a - p.transferBuffer) / 4096, by omega, ?_⟩
      rw [hf.bulk_points hed hbuf (by omega)]
      omega
  disjoint i hi j hj a ha ha' := by
    rw [hf.bulk_points hed hbuf (by omega)] at ha ha'
    omega
  order i hi := by
    rw [hf.bulk (by omega), tdOf]
    dsimp only
    by_cases hlast : i + 1 < (len - 1) / 4096 + 1
    · have hin : 0 ≤ i + 1 ∧ i + 1 < 0 + ((len - 1) / 4096 + 1) := by omega
      rw [if_pos hlast, hf.slot, if_pos hin, if_neg (Nat.succ_ne_zero i), Nat.add_sub_cancel]
    · rw [if_neg hlast, hf.ed, hf.tail, if_neg (Nat.succ_ne_zero _),
        show 0 + ((len - 1) / 4096 + 1) - 1 = i by omega]
  pages i hi := by
    obtain ⟨hcbp, hbe⟩ := hf.bulk_range hed hbuf (show i ≤ (len - 1) / 4096 by omega)
    rw [hcbp, hbe]
    split <;> omega
  direction i hi := by
    rw [hf.bulk (by omega)]
    rfl
  toggle i hi := by
    rw [hf.bulk (by omega)]
    rfl
  rounding i hi := by
    rw [hf.bulk (by omega), tdOf]
    dsimp only [genInfo]
    rw [Bool.and_eq_true, Bool.not_eq_true', decide_eq_true_iff]
    exact and_congr_right fun _ => by omega

/-- **Bulk TDs partition the transfer.** -/
theorem bulk_partition (hb : o.BulkReady u p) : ∃ o' p' n, tdSubmitCounted o u = some (o', n) ∧
    tdSubmitUrb o u = some o' ∧ (o'.urb u).hcpriv = some p' ∧
    (bulkCase (o.urb u).pipe.out (o.toggleOf (o.urb u)) p.transferBuffer
      (o.urb u).transferBufferLength).1
      = tdCalls (o.urb u) p (o.toggleOf (o.urb u)) ∧
    o'.Partition p' (o.urb u).pipe.out (o.toggleOf (o.urb u)) p.transferBuffer
      (o.urb u).transferBufferLength n := by
  obtain ⟨o', ho'⟩ := tdSubmitUrb_total hb.priv
  obtain ⟨p', hf⟩ := fills_tdSubmitUrb hb.priv hb.apart ho'
  have hcalls : tdCalls (o.urb u) p (o.toggleOf (o.urb u))
      = bulkCalls (o.urb u).pipe.out (o.toggleOf (o.urb u))
      p.transferBuffer (o.urb u).transferBufferLength := by
    rw [tdCalls, hb.bulk]
  have hcount : (o.urb u).const.tdCount = ((o.urb u).transferBufferLength - 1) / 4096 + 1 := by
    unfold UrbConst.tdCount Urb.const
    dsimp only
    rw [hb.bulk]
  have hs := tdSubmitCounted_eq hb.priv
  rw [ho', Option.map_some, Nat.min_eq_left hb.enough, hcount] at hs
  rw [length_tdCalls, Nat.min_eq_left hb.enough, hcount, hcalls] at hf
  refine ⟨o', p', _, hs, ho', hf.priv, by rw [bulkCase_eq, hcalls], ?_⟩
  exact Fills.partition (p := { p with tdCnt := 0 }) hf hb.ed hb.buffer

/-- A bulk OUT request with its bounce buffer at 4096. -/
def bulkAlone (len size : ℕ) : Ohci :=
  (acceptedAlone ⟨.bulk, 1, 1, true, false⟩ len 0 size).modPriv 1
    (fun p => { p with transferBuffer := 0x1000 })

/-- A bulk request for 5000 bytes is cut into two pieces. -/
theorem bulk_partition_two :
    ∃ o p, tdSubmitUrb (bulkAlone 5000 2) 1 = some o ∧ (o.urb 1).hcpriv = some p ∧
    o.Partition p true .data0 0x1000 5000 2 := by
  have hap := tdsApart_acceptedAlone ⟨.bulk, 1, 1, true, false⟩ 5000 0 2
  have hb : (bulkAlone 5000 2).BulkReady 1 _ :=
    ⟨rfl, rfl, rfl, by decide, fun _ => by decide, ⟨hap.tail, hap.slot⟩⟩
  obtain ⟨o, p, n, -, h, hp, -, hpart⟩ := bulk_partition hb
  obtain rfl : n = 2 := hpart.count.trans (by decide)
  exact ⟨o, p, h, hp, hpart⟩

end Partition

/-! ## The last read -/

/-- The memory of a bounce buffer. -/
structure BounceBlock where
  start : ℕ
  size : ℕ

/-- An address is in the block. -/
def BounceBlock.Has (b : BounceBlock) (a : ℕ) : Prop := b.start ≤ a ∧ a < b.start + b.size

/-- **The size of the bounce buffer** that `Portable_PrepareUrbOnSubmit` asks for,
where `addr` is the address of the caller's buffer. -/
def bounceSize (addr len : ℕ) : ℕ := if addr % 32 = 0 then (len + 64) / 64 * 64 else len

/-- **The bounce buffer**; there is none for an empty transfer. -/
def bounceBuffer (addr len buf : ℕ) : Option BounceBlock :=
  if len = 0 then none else some ⟨buf, bounceSize addr len⟩

/-- What `portable.transfer_buffer` is for a bounce buffer. -/
def bouncePointer : Option BounceBlock → ℕ
  | none => 0
  | some b => b.start

/-- The addresses that `td_submit_urb` passes to `sync_and_flush`. -/
def flushAddresses (r : Urb) (p : UrbPriv) (first : TdToggle) : List ℕ :=
  match r.pipe.type with
  | .bulk => [flushAddress (bulkCase r.pipe.out first p.transferBuffer r.transferBufferLength).2]
  | .ctrl => [p.setupPacket]
  | .int | .iso => []

/-- **An address is passed to `sync_and_flush` that is in the buffer**, and so is the
word that is read there. -/
def FlushInside (b : Option BounceBlock) (a : ℕ) : Prop :=
  ∃ c, b = some c ∧ c.Has a ∧ c.Has (syncAndFlush a) ∧ c.Has (syncAndFlush a + 3)

section Flush

variable {o o' : Ohci} {u : UrbPtr} {p : UrbPriv} {r : Urb} {first : TdToggle}

theorem le_bounceSize (addr len : ℕ) :
    len ≤ bounceSize addr len ∧ bounceSize addr len ≤ len + 64 := by
  unfold bounceSize
  split <;> omega

/-- The address, when the last piece or the pieces before it have four bytes. -/
theorem flushAddress_eq {v : BulkVars} (h : 4 ≤ v.data + 4 * (v.dataLen / 4))
    (hfit : v.data + v.dataLen ≤ 0x100000000) :
    flushAddress v = v.data + 4 * (v.dataLen / 4) - 4 := by
  unfold flushAddress
  omega

/-- A transfer of less than four bytes is read in front of its buffer. -/
theorem flushAddress_short {v : BulkVars} (h : v.dataLen < 4) :
    flushAddress v = (v.data + 0xFFFFFFFC) % 0x100000000 := by
  unfold flushAddress
  omega

/-- **The last read of the bulk case is in the bounce buffer** exactly when this is
not too short. -/
theorem flush_inside_iff {addr buf : ℕ} (hbulk : r.pipe.type = .bulk)
    (hp : p.transferBuffer = bouncePointer (bounceBuffer addr r.transferBufferLength buf))
    (hfit : buf + bounceSize addr r.transferBufferLength ≤ 0x100000000) :
    (∀ a ∈ flushAddresses r p first,
      FlushInside (bounceBuffer addr r.transferBufferLength buf) a) ↔
      8 ≤ r.transferBufferLength ∨ 4 ≤ r.transferBufferLength ∧ buf % 4 = 0 := by
  rw [flushAddresses, hbulk, bulkCase_eq, hp]
  dsimp only
  rw [List.forall_mem_singleton]
  generalize r.transferBufferLength = len at *
  unfold FlushInside bounceBuffer
  by_cases h0 : len = 0
  · rw [if_pos h0]
    refine iff_of_false (fun ⟨c, hc, _⟩ => by cases hc) (by omega)
  rw [if_neg h0, bouncePointer]
  dsimp only
  obtain ⟨hsize, hbound⟩ := le_bounceSize addr len
  generalize bounceSize addr len = size at *
  have hexists : ∀ a, (∃ c, some (BounceBlock.mk buf size) = some c ∧ c.Has a ∧
      c.Has (syncAndFlush a) ∧
      c.Has (syncAndFlush a + 3)) ↔ (BounceBlock.mk buf size).Has a ∧
        (BounceBlock.mk buf size).Has (syncAndFlush a) ∧
      (BounceBlock.mk buf size).Has (syncAndFlush a + 3) := fun a =>
    ⟨fun ⟨_, hc, h⟩ => by cases hc; exact h, fun h => ⟨_, rfl, h⟩⟩
  rw [hexists]
  unfold BounceBlock.Has syncAndFlush
  dsimp only
  by_cases h4 : len < 4
  · have hn : (len - 1) / 4096 = 0 := by omega
    rw [hn, flushAddress_short (by dsimp only; omega)]
    dsimp only
    omega
  · rw [flushAddress_eq (by dsimp only; omega) (by dsimp only; omega)]
    dsimp only
    omega

/-- A bulk OUT request. -/
def bulkOutOf (len : ℕ) : Urb :=
  { (default : Urb) with pipe := ⟨.bulk, 1, 1, true, false⟩, transferBufferLength := len }

/-- A transfer of eight bytes. -/
theorem flush_inside_eight :
    flushAddresses (bulkOutOf 8) { (default : UrbPriv) with transferBuffer := 0x1000 } .data0
      = [0x1004] ∧
      FlushInside (bounceBuffer 0 8 0x1000) 0x1004 := by
  have haddr : flushAddresses (bulkOutOf 8)
      { (default : UrbPriv) with transferBuffer := 0x1000 } .data0
      = [0x1004] := by
    rw [flushAddresses, bulkCase_eq]
    decide
  have hfit : 0x1000 + bounceSize 0 (bulkOutOf 8).transferBufferLength ≤ 0x100000000 := by decide
  exact ⟨haddr, (flush_inside_iff rfl rfl hfit).mpr (.inl (Nat.le_refl 8)) _
    (haddr ▸ List.mem_singleton_self _)⟩

/-- An empty transfer has no buffer, and the word at `0xFFFFFFFC` is read. -/
theorem flush_not_inside : flushAddresses (bulkOutOf 0) default .data0 = [0xFFFFFFFC] ∧
    ¬ ∀ (r : Urb) (p : UrbPriv) (first : TdToggle) (addr buf : ℕ), r.pipe.type = .bulk →
      p.transferBuffer = bouncePointer (bounceBuffer addr r.transferBufferLength buf) →
      buf + bounceSize addr r.transferBufferLength ≤ 0x100000000 →
      ∀ a ∈ flushAddresses r p first,
        FlushInside (bounceBuffer addr r.transferBufferLength buf) a := by
  have hread : flushAddresses (bulkOutOf 0) default .data0 = [0xFFFFFFFC] := by
    rw [flushAddresses, bulkCase_eq]
    decide
  refine ⟨hread, fun h => ?_⟩
  have hmem : 0xFFFFFFFC ∈ flushAddresses (bulkOutOf 0) default .data0 :=
    hread ▸ List.mem_singleton_self _
  obtain ⟨b, hb, -⟩ := h (bulkOutOf 0) default .data0 0 0 rfl rfl (by decide) _ hmem
  cases hb

end Flush
