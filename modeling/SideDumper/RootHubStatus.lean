import SideDumper.RootHub
import Mathlib.Logic.Function.Basic

/-!
# The status bitmap of the root hub

`rh_send_irq` collects what has changed at the hub and at its ports in a
bitmap of bytes on the stack, and copies it to the buffer of the request. It
sets the first byte and only adds bits to the others, so that with eight
ports or more the bits the stack held before are in the bitmap too, and count
as changes. The length it returns is that of the bitmap, also when the buffer
is shorter.
-/

/-- The registers of the root hub. -/
inductive HubReg
  | a
  | b
  | status
  | portstatus (k : ℤ)
deriving DecidableEq, Repr

/-- Where a register is in `roothub`, in words: `portstatus[-1]` is where
`status` is. -/
def HubReg.place : HubReg → ℤ
  | .a => 0
  | .b => 1
  | .status => 2
  | .portstatus k => 3 + k

/-- The contents of the registers, by their places. -/
abbrev RootHubRegs := ℤ → UInt32

/-- `readl`. -/
def RootHubRegs.readl (regs : RootHubRegs) (r : HubReg) : UInt32 := regs r.place

/-- `RH_A_NDP` of `roothub.a`, the number of ports. -/
def RootHubRegs.numPorts (regs : RootHubRegs) : ℕ := (regs.readl .a &&& 0xff).toNat

/-- Whether one of `RH_HS_LPSC` and `RH_HS_OCIC` is set. -/
def RootHubRegs.hubChange (regs : RootHubRegs) : Bool :=
  regs.readl .status &&& (0x00010000 ||| 0x00020000) ≠ 0

/-- Whether one of `RH_PS_CSC`, `RH_PS_PESC`, `RH_PS_PSSC`, `RH_PS_OCIC` and
`RH_PS_PRSC` is set for a port. -/
def RootHubRegs.portChange (regs : RootHubRegs) (i : ℕ) : Bool :=
  regs.readl (.portstatus i) &&&
    (0x00010000 ||| 0x00020000 ||| 0x00040000 ||| 0x00080000 ||| 0x00100000) ≠ 0

/-- `(change ? 1: 0) << ((i + 1) % 8)`. -/
def changeBit (change : Bool) (i : ℕ) : UInt8 :=
  (if change then 1 else 0) <<< UInt8.ofNat ((i + 1) % 8)

/-- A pass of the loop of `rh_send_irq`, with `data` and `ret`. -/
def rhSendPort (regs : RootHubRegs) (s : (ℕ → UInt8) × ℕ) (i : ℕ) : (ℕ → UInt8) × ℕ :=
  let data :=
    Function.update s.1 ((i + 1) / 8) (s.1 ((i + 1) / 8) ||| changeBit (regs.portChange i) i)
  (data, s.2 + (data ((i + 1) / 8)).toNat)

/-- **`rh_send_irq`**, with what the array `data` holds at first: the bytes
that are copied to `rh_data`, and the length it returns. -/
def rhSendIrq (regs : RootHubRegs) (stale : ℕ → UInt8) (rhLen : ℕ) : List UInt8 × ℕ :=
  let first : UInt8 := if regs.hubChange then 1 else 0
  let s := (List.range regs.numPorts).foldl (rhSendPort regs) (Function.update stale 0 first,
    first.toNat)
  let len := regs.numPorts / 8 + 1
  if 0 < s.2 then ((List.range (min len (min rhLen 8))).map s.1, len) else ([], 0)

/-- **`rh_int_timer_do`** up to the call of `rh_init_int_timer`, when the hub
is not disabled. -/
def rhIntTimerSend (rh : VirtRootHub) (regs : RootHubRegs) (stale : ℕ → UInt8) (o : Ohci)
    (u : UrbPtr) : Ohci :=
  if rh.send = true then
    let sent := rhSendIrq regs stale (o.urb u).transferBufferLength
    if 0 < sent.2 then
      let o := o.modUrb u (fun r => { r with
        transferBuffer := fun k => sent.1.getD k (r.transferBuffer k)
        actualLength := sent.2 })
      if (o.urb u).complete then callComplete o u else o
    else o
  else o

/-! ## The bitmap -/

/-- The bitmap of the first `i` ports: bit 0 is the change of the hub, and bit
`j + 1` that of port `j`. -/
def RootHubRegs.changedBelow (regs : RootHubRegs) (i j : ℕ) : Bool :=
  if j = 0 then regs.hubChange else decide (j - 1 < i) && regs.portChange (j - 1)

/-- **The bitmap.** -/
def RootHubRegs.changed (regs : RootHubRegs) (j : ℕ) : Bool := regs.changedBelow regs.numPorts j

/-- Whether anything has changed. -/
def RootHubRegs.AnyChange (regs : RootHubRegs) : Prop := ∃ j, regs.changed j = true

/-- **The status is exact**: nothing is returned when nothing has changed,
and otherwise the bytes that are copied are those of the bitmap, as many as
there are and the buffer has room for, and the length that is returned, which
becomes `actual_length`, is no larger than the buffer. -/
def ExactStatus (regs : RootHubRegs) (stale : ℕ → UInt8) (rhLen : ℕ) : Prop :=
  let sent := rhSendIrq regs stale rhLen
  (¬ regs.AnyChange → sent.2 = 0) ∧
    (regs.AnyChange → sent.1.length = min (regs.numPorts / 8 + 1) rhLen ∧
      (∀ k (hk : k < sent.1.length), ∀ b < 8,
        (sent.1.get ⟨k, hk⟩).toNat.testBit b = regs.changed (8 * k + b)) ∧
      sent.2 ≤ rhLen ∧
      ∀ (rh : VirtRootHub) (o : Ohci) (u : UrbPtr), rh.send = true →
        (o.urb u).transferBufferLength = rhLen →
        ((rhIntTimerSend rh regs stale o u).urb u).actualLength = sent.2)

section Bits

variable {regs : RootHubRegs} {stale : ℕ → UInt8} {i n rhLen : ℕ}

/-- A bit of a changed port. -/
theorem testBit_changeBit (change : Bool) (i : ℕ) {b : ℕ} (hb : b < 8) :
    (changeBit change i).toNat.testBit b = (change && decide (b = (i + 1) % 8)) := by
  have hall : ∀ c : Bool, ∀ s < 8, ∀ b < 8,
      ((if c then 1 else 0 : UInt8) <<< UInt8.ofNat s).toNat.testBit b
        = (c && decide (b = s)) := by decide
  exact hall change ((i + 1) % 8) (Nat.mod_lt _ (by decide)) b hb

/-- A byte is not 0 when one of its eight bits is set. -/
theorem toNat_pos_iff (x : UInt8) : 0 < x.toNat ↔ ∃ b < 8, x.toNat.testBit b = true := by
  constructor
  · intro hx
    obtain ⟨b, hb⟩ := Nat.exists_testBit_of_ne_zero (Nat.pos_iff_ne_zero.mp hx)
    refine ⟨b, ?_, hb⟩
    by_contra hlt
    have hpow : x.toNat < 2 ^ b :=
      Nat.lt_of_lt_of_le x.toNat_lt (Nat.pow_le_pow_right (by decide) (Nat.not_lt.mp hlt))
    rw [Nat.testBit_lt_two_pow hpow] at hb
    cases hb
  · rintro ⟨b, -, hb⟩
    rw [Nat.pos_iff_ne_zero]
    intro h0
    rw [h0, Nat.zero_testBit] at hb
    cases hb

/-- One port more. -/
theorem changedBelow_succ (regs : RootHubRegs) (i j : ℕ) : regs.changedBelow (i + 1) j
    = (regs.changedBelow i j || (regs.portChange i && decide (j = i + 1))) := by
  unfold RootHubRegs.changedBelow
  by_cases h0 : j = 0
  · rw [if_pos h0, if_pos h0, decide_eq_false (by omega : ¬ j = i + 1), Bool.and_false,
      Bool.or_false]
  rw [if_neg h0, if_neg h0]
  by_cases hj : j = i + 1
  · subst hj
    simp
  · rw [decide_eq_false hj, Bool.and_false, Bool.or_false]
    have hiff : j - 1 < i + 1 ↔ j - 1 < i := by omega
    rw [decide_eq_decide.mpr hiff]

/-- No bit stands behind those of the ports. -/
theorem le_of_changedBelow {j : ℕ} (h : regs.changedBelow i j = true) : j ≤ i := by
  unfold RootHubRegs.changedBelow at h
  split at h
  · omega
  · rw [Bool.and_eq_true, decide_eq_true_eq] at h
    omega

/-- **What the loop of `rh_send_irq` keeps** after `i` ports: each byte has
the bits of the bitmap, and all but the first have those that were there
before; `ret` is not 0 when a byte that was added to it is not. -/
structure RhSendInv (regs : RootHubRegs) (stale : ℕ → UInt8) (i : ℕ) (s : (ℕ → UInt8) × ℕ) :
    Prop where
  bits : ∀ k, ∀ b < 8, (s.1 k).toNat.testBit b
    = ((decide (0 < k) && (stale k).toNat.testBit b) || regs.changedBelow i (8 * k + b))
  ret : 0 < s.2 ↔ (∃ j, regs.changedBelow i j = true) ∨ ∃ k, 0 < k ∧ 8 * k ≤ i ∧
    0 < (stale k).toNat

/-- Before the first port. -/
theorem rhSendInv_zero (regs : RootHubRegs) (stale : ℕ → UInt8) : RhSendInv regs stale 0
    (Function.update stale 0 (if regs.hubChange then 1 else 0),
      (if regs.hubChange then 1 else 0 : UInt8).toNat) where
  bits k b hb := by
    have hone : ∀ c : Bool, ∀ b < 8, (if c then 1 else 0 : UInt8).toNat.testBit b
        = (c && decide (b = 0)) := by decide
    by_cases hk : k = 0
    · subst hk
      dsimp only
      rw [Function.update_self, hone _ b hb, Nat.mul_zero, Nat.zero_add]
      by_cases h0 : b = 0
      · simp [RootHubRegs.changedBelow, h0]
      · simp [RootHubRegs.changedBelow, h0]
    · have hne : 8 * k + b ≠ 0 := by omega
      dsimp only
      rw [Function.update_of_ne hk, RootHubRegs.changedBelow, if_neg hne,
        decide_eq_true (Nat.pos_of_ne_zero hk)]
      simp
  ret := by
    have hnone : ¬ ∃ k, 0 < k ∧ 8 * k ≤ 0 ∧ 0 < (stale k).toNat := by
      rintro ⟨k, hk, hle, -⟩
      omega
    have hany : (∃ j, regs.changedBelow 0 j = true) ↔ regs.hubChange = true := by
      constructor
      · rintro ⟨j, hj⟩
        have h0 := le_of_changedBelow hj
        rw [RootHubRegs.changedBelow, if_pos (by omega)] at hj
        exact hj
      · exact fun h => ⟨0, h⟩
    rw [hany, or_iff_left hnone]
    cases regs.hubChange <;> simp

/-- The bits, with those of one port more. -/
theorem RhSendInv.port_bits {s : (ℕ → UInt8) × ℕ} (h : RhSendInv regs stale i s) (k : ℕ) {b : ℕ}
    (hb : b < 8) :
    ((rhSendPort regs s i).1 k).toNat.testBit b
      = ((decide (0 < k) && (stale k).toNat.testBit b) || regs.changedBelow (i + 1)
        (8 * k + b)) := by
  rw [changedBelow_succ, ← Bool.or_assoc, ← h.bits k b hb]
  unfold rhSendPort
  dsimp only
  by_cases hk : k = (i + 1) / 8
  · subst hk
    have hiff : b = (i + 1) % 8 ↔ 8 * ((i + 1) / 8) + b = i + 1 := by omega
    rw [Function.update_self, UInt8.toNat_or, Nat.testBit_or, testBit_changeBit _ _ hb,
      decide_eq_decide.mpr hiff]
  · have hne : 8 * k + b ≠ i + 1 := by omega
    rw [Function.update_of_ne hk, decide_eq_false hne, Bool.and_false, Bool.or_false]

/-- **One port more.** -/
theorem RhSendInv.port {s : (ℕ → UInt8) × ℕ} (h : RhSendInv regs stale i s) :
    RhSendInv regs stale (i + 1) (rhSendPort regs s i) := by
  refine ⟨fun k b hb => h.port_bits k hb, ?_⟩
  have hret : (rhSendPort regs s i).2 = s.2 + ((rhSendPort regs s i).1 ((i + 1) / 8)).toNat := rfl
  have hpos : 0 < (rhSendPort regs s i).2 ↔
      0 < s.2 ∨ 0 < ((rhSendPort regs s i).1 ((i + 1) / 8)).toNat := by
    rw [hret]
    omega
  rw [hpos, h.ret, toNat_pos_iff]
  constructor
  · rintro ((⟨j, hj⟩ | ⟨k, hk, hle, hstale⟩) | ⟨b, hb, hbit⟩)
    · exact .inl ⟨j, by rw [changedBelow_succ, hj, Bool.true_or]⟩
    · exact .inr ⟨k, hk, by omega, hstale⟩
    · rw [h.port_bits _ hb, Bool.or_eq_true, Bool.and_eq_true, decide_eq_true_eq] at hbit
      rcases hbit with ⟨hk, hstale⟩ | hbit
      · exact .inr ⟨_, hk, by omega, (toNat_pos_iff _).mpr ⟨b, hb, hstale⟩⟩
      · exact .inl ⟨_, hbit⟩
  · rintro (⟨j, hj⟩ | ⟨k, hk, hle, hstale⟩)
    · by_cases hij : j = i + 1
      · -- the bit of this port is in the byte that is added
        have hplace : 8 * ((i + 1) / 8) + (i + 1) % 8 = j := by omega
        refine .inr ⟨(i + 1) % 8, Nat.mod_lt _ (by decide), ?_⟩
        rw [h.port_bits _ (Nat.mod_lt _ (by decide)), hplace, hj, Bool.or_true]
      · rw [changedBelow_succ, decide_eq_false hij, Bool.and_false, Bool.or_false] at hj
        exact .inl (.inl ⟨j, hj⟩)
    · by_cases hlast : 8 * k ≤ i
      · exact .inl (.inr ⟨k, hk, hlast, hstale⟩)
      · -- the byte is added for the first time
        have hplace : (i + 1) / 8 = k := by omega
        obtain ⟨b, hb, hbit⟩ := (toNat_pos_iff _).mp hstale
        refine .inr ⟨b, hb, ?_⟩
        rw [h.port_bits _ hb, hplace, hbit, decide_eq_true hk, Bool.and_true, Bool.true_or]

/-- **All ports.** -/
theorem rhSendInv_foldl (regs : RootHubRegs) (stale : ℕ → UInt8) (n : ℕ) : RhSendInv regs stale n
    ((List.range n).foldl (rhSendPort regs) (Function.update stale 0 (if regs.hubChange then 1
      else 0), (if regs.hubChange then 1 else 0 : UInt8).toNat)) := by
  induction n with
  | zero => exact rhSendInv_zero regs stale
  | succ n ih =>
    rw [List.range_succ, List.foldl_append, List.foldl_cons, List.foldl_nil]
    exact ih.port

/-- The call, by what the loop leaves in `data`. -/
theorem exists_rhSendIrq (regs : RootHubRegs) (stale : ℕ → UInt8) (rhLen : ℕ) :
    ∃ s : (ℕ → UInt8) × ℕ,
    RhSendInv regs stale regs.numPorts s ∧ rhSendIrq regs stale rhLen = if 0 < s.2 then
      ((List.range (min (regs.numPorts / 8 + 1) (min rhLen 8))).map s.1, regs.numPorts / 8 + 1)
        else ([], 0) :=
  ⟨_, rhSendInv_foldl regs stale regs.numPorts, rfl⟩

/-- The bits of the second byte that were there before are those of ports
with a change. -/
def StaleExact (regs : RootHubRegs) (stale : ℕ → UInt8) : Prop :=
  8 ≤ regs.numPorts → ∀ b < 8, (stale 1).toNat.testBit b = true → regs.changed (8 + b) = true

/-- Without a change. -/
theorem exactStatus_of_noChange (hn : regs.numPorts ≤ 15) (h : ¬ regs.AnyChange) :
    ExactStatus regs stale rhLen ↔ StaleExact regs stale := by
  obtain ⟨s, hinv, heq⟩ := exists_rhSendIrq regs stale rhLen
  have hret : 0 < s.2 ↔ 8 ≤ regs.numPorts ∧ 0 < (stale 1).toNat := by
    have hnone : ¬ ∃ j, regs.changedBelow regs.numPorts j = true := h
    rw [hinv.ret, or_iff_right hnone]
    constructor
    · rintro ⟨k, hk, hle, hstale⟩
      obtain rfl : k = 1 := by omega
      exact ⟨hle, hstale⟩
    · rintro ⟨hle, hstale⟩
      exact ⟨1, Nat.one_pos, hle, hstale⟩
  have hzero : ExactStatus regs stale rhLen ↔ ¬ 0 < s.2 := by
    unfold ExactStatus
    rw [heq]
    by_cases hpos : 0 < s.2
    · simp [hpos, h]
    · simp [hpos, h]
  rw [hzero, hret, StaleExact, toNat_pos_iff]
  constructor
  · intro hn8 hle b hb hbit
    exact absurd ⟨hle, b, hb, hbit⟩ hn8
  · rintro hall ⟨hle, b, hb, hbit⟩
    exact h ⟨_, hall hle b hb hbit⟩

/-- What `rh_int_timer_do` makes of the length. -/
theorem rhIntTimerSend_actualLength {rh : VirtRootHub} {o : Ohci} {u : UrbPtr}
    (hsend : rh.send = true)
    (hlen : (o.urb u).transferBufferLength = rhLen) (hpos : 0 < (rhSendIrq regs stale rhLen).2) :
    ((rhIntTimerSend rh regs stale o u).urb u).actualLength = (rhSendIrq regs stale rhLen).2 := by
  unfold rhIntTimerSend
  dsimp only
  rw [if_pos hsend, hlen, if_pos hpos]
  split
  · rw [callComplete_urb, Ohci.modUrb_urb_self]
  · rw [Ohci.modUrb_urb_self]

/-- With a change. -/
theorem exactStatus_of_change (hn : regs.numPorts ≤ 15) (h : regs.AnyChange) :
    ExactStatus regs stale rhLen ↔ StaleExact regs stale ∧ regs.numPorts / 8 + 1 ≤ rhLen := by
  obtain ⟨s, hinv, heq⟩ := exists_rhSendIrq regs stale rhLen
  have hpos : 0 < s.2 := hinv.ret.mpr (.inl h)
  rw [if_pos hpos] at heq
  have hactual : ∀ (rh : VirtRootHub) (o : Ohci) (u : UrbPtr), rh.send = true →
      (o.urb u).transferBufferLength = rhLen →
      ((rhIntTimerSend rh regs stale o u).urb u).actualLength = (rhSendIrq regs stale rhLen).2 :=
    fun rh o u hsend hlen =>
      rhIntTimerSend_actualLength hsend hlen (by rw [heq]; exact Nat.succ_pos _)
  rw [heq] at hactual
  unfold ExactStatus
  rw [heq]
  have hlen : min (regs.numPorts / 8 + 1) (min rhLen 8)
      = min (regs.numPorts / 8 + 1) rhLen := by omega
  simp only [h, not_true_eq_false, false_implies, true_and, true_implies, List.length_map,
    List.length_range, hlen, List.get_eq_getElem, List.getElem_map, List.getElem_range]
  have hbit : ∀ k, ∀ b < 8, (s.1 k).toNat.testBit b
      = ((decide (0 < k) && (stale k).toNat.testBit b) || regs.changed (8 * k + b)) := hinv.bits
  constructor
  · rintro ⟨hall, hle, -⟩
    refine ⟨fun hn8 b hb hstale => ?_, hle⟩
    have h₁ := hall 1 (by omega) b hb
    rw [hbit 1 b hb, hstale] at h₁
    exact h₁.symm
  · rintro ⟨hstale, hle⟩
    refine ⟨fun k hk b hb => ?_, hle, hactual⟩
    rw [hbit k b hb]
    by_cases h0 : k = 0
    · rw [h0]
      rfl
    · obtain rfl : k = 1 := by omega
      cases hs : (stale 1).toNat.testBit b with
      | false => simp
      | true => rw [Nat.mul_one, hstale (by omega) b hb hs, Bool.or_true]

/-- **When the status is exact**: the bits that were in the second byte before
are those of ports with a change, and the buffer has room for the bitmap when
anything has changed. -/
theorem exactStatus_iff (regs : RootHubRegs) (stale : ℕ → UInt8) (rhLen : ℕ)
    (hn : regs.numPorts ≤ 15) :
    ExactStatus regs stale rhLen ↔
      StaleExact regs stale ∧ (regs.AnyChange → regs.numPorts / 8 + 1 ≤ rhLen) := by
  by_cases h : regs.AnyChange
  · rw [exactStatus_of_change hn h, forall_prop_of_true h]
  · rw [exactStatus_of_noChange hn h]
    exact (and_iff_left fun hc => absurd hc h).symm

end Bits

/-- Two ports, of which the first has a connect status change. -/
def connected : RootHubRegs := fun r => if r = 0 then 2 else if r = 3 then 0x00010001 else 0

theorem exactStatus_connected : ExactStatus connected (fun _ => 0xff) 2 := by
  refine (exactStatus_iff connected (fun _ => 0xff) 2 (by decide)).mpr ⟨fun h => ?_,
    fun _ => by decide⟩
  exact absurd h (by decide)

/-- The buffer is empty, and the length is 1. -/
theorem not_exactStatus :
    ¬ ∀ (regs : RootHubRegs) (stale : ℕ → UInt8) (rhLen : ℕ), regs.numPorts ≤ 15 →
    ExactStatus regs stale rhLen := by
  intro h
  have hlen := ((h connected (fun _ => 0) 0 (by decide)).2 ⟨1, by decide⟩).2.2.1
  exact absurd hlen (by decide)
