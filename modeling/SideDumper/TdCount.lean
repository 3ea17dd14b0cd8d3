import SideDumper.OutData
import SideDumper.TdFills
import SideDumper.TdLists

/-!
# How many TDs a request has, and which

`sohci_submit_urb` computes how many TDs a request needs, allocates them and
notes their number in `urb_priv->length`, which has 16 bits. `td_submit_urb`
makes calls of `td_fill` without looking at this number, and `td_fill` does
nothing when its index is not below it. What is allocated, what is noted and
what is filled are the same exactly when `FitsTds`.

`td_fill` notes the index in the TD, in 8 bits, for those who find the TD on
a done list. `identified_iff` says for which requests it leads them back to
the TD.

The number of packets is an `int` that nobody checks; the loops over a
negative number of packets do nothing.
-/

/-- **The number of TDs**, `size`, as `sohci_submit_urb` computes it. -/
def submitSize (type : PipeType) (len packets : ℤ) : ℤ :=
  match type with
  | .bulk => (len - 1).tdiv 4096 + 1
  | .iso => packets
  | .ctrl => if len = 0 then 2 else (len - 1).tdiv 4096 + 3
  | .int => 1

/-- `urb_priv->length = size`, an `__u16`. -/
def privLength (size : ℤ) : ℕ := (size % 65536).toNat

/-- **A request that `sohci_submit_urb` has accepted**, when `td_submit_urb` is
called: the private part has the length that has been noted. -/
structure Ohci.Accepted (o : Ohci) (u : UrbPtr) (packets : ℤ) (p : UrbPriv) : Prop where
  priv : (o.urb u).hcpriv = some p
  number : (o.urb u).numberOfPackets = packets.toNat
  length : p.length
    = privLength (submitSize (o.urb u).pipe.type (o.urb u).transferBufferLength packets)

/-- The calls of `td_fill`, and how many of them get past the check of the
index. -/
def tdFillsCounted (u : UrbPtr) : List TdCall → ℕ → Ohci → Option (Ohci × ℕ)
  | [], _, o => some (o, 0)
  | c :: cs, index, o => do
    let p ← (o.urb u).hcpriv
    let o ← tdFill o u c index
    let (o, n) ← tdFillsCounted u cs (index + 1) o
    some (o, if p.length ≤ index then n else n + 1)

/-- **`td_submit_urb`**, and how many calls of `td_fill` take effect. -/
def tdSubmitCounted (o : Ohci) (u : UrbPtr) : Option (Ohci × ℕ) := do
  let p ← (o.urb u).hcpriv
  tdFillsCounted u (tdCalls (o.urb u) p (o.toggleOf (o.urb u))) 0
    ((submitStart o u).log (.submitTds u))

/-- **The requests whose TDs are all filled**: a control request has one TD for
its data, and the number of TDs has 16 bits. -/
def FitsTds (type : PipeType) (len : ℕ) (packets : ℤ) : Prop :=
  match type with
  | .bulk => len ≤ 4096 * 65535
  | .iso => 0 ≤ packets ∧ packets < 65536
  | .ctrl => len ≤ 4096
  | .int => True

/-- **What a TD keeps until it comes back**, and the private part of its URB. -/
structure Ohci.Keeps (o o₁ : Ohci) (u : UrbPtr) (p : UrbPriv) (t : TdPtr) : Prop where
  index : (o₁.td t).index = (o.td t).index
  urb : (o₁.td t).urb = (o.td t).urb
  iso : (o₁.td t).hwINFO.iso = (o.td t).hwINFO.iso
  priv : ∃ p₁, (o₁.urb u).hcpriv = some p₁ ∧ p₁.td = p.td ∧ p₁.length = p.length

/-- `dl_transfer_length` notes what has become of a packet in its place. -/
def NotesPacket (o : Ohci) (u : UrbPtr) (t : TdPtr) (i : ℕ) : Prop :=
  (o.td t).hwPSW / 4096 % 16 < 14 → ∃ o₁, dlTransferLength o t = some o₁ ∧
    (o₁.urb u).isoFrameDesc = Function.update (o.urb u).isoFrameDesc i
      { (o.urb u).isoFrameDesc i with
        actualLength :=
          if (o.urb u).pipe.out then ((o.urb u).isoFrameDesc i).length else (o.td t).hwPSW % 1024
        status := ccToError (effectiveCc (o.urb u) ((o.td t).hwPSW / 4096 % 16)) }

/-- `dl_reverse_done_list` skips the TDs behind a failed one: the queue goes on
behind the last of `size` TDs, and those skipped are counted. -/
def SkipsRest (o : Ohci) (u : UrbPtr) (p : UrbPriv) (t : TdPtr) (size : ℤ) (i : ℕ) : Prop :=
  (o.td t).hwINFO.cc ≠ 0 → (o.ed (o.td t).ed).headHalted = true →
    ∀ rev p₁ p₂, (o.urb u).hcpriv = some p₁ →
    ((reverseTd o t rev).urb u).hcpriv = some p₂ →
    if (i : ℤ) + 1 = size then
      ((reverseTd o t rev).ed (o.td t).ed).hwHeadP = (o.ed (o.td t).ed).hwHeadP ∧
        p₂.tdCnt = p₁.tdCnt
    else
      ((reverseTd o t rev).ed (o.td t).ed).hwHeadP = (o.td (p.td (size - 1).toNat)).hwNextTD ∧
        p₂.tdCnt = (p₁.tdCnt + (size - i - 1).toNat) % 65536

/-- **The index of a TD identifies it**, when `size` TDs are needed and `n` have
been filled. -/
structure Ohci.Identified (o : Ohci) (u : UrbPtr) (p : UrbPriv) (size : ℤ) (n : ℕ) : Prop where
  index : ∀ i : ℕ, (i : ℤ) < size → i < n ∧ p.td (o.td (p.td i)).index = p.td i
  packet : (o.urb u).pipe.type = .iso → ∀ i : ℕ, (i : ℤ) < size → ∀ o₁, o.Keeps o₁ u p (p.td i) →
    NotesPacket o₁ u (p.td i) i
  skip : ∀ i : ℕ, (i : ℤ) < size → ∀ o₁, o.Keeps o₁ u p (p.td i) →
    SkipsRest o₁ u p (p.td i) size i

/-- **The requests whose TDs are all filled and have an index of 8 bits.** -/
def FitsIndex (type : PipeType) (len : ℕ) (packets : ℤ) : Prop :=
  match type with
  | .bulk => len ≤ 4096 * 256
  | .iso => packets ≤ 256
  | .ctrl => len ≤ 4096
  | .int => True

section Counts

variable {o o' : Ohci} {u : UrbPtr} {p : UrbPriv} {packets : ℤ} {n : ℕ}

/-! ## What is noted -/

/-- A division of a length rounds toward zero, also when it is 0. -/
theorem tdiv_page (l : ℕ) : ((l : ℤ) - 1).tdiv 4096 = ((l - 1) / 4096 : ℕ) := by
  cases l with
  | zero => decide
  | succ l =>
    rw [Nat.add_sub_cancel, show ((l + 1 : ℕ) : ℤ) - 1 = (l : ℤ) by omega]
    exact (Int.ofNat_tdiv l 4096).symm

/-- The number of TDs of a request of this driver. -/
theorem submitSize_eq (r : Urb) :
    submitSize r.pipe.type r.transferBufferLength r.numberOfPackets = tdSize r := by
  unfold submitSize tdSize
  cases r.pipe.type with
  | bulk =>
    dsimp only
    rw [tdiv_page]
    omega
  | iso => rfl
  | int => rfl
  | ctrl =>
    dsimp only
    rw [tdiv_page]
    split <;> split <;> omega

theorem privLength_natCast (size : ℕ) : privLength size = size % 65536 := by
  unfold privLength
  omega

theorem ledger_submitCall {fuel : ℕ} {e : EdPtr} (h : submitCall fuel o u e = some o') :
    o'.ledger.priv = o.ledger.priv ∧ o'.ledger.const = o.ledger.const := by
  have hstat : ∀ (o₁ : Ohci) (f : Urb → Urb), (∀ r, (f r).const = r.const) →
      (∀ r, (f r).hcpriv = r.hcpriv) →
      (o₁.modUrb u f).ledger = o₁.ledger := fun o₁ f h₁ h₂ =>
    Ohci.ledger_modUrb_same h₁ (fun r => by rw [h₂])
  unfold submitCall at h
  dsimp only at h
  split at h
  · obtain ⟨o₁, h₁, h⟩ := Option.bind_eq_some_iff.mp h
    cases h
    rw [hstat _ _ (by intro; rfl) (by intro; rfl), ledger_epLink h₁,
      hstat _ _ (by intro; rfl) (by intro; rfl)]
    exact ⟨rfl, rfl⟩
  · cases h
    rw [hstat _ _ (by intro; rfl) (by intro; rfl), hstat _ _ (by intro; rfl) (by intro; rfl)]
    exact ⟨rfl, rfl⟩

/-- **`sohci_submit_urb` accepts a request**: the first phase goes through, in
the meantime the URB keeps its private part, and in the second phase
`td_submit_urb` is called. -/
theorem accepted_of_submit {o₁ o₂ o₃ o₄ : Ohci} {dummy : TdPtr} {tds : ℕ → TdPtr}
    {fuel buf setup : ℕ} {e : EdPtr}
    (hfirst : submitFirst o u dummy tds = (o₁, true))
    (hconst : o₂.ledger.const u = o₁.ledger.const u)
    (hpriv : o₂.ledger.priv u = o₁.ledger.priv u)
    (hprep : prepareUrbOnSubmit o₂ u buf setup = (o₃, true))
    (hlink : submitCall fuel o₃ u e = some o₄) :
    ∃ p, o₄.Accepted u (o.urb u).numberOfPackets p := by
  obtain ⟨h₁, h₂⟩ : (∃ h, o₁.ledger.priv u = some h ∧ h.length = tdSize (o.urb u) % 65536) ∧
      o₁.ledger.const u = (o.urb u).const := by
    obtain ⟨hb, -⟩ | ⟨-, -, ⟨hb, -⟩ | ⟨hb, -⟩ | ⟨hb, -⟩ | ⟨l, hadd, ⟨hb, -⟩ | ⟨-, -, hl⟩⟩⟩ :=
      ledger_submitFirst hfirst
    all_goals try cases hb
    have hlc : l.const = o.ledger.const := by
      obtain ⟨-, -, rfl⟩ | ⟨-, -, rfl⟩ := hadd <;> rfl
    rw [hl]
    exact ⟨⟨_, Function.update_self _ _ _, rfl⟩, congrFun hlc u⟩
  obtain ⟨h, hh, hlen⟩ := h₁
  have hprep' := ledger_prepareUrbOnSubmit (o := o₂) (u := u) buf setup
  rw [hprep] at hprep'
  obtain ⟨hlp, hlc⟩ := ledger_submitCall hlink
  have hpriv' : o₄.ledger.priv u = some h := by rw [hlp, hprep', hpriv, hh]
  have hconst' : (o₄.urb u).const = (o.urb u).const := by
    rw [← h₂, ← hconst, ← hprep']
    exact congrFun hlc u
  obtain ⟨p, hp, rfl⟩ := Option.map_eq_some_iff.mp hpriv'
  refine ⟨p, hp, ?_, ?_⟩
  · rw [Int.toNat_natCast]
    exact congrArg UrbConst.numberOfPackets hconst'
  · have htype : (o₄.urb u).pipe = (o.urb u).pipe := congrArg UrbConst.pipe hconst'
    have hl : (o₄.urb u).transferBufferLength = (o.urb u).transferBufferLength :=
      congrArg UrbConst.transferBufferLength hconst'
    rw [htype, hl, submitSize_eq, privLength_natCast]
    exact hlen

/-! ## What is filled -/

/-- **The calls of `td_fill` that take effect** are those with an index below the
length. -/
theorem tdFillsCounted_eq {cs : List TdCall} {i : ℕ} (hp : (o.urb u).hcpriv = some p) :
    tdFillsCounted u cs i o
      = (tdFills u cs i o).map (fun o' => (o', min cs.length (p.length - i))) := by
  induction cs generalizing i o p with
  | nil => simp [tdFillsCounted, tdFills]
  | cons c cs ih =>
    rw [tdFillsCounted, tdFills, hp, Option.bind_eq_bind, Option.bind_some, Option.bind_eq_bind,
      Option.bind_eq_bind]
    obtain ⟨o₁, p₁, hfill, hp₁, hlen⟩ := tdFill_length (c := c) (i := i) hp
    rw [hfill, Option.bind_some, ih hp₁, hlen, Option.bind_eq_bind, Option.bind_some]
    cases tdFills u cs (i + 1) o₁ with
    | none => rfl
    | some o₂ =>
      have hcount : (if p.length ≤ i then min cs.length (p.length - (i + 1))
          else min cs.length (p.length - (i + 1)) + 1) = min (c :: cs).length (p.length - i) := by
        rw [List.length_cons]
        split <;> omega
      rw [← hcount]
      rfl

/-- **What `td_submit_urb` fills.** -/
theorem tdSubmitCounted_eq (hp : (o.urb u).hcpriv = some p) :
    tdSubmitCounted o u
      = (tdSubmitUrb o u).map (fun o' => (o', min (o.urb u).const.tdCount p.length)) := by
  rw [tdSubmitCounted, tdSubmitUrb, hp, Option.bind_eq_bind, Option.bind_some,
    Option.bind_eq_bind,
    Option.bind_some, tdFillsCounted_eq (submitStart_hcpriv hp), length_tdCalls]
  rfl

/-- The calls `td_submit_urb` makes are as many as the TDs of a request that
fits. -/
theorem tdCount_eq_submitSize_iff (r : Urb) (hpackets : r.numberOfPackets = packets.toNat) :
    ((min r.const.tdCount (privLength (submitSize r.pipe.type r.transferBufferLength packets)) :
      ℕ) : ℤ)
        = submitSize r.pipe.type r.transferBufferLength packets ∧
      (privLength (submitSize r.pipe.type r.transferBufferLength packets) : ℤ)
        = submitSize r.pipe.type r.transferBufferLength packets ↔
    FitsTds r.pipe.type r.transferBufferLength packets := by
  unfold submitSize UrbConst.tdCount Urb.const privLength FitsTds
  dsimp only
  cases r.pipe.type with
  | bulk =>
    dsimp only
    rw [tdiv_page]
    omega
  | iso =>
    dsimp only
    omega
  | int =>
    dsimp only
    decide
  | ctrl =>
    dsimp only
    rw [tdiv_page]
    split <;> split <;> omega

/-- **Allocated, noted and filled** are the same number of TDs exactly for the
requests that fit. -/
theorem filled_eq_size_iff (ha : o.Accepted u packets p) : ∃ o' n, tdSubmitUrb o u = some o' ∧
    tdSubmitCounted o u = some (o', n) ∧
    ((n : ℤ) = submitSize (o.urb u).pipe.type (o.urb u).transferBufferLength packets ∧
      (p.length : ℤ) = submitSize (o.urb u).pipe.type (o.urb u).transferBufferLength packets ↔
    FitsTds (o.urb u).pipe.type (o.urb u).transferBufferLength packets) := by
  obtain ⟨o', ho'⟩ := tdSubmitUrb_total ha.priv
  refine ⟨o', _, ho', by rw [tdSubmitCounted_eq ha.priv, ho', Option.map_some], ?_⟩
  rw [ha.length]
  exact tdCount_eq_submitSize_iff _ ha.number

/-- A request at address 1, accepted with so many TDs, and its ED at address 2. -/
def acceptedAlone (pipe : Pipe) (len packets size : ℕ) : Ohci :=
  { (default : Ohci) with
    urb := fun u => if u = 1 then
        { (default : Urb) with
          pipe := pipe
          transferBufferLength := len
          numberOfPackets := packets
          hcpriv :=
            some { (default : UrbPriv) with ed := 2, length := size, td := fun i => 101 + i } }
      else default
    ed := fun _ => { (default : Ed) with type := pipe.type, hwTailP := 100 } }

/-- A control request for 64 bytes, of a device with its EDs behind address 10. -/
def controlRequest : Ohci :=
  { (default : Ohci) with
    usbDev := fun _ => { (default : UsbDev) with edBase := 10 }
    urb := fun _ => { (default : Urb) with
      pipe := ⟨.ctrl, 1, 0, false, false⟩
      dev := 1
      transferBufferLength := 64
      setupPacket := some fun _ => 0 } }

/-- The second phase of a request that is accepted. -/
theorem submitSecond_eq {fuel buf setup : ℕ} {o₁ : Ohci} (hp : (o.urb u).hcpriv = some p)
    (hed : ¬((o.ed p.ed).state = .edNew ∨ (o.ed p.ed).state.del = true))
    (hasap : (o.urb u).isoAsap = false)
    (hprep : prepareUrbOnSubmit o u buf setup = (o₁, true))
    (hcall : submitCall fuel o₁ u p.ed = some o') :
    submitSecond fuel o u buf setup = (tdSubmitUrb o' u).map (fun o => (o, true)) := by
  unfold submitSecond
  rw [hp, Option.bind_eq_bind, Option.bind_some]
  dsimp only
  rw [if_neg hed, hasap, if_neg Bool.false_ne_true, hprep]
  dsimp only
  rw [submitLink_eq, hcall, Option.bind_some]
  cases tdSubmitUrb o' u <;> rfl

/-- It is submitted, and its three TDs are filled. -/
theorem filled_eq_size_control : ∃ o₁ o₂ o₃ o₄ n,
    submitFirst controlRequest 1 100 (fun i => 101 + i) = (o₁, true) ∧
    prepareUrbOnSubmit o₁ 1 4096 8192 = (o₂, true) ∧ submitCall 0 o₂ 1 10 = some o₃ ∧
    submitSecond 0 o₁ 1 4096 8192 = some (o₄, true) ∧ tdSubmitCounted o₃ 1 = some (o₄, n) ∧
    (n : ℤ) = submitSize .ctrl 64 0 := by
  obtain ⟨o₁, h₁, o₂, h₂, o₃, h₃, hpriv, hed, hasap, htype, hlen⟩ : ∃ o₁,
      submitFirst controlRequest 1 100 (fun i => 101 + i) = (o₁, true) ∧ ∃ o₂,
      prepareUrbOnSubmit o₁ 1 4096 8192 = (o₂, true) ∧ ∃ o₃, submitCall 0 o₂ 1 10 = some o₃ ∧
      (o₁.urb 1).hcpriv.map UrbPriv.ed = some 10 ∧
      ¬((o₁.ed 10).state = .edNew ∨ (o₁.ed 10).state.del = true) ∧ (o₁.urb 1).isoAsap = false ∧
      (o₃.urb 1).pipe.type = .ctrl ∧ (o₃.urb 1).transferBufferLength = 64 :=
    ⟨_, rfl, _, rfl, _, rfl, rfl, by decide, rfl, rfl, rfl⟩
  obtain ⟨p, ha⟩ := accepted_of_submit h₁ rfl rfl h₂ h₃
  obtain ⟨p₁, hp₁, hed₁⟩ := Option.map_eq_some_iff.mp hpriv
  obtain ⟨o₄, n, ho₄, hs, hiff⟩ := filled_eq_size_iff ha
  rw [htype, hlen] at hiff
  refine ⟨o₁, o₂, o₃, o₄, n, h₁, h₂, h₃, ?_, hs, (hiff.mpr (show 64 ≤ 4096 by decide)).1⟩
  rw [submitSecond_eq hp₁ (hed₁ ▸ hed) hasap h₂ (hed₁ ▸ h₃), ho₄]
  rfl

/-- A control request for 4097 bytes has four TDs, and three are filled. -/
theorem filled_ne_size : ¬ ∀ (o o' : Ohci) (u : UrbPtr) (p : UrbPriv) (packets : ℤ) (n : ℕ),
    o.Accepted u packets p → tdSubmitCounted o u = some (o', n) →
    (n : ℤ) = submitSize (o.urb u).pipe.type (o.urb u).transferBufferLength packets ∧
      (p.length : ℤ) = submitSize (o.urb u).pipe.type (o.urb u).transferBufferLength packets := by
  intro h
  have ha : (acceptedAlone ⟨.ctrl, 1, 0, false, false⟩ 4097 0 4).Accepted 1 0 _ :=
    ⟨rfl, rfl, by decide⟩
  obtain ⟨o', ho'⟩ := tdSubmitUrb_total ha.priv
  have hs := tdSubmitCounted_eq ha.priv
  rw [ho', Option.map_some] at hs
  exact absurd (h _ _ _ _ _ _ ha hs).1 (by decide)

/-! ## The index of a TD -/

/-- The TDs of a private part are different also when they have been filled. -/
theorem Fills.slot_inj {cs : List TdCall} {p' : UrbPriv} (hf : Fills u p cs 0 n o o' p')
    (ha : o.TdsApart p)
    (hn : n ≤ p.length) {i j : ℕ} (hi : i < n) (hj : j < n) (h : p'.td i = p'.td j) : i = j := by
  have hin : ∀ k < n, 0 ≤ k ∧ k < 0 + n := fun k hk => by omega
  rw [hf.slot i, hf.slot j, if_pos (hin i hi), if_pos (hin j hj)] at h
  by_cases hi0 : i = 0 <;> by_cases hj0 : j = 0
  · omega
  · rw [if_pos hi0, if_neg hj0] at h
    exact absurd h.symm (ha.tail _ (by omega))
  · rw [if_neg hi0, if_pos hj0] at h
    exact absurd h (ha.tail _ (by omega))
  · rw [if_neg hi0, if_neg hj0] at h
    have hij := ha.slot _ (by omega) _ (by omega) h
    omega

/-- The index that `td_fill` has noted. -/
theorem Fills.index {cs : List TdCall} {p' : UrbPriv} (hf : Fills u p cs 0 n o o' p')
    (hn : n ≤ cs.length) {i : ℕ}
    (hi : i < n) : ∃ c ∈ cs, o'.td (p'.td i) = tdOf u p.ed (o.ed p.ed).type c i (p.td i) := by
  have hget : cs[i]? = some cs[i] := List.getElem?_eq_getElem (by omega)
  have htd := hf.td i hi _ hget
  rw [Nat.zero_add] at htd
  exact ⟨_, List.getElem_mem _, htd⟩

/-- The index of the TD behind the first 256 leads to the first one. -/
theorem Fills.index_ne {cs : List TdCall} {p' : UrbPriv} (hf : Fills u p cs 0 n o o' p')
    (ha : o.TdsApart p)
    (hcs : n ≤ cs.length) (hn : n ≤ p.length) (h256 : 256 < n) :
    p'.td (o'.td (p'.td 256)).index ≠ p'.td 256 := by
  intro h
  obtain ⟨c, -, hc⟩ := hf.index hcs h256
  rw [hc] at h
  have h0 : p'.td 0 = p'.td 256 := h
  exact absurd (hf.slot_inj ha hn (by omega) h256 h0) (by decide)

/-- All TDs of an isochronous request are isochronous. -/
theorem iso_of_mem_tdCalls {r : Urb} {first : TdToggle} {c : TdCall} (hiso : r.pipe.type = .iso)
    (hc : c ∈ tdCalls r p first) : c.info.iso = true := by
  rw [tdCalls, hiso] at hc
  obtain ⟨i, -, rfl⟩ := List.mem_map.mp hc
  rfl

/-- `dl_transfer_length` for a TD of an isochronous request whose index is its
place. -/
theorem notesPacket {t : TdPtr} {i : ℕ} (hindex : (o.td t).index = i) (hu : (o.td t).urb = u)
    (hiso : (o.td t).hwINFO.iso = true) : NotesPacket o u t i := by
  intro hcc
  refine ⟨_, by rw [dlTransferLength, if_pos hiso], ?_⟩
  rw [hu, Ohci.modUrb_urb_self, countIso, if_pos hcc, hindex]
  rfl

/-- `dl_reverse_done_list` for a TD whose index is its place. -/
theorem skipsRest {t : TdPtr} {i : ℕ} {p₁ : UrbPriv} (hindex : (o.td t).index = i)
    (hu : (o.td t).urb = u)
    (hp₁ : (o.urb u).hcpriv = some p₁) (htd : p₁.td = p.td) (hi : i < p₁.length) :
    SkipsRest o u p t p₁.length i := by
  intro hcc hhalt rev q p₂ hq hp₂
  rw [hp₁, Option.some.injEq] at hq
  subst hq
  have hfailed : (o.td t).hwINFO.cc ≠ 0 ∧ (o.ed (o.td t).ed).headHalted = true := ⟨hcc, hhalt⟩
  unfold reverseTd skipRest at hp₂ ⊢
  dsimp only at hp₂ ⊢
  rw [if_pos hfailed, hu, hp₁, Ohci.modTd_urb] at hp₂
  rw [if_pos hfailed, hu, hp₁, Ohci.modTd_ed]
  dsimp only at hp₂ ⊢
  rw [hindex] at hp₂ ⊢
  by_cases hlast : i + 1 < p₁.length
  · have hmore : ¬ (i : ℤ) + 1 = p₁.length := by omega
    rw [if_pos hlast, Ohci.modPriv_urb_self, Ohci.modEd_urb, hp₁] at hp₂
    obtain rfl := Option.some.inj hp₂
    rw [if_neg hmore, if_pos hlast, Ohci.modPriv_ed, Ohci.modEd_ed_self]
    refine ⟨?_, ?_⟩
    · rw [← htd, show ((p₁.length : ℤ) - 1).toNat = p₁.length - 1 by omega]
    · rw [show ((p₁.length : ℤ) - i - 1).toNat = p₁.length - i - 1 by omega]
  · have hend : (i : ℤ) + 1 = p₁.length := by omega
    rw [if_neg hlast, Ohci.modEd_urb, hp₁] at hp₂
    obtain rfl := Option.some.inj hp₂
    rw [if_pos hend, if_neg hlast, Ohci.modEd_ed_self]
    exact ⟨rfl, rfl⟩

/-- The TDs of a request with small indices are those it needs. -/
theorem fitsIndex_iff (r : Urb) (hpackets : r.numberOfPackets = packets.toNat) :
    FitsIndex r.pipe.type r.transferBufferLength packets ↔
      submitSize r.pipe.type r.transferBufferLength packets ≤ 256 ∧
        submitSize r.pipe.type r.transferBufferLength packets ≤ r.const.tdCount := by
  unfold submitSize UrbConst.tdCount Urb.const FitsIndex
  dsimp only
  cases r.pipe.type with
  | bulk =>
    dsimp only
    rw [tdiv_page]
    omega
  | iso =>
    dsimp only
    omega
  | int =>
    dsimp only
    decide
  | ctrl =>
    dsimp only
    rw [tdiv_page]
    split <;> split <;> omega

/-- **The index of a TD identifies it** exactly for the requests whose TDs are all
filled and whose indices have 8 bits. -/
theorem identified_iff (ha : o.Accepted u packets p) (hap : o.TdsApart p) :
    ∃ o' n p', tdSubmitUrb o u = some o' ∧
    tdSubmitCounted o u = some (o', n) ∧ (o'.urb u).hcpriv = some p' ∧
    (o'.Identified u p'
        (submitSize (o.urb u).pipe.type (o.urb u).transferBufferLength packets) n ↔
      FitsIndex (o.urb u).pipe.type (o.urb u).transferBufferLength packets) := by
  obtain ⟨o', ho'⟩ := tdSubmitUrb_total ha.priv
  obtain ⟨p', hf⟩ := fills_tdSubmitUrb ha.priv hap ho'
  refine ⟨o', _, p', ho', by rw [tdSubmitCounted_eq ha.priv, ho', Option.map_some], hf.priv, ?_⟩
  rw [length_tdCalls] at hf
  rw [fitsIndex_iff _ ha.number]
  have hlen := ha.length
  generalize submitSize (o.urb u).pipe.type (o.urb u).transferBufferLength packets
    = size at hlen ⊢
  generalize hn : min (o.urb u).const.tdCount p.length = n at hf ⊢
  have hcs : n ≤ (tdCalls (o.urb u) p (o.toggleOf (o.urb u))).length := by
    rw [length_tdCalls]
    omega
  refine ⟨fun h => ?_, fun ⟨h₁, h₂⟩ => ?_⟩
  · by_contra hnot
    obtain ⟨s, rfl⟩ : ∃ s : ℕ, size = s + 1 := ⟨(size - 1).toNat, by omega⟩
    have hs := (h.index s (by omega)).1
    exact hf.index_ne ⟨hap.tail, hap.slot⟩ hcs (by dsimp only; omega) (by omega)
      (h.index 256 (by omega)).2
  · have hsize : ∀ i : ℕ, (i : ℤ) < size → i < n ∧ (p'.length : ℤ) = size := by
      intro i hi
      rw [hf.length]
      dsimp only
      unfold privLength at hlen
      omega
    have hindex : ∀ i : ℕ, (i : ℤ) < size → (o'.td (p'.td i)).index = i ∧
        (o'.td (p'.td i)).urb = u := by
      intro i hi
      obtain ⟨c, -, hc⟩ := hf.index hcs (hsize i hi).1
      rw [hc]
      exact ⟨Nat.mod_eq_of_lt (by omega), rfl⟩
    refine ⟨fun i hi => ⟨(hsize i hi).1, by rw [(hindex i hi).1]⟩, fun hiso i hi o₁ hk => ?_,
      fun i hi o₁ hk => ?_⟩
    · refine notesPacket (hk.index.trans (hindex i hi).1) (hk.urb.trans (hindex i hi).2)
        (hk.iso.trans ?_)
      obtain ⟨c, hmem, hc⟩ := hf.index hcs (hsize i hi).1
      rw [hc]
      have hconst : o'.ledger.const = o.ledger.const := by
        have hcounts := (ledger_tdSubmitUrb ho').counts
        simp only [Prod.mk.injEq] at hcounts
        exact hcounts.2.2.2.1
      have hpipe : (o'.urb u).pipe = (o.urb u).pipe := congrArg UrbConst.pipe (congrFun hconst u)
      rw [hpipe] at hiso
      exact iso_of_mem_tdCalls hiso hmem
    · obtain ⟨p₁, hp₁, htd, hl⟩ := hk.priv
      rw [← (hsize i hi).2, ← hl]
      refine skipsRest (hk.index.trans (hindex i hi).1) (hk.urb.trans (hindex i hi).2) hp₁ htd ?_
      have := hsize i hi
      omega

theorem tdsApart_acceptedAlone (pipe : Pipe) (len packets size : ℕ) :
    (acceptedAlone pipe len packets size).TdsApart
    { (default : UrbPriv) with ed := 2, length := size, td := fun i => 101 + i } :=
  ⟨fun i _ h => by
    have h100 : 101 + i = 100 := h
    omega, fun i _ j _ h => Nat.add_left_cancel h⟩

/-- The TDs of an isochronous request for two packets. -/
theorem identified_two :
    ∃ o p, tdSubmitUrb (acceptedAlone ⟨.iso, 1, 1, false, false⟩ 0 2 2) 1 = some o ∧
    o.Identified 1 p 2 2 := by
  have ha : (acceptedAlone ⟨.iso, 1, 1, false, false⟩ 0 2 2).Accepted 1 2 _ :=
    ⟨rfl, rfl, by decide⟩
  obtain ⟨o, n, p, h, hs, -, hiff⟩ := identified_iff ha (tdsApart_acceptedAlone _ _ _ _)
  rw [tdSubmitCounted_eq ha.priv, h, Option.map_some] at hs
  obtain ⟨-, rfl⟩ := Prod.mk.inj (Option.some.inj hs)
  exact ⟨o, p, h, hiff.mpr (show (2 : ℤ) ≤ 256 by decide)⟩

/-- The index of the last TD of an isochronous request for 257 packets is 0. -/
theorem not_identified :
    ¬ ∀ (o o' : Ohci) (u : UrbPtr) (p p' : UrbPriv) (packets : ℤ) (n : ℕ),
    o.Accepted u packets p →
    o.TdsApart p → tdSubmitCounted o u = some (o', n) → (o'.urb u).hcpriv = some p' →
    o'.Identified u p' (submitSize (o.urb u).pipe.type (o.urb u).transferBufferLength packets)
      n := by
  intro h
  have ha : (acceptedAlone ⟨.iso, 1, 1, false, false⟩ 0 257 257).Accepted 1 257 _ :=
    ⟨rfl, rfl, by decide⟩
  have hap := tdsApart_acceptedAlone ⟨.iso, 1, 1, false, false⟩ 0 257 257
  obtain ⟨o', ho'⟩ := tdSubmitUrb_total ha.priv
  have hs := tdSubmitCounted_eq ha.priv
  rw [ho', Option.map_some] at hs
  obtain ⟨p', hf⟩ := fills_tdSubmitUrb ha.priv hap ho'
  rw [length_tdCalls] at hf
  have hn : min ((acceptedAlone ⟨.iso, 1, 1, false, false⟩ 0 257 257).urb 1).const.tdCount 257
      = 257 := by decide
  have hid := h _ _ _ _ _ _ _ ha hap hs hf.priv
  refine hf.index_ne ⟨hap.tail, hap.slot⟩ ?_ ?_ ?_ (hid.index 256 (by decide)).2
  · rw [length_tdCalls]
    exact Nat.min_le_left _ _
  · exact Nat.min_le_right _ _
  · exact hn.symm ▸ by decide

end Counts
