import SideDumper.UrbDump

/-!
# What the dump reads of the copy

`InitMini` copies the transfer buffer, and the dumpers read the copy through
a pointer that nobody tests. `Safe` says that every offset that is written or
read is one of a copy that exists. Most of the length tests in the dumpers do
what they are there for; `ReadsOk` has what is left to chance: that `kmalloc`
succeeds, that a standard request returns at least a descriptor header, and
that the lengths in the descriptors behind a config descriptor lead to places
inside the copy.
-/

/-- **What `InitMini` is called with**: the URB, whether it has a transfer
buffer and whether `kmalloc` succeeds, and the bytes that are at the address
of the copy afterwards. -/
structure Capture where
  m : MiniUrb
  hasBuffer : Bool
  kmallocOk : Bool
  buf : Bytes

namespace Capture

/-- There is something to copy. -/
def copies (c : Capture) : Bool := decide (c.m.uTbBytes ≠ 0) && c.hasBuffer

/-- The copy is not `NULL`. -/
def copied (c : Capture) : Bool := c.copies && c.kmallocOk

/-- The offsets of the copy that `InitMini` writes and that `DumpUrb` reads
in the first `passes` passes of the loop over the descriptors. -/
def accesses (passes : ℕ) (s : DeviceSettings) (c : Capture) : List ℕ :=
  (if c.copies then List.range c.m.uTbBytes else []) ++ dumpReads (dumpUrb passes s c.m c.buf)

/-- **Every byte that is accessed was captured.** -/
def Safe (s : DeviceSettings) (c : Capture) : Prop :=
  ∀ passes, ∀ i ∈ c.accesses passes s, c.copied = true ∧ i < c.m.uTbBytes

end Capture

/-- The offsets of the descriptors that the loop of `DumpCD` comes to. -/
def cdVisits (buf : Bytes) (pEnd : ℕ) : ℕ → ℕ → List ℕ
  | 0, _ => []
  | passes + 1, off =>
    if off < pEnd then off :: cdVisits buf pEnd passes (off + (buf off).toNat) else []

/-- A descriptor that the loop comes to has its type inside the `n` bytes of
the copy, and all of it if it is an audio endpoint descriptor. -/
def PassOk (buf : Bytes) (n pEnd off : ℕ) : Prop :=
  off + 1 < n ∧ (buf (off + 1) = 5 → off + 7 ≤ pEnd → buf off = 9 → off + 8 < n)

/-- **When every byte that is accessed was captured.** -/
def Capture.ReadsOk (s : DeviceSettings) (c : Capture) : Prop :=
  (c.copies = true → c.kmallocOk = true) ∧ (uTbLen s c.m ≠ 0 → c.copied = true) ∧
    (testForStdDescriptor c.m = true → c.copied = true ∧ 2 ≤ c.m.uTbBytes ∧
      (c.buf 1 = 2 → 9 < c.m.uTbBytes → ∀ passes,
        ∀ off ∈ cdVisits c.buf (min c.m.uTbBytes (fieldValue c.buf 2 2)) passes (c.buf 0).toNat,
          PassOk c.buf c.m.uTbBytes (min c.m.uTbBytes (fieldValue c.buf 2 2)) off))

section Reads

variable {buf : Bytes} {n off pEnd uIndex : ℕ} {xs ys : List Item} {label : String}

@[simp] theorem dumpReads_nil : dumpReads [] = [] := rfl

@[simp] theorem dumpReads_append : dumpReads (xs ++ ys) = dumpReads xs ++ dumpReads ys :=
  List.flatMap_append

@[simp] theorem dumpReads_cons (x : Item) : dumpReads (x :: xs) = x.reads ++ dumpReads xs := rfl

@[simp] theorem dumpReads_line : dumpReads (line label xs) = dumpReads xs := by
  simp [line, Item.reads]

@[simp] theorem dumpReads_hexByte : dumpReads (hexByte label off) = [off] := by
  simp [hexByte, Item.reads, Val.reads]

@[simp] theorem dumpReads_hexDecByte : dumpReads (hexDecByte label off) = [off, off] := by
  simp [hexDecByte, Item.reads, Val.reads]

@[simp] theorem dumpReads_hexWord : dumpReads (hexWord label off) = [off, off + 1] := by
  simp [hexWord, Item.reads, Val.reads, List.range_succ]

@[simp] theorem dumpReads_hexDecWord :
    dumpReads (hexDecWord label off) = [off, off + 1, off, off + 1] := by
  simp [hexDecWord, Item.reads, Val.reads, List.range_succ]

@[simp] theorem dumpReads_shortTransfer : dumpReads (shortTransfer n off) = [off] := by
  simp [shortTransfer, Item.reads, Val.reads]

@[simp] theorem dumpReads_unknownDescriptor : dumpReads unknownDescriptor = [1, 0] := by
  simp [unknownDescriptor, Item.reads, Val.reads]

@[simp] theorem dumpReads_endOfDescriptor : dumpReads endOfDescriptor = [] := by
  simp [endOfDescriptor]

/-- A descriptor is read at its start, or in its fields when it is
complete. -/
theorem dumpReads_descriptor {size : ℕ} (title : String) (fields : List Item) :
    dumpReads (descriptor title n size off fields)
      = if n < size then [off] else dumpReads fields := by
  unfold descriptor
  split
  · simp
  · simp

/-- `DumpDD` stays inside a copy that has a header. -/
theorem dumpDD_reads (hn : 0 < n) : ∀ i ∈ dumpReads (dumpDD buf n), i < n := by
  unfold dumpDD
  rw [dumpReads_descriptor]
  split
  · simpa using hn
  · simp [Item.reads, Val.reads]
    omega

/-- `DumpID` stays in front of the end. -/
theorem dumpID_reads (hoff : off < pEnd) : ∀ i ∈ dumpReads (dumpID off (pEnd - off)),
    i < pEnd := by
  unfold dumpID idFields
  rw [dumpReads_descriptor]
  split
  · simpa using hoff
  · simp
    omega

/-- `DumpED` stays in front of the end, but for the last two bytes of an
audio endpoint descriptor. -/
theorem dumpED_reads_iff (hoff : off < pEnd) (hn : pEnd ≤ n) :
    (∀ i ∈ dumpReads (dumpED buf off (pEnd - off)), i < n) ↔
      (off + 7 ≤ pEnd → buf off = 9 → off + 8 < n) := by
  unfold dumpED edFields
  rw [dumpReads_descriptor]
  split
  · simp
    omega
  · by_cases h9 : buf off = 9
    · simp [h9, Item.reads, Val.reads]
      omega
    · simp [h9, Item.reads]
      omega

/-- One pass of the loop of `DumpCD`. -/
theorem dumpCdPass_reads_iff (hoff : off < pEnd) (hn : pEnd ≤ n) (h2 : 2 ≤ n) :
    (∀ i ∈ dumpReads (dumpCdPass buf off pEnd), i < n) ↔ PassOk buf n pEnd off := by
  unfold dumpCdPass PassOk
  rw [dumpReads_append, dumpReads_append, List.forall_mem_append, List.forall_mem_append]
  have hends : (∀ i ∈ dumpReads [Item.test (off + 1)], i < n) ↔ off + 1 < n := by
    simp [Item.reads]
  have hstart : ∀ i ∈ dumpReads [Item.test off], i < n := by
    simp [Item.reads]
    omega
  rw [hends, and_iff_left hstart]
  refine and_congr_right fun _ => ?_
  split
  · rename_i htype
    refine iff_of_true (by simp) (fun h5 => ?_)
    rw [h5] at htype
    exact absurd htype (by decide)
  · split
    · rename_i htype
      refine iff_of_true (fun i hi => Nat.lt_of_lt_of_le (dumpID_reads hoff i hi) hn)
        (fun h5 => ?_)
      rw [h5] at htype
      exact absurd htype (by decide)
    · split
      · rw [dumpED_reads_iff hoff hn]
        exact ⟨fun h _ => h, fun h => h ‹_›⟩
      · refine iff_of_true ?_ (fun h5 => absurd h5 ‹_›)
        simp
        omega

/-- **The loop of `DumpCD`** stays inside when each descriptor it comes to is
inside. -/
theorem dumpCdLoop_reads_iff (hn : pEnd ≤ n) (h2 : 2 ≤ n) (passes : ℕ) :
    (∀ i ∈ dumpReads (dumpCdLoop buf pEnd passes off), i < n) ↔
      ∀ v ∈ cdVisits buf pEnd passes off, PassOk buf n pEnd v := by
  induction passes generalizing off with
  | zero => simp [dumpCdLoop, cdVisits]
  | succ passes ih =>
    unfold dumpCdLoop cdVisits
    split
    · rw [dumpReads_append, List.forall_mem_append, List.forall_mem_cons, ih,
        dumpCdPass_reads_iff ‹_› hn h2]
    · simp

/-- `DumpCD`. -/
theorem dumpCD_reads_iff (h2 : 2 ≤ n) (passes : ℕ) :
    (∀ i ∈ dumpReads (dumpCD passes buf n), i < n) ↔
      (9 < n → ∀ off ∈ cdVisits buf (min n (fieldValue buf 2 2)) passes (buf 0).toNat,
        PassOk buf n (min n (fieldValue buf 2 2)) off) := by
  unfold dumpCD
  rw [dumpReads_append, dumpReads_descriptor, List.forall_mem_append, and_iff_right]
  · split
    · rename_i h9
      rw [dumpReads_append, List.forall_mem_append, and_iff_right (by simp [Item.reads]; omega),
        dumpCdLoop_reads_iff (Nat.min_le_left _ _) h2]
      exact ⟨fun h _ => h, fun h => h h9⟩
    · exact iff_of_true (by simp) (fun h9 => absurd h9 ‹_›)
  · split
    · simp
      omega
    · simp
      omega

/-- `DumpSD` stays inside a copy that has a header. -/
theorem dumpSD_reads (h2 : 2 ≤ n) : ∀ i ∈ dumpReads (dumpSD buf n uIndex), i < n := by
  have hchars :
      ∀ i ∈ dumpReads ((List.range (sdChars buf n)).map (fun i => Item.printable (2 + 2 * i))),
      i < n := by
    intro i hi
    simp only [dumpReads, List.mem_flatMap, List.mem_map, List.mem_range] at hi
    obtain ⟨x, ⟨j, hj, rfl⟩, hx⟩ := hi
    rw [Item.reads, List.mem_singleton] at hx
    unfold sdChars at hj
    omega
  unfold dumpSD
  rw [if_neg (Nat.not_lt.mpr h2)]
  simp only [dumpReads_append, List.forall_mem_append]
  refine ⟨⟨by simp, by simp [Item.reads]; omega, ?_⟩, by simp⟩
  split
  · simp
    omega
  · simp only [dumpReads_append, List.forall_mem_append]
    refine ⟨⟨⟨by simp [Item.reads]; omega, by simp; omega⟩, by simp; omega⟩, ?_⟩
    split
    · simp
    · simp only [dumpReads_append, List.forall_mem_append]
      exact ⟨⟨by simp [Item.reads], hchars⟩, by simp [Item.reads]⟩

/-- `DumpRawBuf` reads the bytes it dumps. -/
theorem dumpRawBuf_reads {header : List Item} (hheader : dumpReads header = []) (n : ℕ) :
    dumpReads (dumpRawBuf header n) = List.range n := by
  unfold dumpRawBuf
  split
  · rw [‹n = 0›]
    rfl
  · have hpass : ∀ i : ℕ, dumpReads ((if i % 256 = 0 ∧ i ≠ 0 then
        [Item.lit "]\n"] ++ header ++ [Item.lit " [ "] else []) ++ [Item.hex 2 (.field i 1),
          Item.lit " "]) = [i] := by
      intro i
      split <;> simp [Item.reads, Val.reads, hheader]
    have hrange : ∀ is : List ℕ, dumpReads (is.flatMap fun i => (if i % 256 = 0 ∧ i ≠ 0 then
        [Item.lit "]\n"] ++ header ++ [Item.lit " [ "] else []) ++ [Item.hex 2 (.field i 1),
          Item.lit " "]) = is := by
      intro is
      induction is with
      | nil => rfl
      | cons i is ih => rw [List.flatMap_cons, dumpReads_append, hpass, ih, List.singleton_append]
    rw [dumpReads_append, dumpReads_append, dumpReads_append, hheader, hrange]
    simp [Item.reads]

/-- The setup packet is not in the copy. -/
theorem dumpSP_reads (m : MiniUrb) : dumpReads (dumpSPBytes m ++ dumpSPSettings m) = [] := by
  have hbytes : dumpReads (dumpSPBytes m) = [] := by
    simp [dumpSPBytes, Item.reads, Val.reads]
  have hstd : dumpReads (stdRequest m) = [] := by
    simp only [stdRequest, apply_ite dumpReads, dumpReads_cons, dumpReads_nil,
      Item.reads, Val.reads, List.append_nil, ite_self]
  have hsettings : dumpReads (dumpSPSettings m) = [] := by
    simp only [dumpSPSettings, apply_ite dumpReads, dumpReads_append, dumpReads_cons,
      dumpReads_nil, Item.reads, List.append_nil, hstd, ite_self]
  rw [dumpReads_append, hbytes, hsettings]
  rfl

/-- `DumpStdDescriptors`, for all passes of the loop of `DumpCD`. -/
theorem dumpStdDescriptors_reads_iff {m : MiniUrb} :
    (∀ passes, ∀ i ∈ dumpReads (dumpStdDescriptors passes m buf), i < m.uTbBytes) ↔
      (testForStdDescriptor m = true → 2 ≤ m.uTbBytes ∧
        (buf 1 = 2 → 9 < m.uTbBytes → ∀ passes,
          ∀ off ∈ cdVisits buf (min m.uTbBytes (fieldValue buf 2 2)) passes (buf 0).toNat,
            PassOk buf m.uTbBytes (min m.uTbBytes (fieldValue buf 2 2)) off)) := by
  unfold dumpStdDescriptors
  by_cases htest : testForStdDescriptor m = true
  · have htype : (∀ i ∈ dumpReads [Item.test 1], i < m.uTbBytes) ↔ 2 ≤ m.uTbBytes := by
      simp [Item.reads]
      omega
    simp only [htest, if_true, dumpReads_append, List.forall_mem_append, htype, true_imp_iff]
    rw [forall_and, forall_const]
    refine and_congr_right fun h2 => ?_
    by_cases hcd : buf 1 = 2
    · have hdd : buf 1 ≠ 1 := by
        rw [hcd]
        decide
      refine ⟨fun h _ h9 passes => ?_, fun h passes => ?_⟩
      · have hcdReads := h passes
        rw [if_neg hdd, if_pos hcd] at hcdReads
        exact (dumpCD_reads_iff h2 passes).mp hcdReads h9
      · rw [if_neg hdd, if_pos hcd]
        exact (dumpCD_reads_iff h2 passes).mpr fun h9 => h hcd h9 passes
    · refine iff_of_true (fun _ => ?_) (fun h => absurd h hcd)
      rw [if_neg hcd]
      split
      · exact dumpDD_reads (Nat.lt_of_lt_of_le Nat.zero_lt_two h2)
      · split
        · exact dumpSD_reads h2
        · split
          · simp
          · simp
            omega
  · simp [htest]

/-- The copy is read for `DumpTB` and `DumpStdDescriptors`. -/
theorem dumpReads_dumpUrb (passes : ℕ) (s : DeviceSettings) (m : MiniUrb) :
    dumpReads (dumpUrb passes s m buf)
      = List.range (uTbLen s m) ++ dumpReads (dumpStdDescriptors passes m buf) := by
  have hurb : dumpReads (urbLine m) = [] := by
    simp [urbLine, Item.reads, Val.reads]
  have hctrl : dumpReads (if m.pipe.type = .ctrl then dumpSPBytes m ++ dumpSPSettings m else [])
      = [] := by
    split
    · exact dumpSP_reads m
    · rfl
  have htb : dumpReads (dumpTB s m) = List.range (uTbLen s m) :=
    dumpRawBuf_reads (by simp [Item.reads]) _
  unfold dumpUrb
  rw [dumpReads_append, dumpReads_append, dumpReads_append, hurb, hctrl, htb]
  rfl

end Reads

/-- `DumpTB` does not dump more than was to be captured. -/
theorem uTbLen_le (s : DeviceSettings) (m : MiniUrb) : uTbLen s m ≤ m.uTbBytes := by
  unfold uTbLen MiniUrb.uTbBytes
  split
  · exact Nat.min_le_right _ _
  · exact Nat.min_le_right _ _

/-- **Every byte that is accessed was captured exactly when `ReadsOk`
holds.** -/
theorem dumps_safe_iff (s : DeviceSettings) (c : Capture) : c.Safe s ↔ c.ReadsOk s := by
  have hcopy : (∀ i ∈ if c.copies then List.range c.m.uTbBytes else [],
      c.copied = true ∧ i < c.m.uTbBytes) ↔ (c.copies = true → c.kmallocOk = true) := by
    unfold Capture.copied
    by_cases h : c.copies = true
    · have hpos : 0 < c.m.uTbBytes := by
        rw [Capture.copies, Bool.and_eq_true, decide_eq_true_eq] at h
        exact Nat.pos_of_ne_zero h.1
      simp only [h, if_true, List.mem_range, Bool.true_and, forall_const]
      exact ⟨fun hall => (hall 0 hpos).1, fun hk i hi => ⟨hk, hi⟩⟩
    · simp [h]
  have htb : (∀ i ∈ List.range (uTbLen s c.m), c.copied = true ∧ i < c.m.uTbBytes) ↔
      (uTbLen s c.m ≠ 0 → c.copied = true) := by
    refine ⟨fun hall h0 => (hall 0 (List.mem_range.mpr (Nat.pos_of_ne_zero h0))).1,
      fun h i hi => ?_⟩
    rw [List.mem_range] at hi
    exact ⟨h (Nat.ne_of_gt (Nat.zero_lt_of_lt hi)), Nat.lt_of_lt_of_le hi (uTbLen_le s c.m)⟩
  have hstd : (∀ passes, ∀ i ∈ dumpReads (dumpStdDescriptors passes c.m c.buf),
      c.copied = true ∧ i < c.m.uTbBytes) ↔
      ((testForStdDescriptor c.m = true → c.copied = true) ∧
        ∀ passes, ∀ i ∈ dumpReads (dumpStdDescriptors passes c.m c.buf), i < c.m.uTbBytes) := by
    refine ⟨fun h => ⟨fun htest => ?_, fun passes i hi => (h passes i hi).2⟩,
      fun h passes i hi => ⟨?_, h.2 passes i hi⟩⟩
    · refine (h 0 1 ?_).1
      simp [dumpStdDescriptors, htest, Item.reads]
    · refine h.1 (Decidable.byContradiction fun htest => ?_)
      simp [dumpStdDescriptors, htest] at hi
  have hall : c.Safe s ↔ (∀ i ∈ if c.copies then List.range c.m.uTbBytes else [],
        c.copied = true ∧ i < c.m.uTbBytes) ∧
      (∀ i ∈ List.range (uTbLen s c.m), c.copied = true ∧ i < c.m.uTbBytes) ∧
      ∀ passes, ∀ i ∈ dumpReads (dumpStdDescriptors passes c.m c.buf),
        c.copied = true ∧ i < c.m.uTbBytes := by
    unfold Capture.Safe Capture.accesses
    simp only [dumpReads_dumpUrb, List.forall_mem_append]
    exact ⟨fun h => ⟨(h 0).1, (h 0).2.1, fun passes => (h passes).2.2⟩,
      fun h passes => ⟨h.1, h.2.1, h.2.2 passes⟩⟩
  rw [hall, hcopy, htb, hstd, dumpStdDescriptors_reads_iff, Capture.ReadsOk]
  exact and_congr_right fun _ => and_congr_right fun _ =>
    ⟨fun h htest => ⟨h.1 htest, h.2 htest⟩, fun h => ⟨fun htest => (h htest).1,
      fun htest => (h htest).2⟩⟩

/-- A `GET_DESCRIPTOR` that returns nothing. -/
def Capture.emptyAnswer : Capture where
  m := ⟨1, 1, ⟨.ctrl, 1, 0, false, false⟩, 18, 0,
    fun i => if i = 0 then 0x80 else if i = 1 then 6 else 0⟩
  hasBuffer := true
  kmallocOk := true
  buf := fun _ => 0

/-- There is no copy of an empty answer, and the type of its descriptor is
read through `NULL`. -/
theorem dumps_not_safe : ¬ ∀ (s : DeviceSettings) (c : Capture), c.Safe s := by
  intro hsafe
  have hread : 1 ∈ Capture.emptyAnswer.accesses 0 ⟨0, 0⟩ := by decide
  exact absurd (hsafe _ _ 0 1 hread).1 (by decide)
