import Mathlib.Data.List.Basic
import SideDumper.CdWalk
import SideDumper.DumpSize

/-!
# The sections of a configuration dump

A configuration is a config descriptor with other descriptors behind it, each
with its length in its first byte and its type in its second. `DumpCD` writes
a header for the config descriptor and then one section for each descriptor
behind it. `ownSection` says what a section should show: what the dumpers
write when the descriptor is all that there is.

For interfaces and endpoints that is what `DumpCD` writes. In the branch for
another type it takes the type and the length from `pDesc`, which is the
config descriptor, and not from `pDH`.
-/

/-! ## Items at another place -/

/-- The value at a place that is `k` further on. -/
def Val.shift (k : ℕ) : Val → Val
  | .field off size => .field (k + off) size
  | .num n => .num n

/-- The item at a place that is `k` further on. -/
def Item.shift (k : ℕ) : Item → Item
  | .lit s => .lit s
  | .hex width v => .hex width (v.shift k)
  | .dec width v => .dec width (v.shift k)
  | .printable off => .printable (k + off)
  | .test off => .test (k + off)

theorem fieldValue_shift {buf own : Bytes} {k off size : ℕ}
    (h : ∀ i ∈ (Val.field off size).reads, buf (k + i) = own i) :
    fieldValue buf (k + off) size = fieldValue own off size := by
  induction size generalizing off with
  | zero => rfl
  | succ size ih =>
    have hfirst : buf (k + off) = own off := h off (List.mem_map.mpr ⟨0, List.mem_range.mpr
      (Nat.succ_pos size), rfl⟩)
    have hrest := @ih (off + 1) (fun i hi => by
      obtain ⟨j, hj, rfl⟩ := List.mem_map.mp hi
      exact h _
        (List.mem_map.mpr ⟨j + 1, List.mem_range.mpr (Nat.succ_lt_succ (List.mem_range.mp hj)),
        by omega⟩))
    rw [fieldValue, fieldValue, hfirst, Nat.add_assoc, hrest]

theorem value_shift {buf own : Bytes} {k : ℕ} {v : Val} (h : ∀ i ∈ v.reads, buf (k + i) = own i) :
    (v.shift k).value buf = v.value own := by
  cases v with
  | field off size => exact fieldValue_shift h
  | num n => rfl

theorem text_shift {buf own : Bytes} {k : ℕ} {x : Item} (h : ∀ i ∈ x.reads, buf (k + i) = own i) :
    (x.shift k).text buf = x.text own := by
  cases x with
  | lit s => rfl
  | hex width v => rw [Item.shift, Item.text, Item.text, value_shift h]
  | dec width v => rw [Item.shift, Item.text, Item.text, value_shift h]
  | printable off => rw [Item.shift, Item.text, Item.text, h off (List.mem_singleton.mpr rfl)]
  | test off => rfl

/-- **A text depends on the bytes that are read for it**, wherever they
stand. -/
theorem dumpText_shift {buf own : Bytes} {k : ℕ} {xs : List Item}
    (h : ∀ i ∈ dumpReads xs, buf (k + i) = own i) :
    dumpText buf (xs.map (Item.shift k)) = dumpText own xs := by
  unfold dumpText
  rw [List.flatMap_map]
  exact List.flatMap_congr fun x hx =>
    text_shift fun i hi => h i (List.mem_flatMap.mpr ⟨x, hx, hi⟩)

/-! ## Descriptors and their sections -/

/-- The bytes of a descriptor alone. -/
def ownBytes (d : List UInt8) : Bytes := fun i => d.getD i 0

/-- What a section is made of, for a descriptor at `off`. -/
def sectionItems (bDescriptorType bLength : UInt8) (off : ℕ) : List Item :=
  if bDescriptorType = 4 then
    line "    -- interface descriptor --" [] ++ idFields off ++ endOfDescriptor
  else if bDescriptorType = 5 then
    line "    -- endpoint descriptor ---" [] ++ edFields bLength off ++ endOfDescriptor
  else
    line "    unknown descriptor type " [.hex 1 (.field (off + 1) 1), .lit "h, ",
      .dec 1 (.field off 1), .lit " bytes"]

/-- **The section that shows a descriptor's own values.** -/
def ownSection (d : List UInt8) : List Char :=
  dumpText (ownBytes d) (sectionItems (ownBytes d 1) (ownBytes d 0) 0)

/-- Device, config and string descriptors have no section. -/
def hasSection (d : List UInt8) : Bool :=
  decide (ownBytes d 1 ≠ 1) && decide (ownBytes d 1 ≠ 2) && decide (ownBytes d 1 ≠ 3)

/-- **A configuration**: a config descriptor of 9 bytes and descriptors of
the lengths they say, as many bytes as `wTotalLength` says. -/
structure Configuration where
  config : List UInt8
  descriptors : List (List UInt8)
  config_length : config.length = 9
  config_bLength : ownBytes config 0 = 9
  config_type : ownBytes config 1 = 2
  bLength_eq : ∀ d ∈ descriptors, (ownBytes d 0).toNat = d.length ∧ 2 ≤ d.length
  interface_length : ∀ d ∈ descriptors, ownBytes d 1 = 4 → 9 ≤ d.length
  endpoint_length : ∀ d ∈ descriptors, ownBytes d 1 = 5 → 7 ≤ d.length
  wTotalLength_eq : fieldValue (ownBytes config) 2 2 = (config ++ descriptors.flatten).length

namespace Configuration

/-- The bytes of a configuration. -/
def bytes (c : Configuration) : List UInt8 := c.config ++ c.descriptors.flatten

/-- The copy begins with the configuration. -/
def In (c : Configuration) (buf : Bytes) : Prop := ∀ i < c.bytes.length, buf i = c.bytes.getD i 0

/-- **The dump has a section for each descriptor**, behind the header, which
is what is written before the first pass. -/
def Reported (c : Configuration) (buf : Bytes) : Prop :=
  ∃ passes, cdEnded passes buf c.bytes.length = true ∧
    dumpText buf (dumpCD passes buf c.bytes.length)
      = dumpText buf (dumpCD 0 buf c.bytes.length) ++ (c.descriptors.filter hasSection).flatMap
        ownSection

end Configuration

/-! ## One descriptor -/

section Descriptor

variable {buf : Bytes} {off pEnd : ℕ} {d : List UInt8}

theorem sectionItems_shift (t bLength : UInt8) (off : ℕ) :
    sectionItems t bLength off = (sectionItems t bLength 0).map (Item.shift off) := by
  unfold sectionItems edFields
  split
  · rfl
  · split
    · split
      · rfl
      · rfl
    · rfl

/-- A section reads its descriptor only. -/
theorem sectionItems_reads (hid : ownBytes d 1 = 4 → 9 ≤ d.length) (hed : ownBytes d 1 = 5 →
    7 ≤ d.length)
    (hlen : (ownBytes d 0).toNat = d.length) (htwo : 2 ≤ d.length) :
    ∀ i ∈ dumpReads (sectionItems (ownBytes d 1) (ownBytes d 0) 0), i < d.length := by
  unfold sectionItems
  split
  · rename_i ht
    have h9 := hid ht
    simp [idFields]
    omega
  · split
    · rename_i ht
      have h7 := hed ht
      by_cases haudio : ownBytes d 0 = 9
      · have h9 : d.length = 9 := by rw [← hlen, haudio]; rfl
        simp [edFields, haudio, Item.reads, Val.reads]
        omega
      · simp [edFields, haudio, Item.reads]
        omega
    · simp [Item.reads, Val.reads]
      omega

/-- What a pass writes for a descriptor. -/
def writtenSection (buf : Bytes) (d : List UInt8) : List Char :=
  if ownBytes d 1 = 4 ∨ ownBytes d 1 = 5 then ownSection d else dumpText buf unknownDescriptor

/-- **A pass** over a descriptor that is complete. -/
theorem dumpCdPass_text (hbytes : ∀ i < d.length, buf (off + i) = ownBytes d i)
    (hend : off + d.length ≤ pEnd) (hid : ownBytes d 1 = 4 → 9 ≤ d.length)
    (hed : ownBytes d 1 = 5 → 7 ≤ d.length) (hlen : (ownBytes d 0).toNat = d.length)
    (htwo : 2 ≤ d.length) :
    dumpText buf (dumpCdPass buf off pEnd)
      = ([d].filter hasSection).flatMap (writtenSection buf) := by
  have hreads := sectionItems_reads hid hed hlen htwo
  have hown : dumpText buf (sectionItems (ownBytes d 1) (ownBytes d 0) off) = ownSection d := by
    rw [sectionItems_shift]
    exact dumpText_shift fun i hi => hbytes i (hreads i hi)
  have htype : buf (off + 1) = ownBytes d 1 := hbytes 1 htwo
  have hfirst : buf off = ownBytes d 0 := hbytes 0 (Nat.lt_of_lt_of_le (by decide) htwo)
  have htests : ∀ xs, dumpText buf ([Item.test (off + 1)] ++ xs ++ [Item.test off])
      = dumpText buf xs := by
    intro xs
    rw [dumpText_append, dumpText_append]
    exact List.append_nil _
  rw [dumpCdPass, htests, htype]
  by_cases hnone : ownBytes d 1 = 1 ∨ ownBytes d 1 = 2 ∨ ownBytes d 1 = 3
  · have hfilter : hasSection d = false := by
      unfold hasSection
      rcases hnone with ht | ht | ht
      · simp [ht]
      · simp [ht]
      · simp [ht]
    rw [if_pos hnone, List.filter_cons, hfilter]
    rfl
  · have hfilter : hasSection d = true := by
      simpa [hasSection, not_or, and_assoc] using hnone
    rw [if_neg hnone, List.filter_cons, hfilter]
    show _ = writtenSection buf d ++ []
    rw [List.append_nil, writtenSection, ← hown]
    by_cases h4 : ownBytes d 1 = 4
    · have hsize : ¬ pEnd - off < 9 := by
        have := hid h4
        omega
      rw [if_pos h4, if_pos (Or.inl h4), dumpID, descriptor, if_neg hsize,
        sectionItems, if_pos h4]
    · by_cases h5 : ownBytes d 1 = 5
      · have hsize : ¬ pEnd - off < 7 := by
          have := hed h5
          omega
        rw [if_neg h4, if_pos h5, if_pos (Or.inr h5), dumpED, descriptor, if_neg hsize,
          sectionItems, if_neg h4, if_pos h5, hfirst]
      · rw [if_neg h4, if_neg h5, if_neg (not_or.mpr ⟨h4, h5⟩)]

/-- **The loop** over the descriptors that are left. -/
theorem dumpCdLoop_text {ds : List (List UInt8)}
    (hbytes : ∀ i < ds.flatten.length, buf (off + i) = ds.flatten.getD i 0)
    (hend : off + ds.flatten.length = pEnd)
    (hlen : ∀ d ∈ ds, (ownBytes d 0).toNat = d.length ∧ 2 ≤ d.length)
    (hid : ∀ d ∈ ds, ownBytes d 1 = 4 → 9 ≤ d.length)
    (hed : ∀ d ∈ ds, ownBytes d 1 = 5 → 7 ≤ d.length) :
    LengthWalk.ended (bLengthAt buf) pEnd ds.length off = true ∧
      dumpText buf (dumpCdLoop buf pEnd ds.length off)
        = (ds.filter hasSection).flatMap (writtenSection buf) := by
  induction ds generalizing off with
  | nil => exact ⟨decide_eq_true (Nat.le_of_eq hend.symm), rfl⟩
  | cons d ds ih =>
    have htwo := (hlen d List.mem_cons_self).2
    have hsum : (d :: ds).flatten.length = d.length + ds.flatten.length := by
      rw [List.flatten_cons, List.length_append]
    have hd : ∀ i < d.length, buf (off + i) = ownBytes d i := by
      intro i hi
      rw [hbytes i (by omega), List.flatten_cons, List.getD_append _ _ _ _ hi, ownBytes]
    have hrest : ∀ i < ds.flatten.length, buf (off + d.length + i) = ds.flatten.getD i 0 := by
      intro i hi
      rw [Nat.add_assoc, hbytes _ (by omega), List.flatten_cons,
        List.getD_append_right _ _ _ _ (Nat.le_add_right _ _), Nat.add_sub_cancel_left]
    have hfirst : buf off = ownBytes d 0 := hd 0 (by omega)
    have hnext : off + (buf off).toNat = off + d.length := by
      rw [hfirst, (hlen d List.mem_cons_self).1]
    have hoff : off < pEnd := by omega
    obtain ⟨hended, htext⟩ := ih hrest (by omega) (fun e he => hlen e (List.mem_cons_of_mem d he))
      (fun e he => hid e (List.mem_cons_of_mem d he))
        (fun e he => hed e (List.mem_cons_of_mem d he))
    constructor
    · rw [List.length_cons, LengthWalk.ended, if_pos hoff, bLengthAt, hnext, hended]
    · rw [List.length_cons, dumpCdLoop, if_pos hoff, dumpText_append,
        dumpCdPass_text hd (by omega) (hid d List.mem_cons_self) (hed d List.mem_cons_self)
          (hlen d List.mem_cons_self).1 htwo, hnext, htext, ← List.flatMap_append,
            ← List.filter_append]
      rfl

end Descriptor

/-! ## The whole dump -/

namespace Configuration

variable {c : Configuration} {buf : Bytes}

theorem In.config (h : c.In buf) {i : ℕ} (hi : i < 9) : buf i = ownBytes c.config i := by
  have hlen := c.config_length
  have hbytes : i < c.bytes.length := by
    rw [bytes, List.length_append]
    omega
  rw [h i hbytes, bytes, List.getD_append _ _ _ _ (by omega), ownBytes]

theorem In.descriptors (h : c.In buf) {i : ℕ} (hi : i < c.descriptors.flatten.length) :
    buf (9 + i) = c.descriptors.flatten.getD i 0 := by
  have hlen := c.config_length
  have hbytes : 9 + i < c.bytes.length := by
    rw [bytes, List.length_append]
    omega
  rw [h _ hbytes, bytes, List.getD_append_right _ _ _ _ (by omega), hlen, Nat.add_sub_cancel_left]

/-- The loop has to go from 9 to the end of the configuration. -/
theorem In.cdEnd_eq (h : c.In buf) : cdEnd buf c.bytes.length = c.bytes.length := by
  have hfield : fieldValue buf 2 2 = fieldValue (ownBytes c.config) 2 2 := by
    simp only [fieldValue, h.config (by decide : 2 < 9), h.config (by decide : 2 + 1 < 9)]
  rw [cdEnd, hfield, c.wTotalLength_eq]
  exact Nat.min_self _

/-- **What is written for a configuration.** -/
theorem In.dumpCD_text (h : c.In buf) :
    cdEnded c.descriptors.length buf c.bytes.length = true ∧
      dumpText buf (dumpCD c.descriptors.length buf c.bytes.length)
        = dumpText buf (dumpCD 0 buf c.bytes.length)
          ++ (c.descriptors.filter hasSection).flatMap (writtenSection buf) := by
  have hlength : c.bytes.length = 9 + c.descriptors.flatten.length := by
    rw [bytes, List.length_append, c.config_length]
  have hfirst : (buf 0).toNat = 9 := by
    rw [h.config (by decide), c.config_bLength]
    rfl
  have hbytes : ∀ i < c.descriptors.flatten.length, buf (9 + i)
      = c.descriptors.flatten.getD i 0 :=
    fun i hi => h.descriptors hi
  obtain ⟨hended, htext⟩ := dumpCdLoop_text hbytes hlength.symm
    c.bLength_eq c.interface_length c.endpoint_length
  have hend : min c.bytes.length (fieldValue buf 2 2) = c.bytes.length := h.cdEnd_eq
  constructor
  · unfold cdEnded
    rw [h.cdEnd_eq, bLengthAt, hfirst, hended, ite_self]
  · unfold dumpCD
    by_cases hlong : 9 < c.bytes.length
    · simp only [if_pos hlong, hend, hfirst, dumpText_append, htext, List.append_assoc]
      rfl
    · have hempty : c.descriptors.flatten = [] := List.length_eq_zero_iff.mp (by omega)
      have hnone : c.descriptors = [] := by
        rcases hds : c.descriptors with _ | ⟨d, ds⟩
        · rfl
        · have htwo := (c.bLength_eq d (hds ▸ List.mem_cons_self)).2
          rw [hds, List.flatten_cons] at hempty
          rw [(List.append_eq_nil_iff.mp hempty).1] at htwo
          exact absurd htwo (by decide)
      rw [hnone]
      exact (List.append_nil _).symm

/-- The dump is reported when the sections are the right ones. -/
theorem In.reported_iff (h : c.In buf) : c.Reported buf ↔
    (c.descriptors.filter hasSection).flatMap (writtenSection buf)
      = (c.descriptors.filter hasSection).flatMap ownSection := by
  obtain ⟨hended, htext⟩ := h.dumpCD_text
  constructor
  · intro ⟨passes, hended', htext'⟩
    have hsame : dumpCD passes buf c.bytes.length
        = dumpCD c.descriptors.length buf c.bytes.length := by
      rw [← dumpCD_of_cdEnded hended passes, ← dumpCD_of_cdEnded hended' c.descriptors.length,
        Nat.add_comm]
    rw [hsame, htext] at htext'
    exact List.append_cancel_left htext'
  · intro hsections
    exact ⟨c.descriptors.length, hended, hsections ▸ htext⟩

end Configuration

/-! ## Descriptors of another type -/

/-- The digits of a number end where a letter stands that is no digit. -/
theorem toDigits_append_inj {m n : ℕ} {s t : List Char}
    (h : Nat.toDigits 16 m ++ 'h' :: s = Nat.toDigits 16 n ++ 'h' :: t) :
    Nat.toDigits 16 m = Nat.toDigits 16 n := by
  have hdigit : ∀ k, ∀ c ∈ Nat.toDigits 16 k, (c != 'h') = true := by
    intro k c hc
    obtain ⟨d, hd, rfl⟩ := exists_digitChar (by decide) hc
    have hall : ∀ d < 16, (Nat.digitChar d != 'h') = true := by decide
    exact hall d hd
  have htake : ∀ k r, (Nat.toDigits 16 k ++ 'h' :: r).takeWhile (· != 'h')
      = Nat.toDigits 16 k := by
    intro k r
    rw [List.takeWhile_append_of_pos (hdigit k), List.takeWhile_cons_of_neg (by decide),
      List.append_nil]
  rw [← htake m s, h, htake]

theorem eq_two_of_toDigits {m : ℕ} (h : Nat.toDigits 16 m = Nat.toDigits 16 2) : m = 2 := by
  by_cases hm : m < 16
  · rw [Nat.toDigits_of_lt_base hm] at h
    have hall : ∀ k < 16, [Nat.digitChar k] = ['2'] → k = 2 := by decide
    exact hall m hm h
  · have hlen := congrArg List.length h
    rw [Nat.toDigits_of_base_le (by decide) (by omega), List.length_append] at hlen
    have hpos : 0 < (Nat.toDigits 16 (m / 16)).length := Nat.length_toDigits_pos
    have htwo : (Nat.toDigits 16 2).length = 1 := rfl
    rw [htwo, List.length_singleton] at hlen
    omega

/-- The line for another type, up to the type. -/
theorem unknown_text (buf : Bytes) (off : ℕ) : ∃ rest : List Char,
    dumpText buf (line "    unknown descriptor type " [.hex 1 (.field (off + 1) 1), .lit "h, ",
      .dec 1 (.field off 1), .lit " bytes"])
      = (pszHeader.toList ++ "    unknown descriptor type ".toList)
        ++ (Nat.toDigits 16 (buf (off + 1)).toNat ++ 'h' :: rest) := by
  have hpad : ∀ k, padZero 1 (Nat.toDigits 16 k) = Nat.toDigits 16 k := by
    intro k
    have hpos : 0 < (Nat.toDigits 16 k).length := Nat.length_toDigits_pos
    rw [padZero, Nat.sub_eq_zero_of_le hpos]
    rfl
  have hvalue : (Val.field (off + 1) 1).value buf = (buf (off + 1)).toNat := rfl
  refine ⟨", ".toList ++ ((Item.dec 1 (.field off 1)).text
    buf ++ (" bytes".toList ++ "\n".toList)), ?_⟩
  simp [dumpText, line, Item.text, hvalue, hpad]

/-- A descriptor of another type is not the config descriptor, and its line
says so. -/
theorem writtenSection_ne {c : Configuration} {buf : Bytes} (h : c.In buf) {d : List UInt8}
    (h2 : ownBytes d 1 ≠ 2) (h4 : ownBytes d 1 ≠ 4) (h5 : ownBytes d 1 ≠ 5) (s t : List Char) :
    writtenSection buf d ++ s ≠ ownSection d ++ t := by
  intro heq
  obtain ⟨r, hr⟩ := unknown_text buf 0
  obtain ⟨r', hr'⟩ := unknown_text (ownBytes d) 0
  have hwritten : writtenSection buf d = dumpText buf unknownDescriptor :=
    if_neg (not_or.mpr ⟨h4, h5⟩)
  have hown : ownSection d = dumpText (ownBytes d) (line "    unknown descriptor type "
      [.hex 1 (.field (0 + 1) 1), .lit "h, ", .dec 1 (.field 0 1), .lit " bytes"]) := by
    rw [ownSection, sectionItems, if_neg h4, if_neg h5]
  rw [hwritten, hown, hr', show dumpText buf unknownDescriptor = _ from hr, List.append_assoc,
    List.append_assoc _ _ t] at heq
  have hdigits := List.append_cancel_left heq
  rw [List.append_assoc, List.append_assoc] at hdigits
  have htype : (buf (0 + 1)).toNat = 2 := by
    rw [h.config (by decide), c.config_type]
    rfl
  have htwo := eq_two_of_toDigits ((toDigits_append_inj hdigits).symm.trans (by rw [htype]))
  exact h2 (UInt8.toNat_inj.mp htwo)

/-- Sections with the own values are sections of known types. -/
theorem sections_eq_iff {c : Configuration} {buf : Bytes} (h : c.In buf)
    (ds : List (List UInt8)) :
    (ds.filter hasSection).flatMap (writtenSection buf)
      = (ds.filter hasSection).flatMap ownSection ↔
      ∀ d ∈ ds, hasSection d = true → ownBytes d 1 = 4 ∨ ownBytes d 1 = 5 := by
  induction ds with
  | nil => simp
  | cons d ds ih =>
    rw [List.forall_mem_cons, ← ih, List.filter_cons]
    by_cases hd : hasSection d = true
    · rw [if_pos hd, List.flatMap_cons, List.flatMap_cons]
      by_cases hknown : ownBytes d 1 = 4 ∨ ownBytes d 1 = 5
      · rw [writtenSection, if_pos hknown]
        simp [hknown]
      · have h2 : ownBytes d 1 ≠ 2 := by
          simp only [hasSection, Bool.and_eq_true, decide_eq_true_eq] at hd
          exact hd.1.2
        obtain ⟨h4, h5⟩ := not_or.mp hknown
        exact ⟨fun heq => absurd heq (writtenSection_ne h h2 h4 h5 _ _),
          fun hall => absurd (hall.1 hd) hknown⟩
    · rw [if_neg hd]
      simp [hd]

/-- **When every descriptor is reported**: none of them is of a type that is
not known. -/
theorem cd_reported_iff (c : Configuration) (buf : Bytes) (h : c.In buf) :
    c.Reported buf ↔ ∀ d ∈ c.descriptors, ownBytes d 1 = 1 ∨ ownBytes d 1 = 2 ∨ ownBytes d 1 = 3 ∨
      ownBytes d 1 = 4 ∨ ownBytes d 1 = 5 := by
  rw [h.reported_iff, sections_eq_iff h]
  refine forall_congr' fun d => imp_congr_right fun _ => ?_
  simp only [hasSection, Bool.and_eq_true, decide_eq_true_eq]
  tauto

/-- An interface with a HID descriptor. -/
def hidConfiguration : Configuration where
  config := [9, 2, 27, 0, 1, 1, 0, 0xa0, 50]
  descriptors := [[9, 4, 0, 0, 1, 3, 1, 1, 0], [9, 0x21, 0x10, 1, 0, 1, 0x22, 63, 0]]
  config_length := rfl
  config_bLength := rfl
  config_type := rfl
  bLength_eq := by decide
  interface_length := by decide
  endpoint_length := by decide
  wTotalLength_eq := by decide

/-- An interface with an endpoint. -/
def mouseConfiguration : Configuration where
  config := [9, 2, 25, 0, 1, 1, 0, 0xa0, 50]
  descriptors := [[9, 4, 0, 0, 1, 3, 1, 1, 0], [7, 5, 0x81, 3, 4, 0, 10]]
  config_length := rfl
  config_bLength := rfl
  config_type := rfl
  bLength_eq := by decide
  interface_length := by decide
  endpoint_length := by decide
  wTotalLength_eq := by decide

theorem cd_reported_iff_mouse :
    mouseConfiguration.Reported (fun i => mouseConfiguration.bytes.getD i 0) ↔
    ∀ d ∈ mouseConfiguration.descriptors, ownBytes d 1 = 1 ∨ ownBytes d 1 = 2 ∨ ownBytes d 1 = 3 ∨
      ownBytes d 1 = 4 ∨ ownBytes d 1 = 5 :=
  cd_reported_iff mouseConfiguration _ (fun _ _ => rfl)

theorem cd_not_reported : ¬ ∀ (c : Configuration) (buf : Bytes), c.In buf → c.Reported buf := by
  intro hall
  have hin : hidConfiguration.In (fun i => hidConfiguration.bytes.getD i 0) := fun _ _ => rfl
  have hsections := (hin.reported_iff.trans (sections_eq_iff hin _)).mp (hall _ _ hin)
  exact absurd (hsections _ (List.mem_cons_of_mem _ List.mem_cons_self) (by decide)) (by decide)
