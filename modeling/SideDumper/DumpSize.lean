import Mathlib.Algebra.Ring.Nat
import Mathlib.Data.Nat.Log
import SideDumper.DumpLog
import SideDumper.DumpReads

/-!
# How long a dump is

`DumpUrbToPrintk` allocates 16 KiB for a dump and looks at its length after
it was written. The length is a sum of fixed parts, of the digits of the
numbers that are printed, of three characters for each byte of the transfer
buffer with 26 more for each line of 256 of them, and of what is printed for
each descriptor that the loop of `DumpCD` comes to.
-/

/-- How many digits a number has. -/
def digits (b n : ℕ) : ℕ := Nat.log b n + 1

/-- How many digits the bytes at some offsets have. -/
def byteDigits (buf : Bytes) (offs : List ℕ) :
    ℕ := (offs.map fun off => digits 10 (buf off).toNat).sum

/-- The first line. -/
def urbLineSize (m : MiniUrb) : ℕ :=
  45 + (pipeTypeStr m.pipe.type).length + max 4 (digits 10 m.uUrbNumber) + digits 10 m.devnum
    + digits 10 m.pipe.endpoint + digits 10 m.uTbBytes

/-- The name of a standard request with its arguments. -/
def stdRequestSize (m : MiniUrb) : ℕ :=
  if m.request = 0 then 23 + digits 10 m.index
  else if m.request = 1 then 26 + digits 10 m.value + digits 10 m.index
  else if m.request = 3 then 24 + digits 10 m.value + digits 10 m.index
  else if m.request = 5 then 24 + digits 10 m.value
  else if m.request = 6 ∨ m.request = 7 then 22 + (descriptorType (m.value >>> 8)).length
  else if m.request = 8 then 27
  else if m.request = 9 then 29 + digits 10 m.value
  else if m.request = 10 then 26 + digits 10 m.index
  else if m.request = 11 then 26 + digits 10 m.value + digits 10 m.index
  else if m.request = 12 then 24 + digits 10 m.index
  else 11

/-- The two lines for the setup packet. -/
def spSize (m : MiniUrb) : ℕ :=
  72 + (if m.requesttype &&& 0x60 = 0 then stdRequestSize m
    else if m.requesttype &&& 0x60 = 0x20 then 16
    else if m.requesttype &&& 0x60 = 0x40 then 17
    else 12) + (recipient (m.requesttype &&& 0x1f)).length

/-- The lines for `n` bytes. -/
def tbSize (n : ℕ) : ℕ := 26 * ((n + 255) / 256) + 3 * n

/-- A descriptor at `off` that needs `size` bytes when `n` are left. -/
def descriptorSize (buf : Bytes) (n size off fields : ℕ) : ℕ :=
  92 + (if n < size then 44 + digits 10 n + digits 10 (buf off).toNat else fields)

/-- A descriptor of another type. -/
def unknownSize (buf : Bytes) : ℕ := 53 + digits 16 (buf 1).toNat + digits 10 (buf 0).toNat

/-- A device descriptor. -/
def ddSize (buf : Bytes) (n : ℕ) : ℕ :=
  descriptorSize buf n 18 0
    (642 + (deviceClass (buf 4)).length + byteDigits buf [0, 7, 14, 15, 16, 17])

/-- An interface descriptor. -/
def idSize (buf : Bytes) (off n : ℕ) : ℕ :=
  descriptorSize buf n 9 off (405 + byteDigits buf [off + 2, off + 4, off + 8])

/-- An endpoint descriptor. -/
def edSize (buf : Bytes) (off n : ℕ) : ℕ :=
  descriptorSize buf n 7 off
    (260 + digits 10 (fieldValue buf (off + 4) 2) + digits 10 (buf (off + 6)).toNat
      + if buf off = 9 then 86 else 0)

/-- A descriptor that the loop of `DumpCD` comes to. -/
def cdPassSize (buf : Bytes) (pEnd off : ℕ) : ℕ :=
  if buf (off + 1) = 1 ∨ buf (off + 1) = 2 ∨ buf (off + 1) = 3 then 0
  else if buf (off + 1) = 4 then idSize buf off (pEnd - off)
  else if buf (off + 1) = 5 then edSize buf off (pEnd - off)
  else unknownSize buf

/-- A config descriptor with the descriptors behind it. -/
def cdSize (passes : ℕ) (buf : Bytes) (n : ℕ) : ℕ :=
  descriptorSize buf n 9 0 (368 + digits 10 (fieldValue buf 2 2) + digits 10 (buf 8).toNat)
    + if 9 < n then
        ((cdVisits buf (min n (fieldValue buf 2 2)) passes (buf 0).toNat).map
          (cdPassSize buf (min n (fieldValue buf 2 2)))).sum
      else 0

/-- A string descriptor. -/
def sdSize (buf : Bytes) (n uIndex : ℕ) : ℕ :=
  92 + if n < 2 ∨ n < (buf 0).toNat then 44 + digits 10 n + digits 10 (buf 0).toNat
    else 85 + digits 10 (buf 0).toNat + if uIndex = 0 then 43 else 40 + sdChars buf n

/-- What is printed for the descriptors. -/
def stdDescriptorsSize (passes : ℕ) (m : MiniUrb) (buf : Bytes) : ℕ :=
  if testForStdDescriptor m then
    if buf 1 = 1 then ddSize buf m.uTbBytes
    else if buf 1 = 2 then cdSize passes buf m.uTbBytes
    else if buf 1 = 3 then sdSize buf m.uTbBytes (getStringIndex m)
    else if buf 1 = 4 ∨ buf 1 = 5 then 0
    else unknownSize buf
  else 0

/-- **The number of characters of a dump.** -/
def dumpSize (passes : ℕ) (s : DeviceSettings) (m : MiniUrb) (buf : Bytes) : ℕ :=
  urbLineSize m + (if m.pipe.type = .ctrl then spSize m else 0) + tbSize (uTbLen s m)
    + stdDescriptorsSize passes m buf

/-! ## The lengths of items -/

section Lengths

variable {buf : Bytes} {xs ys fields : List Item} {label title : String} {n k off size width : ℕ}
  {v : Val}

/-- The length of the text of some items. -/
def textLen (buf : Bytes) (xs : List Item) : ℕ := (dumpText buf xs).length

/-- The digits of a number are written once. -/
theorem toDigits_length {b : ℕ} (hb : 1 < b) (n : ℕ) :
    (Nat.toDigits b n).length = digits b n := by
  unfold digits
  refine Nat.le_antisymm ?_ (Nat.succ_le_of_lt (Nat.lt_of_not_le fun hle => ?_))
  · exact (Nat.length_toDigits_le_iff hb (Nat.succ_pos _)).mpr (Nat.lt_pow_succ_log_self hb n)
  · have hpos : 0 < Nat.log b n := Nat.lt_of_lt_of_le Nat.length_toDigits_pos hle
    have hlt := (Nat.length_toDigits_le_iff hb hpos).mp hle
    have hn : n ≠ 0 := by
      rintro rfl
      simp at hpos
    exact absurd (Nat.pow_log_le_self b hn) (Nat.not_le.mpr hlt)

theorem padZero_length (s : List Char) : (padZero width s).length = max width s.length := by
  unfold padZero
  rw [List.length_append, List.length_replicate]
  omega

@[simp] theorem textLen_nil : textLen buf [] = 0 := rfl

@[simp] theorem textLen_append : textLen buf (xs ++ ys) = textLen buf xs + textLen buf ys := by
  simp [textLen, dumpText]

@[simp] theorem textLen_cons (x : Item) :
    textLen buf (x :: xs) = (x.text buf).length + textLen buf xs := by
  simp [textLen, dumpText]

@[simp] theorem lit_length (s : String) : ((Item.lit s).text buf).length = s.length :=
  String.length_toList

@[simp] theorem test_length : ((Item.test off).text buf).length = 0 := rfl

@[simp] theorem printable_length : ((Item.printable off).text buf).length = 1 := rfl

theorem dec_length :
    ((Item.dec width v).text buf).length = max width (digits 10 (v.value buf)) := by
  rw [Item.text, padZero_length, toDigits_length (by decide)]

@[simp] theorem dec_one_length : ((Item.dec 1 v).text buf).length = digits 10 (v.value buf) := by
  rw [dec_length]
  exact Nat.max_eq_right (Nat.succ_pos _)

theorem hex_length :
    ((Item.hex width v).text buf).length = max width (digits 16 (v.value buf)) := by
  rw [Item.text, padZero_length, toDigits_length (by decide)]

@[simp] theorem hex_one_length : ((Item.hex 1 v).text buf).length = digits 16 (v.value buf) := by
  rw [hex_length]
  exact Nat.max_eq_right (Nat.succ_pos _)

/-- A value that fits its width. -/
theorem hex_length_of_lt (hv : v.value buf < 16 ^ (width + 1)) :
    ((Item.hex (width + 1) v).text buf).length = width + 1 := by
  rw [hex_length]
  exact Nat.max_eq_left (Nat.succ_le_of_lt (Nat.log_lt_of_lt_pow' (by omega) hv))

theorem fieldValue_lt (buf : Bytes) (off size : ℕ) : fieldValue buf off size < 256 ^ size := by
  induction size generalizing off with
  | zero => exact Nat.one_pos
  | succ size ih =>
    have := ih (off + 1)
    have := UInt8.toNat_lt (buf off)
    rw [fieldValue, Nat.pow_succ]
    omega

@[simp] theorem fieldValue_one : fieldValue buf off 1 = (buf off).toNat := by
  simp [fieldValue]

@[simp] theorem hex_byte_length : ((Item.hex 2 (.field off 1)).text buf).length = 2 :=
  hex_length_of_lt (fieldValue_lt buf off 1)

@[simp] theorem hex_word_length : ((Item.hex 4 (.field off 2)).text buf).length = 4 :=
  hex_length_of_lt (fieldValue_lt buf off 2)

@[simp] theorem pszHeader_length : pszHeader.length = 15 := String.length_ofList

/-- The label of a line is a literal. -/
theorem textLen_line (cs : List Char) :
    textLen buf (line (String.ofList cs) xs) = 16 + cs.length + textLen buf xs := by
  have hend : "\n".length = 1 := String.length_ofList
  simp only [line, textLen_append, textLen_cons, textLen_nil, lit_length, pszHeader_length, hend,
    String.length_ofList]
  omega

theorem textLen_hexByte (cs : List Char) :
    textLen buf (hexByte (String.ofList cs) off) = cs.length + 19 := by
  have hh : "h".length = 1 := String.length_ofList
  simp only [hexByte, textLen_line, textLen_cons, textLen_nil, hex_byte_length, lit_length, hh]
  omega

theorem textLen_hexDecByte (cs : List Char) :
    textLen buf (hexDecByte (String.ofList cs) off)
      = cs.length + 22 + digits 10 (buf off).toNat := by
  have hopen : "h (".length = 3 := String.length_ofList
  have hclose : ")".length = 1 := String.length_ofList
  simp only [hexDecByte, textLen_line, textLen_cons, textLen_nil, hex_byte_length, dec_one_length,
    lit_length, hopen, hclose, Val.value, fieldValue_one]
  omega

theorem textLen_hexWord (cs : List Char) :
    textLen buf (hexWord (String.ofList cs) off) = cs.length + 21 := by
  have hh : "h".length = 1 := String.length_ofList
  simp only [hexWord, textLen_line, textLen_cons, textLen_nil, hex_word_length, lit_length, hh]
  omega

theorem textLen_hexDecWord (cs : List Char) :
    textLen buf (hexDecWord (String.ofList cs) off)
      = cs.length + 24 + digits 10 (fieldValue buf off 2) := by
  have hopen : "h (".length = 3 := String.length_ofList
  have hclose : ")".length = 1 := String.length_ofList
  simp only [hexDecWord, textLen_line, textLen_cons, textLen_nil, hex_word_length, dec_one_length,
    lit_length, hopen, hclose, Val.value]
  omega

theorem textLen_endOfDescriptor : textLen buf endOfDescriptor = 46 := textLen_line _

theorem textLen_shortTransfer :
    textLen buf (shortTransfer n off) = 44 + digits 10 n + digits 10 (buf off).toNat := by
  have hslash : "/".length = 1 := String.length_ofList
  have hbytes : " bytes)".length = 7 := String.length_ofList
  rw [shortTransfer, textLen_line]
  simp only [textLen_cons, textLen_nil, dec_one_length, lit_length, hslash, hbytes, Val.value,
    fieldValue_one, List.length_cons, List.length_nil]
  omega

theorem textLen_unknownDescriptor : textLen buf unknownDescriptor = unknownSize buf := by
  have hh : "h, ".length = 3 := String.length_ofList
  have hbytes : " bytes".length = 6 := String.length_ofList
  rw [unknownDescriptor, unknownSize, textLen_line]
  simp only [textLen_cons, textLen_nil, hex_one_length, dec_one_length, lit_length, hh, hbytes,
    Val.value, fieldValue_one, List.length_cons, List.length_nil]
  omega

/-- A descriptor with its title and its end. -/
theorem textLen_descriptor {cs : List Char} (htitle : cs.length = 30)
    (hfields : textLen buf fields = k) :
    textLen buf (descriptor (String.ofList cs) n size off fields)
      = descriptorSize buf n size off k := by
  unfold descriptor descriptorSize
  rw [textLen_append, textLen_append, textLen_line, textLen_endOfDescriptor, htitle, textLen_nil]
  split
  · rw [textLen_shortTransfer]
    omega
  · rw [hfields]
    omega

theorem textLen_dumpDD : textLen buf (dumpDD buf n) = ddSize buf n := by
  refine textLen_descriptor rfl ?_
  have hclass : ∀ c : String, textLen buf [.lit pszHeader, .lit "    bDeviceClass       = ",
      .hex 2 (.field 4 1), .lit "h ", .test 4, .lit c] = 44 + c.length := by
    intro c
    have hlabel : "    bDeviceClass       = ".length = 25 := String.length_ofList
    have hh : "h ".length = 2 := String.length_ofList
    simp only [textLen_cons, textLen_nil, lit_length, hex_byte_length, test_length,
      pszHeader_length, hlabel, hh]
    omega
  simp only [textLen_append, hclass]
  repeat first
    | rw [textLen_hexByte]
    | rw [textLen_hexDecByte]
    | rw [textLen_hexWord]
  simp only [byteDigits, List.length_cons, List.length_nil, List.map_cons, List.map_nil,
    List.sum_cons, List.sum_nil]
  omega

theorem textLen_dumpID : textLen buf (dumpID off n) = idSize buf off n := by
  refine textLen_descriptor rfl ?_
  simp only [idFields, textLen_append]
  repeat first
    | rw [textLen_hexByte]
    | rw [textLen_hexDecByte]
  simp only [byteDigits, List.length_cons, List.length_nil, List.map_cons, List.map_nil,
    List.sum_cons, List.sum_nil]
  omega

theorem textLen_dumpED : textLen buf (dumpED buf off n) = edSize buf off n := by
  have hrefresh : ((Item.hex 4 (.field (off + 7) 1)).text buf).length = 4 :=
    hex_length_of_lt (Nat.lt_of_lt_of_le (fieldValue_lt buf (off + 7) 1) (by decide))
  have haudio : textLen buf (if buf off = 9 then
      line "    bRefresh         = " [.hex 4 (.field (off + 7) 1), .lit "h"]
        ++ hexByte "    bSynchAddress    = " (off + 8)
      else []) = if buf off = 9 then 86 else 0 := by
    have hh : "h".length = 1 := String.length_ofList
    split
    · rw [textLen_append, textLen_line, textLen_hexByte]
      simp only [textLen_cons, textLen_nil, lit_length, hrefresh, hh, List.length_cons,
        List.length_nil]
    · rfl
  refine textLen_descriptor rfl ?_
  simp only [edFields, textLen_append, haudio, textLen_cons, textLen_nil, test_length]
  repeat first
    | rw [textLen_hexByte]
    | rw [textLen_hexDecByte]
    | rw [textLen_hexDecWord]
  simp only [List.length_cons, List.length_nil]
  omega

theorem textLen_dumpCdPass {pEnd : ℕ} :
    textLen buf (dumpCdPass buf off pEnd) = cdPassSize buf pEnd off := by
  have htest : ∀ i, textLen buf [.test i] = 0 := fun _ => rfl
  unfold dumpCdPass cdPassSize
  rw [textLen_append, textLen_append, htest, htest]
  split
  · rfl
  · split
    · rw [textLen_dumpID]
      omega
    · split
      · rw [textLen_dumpED]
        omega
      · rw [textLen_unknownDescriptor]
        omega

/-- The loop prints each descriptor it comes to. -/
theorem textLen_dumpCdLoop {pEnd : ℕ} (passes : ℕ) :
    textLen buf (dumpCdLoop buf pEnd passes off)
      = ((cdVisits buf pEnd passes off).map (cdPassSize buf pEnd)).sum := by
  induction passes generalizing off with
  | zero => rfl
  | succ passes ih =>
    unfold dumpCdLoop cdVisits
    split
    · rw [textLen_append, textLen_dumpCdPass, ih, List.map_cons, List.sum_cons]
    · rfl

theorem textLen_dumpCD (passes : ℕ) :
    textLen buf (dumpCD passes buf n) = cdSize passes buf n := by
  unfold dumpCD cdSize
  rw [textLen_append]
  refine congrArg₂ _ (textLen_descriptor rfl ?_) ?_
  · simp only [textLen_append]
    repeat first
      | rw [textLen_hexByte]
      | rw [textLen_hexDecByte]
      | rw [textLen_hexDecWord]
    simp only [List.length_cons, List.length_nil]
    omega
  · split
    · rw [textLen_append, textLen_dumpCdLoop]
      exact Nat.zero_add _
    · rfl

theorem textLen_printable (is : List ℕ) :
    textLen buf (is.map fun i => .printable (2 + 2 * i)) = is.length := by
  induction is with
  | nil => rfl
  | cons i is ih =>
    rw [List.map_cons, textLen_cons, ih, printable_length, List.length_cons, Nat.add_comm]

theorem textLen_dumpSD (uIndex : ℕ) :
    textLen buf (dumpSD buf n uIndex) = sdSize buf n uIndex := by
  have htest : ∀ i, textLen buf [.test i] = 0 := fun _ => rfl
  have hchars : textLen buf ([Item.lit pszHeader, Item.lit "    wData[]         = '"]
      ++ (List.range (sdChars buf n)).map (fun i => Item.printable (2 + 2 * i))
        ++ [Item.lit "'\n"])
      = 40 + sdChars buf n := by
    have hlabel : "    wData[]         = '".length = 23 := String.length_ofList
    have hend : "'\n".length = 2 := String.length_ofList
    rw [textLen_append, textLen_append, textLen_printable, List.length_range]
    simp only [textLen_cons, textLen_nil, lit_length, pszHeader_length, hlabel, hend]
    omega
  unfold dumpSD sdSize
  rw [textLen_append, textLen_append, textLen_line, textLen_endOfDescriptor, textLen_nil]
  by_cases h2 : n < 2
  · rw [if_pos h2, if_pos (.inl h2), textLen_shortTransfer]
    simp only [List.length_cons, List.length_nil]
    omega
  · rw [if_neg h2, textLen_append, htest]
    by_cases hlen : n < (buf 0).toNat
    · rw [if_pos hlen, if_pos (.inr hlen), textLen_shortTransfer]
      simp only [List.length_cons, List.length_nil]
      omega
    · rw [if_neg hlen, if_neg (not_or.mpr ⟨h2, hlen⟩), textLen_append, textLen_append,
        textLen_append, htest, textLen_hexDecByte, textLen_hexByte]
      by_cases hindex : uIndex = 0
      · rw [if_pos hindex, if_pos hindex, textLen_line, textLen_nil]
        simp only [List.length_cons, List.length_nil]
        omega
      · rw [if_neg hindex, if_neg hindex, hchars]
        simp only [List.length_cons, List.length_nil]
        omega

/-- The name of a request, its number and what is behind it. -/
theorem textLen_one {cs ds : List Char} {v : ℕ} :
    textLen buf [.lit (String.ofList cs), .dec 1 (.num v), .lit (String.ofList ds)]
      = cs.length + digits 10 v + ds.length := by
  simp only [textLen_cons, textLen_nil, lit_length, dec_one_length, String.length_ofList,
    Val.value]
  omega

theorem textLen_two {cs ds es : List Char} {v w : ℕ} :
    textLen buf [.lit (String.ofList cs), .dec 1 (.num v), .lit (String.ofList ds),
      .dec 1 (.num w), .lit (String.ofList es)]
      = cs.length + digits 10 v + ds.length + digits 10 w + es.length := by
  simp only [textLen_cons, textLen_nil, lit_length, dec_one_length, String.length_ofList,
    Val.value]
  omega

theorem textLen_lit {cs : List Char} : textLen buf [.lit (String.ofList cs)] = cs.length := by
  simp only [textLen_cons, textLen_nil, lit_length, String.length_ofList]
  omega

theorem textLen_ite {p : Prop} [Decidable p] {j k : ℕ} (hxs : textLen buf xs = j)
    (hys : textLen buf ys = k) : textLen buf (if p then xs else ys) = if p then j else k := by
  rw [apply_ite (textLen buf), hxs, hys]

theorem textLen_stdRequest (m : MiniUrb) : textLen buf (stdRequest m) = stdRequestSize m := by
  have hdescriptor : ∀ {cs : List Char} (t : String), cs.length = 22 →
      textLen buf [.lit (String.ofList cs), .lit t] = 22 + t.length := by
    intro cs t hcs
    simp only [textLen_cons, textLen_nil, lit_length, String.length_ofList, hcs]
    omega
  have hsplit : ∀ j k : ℕ, (if m.request = 6 ∨ m.request = 7 then j else k)
      = if m.request = 6 then j else if m.request = 7 then j else k := by
    intro j k
    by_cases h6 : m.request = 6
    · simp [h6]
    · simp [h6]
  unfold stdRequest stdRequestSize
  rw [hsplit]
  repeat' apply textLen_ite
  all_goals first
    | rw [textLen_two]
    | rw [textLen_one]
    | rw [textLen_lit]
    | exact hdescriptor _ rfl
  all_goals simp only [List.length_cons, List.length_nil]
  all_goals omega

/-- The bytes of `DumpRawBuf`, with a new line before each 256 but the
first. -/
theorem textLen_rawBytes {header : List Item} (hheader : textLen buf header = 21) (n : ℕ) :
    textLen buf ((List.range n).flatMap fun i =>
      (if i % 256 = 0 ∧ i ≠ 0 then [Item.lit "]\n"] ++ header ++ [Item.lit " [ "] else [])
        ++ [Item.hex 2 (.field i 1), Item.lit " "])
      = 3 * n + 26 * ((n + 255) / 256 - 1) := by
  have hspace : " ".length = 1 := String.length_ofList
  have hbreak : textLen buf ([Item.lit "]\n"] ++ header ++ [Item.lit " [ "]) = 26 := by
    rw [textLen_append, textLen_append, textLen_lit, textLen_lit, hheader]
    rfl
  induction n with
  | zero => rfl
  | succ n ih =>
    rw [List.range_succ, List.flatMap_append, textLen_append, ih, List.flatMap_singleton,
      textLen_append, textLen_ite hbreak textLen_nil]
    simp only [textLen_cons, textLen_nil, hex_byte_length, lit_length, hspace]
    split
    · omega
    · omega

theorem textLen_dumpTB (s : DeviceSettings) (m : MiniUrb) :
    textLen buf (dumpTB s m) = tbSize (uTbLen s m) := by
  have hheader : textLen buf [.lit pszHeader, .lit "  tb ="] = 21 := by
    rw [textLen_cons, lit_length, pszHeader_length, textLen_lit]
    rfl
  have hopen : textLen buf [.lit " [ "] = 3 := textLen_lit
  have hclose : textLen buf [.lit "]\n"] = 2 := textLen_lit
  unfold dumpTB dumpRawBuf tbSize
  split
  · rw [‹uTbLen s m = 0›]
    rfl
  · rw [textLen_append, textLen_append, textLen_append, textLen_rawBytes hheader, hheader, hopen,
      hclose]
    omega

theorem textLen_urbLine (m : MiniUrb) : textLen buf (urbLine m) = urbLineSize m := by
  have hdev : ": device #".length = 10 := String.length_ofList
  have hcomma : ", ".length = 2 := String.length_ofList
  have hsep : "_".length = 1 := String.length_ofList
  have hbytes : " bytes.".length = 7 := String.length_ofList
  have hdirection : (if m.pipe.out then " >, " else " <, ").length = 4 := by
    split
    · exact String.length_ofList
    · exact String.length_ofList
  rw [urbLine, urbLineSize, textLen_line]
  simp only [textLen_cons, textLen_nil, lit_length, dec_one_length, hdev, hcomma, hsep, hbytes,
    hdirection, Val.value, List.length_cons, List.length_nil]
  rw [dec_length, Val.value]
  omega

theorem textLen_dumpSPBytes (m : MiniUrb) : textLen buf (dumpSPBytes m) = 47 := by
  have hbyte : ∀ off, ((Item.hex 2 (.num (fieldValue m.setupPacket off 1))).text buf).length
      = 2 :=
    fun off => hex_length_of_lt (fieldValue_lt m.setupPacket off 1)
  have hword : ∀ off, ((Item.hex 4 (.num (fieldValue m.setupPacket off 2))).text buf).length
      = 4 :=
    fun off => hex_length_of_lt (fieldValue_lt m.setupPacket off 2)
  have hspace : " ".length = 1 := String.length_ofList
  have hclose : " ]".length = 2 := String.length_ofList
  rw [dumpSPBytes, textLen_line, MiniUrb.requesttype, MiniUrb.request, MiniUrb.value,
    MiniUrb.index, MiniUrb.length]
  simp only [textLen_cons, textLen_nil, lit_length, hbyte, hword, hspace, hclose,
    List.length_cons, List.length_nil]

theorem textLen_dumpSPSettings (m : MiniUrb) :
    textLen buf (dumpSPSettings m) + 47 = spSize m := by
  have hindent : "    ".length = 4 := String.length_ofList
  have hcomma : ", ".length = 2 := String.length_ofList
  have hdirection : (if m.requesttype &&& 0x80 = 0 then "h->d" else "h<-d").length = 4 := by
    split
    · exact String.length_ofList
    · exact String.length_ofList
  have hrequest : textLen buf (if m.requesttype &&& 0x60 = 0 then stdRequest m
      else if m.requesttype &&& 0x60 = 0x20 then [.lit "USB_TYPE_CLASS, "]
      else if m.requesttype &&& 0x60 = 0x40 then [.lit "USB_TYPE_VENDOR, "]
      else [.lit "USB_TYPE_?, "])
      = if m.requesttype &&& 0x60 = 0 then stdRequestSize m
        else if m.requesttype &&& 0x60 = 0x20 then 16
        else if m.requesttype &&& 0x60 = 0x40 then 17
        else 12 :=
    textLen_ite (textLen_stdRequest m)
      (textLen_ite textLen_lit (textLen_ite textLen_lit textLen_lit))
  rw [dumpSPSettings, spSize, textLen_append, textLen_append, hrequest]
  simp only [textLen_cons, textLen_nil, lit_length, pszHeader_length, hindent, hcomma, hdirection]
  omega

variable (buf) in
/-- **The length of a dump.** -/
theorem textLen_dumpUrb (passes : ℕ) (s : DeviceSettings) (m : MiniUrb) :
    textLen buf (dumpUrb passes s m buf) = dumpSize passes s m buf := by
  have hctrl : textLen buf (if m.pipe.type = .ctrl then dumpSPBytes m ++ dumpSPSettings m else [])
      = if m.pipe.type = .ctrl then spSize m else 0 := by
    refine textLen_ite ?_ rfl
    rw [textLen_append, textLen_dumpSPBytes, Nat.add_comm, textLen_dumpSPSettings]
  have hstd : textLen buf (dumpStdDescriptors passes m buf)
      = stdDescriptorsSize passes m buf := by
    have htest : textLen buf [.test 1] = 0 := rfl
    unfold dumpStdDescriptors stdDescriptorsSize
    refine textLen_ite ?_ rfl
    rw [textLen_append, htest, Nat.zero_add]
    exact textLen_ite textLen_dumpDD (textLen_ite (textLen_dumpCD passes)
      (textLen_ite (textLen_dumpSD _) (textLen_ite rfl textLen_unknownDescriptor)))
  rw [dumpUrb, textLen_append, textLen_append, textLen_append, textLen_urbLine, hctrl,
    textLen_dumpTB, hstd, dumpSize]

end Lengths

/-! ## Whether a dump fits -/

/-- **A dump with its `NUL` fits, and the overrun branch is not taken, exactly
when its size, as computed from the lengths and the values of the fields that
are printed, is below 16 KiB**, for every number of passes of the loop over
the descriptors. -/
theorem dump_fits_iff (s : DeviceSettings) (m : MiniUrb) (buf : Bytes) :
    (∀ passes, (dumpText buf (dumpUrb passes s m buf)).length + 1 ≤ uStrLen) ↔
      ∀ passes, dumpSize passes s m buf < 0x4000 := by
  refine forall_congr' fun passes => ?_
  rw [← textLen_dumpUrb]
  exact Iff.rfl

/-- Three characters for each byte that is dumped. -/
theorem uTbLen_le_length (passes : ℕ) (s : DeviceSettings) (m : MiniUrb) (buf : Bytes) :
    3 * uTbLen s m ≤ (dumpText buf (dumpUrb passes s m buf)).length := by
  have hlen := textLen_dumpUrb buf passes s m
  unfold textLen dumpSize tbSize at hlen
  omega

/-- A bulk transfer of 6000 bytes. -/
def bulkOut : MiniUrb where
  uUrbNumber := 1
  devnum := 1
  pipe := ⟨.bulk, 1, 2, true, false⟩
  transferBufferLength := 6000
  actualLength := 0
  setupPacket _ := 0

/-- It does not fit when the limits of its device are `UINT_MAX`. -/
theorem dump_not_fits : ¬ ∀ (s : DeviceSettings) (m : MiniUrb) (buf : Bytes) (passes : ℕ),
    (dumpText buf (dumpUrb passes s m buf)).length + 1 ≤ uStrLen := by
  intro hfits
  have hlong := uTbLen_le_length 0 ⟨0xffffffff, 0xffffffff⟩ bulkOut fun _ => 0
  have hfit := hfits ⟨0xffffffff, 0xffffffff⟩ bulkOut (fun _ => 0) 0
  have htb : uTbLen ⟨0xffffffff, 0xffffffff⟩ bulkOut = 6000 := by decide
  unfold uStrLen at hfit
  omega
