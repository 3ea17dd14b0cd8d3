import SideDumper.LineStream
import SideDumper.HexDump
import SideDumper.DumpLog

/-!
# Reading the log

The dumps of the URBs that are captured stand in the log one behind the other,
and nothing in front of a dump says how long it is. Some of it the device
decides: the bytes of the transfer buffer, and the characters of a string
descriptor, which are printed as they are.

A reader needs no more than the beginnings of the lines. Behind the header of
the side dumper the first line of a dump has one blank, the lines with the setup
packet and the transfer buffer have two, and all others have four. No byte of a
device ends a line, so none is at the beginning of one, and the log is read
back: each URB with its number, its device, its pipe, its length, its setup
packet and the bytes that the limits let through.
-/

/-- **The first line of a dump.** -/
structure UrbHead where
  uUrbNumber : ℕ
  devnum : ℕ
  type : PipeType
  endpoint : ℕ
  out : Bool
  uTbBytes : ℕ
deriving DecidableEq

/-- `TSetupPacket`. -/
structure SetupFields where
  requesttype : ℕ
  request : ℕ
  value : ℕ
  index : ℕ
  length : ℕ
deriving DecidableEq

/-- What stands in the lines behind it: the setup packet, or bytes of the
transfer buffer. -/
abbrev UrbBody := SetupFields ⊕ List UInt8

/-! ## The reader -/

/-- Reads one of the words of `PipeTypeStr`. -/
def readPipeType (cs : List Char) : Option (PipeType × List Char) :=
  [PipeType.iso, .int, .ctrl, .bulk].findSome? fun t =>
    (expect (pipeTypeStr t).toList cs).map (t, ·)

/-- Reads the direction. -/
def readDirection (cs : List Char) : Option (Bool × List Char) :=
  ((expect " >, ".toList cs).map (true, ·)).or ((expect " <, ".toList cs).map (false, ·))

/-- Reads the first line of a dump. -/
def readUrbLine (cs : List Char) : Option UrbHead := do
  let cs ← expect " urb_".toList cs
  let (uUrbNumber, cs) := readNum 10 cs
  let cs ← expect ": device #".toList cs
  let (devnum, cs) := readNum 10 cs
  let cs ← expect ", ".toList cs
  let (type, cs) ← readPipeType cs
  let cs ← expect "_".toList cs
  let (endpoint, cs) := readNum 10 cs
  let (out, cs) ← readDirection cs
  let (uTbBytes, cs) := readNum 10 cs
  let _ ← expect " bytes.".toList cs
  return ⟨uUrbNumber, devnum, type, endpoint, out, uTbBytes⟩

/-- Reads the line with the setup packet. -/
def readSetupLine (cs : List Char) : Option SetupFields := do
  let cs ← expect "  sp = [ ".toList cs
  let (requesttype, cs) := readNum 16 cs
  let cs ← expect " ".toList cs
  let (request, cs) := readNum 16 cs
  let cs ← expect " ".toList cs
  let (value, cs) := readNum 16 cs
  let cs ← expect " ".toList cs
  let (index, cs) := readNum 16 cs
  let cs ← expect " ".toList cs
  let (length, cs) := readNum 16 cs
  let _ ← expect " ]".toList cs
  return ⟨requesttype, request, value, index, length⟩

/-- Reads a line with bytes of the transfer buffer. -/
def readTbLine (cs : List Char) : Option (List UInt8) := do
  let cs ← expect "  tb =".toList cs
  readHexLine cs

/-- Reads what stands behind the header of a line. -/
def readBehindHeader (cs : List Char) : Option (StreamLine UrbHead UrbBody) :=
  if (expect "    ".toList cs).isSome then some .skip
  else ((readUrbLine cs).map .head).or
    (((readSetupLine cs).map (.body ∘ .inl)).or ((readTbLine cs).map (.body ∘ .inr)))

/-- **Reads a line of the log.** -/
def readDumpLine (l : List Char) : Option (StreamLine UrbHead UrbBody) :=
  (expect pszHeader.toList l).bind readBehindHeader

/-- **What is read of an URB.** -/
structure LoggedUrb where
  head : UrbHead
  setup : Option SetupFields
  data : List UInt8
deriving DecidableEq

/-- The setup packet and the bytes of a record. -/
def LoggedUrb.ofBody (h : UrbHead) (bs : List UrbBody) : LoggedUrb :=
  ⟨h, bs.findSome? Sum.getLeft?, (bs.filterMap Sum.getRight?).flatten⟩

/-- **Reads the log.** -/
def readLog (text : List Char) : Option (List LoggedUrb) :=
  (readStream readDumpLine text).map (List.map fun r => LoggedUrb.ofBody r.1 r.2)

/-! ## What there is to be read -/

/-- The first line of the dump of `m`. -/
def MiniUrb.head (m : MiniUrb) : UrbHead :=
  ⟨m.uUrbNumber, m.devnum, m.pipe.type, m.pipe.endpoint, m.pipe.out, m.uTbBytes⟩

/-- The setup packet of `m`. -/
def MiniUrb.setupFields (m : MiniUrb) : SetupFields :=
  ⟨m.requesttype, m.request, m.value, m.index, m.length⟩

/-- **A dump**: the settings it is made with, what was captured, and how many
passes the loop over the descriptors makes. -/
structure UrbDump where
  passes : ℕ
  settings : DeviceSettings
  m : MiniUrb
  buf : Bytes

namespace UrbDump

/-- The text of a dump. -/
def text (d : UrbDump) : List Char := dumpText d.buf (dumpUrb d.passes d.settings d.m d.buf)

/-- What the log should say. -/
def logged (d : UrbDump) : LoggedUrb :=
  ⟨d.m.head, if d.m.pipe.type = .ctrl then some d.m.setupFields else none,
    dumpedBytes d.buf (uTbLen d.settings d.m)⟩

end UrbDump

/-! ## Lines that are passed over -/

/-- An item without a line end. -/
def Item.unbroken : Item → Bool
  | .lit s => s.toList.all (· != '\n')
  | _ => true

section Unbroken

variable {buf : Bytes} {xs ys fields : List Item} {label title : String} {n off size : ℕ}

theorem newline_not_mem_toDigits {b : ℕ} (hb : 1 < b) (hb' : b ≤ 16) (n : ℕ) :
    '\n' ∉ Nat.toDigits b n := by
  intro hmem
  obtain ⟨d, hd, hc⟩ := exists_digitChar hb hmem
  exact newline_not_mem_digitChar (Nat.lt_of_lt_of_le hd hb') hc.symm

theorem newline_not_mem_padZero {width : ℕ} {s : List Char} (hs : '\n' ∉ s) :
    '\n' ∉ padZero width s := by
  intro hmem
  rcases List.mem_append.mp hmem with hmem | hmem
  · exact absurd (List.eq_of_mem_replicate hmem) (by decide)
  · exact hs hmem

/-- **No byte of a device ends a line.** -/
theorem newline_not_mem_printable : '\n' ∉ (Item.printable off).text buf := by
  have hall : ∀ n < 256, '\n' ∉ [if isprint (UInt8.ofNat n) then Char.ofNat n else '.'] := by
    decide +kernel
  have h := hall _ (UInt8.toNat_lt (buf off))
  rw [UInt8.ofNat_toNat] at h
  exact h

theorem newline_not_mem_text {x : Item} (hx : x.unbroken = true) : '\n' ∉ x.text buf := by
  cases x with
  | lit s =>
    intro hmem
    exact absurd (List.all_eq_true.mp hx _ hmem) (by decide)
  | hex width v =>
    exact newline_not_mem_padZero (newline_not_mem_toDigits (by decide) (by decide) _)
  | dec width v =>
    exact newline_not_mem_padZero (newline_not_mem_toDigits (by decide) (by decide) _)
  | printable off => exact newline_not_mem_printable
  | test off => exact List.not_mem_nil

theorem newline_not_mem_dumpText (hxs : xs.all Item.unbroken = true) :
    '\n' ∉ dumpText buf xs := by
  intro hmem
  obtain ⟨x, hx, hmem⟩ := List.mem_flatMap.mp hmem
  exact newline_not_mem_text (List.all_eq_true.mp hxs x hx) hmem

theorem dumpText_cons (x : Item) (xs : List Item) :
    dumpText buf (x :: xs) = x.text buf ++ dumpText buf xs :=
  List.flatMap_cons

theorem dumpText_nil : dumpText buf [] = [] := rfl

theorem text_lit (s : String) : (Item.lit s).text buf = s.toList := rfl

theorem unbroken_lit {cs : List Char} (hcs : cs.all (· != '\n') = true) :
    (Item.lit (String.ofList cs)).unbroken = true := by
  rw [Item.unbroken, String.toList_ofList, hcs]

/-- **Items that show lines which are passed over.** -/
def Passed (buf : Bytes) (xs : List Item) : Prop :=
  ∃ ls : List (StreamLine UrbHead UrbBody), (∀ l ∈ ls, l = .skip) ∧
    Shows readDumpLine (dumpText buf xs) ls

theorem Passed.nil : Passed buf [] := ⟨[], fun _ h => absurd h List.not_mem_nil, .nil⟩

theorem Passed.append (hxs : Passed buf xs) (hys : Passed buf ys) : Passed buf (xs ++ ys) := by
  obtain ⟨as, has, hxs⟩ := hxs
  obtain ⟨bs, hbs, hys⟩ := hys
  refine ⟨as ++ bs, fun l hl => ?_, dumpText_append ▸ hxs.append hys⟩
  exact (List.mem_append.mp hl).elim (has l) (hbs l)

theorem Passed.test (hxs : Passed buf xs) (off : ℕ) : Passed buf (Item.test off :: xs) := hxs

theorem Passed.ite {p : Prop} [Decidable p] (hxs : Passed buf xs) (hys : Passed buf ys) :
    Passed buf (if p then xs else ys) := by
  split
  · exact hxs
  · exact hys

/-- A line with four blanks behind the header. -/
theorem passed_of_text {t : List Char} (ht : '\n' ∉ t)
    (htext : dumpText buf xs = pszHeader.toList ++ ("    ".toList ++ t) ++ ['\n']) :
    Passed buf xs := by
  have hheader : '\n' ∉ pszHeader.toList ++ "    ".toList := by decide
  have hclass : readDumpLine (pszHeader.toList ++ ("    ".toList ++ t)) = some .skip := by
    rw [readDumpLine, expect_append, Option.bind_some, readBehindHeader, expect_append]
    rfl
  refine ⟨[.skip], fun l hl => List.mem_singleton.mp hl, htext ▸ Shows.line ?_ hclass⟩
  rw [← List.append_assoc, List.mem_append, not_or]
  exact ⟨hheader, ht⟩

/-- Four blanks, and no line end behind them. -/
def indented (label : String) : Bool :=
  "    ".toList.isPrefixOf label.toList && label.toList.all (· != '\n')

/-- A line end, and none in front of it. -/
def closing (s : String) : Bool :=
  s.toList.getLast? == some '\n' && s.toList.dropLast.all (· != '\n')

theorem indented_ofList {cs : List Char}
    (h : ("    ".toList.isPrefixOf cs && cs.all (· != '\n')) = true) :
    indented (String.ofList cs) = true := by
  have hcs : (String.ofList cs).toList = cs := String.toList_ofList
  rw [indented, hcs, h]

theorem closing_ofList {cs : List Char}
    (h : (cs.getLast? == some '\n' && cs.dropLast.all (· != '\n')) = true) :
    closing (String.ofList cs) = true := by
  have hcs : (String.ofList cs).toList = cs := String.toList_ofList
  rw [closing, hcs, h]

theorem exists_of_indented (h : indented label = true) :
    ∃ t, label.toList = "    ".toList ++ t ∧ '\n' ∉ t := by
  rw [indented, Bool.and_eq_true, List.isPrefixOf_iff_prefix] at h
  obtain ⟨⟨t, ht⟩, hall⟩ := h
  refine ⟨t, ht.symm, fun hmem => ?_⟩
  have hin : '\n' ∈ label.toList := ht ▸ List.mem_append_right _ hmem
  exact absurd (List.all_eq_true.mp hall _ hin) (by decide)

theorem exists_of_closing {s : String} (h : closing s = true) :
    ∃ t, s.toList = t ++ ['\n'] ∧ '\n' ∉ t := by
  rw [closing, Bool.and_eq_true, beq_iff_eq] at h
  refine ⟨s.toList.dropLast, (List.dropLast_append_getLast? _ h.1).symm, fun hmem => ?_⟩
  exact absurd (List.all_eq_true.mp h.2 _ hmem) (by decide)

/-- **A line in pieces.** -/
theorem passed_pieces (xs : List Item) {last : String} (hlabel : indented label = true)
    (hxs : xs.all Item.unbroken = true) (hlast : closing last = true) :
    Passed buf ([.lit pszHeader, .lit label] ++ xs ++ [.lit last]) := by
  obtain ⟨t, ht, hnl⟩ := exists_of_indented hlabel
  obtain ⟨z, hz, hnz⟩ := exists_of_closing hlast
  refine passed_of_text (t := t ++ (dumpText buf xs ++ z)) ?_ ?_
  · rw [List.mem_append, List.mem_append, not_or, not_or]
    exact ⟨hnl, newline_not_mem_dumpText hxs, hnz⟩
  · simp only [dumpText_append, dumpText_cons, dumpText_nil, text_lit, ht, hz, List.append_assoc,
      List.append_nil]

/-- A line with a label. -/
theorem passed_line (hlabel : indented label = true) (hxs : xs.all Item.unbroken = true) :
    Passed buf (line label xs) :=
  passed_pieces xs hlabel hxs (closing_ofList rfl)

end Unbroken

/-! ### The descriptors -/

section Descriptors

variable {buf : Bytes} {xs ys fields : List Item} {label title : String} {n off size : ℕ}

@[simp] theorem unbroken_hex (width : ℕ) (v : Val) : (Item.hex width v).unbroken = true := rfl

@[simp] theorem unbroken_dec (width : ℕ) (v : Val) : (Item.dec width v).unbroken = true := rfl

@[simp] theorem unbroken_test (off : ℕ) : (Item.test off).unbroken = true := rfl

@[simp] theorem unbroken_printable (off : ℕ) : (Item.printable off).unbroken = true := rfl

@[simp] theorem unbroken_h : (Item.lit "h").unbroken = true := unbroken_lit rfl

@[simp] theorem unbroken_open : (Item.lit "h (").unbroken = true := unbroken_lit rfl

@[simp] theorem unbroken_close : (Item.lit ")").unbroken = true := unbroken_lit rfl

theorem passed_hexByte (hlabel : indented label = true) : Passed buf (hexByte label off) :=
  passed_line hlabel (by simp)

theorem passed_hexDecByte (hlabel : indented label = true) : Passed buf (hexDecByte label off) :=
  passed_line hlabel (by simp)

theorem passed_hexWord (hlabel : indented label = true) : Passed buf (hexWord label off) :=
  passed_line hlabel (by simp)

theorem passed_hexDecWord (hlabel : indented label = true) : Passed buf (hexDecWord label off) :=
  passed_line hlabel (by simp)

theorem passed_shortTransfer : Passed buf (shortTransfer n off) := by
  refine passed_line (indented_ofList rfl) ?_
  simp only [List.all_cons, List.all_nil, unbroken_dec, Bool.and_true, Bool.true_and,
    Bool.and_eq_true]
  exact ⟨unbroken_lit rfl, unbroken_lit rfl⟩

theorem passed_unknownDescriptor : Passed buf unknownDescriptor := by
  refine passed_line (indented_ofList rfl) ?_
  simp only [List.all_cons, List.all_nil, unbroken_dec, unbroken_hex, Bool.and_true,
    Bool.true_and, Bool.and_eq_true]
  exact ⟨unbroken_lit rfl, unbroken_lit rfl⟩

theorem passed_endOfDescriptor : Passed buf endOfDescriptor :=
  passed_line (indented_ofList rfl) rfl

theorem Passed.descriptor (htitle : indented title = true) (hfields : Passed buf fields) :
    Passed buf (descriptor title n size off fields) :=
  ((passed_line htitle rfl).append (passed_shortTransfer.ite hfields)).append
    passed_endOfDescriptor

theorem passed_dumpDD : Passed buf (dumpDD buf n) := by
  have hclass : closing (deviceClass (buf 4)) = true := by
    unfold deviceClass
    repeat' split
    all_goals exact closing_ofList rfl
  have hsep : (Item.lit "h ").unbroken = true := unbroken_lit rfl
  have hline : Passed buf [Item.lit pszHeader, Item.lit "    bDeviceClass       = ",
      Item.hex 2 (.field 4 1), Item.lit "h ", Item.test 4, Item.lit (deviceClass (buf 4))] :=
    passed_pieces [.hex 2 (.field 4 1), .lit "h ", .test 4] (indented_ofList rfl)
      (by simp [hsep]) hclass
  refine Passed.descriptor (indented_ofList rfl) ?_
  repeat' first
    | with_reducible exact hline
    | with_reducible apply passed_hexByte
    | with_reducible apply passed_hexDecByte
    | with_reducible apply passed_hexWord
    | with_reducible apply Passed.append
  all_goals exact indented_ofList rfl

theorem passed_dumpID : Passed buf (dumpID off n) := by
  refine Passed.descriptor (indented_ofList rfl) ?_
  unfold idFields
  repeat' first
    | with_reducible apply passed_hexByte
    | with_reducible apply passed_hexDecByte
    | with_reducible apply Passed.append
  all_goals exact indented_ofList rfl

theorem passed_dumpED : Passed buf (dumpED buf off n) := by
  have haudio : Passed buf (if buf off = 9 then
      line "    bRefresh         = " [.hex 4 (.field (off + 7) 1), .lit "h"]
        ++ hexByte "    bSynchAddress    = " (off + 8)
      else []) :=
    ((passed_line (indented_ofList rfl) (by simp)).append
      (passed_hexByte (indented_ofList rfl))).ite .nil
  refine Passed.descriptor (indented_ofList rfl) ?_
  unfold edFields
  repeat' first
    | with_reducible exact haudio
    | with_reducible exact Passed.nil.test off
    | with_reducible apply passed_hexByte
    | with_reducible apply passed_hexDecByte
    | with_reducible apply passed_hexDecWord
    | with_reducible apply Passed.append
  all_goals exact indented_ofList rfl

theorem passed_dumpCdPass {pEnd : ℕ} : Passed buf (dumpCdPass buf off pEnd) := by
  have htype : Passed buf (if buf (off + 1) = 1 ∨ buf (off + 1) = 2 ∨ buf (off + 1) = 3 then []
      else if buf (off + 1) = 4 then dumpID off (pEnd - off)
      else if buf (off + 1) = 5 then dumpED buf off (pEnd - off)
      else unknownDescriptor) :=
    .ite .nil (.ite passed_dumpID (.ite passed_dumpED passed_unknownDescriptor))
  exact ((Passed.nil.test _).append htype).append (Passed.nil.test _)

theorem passed_dumpCdLoop {pEnd : ℕ} (passes : ℕ) :
    Passed buf (dumpCdLoop buf pEnd passes off) := by
  induction passes generalizing off with
  | zero => exact .nil
  | succ passes ih => exact .ite (passed_dumpCdPass.append ih) .nil

theorem passed_dumpCD (passes : ℕ) : Passed buf (dumpCD passes buf n) := by
  refine .append (Passed.descriptor (indented_ofList rfl) ?_) (.ite ?_ .nil)
  · repeat' first
      | with_reducible apply passed_hexByte
      | with_reducible apply passed_hexDecByte
      | with_reducible apply passed_hexDecWord
      | with_reducible apply Passed.append
    all_goals exact indented_ofList rfl
  · exact (((Passed.nil.test _).test _).test _).append (passed_dumpCdLoop passes)

theorem passed_dumpSD (uIndex : ℕ) : Passed buf (dumpSD buf n uIndex) := by
  have hchars : Passed buf ([.lit pszHeader, .lit "    wData[]         = '"]
      ++ (List.range (sdChars buf n)).map (fun i => Item.printable (2 + 2 * i))
        ++ [.lit "'\n"]) :=
    passed_pieces _ (indented_ofList rfl) (by simp) (closing_ofList rfl)
  have hbody : Passed buf (if uIndex = 0 then line "    wData           = [tbd]" []
      else [.lit pszHeader, .lit "    wData[]         = '"]
        ++ (List.range (sdChars buf n)).map (fun i => Item.printable (2 + 2 * i))
          ++ [.lit "'\n"]) :=
    .ite (passed_line (indented_ofList rfl) rfl) hchars
  have hfields : Passed buf ([Item.test 0] ++ hexDecByte "    bLength         = " 0
      ++ hexByte "    bDescriptorType = " 1) :=
    ((Passed.nil.test 0).append (passed_hexDecByte (indented_ofList rfl))).append
      (passed_hexByte (indented_ofList rfl))
  refine ((passed_line (indented_ofList rfl) rfl).append (.ite passed_shortTransfer ?_)).append
    passed_endOfDescriptor
  exact (Passed.nil.test 0).append (.ite passed_shortTransfer (hfields.append hbody))

theorem passed_dumpStdDescriptors (buf : Bytes) (passes : ℕ) (m : MiniUrb) :
    Passed buf (dumpStdDescriptors passes m buf) :=
  .ite ((Passed.nil.test 1).append (.ite passed_dumpDD
    (.ite (passed_dumpCD passes) (.ite (passed_dumpSD _)
    (.ite .nil passed_unknownDescriptor))))) .nil

theorem unbroken_ite {p : Prop} [Decidable p] (hxs : xs.all Item.unbroken = true)
    (hys : ys.all Item.unbroken = true) : (if p then xs else ys).all Item.unbroken = true := by
  split
  · exact hxs
  · exact hys

theorem passed_dumpSPSettings (buf : Bytes) (m : MiniUrb) : Passed buf (dumpSPSettings m) := by
  have hdirection : (Item.lit (if m.requesttype &&& 0x80 = 0 then "h->d" else "h<-d")).unbroken
      = true := by
    split
    · exact unbroken_lit rfl
    · exact unbroken_lit rfl
  have hcomma : (Item.lit ", ").unbroken = true := unbroken_lit rfl
  have hrecipient : closing (recipient (m.requesttype &&& 0x1f)) = true := by
    unfold recipient
    repeat' split
    all_goals exact closing_ofList rfl
  have htype : ∀ t, (Item.lit (descriptorType t)).unbroken = true := by
    intro t
    unfold descriptorType
    repeat' split
    all_goals exact unbroken_lit rfl
  have hstd : (stdRequest m).all Item.unbroken = true := by
    unfold stdRequest
    repeat' apply unbroken_ite
    all_goals
      simp only [List.all_cons, List.all_nil, unbroken_dec, htype, Bool.and_true, Bool.true_and,
        Bool.and_eq_true]
      and_intros
      all_goals exact unbroken_lit rfl
  have hrequest : (if m.requesttype &&& 0x60 = 0 then stdRequest m
      else if m.requesttype &&& 0x60 = 0x20 then [.lit "USB_TYPE_CLASS, "]
      else if m.requesttype &&& 0x60 = 0x40 then [.lit "USB_TYPE_VENDOR, "]
      else [.lit "USB_TYPE_?, "]).all Item.unbroken = true := by
    refine unbroken_ite hstd (unbroken_ite ?_ (unbroken_ite ?_ ?_))
    all_goals
      rw [List.all_cons, unbroken_lit rfl]
      rfl
  have hlabel : indented "    " = true := indented_ofList rfl
  unfold dumpSPSettings
  exact passed_pieces (_ :: _ :: _) hlabel (by simp [hdirection, hcomma, hrequest]) hrecipient

end Descriptors

/-! ## Lines that are read -/

section Lines

variable {buf : Bytes} {b : ℕ} {s r : List Char}

/-- A printed number is read up to the text behind it. -/
theorem readNum_padZero (hb : 1 < b) (hb' : b ≤ 16) (hs : s.head?.any (isDigitOf b) = false)
    (hne : s ≠ [])
    (width n : ℕ) : readNum b (padZero width (Nat.toDigits b n) ++ (s ++ r)) = (n, s ++ r) := by
  obtain ⟨d, t, rfl⟩ := List.exists_cons_of_ne_nil hne
  exact readNum_toDigits hb hb' hs _ n

theorem readPipeType_append (t : PipeType) (r : List Char) :
    readPipeType ((pipeTypeStr t).toList ++ r) = some (t, r) := by
  cases t <;> rfl

theorem readDirection_append (out : Bool) (r : List Char) :
    readDirection ((if out then " >, " else " <, ").toList ++ r) = some (out, r) := by
  cases out <;> rfl

/-- What is printed on the first line, behind the header. -/
def urbLineText (m : MiniUrb) : List Char :=
  " urb_".toList ++ (padZero 4 (Nat.toDigits 10 m.uUrbNumber)
    ++ (": device #".toList ++ (padZero 1 (Nat.toDigits 10 m.devnum)
    ++ (", ".toList ++ ((pipeTypeStr m.pipe.type).toList
    ++ ("_".toList ++ (padZero 1 (Nat.toDigits 10 m.pipe.endpoint)
    ++ ((if m.pipe.out then " >, " else " <, ").toList
    ++ (padZero 1 (Nat.toDigits 10 m.uTbBytes) ++ (" bytes.".toList ++ []))))))))))

theorem readUrbLine_text (m : MiniUrb) : readUrbLine (urbLineText m) = some m.head := by
  have hdirection :
      (if m.pipe.out then " >, " else " <, ").toList.head?.any (isDigitOf 10) = false ∧
      (if m.pipe.out then " >, " else " <, ").toList ≠ [] := by
    split
    · exact ⟨rfl, by decide⟩
    · exact ⟨rfl, by decide⟩
  unfold readUrbLine urbLineText
  simp only [expect_append, Option.bind_eq_bind, Option.bind_some, Option.pure_def,
    readPipeType_append,
    readDirection_append, readNum_padZero (b := 10) (by decide) (by decide) hdirection.1
      hdirection.2,
    readNum_padZero (b := 10) (s := ": device #".toList) (by decide) (by decide) rfl (by decide),
    readNum_padZero (b := 10) (s := ", ".toList) (by decide) (by decide) rfl (by decide),
    readNum_padZero (b := 10) (s := " bytes.".toList) (by decide) (by decide) rfl (by decide)]
  rfl

/-- A line that begins in its own way behind the header. -/
theorem shows_line {xs : List Item} {t : List Char} {x : StreamLine UrbHead UrbBody}
    (ht : '\n' ∉ t)
    (hx : readBehindHeader t = some x)
    (htext : dumpText buf xs = pszHeader.toList ++ t ++ ['\n']) :
    Shows readDumpLine (dumpText buf xs) [x] := by
  have hheader : '\n' ∉ pszHeader.toList := by decide
  have hclass : readDumpLine (pszHeader.toList ++ t) = some x := by
    rw [readDumpLine, expect_append, Option.bind_some, hx]
  refine htext ▸ Shows.line ?_ hclass
  rw [List.mem_append, not_or]
  exact ⟨hheader, ht⟩

/-- The text of a line. -/
theorem dumpText_line (label : String) (xs : List Item) :
    dumpText buf (line label xs)
      = pszHeader.toList ++ (label.toList ++ dumpText buf xs) ++ ['\n'] := by
  have hend : "\n".toList = ['\n'] := rfl
  simp only [line, dumpText_append, dumpText_cons, dumpText_nil, text_lit, hend,
    List.append_assoc, List.append_nil]

/-- A line is broken only at its end. -/
theorem newline_not_mem_line (buf : Bytes) {label : String} (xs : List Item)
    (hlabel : '\n' ∉ label.toList)
    (hxs : xs.all Item.unbroken = true) : '\n' ∉ label.toList ++ dumpText buf xs := by
  rw [List.mem_append, not_or]
  exact ⟨hlabel, newline_not_mem_dumpText hxs⟩

/-- **The first line is read.** -/
theorem shows_urbLine (m : MiniUrb) :
    Shows readDumpLine (dumpText buf (urbLine m)) [.head m.head] := by
  have htype : (Item.lit (pipeTypeStr m.pipe.type)).unbroken = true := by
    cases m.pipe.type
    all_goals exact unbroken_lit rfl
  have hdirection : (Item.lit (if m.pipe.out then " >, " else " <, ")).unbroken = true := by
    split
    · exact unbroken_lit rfl
    · exact unbroken_lit rfl
  have hlits : (Item.lit ": device #").unbroken = true ∧ (Item.lit ", ").unbroken = true ∧
      (Item.lit "_").unbroken = true ∧ (Item.lit " bytes.").unbroken = true :=
    ⟨unbroken_lit rfl, unbroken_lit rfl, unbroken_lit rfl, unbroken_lit rfl⟩
  have hclass : readBehindHeader (urbLineText m) = some (.head m.head) := by
    have hnot : expect "    ".toList (urbLineText m) = none := rfl
    rw [readBehindHeader, hnot, readUrbLine_text]
    rfl
  refine shows_line ?_ hclass (dumpText_line _ _)
  have hlabel : '\n' ∉ " urb_".toList := by decide
  refine newline_not_mem_line buf [.dec 4 (.num m.uUrbNumber), .lit ": device #",
    .dec 1 (.num m.devnum), .lit ", ",
    .lit (pipeTypeStr m.pipe.type), .lit "_", .dec 1 (.num m.pipe.endpoint),
    .lit (if m.pipe.out then " >, " else " <, "), .dec 1 (.num m.uTbBytes),
      .lit " bytes."] hlabel ?_
  simp [htype, hdirection, hlits]

/-- What is printed on the line with the setup packet, behind the header. -/
def setupLineText (m : MiniUrb) : List Char :=
  "  sp = [ ".toList ++ (padZero 2 (Nat.toDigits 16 m.requesttype)
    ++ (" ".toList ++ (padZero 2 (Nat.toDigits 16 m.request)
    ++ (" ".toList ++ (padZero 4 (Nat.toDigits 16 m.value)
    ++ (" ".toList ++ (padZero 4 (Nat.toDigits 16 m.index)
    ++ (" ".toList ++ (padZero 4 (Nat.toDigits 16 m.length)
    ++ (" ]".toList ++ []))))))))))

theorem readSetupLine_text (m : MiniUrb) :
    readSetupLine (setupLineText m) = some m.setupFields := by
  unfold readSetupLine setupLineText
  simp only [expect_append, Option.bind_eq_bind, Option.bind_some, Option.pure_def,
    readNum_padZero (b := 16) (s := " ".toList) (by decide) (by decide) rfl (by decide),
    readNum_padZero (b := 16) (s := " ]".toList) (by decide) (by decide) rfl (by decide)]
  rfl

/-- **The setup packet is read.** -/
theorem shows_dumpSPBytes (m : MiniUrb) :
    Shows readDumpLine (dumpText buf (dumpSPBytes m)) [.body (.inl m.setupFields)] := by
  have hlits : (Item.lit " ").unbroken = true ∧ (Item.lit " ]").unbroken = true :=
    ⟨unbroken_lit rfl, unbroken_lit rfl⟩
  have hclass : readBehindHeader (setupLineText m) = some (.body (.inl m.setupFields)) := by
    have hnot : expect "    ".toList (setupLineText m) = none := rfl
    have hhead : readUrbLine (setupLineText m) = none := rfl
    rw [readBehindHeader, hnot, hhead, readSetupLine_text]
    rfl
  refine shows_line ?_ hclass (dumpText_line _ _)
  have hlabel : '\n' ∉ "  sp = [ ".toList := by decide
  refine newline_not_mem_line buf [.hex 2 (.num m.requesttype), .lit " ", .hex 2 (.num m.request),
    .lit " ",
    .hex 4 (.num m.value), .lit " ", .hex 4 (.num m.index), .lit " ", .hex 4 (.num m.length),
      .lit " ]"] hlabel ?_
  simp [hlits]

/-- A line with bytes is read. -/
theorem readDumpLine_hexLine (bytes : List UInt8) :
    readDumpLine (hexLine (pszHeader.toList ++ "  tb =".toList) bytes)
      = some (.body (.inr bytes)) := by
  have hline : hexLine (pszHeader.toList ++ "  tb =".toList) bytes
      = pszHeader.toList ++ ("  tb =".toList ++ hexLine [] bytes) := by
    simp only [hexLine, List.append_assoc, List.nil_append]
  have htb : readTbLine ("  tb =".toList ++ hexLine [] bytes) = some bytes := by
    rw [readTbLine, expect_append, Option.bind_eq_bind, Option.bind_some]
    exact readHexLine_hexLine List.not_mem_nil bytes
  rw [hline, readDumpLine, expect_append, Option.bind_some, readBehindHeader, htb]
  rfl

theorem shows_hexLines (lines : List (List UInt8)) :
    Shows readDumpLine (hexLines (pszHeader.toList ++ "  tb =".toList) lines)
      (lines.map (.body ∘ .inr)) := by
  have hheader : '\n' ∉ pszHeader.toList ++ "  tb =".toList := by decide
  induction lines with
  | nil => exact .nil
  | cons l lines ih =>
    have hcons : hexLines (pszHeader.toList ++ "  tb =".toList) (l :: lines)
        = hexLine (pszHeader.toList ++ "  tb =".toList) l ++ '\n'
          :: hexLines (pszHeader.toList ++ "  tb =".toList) lines := by
      simp [hexLines]
    rw [hcons, List.map_cons]
    exact .cons (newline_not_mem_hexLine hheader l) (readDumpLine_hexLine l) ih

/-- **The transfer buffer dump is made of lines**, however long it is. -/
theorem exists_hexLines (buf : Bytes) (st : DeviceSettings) (m : MiniUrb) :
    ∃ lines : List (List UInt8), lines.flatten = dumpedBytes buf (uTbLen st m) ∧
      dumpText buf (dumpTB st m) = hexLines (pszHeader.toList ++ "  tb =".toList) lines := by
  have hheader : dumpText buf [Item.lit pszHeader, Item.lit "  tb ="]
      = pszHeader.toList ++ "  tb =".toList := by
    simp [dumpText_cons, dumpText_nil, text_lit]
  generalize hhdr : pszHeader.toList ++ "  tb =".toList = hdr at hheader
  have hinto := rawBufInto_written (n := uTbLen st m) hheader ⟨[], 0⟩ (by decide)
  cases hn : uTbLen st m with
  | zero => exact ⟨[], rfl, by rw [dumpTB, hn]; rfl⟩
  | succ left =>
    rw [hn] at hinto
    obtain ⟨ended, last, hlines, hloop⟩ :=
      rawBufLoop_spec hdr ⟨[], 0⟩ left (RawLines.one buf) Nat.one_pos (Nat.add_comm 1 left)
    have hfirst : rawBufLoop hdr buf (left + 1) (left + 1)
        (OutBuf.sprintf ⟨[], 0⟩ (hdr ++ " [ ".toList))
        = rawBufLoop hdr buf (left + 1) left
          (OutBuf.sprintf ⟨[], 0⟩ (openLines hdr [] [buf 0])) := by
      rw [rawBufLoop]
      simp only [Nat.sub_self, ne_eq, not_true_eq_false, and_false, if_false, hex_text_eq_hexPair,
        OutBuf.sprintf_sprintf]
      simp [openLines, hexLines, hexPairs]
    refine ⟨ended ++ [last], by rw [List.flatten_append, List.flatten_singleton, hlines.bytes],
      ?_⟩
    have hwritten := congrArg OutBuf.written hinto
    rw [rawBufInto, if_neg (Nat.succ_ne_zero left)] at hwritten
    dsimp only at hwritten
    rw [hfirst, hloop, OutBuf.sprintf_sprintf, openLines_append_end] at hwritten
    rw [dumpTB, hn]
    exact hwritten.symm

end Lines

/-! ## The log -/

section Log

open StreamLine

/-- The bytes of several lines. -/
theorem filterMap_getRight_inr (lines : List (List UInt8)) :
    (lines.map (Sum.inr : List UInt8 → UrbBody)).filterMap Sum.getRight? = lines := by
  induction lines with
  | nil => rfl
  | cons l lines ih => rw [List.map_cons, List.filterMap_cons, Sum.getRight?_inr, ih]

theorem findSome_getLeft_inr (lines : List (List UInt8)) :
    (lines.map (Sum.inr : List UInt8 → UrbBody)).findSome? Sum.getLeft? = none := by
  induction lines with
  | nil => rfl
  | cons l lines ih => rw [List.map_cons, List.findSome?_cons, Sum.getLeft?_inr, ih]

/-- **A dump shows its head**, and behind it the setup packet, the bytes, and
lines that are passed over. -/
theorem UrbDump.shows (d : UrbDump) :
    ∃ xs, Headless xs ∧ LoggedUrb.ofBody d.m.head (bodies xs) = d.logged ∧
    Shows readDumpLine d.text (.head d.m.head :: xs) := by
  obtain ⟨lines, hbytes, htb⟩ := exists_hexLines d.buf d.settings d.m
  obtain ⟨descs, hdescs, hstd⟩ := passed_dumpStdDescriptors d.buf d.passes d.m
  obtain ⟨sps, hsps, hsetup⟩ := passed_dumpSPSettings d.buf d.m
  have hlines : Shows readDumpLine (dumpText d.buf (dumpTB d.settings d.m))
      ((lines.map Sum.inr).map .body) := by
    rw [htb, List.map_map]
    exact shows_hexLines lines
  have htext : d.text = dumpText d.buf (urbLine d.m)
      ++ (dumpText d.buf (if d.m.pipe.type = .ctrl then dumpSPBytes d.m ++ dumpSPSettings d.m
        else [])
        ++ (dumpText d.buf (dumpTB d.settings d.m) ++ dumpText d.buf
          (dumpStdDescriptors d.passes d.m d.buf))) := by
    simp only [UrbDump.text, dumpUrb, dumpText_append, List.append_assoc]
  have hrest := hlines.append hstd
  have hheadless : Headless ((lines.map (Sum.inr : List UInt8 → UrbBody)).map .body ++ descs) :=
    (headless_map_body _).append (headless_of_skip hdescs)
  have hbodies : bodies ((lines.map (Sum.inr : List UInt8 → UrbBody)).map .body ++ descs)
      = lines.map (Sum.inr : List UInt8 → UrbBody) := by
    rw [bodies_append, bodies_map_body, bodies_of_skip hdescs, List.append_nil]
  rw [htext]
  by_cases hctrl : d.m.pipe.type = .ctrl
  · refine ⟨(.body (.inl d.m.setupFields) :: sps) ++ ((lines.map Sum.inr).map .body ++ descs), ?_,
      ?_, ?_⟩
    · have hsetup : Headless (.body (.inl d.m.setupFields) :: sps :
          List (StreamLine UrbHead UrbBody)) := by
        intro h hmem
        obtain heq | hmem := List.mem_cons.mp hmem
        · cases heq
        · exact headless_of_skip hsps h hmem
      exact hsetup.append hheadless
    · rw [bodies_append, bodies, bodies_of_skip hsps, hbodies, LoggedUrb.ofBody, UrbDump.logged,
        if_pos hctrl,
        List.cons_append, List.nil_append, List.findSome?_cons, List.filterMap_cons,
          Sum.getLeft?_inl,
        Sum.getRight?_inl, filterMap_getRight_inr, hbytes]
    · rw [if_pos hctrl, dumpText_append, ← List.singleton_append,
        ← List.singleton_append (l := sps)]
      exact (shows_urbLine d.m).append (((shows_dumpSPBytes d.m).append hsetup).append hrest)
  · refine ⟨(lines.map Sum.inr).map .body ++ descs, hheadless, ?_, ?_⟩
    · rw [hbodies, LoggedUrb.ofBody, UrbDump.logged, if_neg hctrl, findSome_getLeft_inr,
        filterMap_getRight_inr, hbytes]
    · rw [if_neg hctrl, dumpText_nil, List.nil_append, ← List.singleton_append]
      exact (shows_urbLine d.m).append hrest

/-- **The log is read back**, whatever was captured and whatever the settings are:
each URB with the bytes that were dumped of it, in order, and no others. This is
so for the text that is written, and also for what `printk` shows of it, when
each dump fits into its buffer and no string descriptor has a percent sign. -/
theorem readLog_dumps (ds : List UrbDump) :
    readLog (ds.flatMap UrbDump.text) = some (ds.map UrbDump.logged) ∧
      ∀ printf, IsPrintf printf →
        (∀ d ∈ ds, d.text.length < uStrLen ∧ ∀ off ∈ stringOffsets d.m d.buf, d.buf off ≠ 0x25) →
        ∀ rest : UrbDump → List Char,
          readLog (ds.flatMap fun d =>
            (dumpUrbToPrintk d.passes d.settings d.m d.buf (rest d)).1.flatMap printf)
            = some (ds.map UrbDump.logged) := by
  have htext : readLog (ds.flatMap UrbDump.text) = some (ds.map UrbDump.logged) :=
    readStream_flatMap UrbDump.text LoggedUrb.ofBody UrbDump.logged
      (fun d => ⟨d.m.head, d.shows⟩) ds
  refine ⟨htext, fun printf hprintf hds rest => ?_⟩
  have hlog : ∀ d ∈ ds, (dumpUrbToPrintk d.passes d.settings d.m d.buf (rest d)).1.flatMap printf
      = d.text := by
    intro d hd
    obtain ⟨hfit, hplain⟩ := hds d hd
    have hflat := (dumpUrbToPrintk_spec d.passes d.settings d.m d.buf (rest d) hfit).1
    have hpercent : '%' ∉ d.text := by
      rw [UrbDump.text, (dumpUrb_plainBut d.passes d.settings d.m d.buf).percent_mem_iff]
      rintro ⟨off, hoff, heq⟩
      exact hplain off hoff heq
    rw [hprintf.flatMap_eq_flatten (hflat ▸ hpercent), hflat]
    rfl
  rw [List.flatMap_congr hlog, htext]

/-- Two bytes that are sent, and the string `ab` that is received behind
them. -/
def sentThenString : List UrbDump :=
  [⟨0, ⟨8, 8⟩, ⟨7, 1, ⟨.bulk, 1, 2, true, false⟩, 2, 0, fun _ => 0⟩, fun _ => 0x1f⟩,
    ⟨0, ⟨0, 0⟩, stringAnswer 6, fun i => [6, 3, 0x61, 0, 0x62, 0].getD i 0⟩]

/-- What is logged of them is read back. -/
theorem readLog_dumps_sentThenString :
    readLog (sentThenString.flatMap fun d =>
        (dumpUrbToPrintk d.passes d.settings d.m d.buf []).1.flatMap dropConversions)
      = some [⟨⟨7, 1, .bulk, 2, true, 2⟩, none, [0x1f, 0x1f]⟩,
        ⟨⟨1, 1, .ctrl, 0, false, 6⟩, some ⟨0x80, 6, 0x301, 0, 0⟩, []⟩] := by
  have hds : ∀ d ∈ sentThenString, d.text.length < uStrLen ∧ ∀ off ∈ stringOffsets d.m d.buf,
      d.buf off ≠ 0x25 := by
    rw [sentThenString, List.forall_mem_cons, List.forall_mem_singleton]
    exact ⟨⟨by decide +kernel, by decide⟩, by decide +kernel, by decide⟩
  exact (readLog_dumps sentThenString).2 dropConversions isPrintf_dropConversions hds fun _ => []

end Log
