import Mathlib.Data.List.GetD
import SideDumper.Printf
import SideDumper.UrbDump

/-!
# What the log shows of a dump

`DumpUrbToPrintk` cuts the text of a dump at its newlines and hands each line
to `printk`, with the byte behind the line set to `NUL` for the time of the
call. The line is the first argument of `printk`, its format. What the dumpers
write has no percent sign, but for the characters of a string descriptor,
which are the device's.
-/

/-- The end of a string. -/
abbrev nul : Char := '\x00'

/-- The size of the buffer. -/
def uStrLen : ℕ := 16 * 1024

/-- The string at `p`. -/
def cstr (b : List Char) (p : ℕ) : List Char := (b.drop p).takeWhile (· ≠ nul)

/-- `FindEol` from `p`. -/
def findEol (b : List Char) (p : ℕ) : ℕ :=
  p + ((b.drop p).takeWhile fun c => decide (c ≠ nul) && decide (c ≠ '\n')).length

/-- **The loop of `DumpUrbToPrintk`** from `pChunk`: the formats that `printk`
is called with, and the buffer afterwards. -/
def printChunks (pszOut : List Char) (pChunk : ℕ) : List (List Char) × List Char :=
  let eol := findEol pszOut pChunk
  if h : pszOut.getD eol nul = nul then ([cstr pszOut pChunk], pszOut)
  else
    let pNextChunk := eol + 1
    let c := pszOut.getD pNextChunk nul
    let cut := pszOut.set pNextChunk nul
    let rest := printChunks (cut.set pNextChunk c) pNextChunk
    (cstr cut pChunk :: rest.1, rest.2)
termination_by pszOut.length - pChunk
decreasing_by
  have hle : pChunk ≤ findEol pszOut pChunk := Nat.le_add_right _ _
  have hlt : findEol pszOut pChunk < pszOut.length :=
    Nat.lt_of_not_le fun hge => h (List.getD_eq_default _ _ hge)
  simp only [List.length_set]
  omega

/-- **`DumpUrbToPrintk`** with a buffer whose bytes behind the text are
`rest`. A text that does not fit is cut. -/
def dumpUrbToPrintk (passes : ℕ) (s : DeviceSettings) (m : MiniUrb) (buf : Bytes)
    (rest : List Char) : List (List Char) × List Char :=
  let text := dumpText buf (dumpUrb passes s m buf)
  let pszOut := text ++ nul :: rest
  printChunks (if uStrLen ≤ text.length then pszOut.set (uStrLen - 1) nul else pszOut) 0

/-! ## The loop -/

section Chunks

variable {a b pre t rest : List Char} {c d : Char} {p : ℕ}

/-- The byte behind a line is put back. -/
theorem set_set_getD (b : List Char) (p : ℕ) : (b.set p d).set p (b.getD p nul) = b := by
  rw [List.set_set]
  by_cases hp : p < b.length
  · rw [List.getD_eq_getElem _ _ hp, List.set_getElem_self]
  · exact List.set_eq_of_length_le (Nat.le_of_not_lt hp)

/-- Where `FindEol` stops. -/
theorem findEol_append (ha : ∀ x ∈ a, x ≠ nul ∧ x ≠ '\n') (hd : d = nul ∨ d = '\n') :
    findEol (pre ++ (a ++ d :: rest)) pre.length = pre.length + a.length := by
  unfold findEol
  rw [List.drop_left, List.takeWhile_append_of_pos (fun x hx => by simp [ha x hx]),
    List.takeWhile_cons_of_neg (by rcases hd with rfl | rfl <;> simp), List.append_nil]

/-- The string in front of a `NUL`. -/
theorem cstr_append (ha : nul ∉ a) : cstr (pre ++ (a ++ nul :: rest)) pre.length = a := by
  unfold cstr
  rw [List.drop_left, List.takeWhile_append_of_pos, List.takeWhile_cons_of_neg (by simp),
    List.append_nil]
  intro x hx
  exact decide_eq_true fun h => ha (h ▸ hx)

/-- The last line. -/
theorem printChunks_last (ht : nul ∉ t) (hnl : '\n' ∉ t) :
    printChunks (pre ++ (t ++ nul :: rest)) pre.length = ([t], pre ++ (t ++ nul :: rest)) := by
  have heol : findEol (pre ++ (t ++ nul :: rest)) pre.length = pre.length + t.length :=
    findEol_append (fun x hx => ⟨fun h => ht (h ▸ hx), fun h => hnl (h ▸ hx)⟩) (.inl rfl)
  have hend : (pre ++ (t ++ nul :: rest)).getD (pre.length + t.length) nul = nul := by
    simp [List.getD_eq_getElem?_getD]
  rw [printChunks]
  simp only [heol]
  rw [dif_pos hend, cstr_append ht]

/-- A line with others behind it. -/
theorem printChunks_line (ha : nul ∉ a) (hnl : '\n' ∉ a) (hrest : rest ≠ []) :
    printChunks (pre ++ (a ++ '\n' :: rest)) pre.length =
      ((a ++ ['\n']) :: (printChunks (pre ++ (a ++ '\n' :: rest)) (pre.length + a.length + 1)).1,
        (printChunks (pre ++ (a ++ '\n' :: rest)) (pre.length + a.length + 1)).2) := by
  have heol : findEol (pre ++ (a ++ '\n' :: rest)) pre.length = pre.length + a.length :=
    findEol_append (fun x hx => ⟨fun h => ha (h ▸ hx), fun h => hnl (h ▸ hx)⟩) (.inr rfl)
  have hnext : (pre ++ (a ++ '\n' :: rest)).getD (pre.length + a.length) nul = '\n' := by
    simp [List.getD_eq_getElem?_getD]
  have hcut : cstr ((pre ++ (a ++ '\n' :: rest)).set (pre.length + a.length + 1) nul) pre.length
      = a ++ ['\n'] := by
    obtain ⟨x, xs, rfl⟩ := List.exists_cons_of_ne_nil hrest
    have hset : (pre ++ (a ++ '\n' :: x :: xs)).set (pre.length + a.length + 1) nul
        = pre ++ ((a ++ ['\n']) ++ nul :: xs) := by
      simp [Nat.add_assoc]
    rw [hset, cstr_append (by simp [ha, show nul ≠ '\n' by decide])]
  conv_lhs => rw [printChunks]
  simp only [heol]
  rw [dif_neg (by rw [hnext]; decide), set_set_getD, hcut]

variable (pre) in
/-- **The lines make up the text, and the buffer is as it was.** -/
theorem printChunks_spec (ht : nul ∉ t) :
    (printChunks (pre ++ (t ++ nul :: rest)) pre.length).1.flatten = t ∧
      (printChunks (pre ++ (t ++ nul :: rest)) pre.length).2 = pre ++ (t ++ nul :: rest) := by
  -- over the length of the text that is left, which gets shorter with each line
  induction hn : t.length using Nat.strongRecOn generalizing pre t with
  | ind n ih =>
    by_cases hnl : '\n' ∈ t
    · obtain ⟨a, b, rfl, ha⟩ := List.eq_append_cons_of_mem hnl
      rw [List.mem_append, List.mem_cons, not_or, not_or] at ht
      have hb := ih b.length (by simp at hn; omega) (pre ++ (a ++ ['\n'])) ht.2.2 rfl
      have hbuffer : pre ++ (a ++ ['\n']) ++ (b ++ nul :: rest)
          = pre ++ (a ++ '\n' :: (b ++ nul :: rest)) := by simp
      have hlen : (pre ++ (a ++ ['\n'])).length = pre.length + a.length + 1 := by
        simp [Nat.add_assoc]
      rw [hbuffer, hlen] at hb
      rw [List.append_assoc, List.cons_append, printChunks_line ht.1 ha (by simp)]
      refine ⟨?_, hb.2⟩
      rw [List.flatten_cons, hb.1]
      simp
    · rw [printChunks_last ht hnl]
      simp

end Chunks

/-! ## The characters of a dump -/

/-- No percent sign and no `NUL`. -/
def plainChar (c : Char) : Bool := c != '%' && c != nul

/-- An item whose text has no percent sign and no `NUL`. -/
def Item.plain : Item → Bool
  | .lit s => s.toList.all plainChar
  | .printable _ => false
  | _ => true

section Characters

variable {buf : Bytes} {xs ys fields : List Item} {label title : String} {n off size : ℕ}

/-- What the digits of a number are. -/
theorem exists_digitChar {b : ℕ} (hb : 1 < b) {c : Char} (hc : c ∈ Nat.toDigits b n) :
    ∃ d < b, c = Nat.digitChar d := by
  induction n using Nat.strongRecOn with
  | ind n ih =>
    rw [Nat.toDigits_eq_if hb] at hc
    split at hc
    · exact ⟨n, ‹_›, List.mem_singleton.mp hc⟩
    · have hlt : n / b < n := Nat.div_lt_self (by omega) hb
      rcases List.mem_append.mp hc with hc | hc
      · exact ih _ hlt hc
      · exact ⟨n % b, Nat.mod_lt _ (by omega), List.mem_singleton.mp hc⟩

theorem plainChar_digits {b : ℕ} (hb : 1 < b) (hb' : b ≤ 16) {c : Char}
    (hc : c ∈ Nat.toDigits b n) : plainChar c = true := by
  obtain ⟨d, hd, rfl⟩ := exists_digitChar hb hc
  have hall : ∀ d < 16, plainChar (Nat.digitChar d) = true := by decide
  exact hall d (Nat.lt_of_lt_of_le hd hb')

theorem plainChar_padZero {width : ℕ} {s : List Char} (hs : ∀ c ∈ s, plainChar c = true) :
    ∀ c ∈ padZero width s, plainChar c = true := by
  intro c hc
  rcases List.mem_append.mp hc with hc | hc
  · rw [List.eq_of_mem_replicate hc]
    rfl
  · exact hs c hc

/-- The text of a plain item. -/
theorem plainChar_text {x : Item} (hx : x.plain = true) :
    ∀ c ∈ x.text buf, plainChar c = true := by
  cases x with
  | lit s => exact List.all_eq_true.mp hx
  | hex width v => exact plainChar_padZero fun c hc => plainChar_digits (by decide) (by decide) hc
  | dec width v => exact plainChar_padZero fun c hc => plainChar_digits (by decide) (by decide) hc
  | printable off => cases hx
  | test off => exact fun c hc => absurd hc List.not_mem_nil

/-- The text of plain items. -/
theorem plainChar_dumpText (hxs : xs.all Item.plain = true) :
    ∀ c ∈ dumpText buf xs, plainChar c = true := by
  intro c hc
  obtain ⟨x, hx, hc⟩ := List.mem_flatMap.mp hc
  exact plainChar_text (List.all_eq_true.mp hxs x hx) c hc

theorem percent_not_mem (hxs : xs.all Item.plain = true) : '%' ∉ dumpText buf xs :=
  fun h => absurd (plainChar_dumpText hxs _ h) (by decide)

@[simp] theorem dumpText_append : dumpText buf (xs ++ ys) = dumpText buf xs ++ dumpText buf ys :=
  List.flatMap_append

/-- A byte is printed as a percent sign when it is one. -/
theorem printable_percent_iff : '%' ∈ (Item.printable off).text buf ↔ buf off = 0x25 := by
  have hall : ∀ n < 256, ('%' ∈ [if isprint (UInt8.ofNat n) then Char.ofNat n else '.'] ↔
      n = 37) := by
    decide +kernel
  have h := hall _ (UInt8.toNat_lt (buf off))
  rw [UInt8.ofNat_toNat] at h
  rw [Item.text, h, ← UInt8.toNat_inj]
  rfl

/-- No byte is printed as a `NUL`. -/
theorem printable_ne_nul : nul ∉ (Item.printable off).text buf := by
  have hall : ∀ n < 256, nul ∉ [if isprint (UInt8.ofNat n) then Char.ofNat n else '.'] := by
    decide +kernel
  have h := hall _ (UInt8.toNat_lt (buf off))
  rw [UInt8.ofNat_toNat] at h
  exact h

/-! ### Which items are plain -/

/-- The characters of a literal are those it is written with. -/
theorem plain_lit {cs : List Char} (hcs : cs.all plainChar = true) :
    (Item.lit (String.ofList cs)).plain = true := by
  rw [Item.plain, String.toList_ofList, hcs]

@[simp] theorem plain_hex (width : ℕ) (v : Val) : (Item.hex width v).plain = true := rfl

@[simp] theorem plain_dec (width : ℕ) (v : Val) : (Item.dec width v).plain = true := rfl

@[simp] theorem plain_test (off : ℕ) : (Item.test off).plain = true := rfl

@[simp] theorem plain_pszHeader : (Item.lit pszHeader).plain = true := plain_lit rfl

@[simp] theorem plain_line :
    (line label xs).all Item.plain = ((Item.lit label).plain && xs.all Item.plain) := by
  have hend : (Item.lit "\n").plain = true := plain_lit rfl
  simp [line, hend]

@[simp] theorem plain_hexByte : (hexByte label off).all Item.plain = (Item.lit label).plain := by
  have hh : (Item.lit "h").plain = true := plain_lit rfl
  simp [hexByte, hh]

@[simp] theorem plain_hexDecByte : (hexDecByte label off).all Item.plain
    = (Item.lit label).plain := by
  have hopen : (Item.lit "h (").plain = true := plain_lit rfl
  have hclose : (Item.lit ")").plain = true := plain_lit rfl
  simp [hexDecByte, hopen, hclose]

@[simp] theorem plain_hexWord : (hexWord label off).all Item.plain = (Item.lit label).plain := by
  have hh : (Item.lit "h").plain = true := plain_lit rfl
  simp [hexWord, hh]

@[simp] theorem plain_hexDecWord : (hexDecWord label off).all Item.plain
    = (Item.lit label).plain := by
  have hopen : (Item.lit "h (").plain = true := plain_lit rfl
  have hclose : (Item.lit ")").plain = true := plain_lit rfl
  simp [hexDecWord, hopen, hclose]

@[simp] theorem plain_endOfDescriptor : endOfDescriptor.all Item.plain = true := by
  rw [endOfDescriptor, plain_line, plain_lit rfl]
  rfl

@[simp] theorem plain_shortTransfer : (shortTransfer n off).all Item.plain = true := by
  simp only [shortTransfer, plain_line, List.all_cons, List.all_nil, plain_dec, Bool.and_true,
    Bool.true_and, Bool.and_eq_true]
  exact ⟨plain_lit rfl, plain_lit rfl, plain_lit rfl⟩

@[simp] theorem plain_unknownDescriptor : unknownDescriptor.all Item.plain = true := by
  simp only [unknownDescriptor, plain_line, List.all_cons, List.all_nil, plain_hex, plain_dec,
    Bool.and_true, Bool.true_and, Bool.and_eq_true]
  exact ⟨plain_lit rfl, plain_lit rfl, plain_lit rfl⟩

@[simp] theorem plain_descriptor :
    (descriptor title n size off fields).all Item.plain
      = ((Item.lit title).plain && (decide (n < size) || fields.all Item.plain)) := by
  unfold descriptor
  by_cases h : n < size
  · simp [h]
  · simp [h]

theorem plain_dumpDD : (dumpDD buf n).all Item.plain = true := by
  have hclass : (Item.lit (deviceClass (buf 4))).plain = true := by
    unfold deviceClass
    repeat' split
    all_goals exact plain_lit rfl
  simp only [dumpDD, plain_descriptor, List.all_append, List.all_cons, plain_hexByte,
    plain_hexDecByte,
    plain_hexWord, plain_hex, plain_test, hclass, List.all_nil, Bool.and_true, Bool.true_and,
    Bool.and_eq_true, Bool.or_eq_true]
  refine ⟨plain_lit rfl, .inr ?_⟩
  and_intros
  all_goals exact plain_lit rfl

theorem plain_dumpID : (dumpID off n).all Item.plain = true := by
  simp only [dumpID, idFields, plain_descriptor, List.all_append, plain_hexByte, plain_hexDecByte,
    Bool.and_eq_true, Bool.or_eq_true]
  refine ⟨plain_lit rfl, .inr ?_⟩
  and_intros
  all_goals exact plain_lit rfl

theorem plain_dumpED : (dumpED buf off n).all Item.plain = true := by
  have haudio : (if buf off = 9 then
      line "    bRefresh         = " [.hex 4 (.field (off + 7) 1), .lit "h"]
        ++ hexByte "    bSynchAddress    = " (off + 8)
      else []).all Item.plain = true := by
    split
    · simp only [List.all_append, plain_line, plain_hexByte, List.all_cons, plain_hex,
        List.all_nil, Bool.and_true, Bool.true_and, Bool.and_eq_true]
      exact ⟨⟨plain_lit rfl, plain_lit rfl⟩, plain_lit rfl⟩
    · rfl
  simp only [dumpED, edFields, plain_descriptor, List.all_append, plain_hexByte, plain_hexDecByte,
    plain_hexDecWord, haudio, List.all_cons, plain_test, List.all_nil, Bool.and_true,
    Bool.and_eq_true, Bool.or_eq_true]
  refine ⟨plain_lit rfl, .inr ?_⟩
  and_intros
  all_goals exact plain_lit rfl

theorem plain_dumpCdPass {pEnd : ℕ} : (dumpCdPass buf off pEnd).all Item.plain = true := by
  unfold dumpCdPass
  split
  · rfl
  · split
    · simp [plain_dumpID]
    · split
      · simp [plain_dumpED]
      · simp

theorem plain_dumpCdLoop {pEnd : ℕ} (passes : ℕ) :
    (dumpCdLoop buf pEnd passes off).all Item.plain = true := by
  induction passes generalizing off with
  | zero => rfl
  | succ passes ih =>
    unfold dumpCdLoop
    split
    · rw [List.all_append, plain_dumpCdPass, ih]
      rfl
    · rfl

theorem plain_dumpCD (passes : ℕ) : (dumpCD passes buf n).all Item.plain = true := by
  have hloop : (if 9 < n then [.test 0, .test 2, .test 3]
      ++ dumpCdLoop buf (min n (fieldValue buf 2 2)) passes (buf 0).toNat
      else []).all Item.plain = true := by
    split
    · rw [List.all_append, plain_dumpCdLoop]
      rfl
    · rfl
  rw [dumpCD, List.all_append, hloop]
  simp only [plain_descriptor, List.all_append, plain_hexByte, plain_hexDecByte, plain_hexDecWord,
    Bool.and_true, Bool.and_eq_true, Bool.or_eq_true]
  refine ⟨plain_lit rfl, .inr ?_⟩
  and_intros
  all_goals exact plain_lit rfl

theorem plain_dumpSPBytes (m : MiniUrb) : (dumpSPBytes m).all Item.plain = true := by
  simp only [dumpSPBytes, plain_line, List.all_cons, List.all_nil, plain_hex, Bool.and_true,
    Bool.true_and, Bool.and_eq_true]
  and_intros
  all_goals exact plain_lit rfl

theorem plain_ite {p : Prop} [Decidable p] (hxs : xs.all Item.plain = true)
    (hys : ys.all Item.plain = true) : (if p then xs else ys).all Item.plain = true := by
  split
  · exact hxs
  · exact hys

theorem plain_stdRequest (m : MiniUrb) : (stdRequest m).all Item.plain = true := by
  have htype : ∀ t, (Item.lit (descriptorType t)).plain = true := by
    intro t
    unfold descriptorType
    repeat' split
    all_goals exact plain_lit rfl
  unfold stdRequest
  repeat' apply plain_ite
  all_goals
    simp only [List.all_cons, List.all_nil, plain_dec, htype, Bool.and_true, Bool.true_and,
      Bool.and_eq_true]
    and_intros
    all_goals exact plain_lit rfl

theorem plain_dumpSPSettings (m : MiniUrb) : (dumpSPSettings m).all Item.plain = true := by
  have hdirection : (Item.lit (if m.requesttype &&& 0x80 = 0 then "h->d" else "h<-d")).plain
      = true := by
    split
    · exact plain_lit rfl
    · exact plain_lit rfl
  have hrecipient : ∀ r, (Item.lit (recipient r)).plain = true := by
    intro r
    unfold recipient
    repeat' split
    all_goals exact plain_lit rfl
  have hrequest : (if m.requesttype &&& 0x60 = 0 then stdRequest m
      else if m.requesttype &&& 0x60 = 0x20 then [.lit "USB_TYPE_CLASS, "]
      else if m.requesttype &&& 0x60 = 0x40 then [.lit "USB_TYPE_VENDOR, "]
      else [.lit "USB_TYPE_?, "]).all Item.plain = true := by
    refine plain_ite (plain_stdRequest m) (plain_ite ?_ (plain_ite ?_ ?_))
    all_goals
      rw [List.all_cons, plain_lit rfl]
      rfl
  rw [dumpSPSettings, List.all_append, List.all_append, hrequest]
  simp only [List.all_cons, List.all_nil, hdirection, hrecipient, Bool.and_true, Bool.true_and,
    Bool.and_eq_true]
  exact ⟨plain_lit rfl, plain_lit rfl, plain_lit rfl⟩

theorem plain_dumpTB (s : DeviceSettings) (m : MiniUrb) : (dumpTB s m).all Item.plain = true := by
  have htb : (Item.lit "  tb =").plain = true := plain_lit rfl
  have hopen : (Item.lit " [ ").plain = true := plain_lit rfl
  have hclose : (Item.lit "]\n").plain = true := plain_lit rfl
  have hsep : (Item.lit " ").plain = true := plain_lit rfl
  refine plain_ite rfl ?_
  simp only [List.all_append, List.all_flatMap, List.all_cons, List.all_nil, plain_pszHeader,
    plain_hex, htb, hopen, hclose, hsep, Bool.and_true, Bool.true_and]
  refine List.all_eq_true.mpr fun i _ => plain_ite ?_ rfl
  simp [htb, hopen, hclose]

theorem plain_urbLine (m : MiniUrb) : (urbLine m).all Item.plain = true := by
  have htype : (Item.lit (pipeTypeStr m.pipe.type)).plain = true := by
    unfold pipeTypeStr
    split
    all_goals exact plain_lit rfl
  have hdirection : (Item.lit (if m.pipe.out then " >, " else " <, ")).plain = true := by
    split
    · exact plain_lit rfl
    · exact plain_lit rfl
  simp only [urbLine, plain_line, List.all_cons, List.all_nil, plain_dec, htype, hdirection,
    Bool.and_true, Bool.true_and, Bool.and_eq_true]
  and_intros
  all_goals exact plain_lit rfl

/-! ### The string descriptor -/

/-- The offsets of the characters that are printed for a string descriptor
of a copy of `n` bytes. -/
def sdOffsets (buf : Bytes) (n uIndex : ℕ) : List ℕ :=
  if 2 ≤ n ∧ (buf 0).toNat ≤ n ∧ uIndex ≠ 0 then (List.range (sdChars buf n)).map (2 + 2 * ·)
  else []

/-- The offsets of the bytes that are printed as they are. -/
def stringOffsets (m : MiniUrb) (buf : Bytes) : List ℕ :=
  if testForStdDescriptor m = true ∧ buf 1 = 3 then sdOffsets buf m.uTbBytes (getStringIndex m)
  else []

/-- Items that are plain, but for the characters at the given offsets. -/
def PlainBut (offs : List ℕ) (zs : List Item) : Prop :=
  ∃ xs ys, zs = xs ++ offs.map .printable ++ ys ∧ xs.all Item.plain = true ∧
    ys.all Item.plain = true

theorem PlainBut.of_plain (hxs : xs.all Item.plain = true) : PlainBut [] xs :=
  ⟨xs, [], by simp, hxs, rfl⟩

theorem PlainBut.prepend {offs : List ℕ} (hxs : xs.all Item.plain = true)
    (hys : PlainBut offs ys) :
    PlainBut offs (xs ++ ys) := by
  obtain ⟨as, bs, rfl, has, hbs⟩ := hys
  refine ⟨xs ++ as, bs, by simp only [List.append_assoc], ?_, hbs⟩
  rw [List.all_append, hxs, has]
  rfl

theorem PlainBut.append {offs : List ℕ} (hxs : PlainBut offs xs)
    (hys : ys.all Item.plain = true) :
    PlainBut offs (xs ++ ys) := by
  obtain ⟨as, bs, rfl, has, hbs⟩ := hxs
  refine ⟨as, bs ++ ys, by simp only [List.append_assoc], has, ?_⟩
  rw [List.all_append, hbs, hys]
  rfl

theorem dumpSD_plainBut (uIndex : ℕ) :
    PlainBut (sdOffsets buf n uIndex) (dumpSD buf n uIndex) := by
  have htitle : (line "    -- string descriptor -----" []).all Item.plain = true := by
    rw [plain_line, plain_lit rfl]
    rfl
  have htbd : (line "    wData           = [tbd]" []).all Item.plain = true := by
    rw [plain_line, plain_lit rfl]
    rfl
  refine PlainBut.append (PlainBut.prepend htitle ?_) plain_endOfDescriptor
  unfold sdOffsets
  by_cases h2 : n < 2
  · rw [if_pos h2, if_neg (by omega)]
    exact .of_plain plain_shortTransfer
  · rw [if_neg h2]
    refine PlainBut.prepend rfl ?_
    by_cases hlen : n < (buf 0).toNat
    · rw [if_pos hlen, if_neg (by omega)]
      exact .of_plain plain_shortTransfer
    · rw [if_neg hlen]
      refine PlainBut.prepend ?_ ?_
      · simp only [List.all_append, plain_hexDecByte, plain_hexByte, Bool.and_eq_true]
        exact ⟨⟨rfl, plain_lit rfl⟩, plain_lit rfl⟩
      by_cases hindex : uIndex = 0
      · rw [if_pos hindex, if_neg (by simp [hindex])]
        exact .of_plain htbd
      · rw [if_neg hindex, if_pos ⟨Nat.le_of_not_lt h2, Nat.le_of_not_lt hlen, hindex⟩]
        refine ⟨[.lit pszHeader, .lit "    wData[]         = '"], [.lit "'\n"], ?_, ?_, ?_⟩
        · rw [List.map_map]
          rfl
        · rw [List.all_cons, List.all_cons, plain_pszHeader, plain_lit rfl]
          rfl
        · rw [List.all_cons, plain_lit rfl]
          rfl

/-- **All items are plain but for the characters of a string
descriptor.** -/
theorem dumpUrb_plainBut (passes : ℕ) (s : DeviceSettings) (m : MiniUrb) (buf : Bytes) :
    PlainBut (stringOffsets m buf) (dumpUrb passes s m buf) := by
  have hctrl :
      (if m.pipe.type = .ctrl then dumpSPBytes m ++ dumpSPSettings m else []).all Item.plain
      = true := by
    refine plain_ite ?_ rfl
    rw [List.all_append, plain_dumpSPBytes, plain_dumpSPSettings]
    rfl
  refine PlainBut.prepend ?_ ?_
  · rw [List.all_append, List.all_append, plain_urbLine, hctrl, plain_dumpTB]
    rfl
  unfold dumpStdDescriptors stringOffsets
  by_cases htest : testForStdDescriptor m = true
  · rw [if_pos htest]
    refine PlainBut.prepend rfl ?_
    by_cases hsd : buf 1 = 3
    · rw [if_pos ⟨htest, hsd⟩, if_neg (by rw [hsd]; decide), if_neg (by rw [hsd]; decide),
        if_pos hsd]
      exact dumpSD_plainBut _
    · rw [if_neg (fun h => hsd h.2)]
      exact .of_plain (plain_ite plain_dumpDD (plain_ite (plain_dumpCD passes)
        (by rw [if_neg hsd]; exact plain_ite rfl plain_unknownDescriptor)))
  · rw [if_neg htest, if_neg (fun h => htest h.1)]
    exact .of_plain rfl

/-- The percent signs of such a text. -/
theorem PlainBut.percent_mem_iff {offs : List ℕ} (hxs : PlainBut offs xs) :
    '%' ∈ dumpText buf xs ↔ ∃ off ∈ offs, buf off = 0x25 := by
  obtain ⟨as, bs, rfl, has, hbs⟩ := hxs
  rw [dumpText_append, dumpText_append, List.mem_append, List.mem_append,
    iff_false_intro (percent_not_mem has), iff_false_intro (percent_not_mem hbs),
      false_or, or_false]
  simp only [dumpText, List.mem_flatMap, List.mem_map, exists_exists_and_eq_and,
    printable_percent_iff]

/-- There is no `NUL` in it. -/
theorem PlainBut.nul_not_mem {offs : List ℕ} (hxs : PlainBut offs xs) :
    nul ∉ dumpText buf xs := by
  obtain ⟨as, bs, rfl, has, hbs⟩ := hxs
  intro h
  rw [dumpText_append, dumpText_append, List.mem_append, List.mem_append] at h
  rcases h with (h | h) | h
  · exact absurd (plainChar_dumpText has _ h) (by decide)
  · simp only [dumpText, List.mem_flatMap, List.mem_map, exists_exists_and_eq_and] at h
    obtain ⟨off, -, h⟩ := h
    exact printable_ne_nul h
  · exact absurd (plainChar_dumpText hbs _ h) (by decide)

end Characters

/-! ## The log -/

/-- A dump that fits goes to `printk` line by line, and the buffer is as it
was. -/
theorem dumpUrbToPrintk_spec (passes : ℕ) (s : DeviceSettings) (m : MiniUrb) (buf : Bytes)
    (rest : List Char) (hfit : (dumpText buf (dumpUrb passes s m buf)).length < uStrLen) :
    (dumpUrbToPrintk passes s m buf rest).1.flatten = dumpText buf (dumpUrb passes s m buf) ∧
      (dumpUrbToPrintk passes s m buf rest).2
        = dumpText buf (dumpUrb passes s m buf) ++ nul :: rest := by
  simp only [dumpUrbToPrintk, if_neg (Nat.not_le.mpr hfit)]
  exact printChunks_spec [] (dumpUrb_plainBut passes s m buf).nul_not_mem

/-- **The log shows exactly the dump, and the buffer is unchanged, exactly
when no character of a string descriptor is a percent sign.** This is for
every `printf`, as nothing is passed for a conversion in the text; and for
every number of passes of the loop over the descriptors, so also for the one
at which the loop has ended. -/
theorem dump_logged_iff (passes : ℕ) (s : DeviceSettings) (m : MiniUrb) (buf : Bytes)
    (rest : List Char) (hfit : (dumpText buf (dumpUrb passes s m buf)).length < uStrLen) :
    (∀ printf, IsPrintf printf →
      (dumpUrbToPrintk passes s m buf rest).1.flatMap printf
        = dumpText buf (dumpUrb passes s m buf) ∧
        (dumpUrbToPrintk passes s m buf rest).2
          = dumpText buf (dumpUrb passes s m buf) ++ nul :: rest) ↔
      ∀ off ∈ stringOffsets m buf, buf off ≠ 0x25 := by
  obtain ⟨hflat, hbuffer⟩ := dumpUrbToPrintk_spec passes s m buf rest hfit
  have hprint := flatMap_printf_eq_iff (dumpUrbToPrintk passes s m buf rest).1
  rw [hflat, (dumpUrb_plainBut passes s m buf).percent_mem_iff] at hprint
  simp only [hbuffer, and_true, hprint, not_exists, not_and]

/-- The answer to a `GET_DESCRIPTOR` for string 1. -/
def stringAnswer (actualLength : ℕ) : MiniUrb where
  uUrbNumber := 1
  devnum := 1
  pipe := ⟨.ctrl, 1, 0, false, false⟩
  transferBufferLength := 255
  actualLength := actualLength
  setupPacket i := [0x80, 6, 1, 3].getD i 0

/-- The string `%%`. -/
def percentString : Bytes := fun i => [6, 3, 0x25, 0, 0x25, 0].getD i 0

theorem percentString_fits :
    (dumpText percentString (dumpUrb 0 ⟨0, 0⟩ (stringAnswer 6) percentString)).length
      < uStrLen := by
  decide +kernel

/-- The string `%%` is logged with one percent sign. -/
theorem dump_not_logged : ¬ ∀ (passes : ℕ) (s : DeviceSettings) (m : MiniUrb) (buf : Bytes)
    (rest : List Char), (dumpText buf (dumpUrb passes s m buf)).length < uStrLen →
      ∀ printf, IsPrintf printf →
        (dumpUrbToPrintk passes s m buf rest).1.flatMap printf
            = dumpText buf (dumpUrb passes s m buf) ∧
          (dumpUrbToPrintk passes s m buf rest).2
            = dumpText buf (dumpUrb passes s m buf) ++ nul :: rest := by
  intro hlog
  have hfit := percentString_fits
  have hflat := (dumpUrbToPrintk_spec 0 ⟨0, 0⟩ (stringAnswer 6) percentString [] hfit).1
  have hprint := (flatMap_printf_eq_iff _).mp fun printf hprintf =>
    (hlog 0 ⟨0, 0⟩ (stringAnswer 6) percentString [] hfit printf hprintf).1.trans hflat.symm
  rw [hflat, (dumpUrb_plainBut _ _ _ _).percent_mem_iff] at hprint
  exact hprint ⟨2, by decide, by decide⟩

/-- The condition of `dump_logged_iff` for the string `%%`. -/
theorem dump_logged_iff_percentString :
    (∀ printf, IsPrintf printf →
      (dumpUrbToPrintk 0 ⟨0, 0⟩ (stringAnswer 6) percentString []).1.flatMap printf
          = dumpText percentString (dumpUrb 0 ⟨0, 0⟩ (stringAnswer 6) percentString) ∧
        (dumpUrbToPrintk 0 ⟨0, 0⟩ (stringAnswer 6) percentString []).2
          = dumpText percentString (dumpUrb 0 ⟨0, 0⟩ (stringAnswer 6) percentString)
            ++ nul :: []) ↔
      ∀ off ∈ stringOffsets (stringAnswer 6) percentString, percentString off ≠ 0x25 :=
  dump_logged_iff 0 ⟨0, 0⟩ (stringAnswer 6) percentString [] percentString_fits
