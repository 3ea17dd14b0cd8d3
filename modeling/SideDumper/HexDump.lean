import SideDumper.DumpSize
import SideDumper.HexText

/-!
# Reading the transfer buffer dump back

`DumpTB` builds the header of its lines in `szTbHeader` and hands it to
`DumpRawBuf`, which breaks the line before every byte whose index is a
multiple of 256, the first one apart. Here both are as the source has them:
they write through `pszOut`, a pointer of 32 bits, and return how far it went.

The loop keeps two things apart: the lines that have ended, with 256 bytes
each, and the one that is open, which has a byte from the first pass on. That
is why a dump of a multiple of 256 bytes does not end with an empty line.
-/

/-- **What is written to**: the text so far, and the address behind it. -/
structure OutBuf where
  written : List Char
  pszOut : ℕ
deriving DecidableEq

/-- `pszOut += sprintf(pszOut, ..)`. -/
def OutBuf.sprintf (o : OutBuf) (text : List Char) : OutBuf :=
  ⟨o.written ++ text, (o.pszOut + text.length) % 0x100000000⟩

/-- The loop of `DumpRawBuf` with some passes left, up to `uBytes`. -/
def rawBufLoop (pszHeader : List Char) (buf : Bytes) (uBytes : ℕ) : ℕ → OutBuf → OutBuf
  | 0, o => o
  | left + 1, o =>
    let i := uBytes - (left + 1)
    let o' :=
      if i % 256 = 0 ∧ i ≠ 0 then o.sprintf ("]\n".toList ++ pszHeader ++ " [ ".toList) else o
    rawBufLoop pszHeader buf uBytes left
      (o'.sprintf ((Item.hex 2 (.field i 1)).text buf ++ " ".toList))

/-- `DumpRawBuf`, with what it returns. -/
def rawBufInto (pszHeader : List Char) (buf : Bytes) (uBytes : ℕ) (o : OutBuf) : ℕ × OutBuf :=
  if uBytes = 0 then (0, o)
  else
    let o' := (rawBufLoop pszHeader buf uBytes uBytes
      (o.sprintf (pszHeader ++ " [ ".toList))).sprintf "]\n".toList
    ((o'.pszOut + 0x100000000 - o.pszOut) % 0x100000000, o')

/-- `szTbHeader`, unless the header does not fit with the zero at its end. -/
def szTbHeader (pszHeader : List Char) : Option (List Char) :=
  let header := pszHeader ++ "  tb =".toList
  if header.length + 1 ≤ 64 then some header else none

/-- `DumpTB`, with what it returns. -/
def tbInto (s : DeviceSettings) (pszHeader : List Char) (m : MiniUrb) (buf : Bytes) (o : OutBuf) :
    Option (ℕ × OutBuf) :=
  if uTbLen s m = 0 then some (0, o)
  else (szTbHeader pszHeader).map (fun header => rawBufInto header buf (uTbLen s m) o)

/-- The bytes of the copy that are dumped. -/
def dumpedBytes (buf : Bytes) (n : ℕ) : List UInt8 := (List.range n).map buf

/-! ## The lines -/

/-- **The lines of a dump**: all have ended with 256 bytes except the last,
which has at least one. -/
structure RawLines (buf : Bytes) (i : ℕ) (ended : List (List UInt8)) (last : List UInt8) :
    Prop where
  full : ∀ l ∈ ended, l.length = 256
  last_ne : last ≠ []
  last_le : last.length ≤ 256
  bytes : ended.flatten ++ last = dumpedBytes buf i

namespace RawLines

variable {buf : Bytes} {i : ℕ} {ended : List (List UInt8)} {last : List UInt8}

theorem length_flatten_of_full (hfull : ∀ l ∈ ended, l.length = 256) :
    ended.flatten.length = 256 * ended.length := by
  induction ended with
  | nil => rfl
  | cons l ended ih =>
    rw [List.flatten_cons, List.length_append, hfull l List.mem_cons_self,
      ih (fun l' hl' => hfull l' (List.mem_cons_of_mem l hl')), List.length_cons]
    omega

theorem length_eq (h : RawLines buf i ended last) : 256 * ended.length + last.length = i := by
  have hflat := length_flatten_of_full h.full
  have hlen := congrArg List.length h.bytes
  rw [List.length_append, hflat, dumpedBytes, List.length_map, List.length_range] at hlen
  exact hlen

/-- The line is full exactly when the next byte is the first of a line. -/
theorem last_full_iff (h : RawLines buf i ended last) : last.length = 256 ↔ i % 256 = 0 := by
  have hlen := h.length_eq
  have hpos := List.length_pos_iff.mpr h.last_ne
  have hle := h.last_le
  omega

theorem dumpedBytes_succ (buf : Bytes) (i : ℕ) :
    dumpedBytes buf (i + 1) = dumpedBytes buf i ++ [buf i] := by
  unfold dumpedBytes
  rw [List.range_succ, List.map_append]
  rfl

/-- The first byte. -/
theorem one (buf : Bytes) : RawLines buf 1 [] [buf 0] where
  full := fun _ h => absurd h List.not_mem_nil
  last_ne := List.cons_ne_nil _ _
  last_le := Nat.succ_le_of_lt (by decide : 0 < 256)
  bytes := rfl

/-- The next byte stands in a line of its own. -/
theorem break_line (h : RawLines buf i ended last) (hi : i % 256 = 0) :
    RawLines buf (i + 1) (ended ++ [last]) [buf i] where
  full := by
    intro l hl
    rcases List.mem_append.mp hl with hl | hl
    · exact h.full l hl
    · rw [List.mem_singleton.mp hl]
      exact h.last_full_iff.mpr hi
  last_ne := List.cons_ne_nil _ _
  last_le := Nat.succ_le_of_lt (by decide : 0 < 256)
  bytes := by
    rw [List.flatten_append, dumpedBytes_succ, ← h.bytes]
    simp

/-- The next byte stands in the same line. -/
theorem same_line (h : RawLines buf i ended last) (hi : i % 256 ≠ 0) :
    RawLines buf (i + 1) ended (last ++ [buf i]) where
  full := h.full
  last_ne := List.append_ne_nil_of_right_ne_nil _ (List.cons_ne_nil _ _)
  last_le := by
    have hne := mt h.last_full_iff.mp hi
    have hle := h.last_le
    rw [List.length_append, List.length_singleton]
    omega
  bytes := by
    rw [dumpedBytes_succ, ← h.bytes, List.append_assoc]

/-- How many lines there are. -/
theorem lines_length (h : RawLines buf i ended last) :
    (ended ++ [last]).length = (i + 255) / 256 := by
  have hlen := h.length_eq
  have hpos := List.length_pos_iff.mpr h.last_ne
  have hle := h.last_le
  rw [List.length_append, List.length_singleton]
  omega

end RawLines

/-! ## The loop -/

namespace OutBuf

theorem sprintf_sprintf (o : OutBuf) (a b : List Char) :
    (o.sprintf a).sprintf b = o.sprintf (a ++ b) := by
  unfold sprintf
  rw [List.append_assoc, List.length_append, Nat.mod_add_mod, Nat.add_assoc]

/-- With room behind it the pointer goes as far as was written. -/
theorem sprintf_count (o : OutBuf) (text : List Char)
    (hroom : o.pszOut + text.length < 0x100000000) :
    ((o.sprintf text).pszOut + 0x100000000 - o.pszOut) % 0x100000000 = text.length := by
  show ((o.pszOut + text.length) % 0x100000000 + 0x100000000 - o.pszOut) % 0x100000000
    = text.length
  rw [Nat.mod_eq_of_lt hroom]
  omega

end OutBuf

variable {buf : Bytes} {hdr : List Char} {n : ℕ}

theorem hex_text_eq_hexPair (buf : Bytes) (i : ℕ) :
    (Item.hex 2 (.field i 1)).text buf = hexPair (buf i) := by
  have hlt : (buf i).toNat < 256 := (buf i).toNat_lt_size
  have hvalue : (Val.field i 1).value buf = (buf i).toNat := rfl
  rw [Item.text, hvalue, hexPair, Nat.toDigits_eq_if (by decide)]
  split
  · rename_i hsmall
    rw [Nat.div_eq_of_lt hsmall, Nat.mod_eq_of_lt hsmall]
    rfl
  · rw [Nat.toDigits_of_lt_base (by omega)]
    rfl

/-- The lines that have ended and the open one. -/
def openLines (hdr : List Char) (ended : List (List UInt8)) (last : List UInt8) : List Char :=
  hexLines hdr ended ++ (hdr ++ [' ', '[', ' '] ++ hexPairs last)

theorem openLines_append_byte (ended : List (List UInt8)) (last : List UInt8) (c : UInt8) :
    openLines hdr ended last ++ (hexPair c ++ [' ']) = openLines hdr ended (last ++ [c]) := by
  have hlast : hexPairs [c] = hexPair c ++ [' '] := hexPairs_cons c []
  simp only [openLines, hexPairs_append, hlast, List.append_assoc]

theorem openLines_append_end (ended : List (List UInt8)) (last : List UInt8) :
    openLines hdr ended last ++ "]\n".toList = hexLines hdr (ended ++ [last]) := by
  simp [openLines, hexLines, hexLine]

theorem openLines_append_break (ended : List (List UInt8)) (last : List UInt8) :
    openLines hdr ended last ++ ("]\n".toList ++ hdr ++ " [ ".toList)
      = openLines hdr (ended ++ [last]) [] := by
  rw [List.append_assoc "]\n".toList, ← List.append_assoc (openLines hdr ended last),
    openLines_append_end]
  simp [openLines, hexPairs]

/-- **One pass, and then the loop**: whatever lines are there, `left` more
passes lead to lines with all the bytes. -/
theorem rawBufLoop_spec (hdr : List Char) (o : OutBuf) (left : ℕ) {i : ℕ}
    {ended : List (List UInt8)}
    {last : List UInt8} (h : RawLines buf i ended last) (hpos : 0 < i) (hleft : i + left = n) :
    ∃ ended' last', RawLines buf n ended' last' ∧
      rawBufLoop hdr buf n left (o.sprintf (openLines hdr ended last))
        = o.sprintf (openLines hdr ended' last') := by
  induction left generalizing i ended last with
  | zero =>
    obtain rfl : i = n := hleft
    exact ⟨ended, last, h, rfl⟩
  | succ left ih =>
    have hi : n - (left + 1) = i := by omega
    unfold rawBufLoop
    simp only [hi, hex_text_eq_hexPair, ne_eq, Nat.pos_iff_ne_zero.mp hpos,
      not_false_eq_true, and_true]
    by_cases hline : i % 256 = 0
    · obtain ⟨ended', last', hlines, hloop⟩ := ih (h.break_line hline) (Nat.succ_pos i) (by omega)
      refine ⟨ended', last', hlines, ?_⟩
      rw [if_pos hline, OutBuf.sprintf_sprintf, OutBuf.sprintf_sprintf,
        ← List.append_assoc (openLines hdr ended last), openLines_append_break]
      show rawBufLoop hdr buf n left
        (o.sprintf (openLines hdr (ended ++ [last]) [] ++ (hexPair (buf i) ++ [' ']))) = _
      rw [openLines_append_byte]
      exact hloop
    · obtain ⟨ended', last', hlines, hloop⟩ := ih (h.same_line hline) (Nat.succ_pos i) (by omega)
      refine ⟨ended', last', hlines, ?_⟩
      rw [if_neg hline, OutBuf.sprintf_sprintf]
      show rawBufLoop hdr buf n left
        (o.sprintf (openLines hdr ended last ++ (hexPair (buf i) ++ [' ']))) = _
      rw [openLines_append_byte]
      exact hloop

/-- The text of one byte of a dump, with the line break in front of it. -/
def rawBufByte (header : List Item) (i : ℕ) : List Item :=
  (if i % 256 = 0 ∧ i ≠ 0 then [Item.lit "]\n"] ++ header ++ [Item.lit " [ "] else [])
    ++ [Item.hex 2 (.field i 1), Item.lit " "]

/-- A pass writes the text of its byte. -/
theorem rawBufLoop_succ {header : List Item} (hheader : dumpText buf header = hdr) (o : OutBuf)
    (left : ℕ) :
    rawBufLoop hdr buf n (left + 1) o
      = rawBufLoop hdr buf n left
        (o.sprintf (dumpText buf (rawBufByte header (n - (left + 1))))) := by
  have hbyte : ∀ i, dumpText buf [Item.hex 2 (.field i 1), Item.lit " "]
      = (Item.hex 2 (.field i 1)).text buf ++ " ".toList := fun _ => rfl
  have hbreak : dumpText buf ([Item.lit "]\n"] ++ header ++ [Item.lit " [ "])
      = "]\n".toList ++ hdr ++ " [ ".toList := by
    rw [← hheader]
    simp [dumpText, Item.text]
  rw [rawBufLoop, rawBufByte]
  by_cases hline : (n - (left + 1)) % 256 = 0 ∧ n - (left + 1) ≠ 0
  · simp only [if_pos hline, dumpText_append, hbyte, hbreak, OutBuf.sprintf_sprintf]
  · simp only [if_neg hline, List.nil_append, hbyte]

/-- The loop writes the bytes that are left. -/
theorem rawBufLoop_eq_dumpText {header : List Item} (hheader : dumpText buf header = hdr)
    (o : OutBuf)
    (ho : o.pszOut < 0x100000000) (left : ℕ) (hleft : left ≤ n) :
    rawBufLoop hdr buf n left o
      = o.sprintf (dumpText buf ((List.range' (n - left) left).flatMap (rawBufByte header))) := by
  induction left generalizing o with
  | zero =>
    show o = ⟨o.written ++ [], o.pszOut % 0x100000000⟩
    rw [List.append_nil, Nat.mod_eq_of_lt ho]
  | succ left ih =>
    have hrange : List.range' (n - (left + 1)) (left + 1)
        = (n - (left + 1)) :: List.range' (n - left) left := by
      rw [List.range'_succ]
      congr 2
      omega
    rw [hrange, List.flatMap_cons, dumpText_append, ← OutBuf.sprintf_sprintf,
      rawBufLoop_succ hheader, ih _ (Nat.mod_lt _ (by decide)) (Nat.le_of_succ_le hleft)]

/-- **`DumpRawBuf` writes what the dump says.** -/
theorem rawBufInto_written {header : List Item} (hheader : dumpText buf header = hdr) (o : OutBuf)
    (ho : o.pszOut < 0x100000000) (n : ℕ) :
    (rawBufInto hdr buf n o).2 = o.sprintf (dumpText buf (dumpRawBuf header n)) := by
  unfold rawBufInto dumpRawBuf
  split
  · show o = ⟨o.written ++ [], o.pszOut % 0x100000000⟩
    rw [List.append_nil, Nat.mod_eq_of_lt ho]
  · show (rawBufLoop hdr buf n n (o.sprintf (hdr ++ " [ ".toList))).sprintf "]\n".toList = _
    have hrange : List.range' (n - n) n = List.range n := by
      rw [Nat.sub_self, List.range_eq_range']
    have hbytes : (fun i => (if i % 256 = 0 ∧ i ≠ 0 then
        [Item.lit "]\n"] ++ header ++ [Item.lit " [ "] else [])
          ++ [Item.hex 2 (.field i 1), Item.lit " "]) = rawBufByte header := rfl
    rw [rawBufLoop_eq_dumpText hheader _ (Nat.mod_lt _ (by decide)) n (Nat.le_refl n),
      hrange, hbytes, OutBuf.sprintf_sprintf, OutBuf.sprintf_sprintf]
    simp only [dumpText_append, hheader]
    simp [dumpText, Item.text]

/-! ## Reading it back -/

/-- `DumpRawBuf` writes lines, and returns how many characters they have. -/
theorem rawBufInto_lines (buf : Bytes) (hdr : List Char) (hn : n ≠ 0) (o : OutBuf)
    (hroom : o.pszOut + ((hdr.length + 5) * ((n + 255) / 256) + 3 * n) < 0x100000000) :
    ∃ lines : List (List UInt8), (∀ l ∈ lines, l ≠ [] ∧ l.length ≤ 256) ∧
      lines.flatten = dumpedBytes buf n ∧
      (hexLines hdr lines).length = (hdr.length + 5) * ((n + 255) / 256) + 3 * n ∧
      rawBufInto hdr buf n o = ((hexLines hdr lines).length, o.sprintf (hexLines hdr lines)) := by
  obtain ⟨left, rfl⟩ := Nat.exists_eq_succ_of_ne_zero hn
  -- the first pass never breaks the line
  have hfirst : rawBufLoop hdr buf (left + 1) (left + 1) (o.sprintf (hdr ++ " [ ".toList))
      = rawBufLoop hdr buf (left + 1) left (o.sprintf (openLines hdr [] [buf 0])) := by
    rw [rawBufLoop]
    simp only [Nat.sub_self, ne_eq, not_true_eq_false, and_false, if_false, hex_text_eq_hexPair,
      OutBuf.sprintf_sprintf]
    simp [openLines, hexLines, hexPairs]
  obtain ⟨ended, last, hlines, hloop⟩ :=
    rawBufLoop_spec hdr o left (RawLines.one buf) Nat.one_pos (Nat.add_comm 1 left)
  have hbytes : (ended ++ [last]).flatten = dumpedBytes buf (left + 1) := by
    rw [List.flatten_append, List.flatten_singleton, hlines.bytes]
  have hlength : (hexLines hdr (ended ++ [last])).length
      = (hdr.length + 5) * ((left + 1 + 255) / 256) + 3 * (left + 1) := by
    rw [hexLines_length, hlines.lines_length, hbytes, dumpedBytes, List.length_map,
      List.length_range]
  have hcount := OutBuf.sprintf_count o (hexLines hdr (ended ++ [last]))
    (hlength ▸ hroom)
  refine ⟨ended ++ [last], ?_, hbytes, hlength, ?_⟩
  · intro l hl
    rcases List.mem_append.mp hl with hl | hl
    · have hfull := hlines.full l hl
      exact ⟨fun hnil => absurd (hnil ▸ hfull) (by decide), Nat.le_of_eq hfull⟩
    · rw [List.mem_singleton.mp hl]
      exact ⟨hlines.last_ne, hlines.last_le⟩
  · unfold rawBufInto
    rw [if_neg hn]
    simp only [hfirst, hloop, OutBuf.sprintf_sprintf, openLines_append_end, hcount]

/-- The room that the lines of `n` bytes need. -/
def tbRoom (pszHeader : List Char) (n : ℕ) : ℕ :=
  (pszHeader.length + 11) * ((n + 255) / 256) + 3 * n

/-- **A hex dump reads back**: it is made of lines with the header, none of
them empty or with more than 256 bytes, from which the first bytes of the
copy are read, as many as the limit and the length allow; and what is
returned is the number of characters. -/
theorem tb_reads_back (s : DeviceSettings) (pszHeader : List Char) (m : MiniUrb) (buf : Bytes)
    (o : OutBuf) (hheader : ∀ c ∈ pszHeader, c ≠ '[' ∧ c ≠ ']' ∧ c ≠ '\n')
    (hfits : pszHeader.length + 7 ≤ 64)
    (hroom : o.pszOut + tbRoom pszHeader (uTbLen s m) < 0x100000000) :
    ∃ (lines : List (List UInt8)) (text : List Char) (count : ℕ),
      tbInto s pszHeader m buf o = some (count, ⟨o.written ++ text, o.pszOut + count⟩) ∧
      text = hexLines (pszHeader ++ "  tb =".toList) lines ∧
      (∀ l ∈ lines, l ≠ [] ∧ l.length ≤ 256) ∧
      readHexLines text
        = some ((List.range (if m.pipe.out then min s.uOutLimit m.transferBufferLength
        else min s.uInLimit m.actualLength)).map buf) ∧
      count = text.length ∧
      ((if m.pipe.out then min s.uOutLimit m.transferBufferLength
        else min s.uInLimit m.actualLength) = 0 → count = 0) := by
  have hlabel : "  tb =".toList.length = 6 := rfl
  have hbracket : '[' ∉ pszHeader ++ "  tb =".toList := by
    intro hmem
    rcases List.mem_append.mp hmem with hmem | hmem
    · exact (hheader _ hmem).1 rfl
    · exact absurd hmem (by decide)
  have hnewline : '\n' ∉ pszHeader ++ "  tb =".toList := by
    intro hmem
    rcases List.mem_append.mp hmem with hmem | hmem
    · exact (hheader _ hmem).2.2 rfl
    · exact absurd hmem (by decide)
  have hlen : uTbLen s m = if m.pipe.out then min s.uOutLimit m.transferBufferLength
      else min s.uInLimit m.actualLength := rfl
  rw [← hlen]
  unfold tbInto
  by_cases hzero : uTbLen s m = 0
  · refine ⟨[], [], 0, ?_, rfl, fun _ hl => absurd hl List.not_mem_nil, ?_, rfl, fun _ => rfl⟩
    · rw [if_pos hzero, List.append_nil, Nat.add_zero]
    · rw [hzero]
      rfl
  · have hszTb : szTbHeader pszHeader = some (pszHeader ++ "  tb =".toList) := by
      unfold szTbHeader
      simp only [List.length_append, hlabel]
      rw [if_pos hfits]
    have hsize : ((pszHeader ++ "  tb =".toList).length + 5) * ((uTbLen s m + 255) / 256)
        + 3 * uTbLen s m = tbRoom pszHeader (uTbLen s m) := by
      rw [List.length_append, hlabel]
      rfl
    obtain ⟨lines, hsizes, hbytes, hlength, hraw⟩ := rawBufInto_lines buf
      (pszHeader ++ "  tb =".toList) hzero o (hsize ▸ hroom)
    refine ⟨lines, _, _, ?_, rfl, hsizes, ?_, rfl, fun h => absurd h hzero⟩
    · rw [if_neg hzero, hszTb, Option.map_some, hraw, OutBuf.sprintf, Nat.mod_eq_of_lt]
      rw [hlength, hsize]
      exact hroom
    · rw [readHexLines_hexLines hbracket hnewline, hbytes]
      rfl

/-- The dump of two bytes. -/
theorem tb_reads_back_two : ∃ (lines : List (List UInt8)) (text : List Char) (count : ℕ),
    tbInto ⟨8, 8⟩ ['h', 'd', 'r'] ⟨1, 1, ⟨.bulk, 1, 0, true, false⟩, 2, 2, fun _ => 0⟩
      (fun _ => 0x1f) ⟨[], 0⟩
        = some (count, ⟨[] ++ text, 0 + count⟩) ∧
      text = hexLines (['h', 'd', 'r'] ++ "  tb =".toList) lines ∧
      (∀ l ∈ lines, l ≠ [] ∧ l.length ≤ 256) ∧
      readHexLines text = some ((List.range 2).map (fun _ => 0x1f)) ∧
      count = text.length ∧ (2 = 0 → count = 0) :=
  tb_reads_back ⟨8, 8⟩ ['h', 'd', 'r'] ⟨1, 1, ⟨.bulk, 1, 0, true, false⟩, 2, 2, fun _ => 0⟩
    (fun _ => 0x1f) ⟨[], 0⟩ (by simp) (by decide) (by decide)
