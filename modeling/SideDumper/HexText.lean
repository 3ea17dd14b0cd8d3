import Mathlib.Data.List.Basic
import Mathlib.Data.Nat.Notation

/-!
# Bytes as lines of hex pairs

A line is some text in front, `" [ "`, the bytes with two digits and a blank
each, and `"]"`. `readHexLines` reads such lines without knowing the text in
front of them: it splits the text at the line ends and looks for the first
`'['` of a line. It reads back what was written as long as the text in front
has neither of the two characters.
-/

/-- The two digits of a byte. -/
def hexPair (c : UInt8) : List Char :=
  [Nat.digitChar (c.toNat / 16), Nat.digitChar (c.toNat % 16)]

/-- The bytes, each with a blank behind it. -/
def hexPairs (bytes : List UInt8) : List Char := bytes.flatMap (fun c => hexPair c ++ [' '])

/-- **A line**, without its end. -/
def hexLine (front : List Char) (bytes : List UInt8) : List Char :=
  front ++ [' ', '[', ' '] ++ hexPairs bytes ++ [']']

/-- Lines with their ends. -/
def hexLines (front : List Char) (lines : List (List UInt8)) : List Char :=
  lines.flatMap (fun l => hexLine front l ++ ['\n'])

/-- The value of a digit. -/
def readDigit (c : Char) : Option ℕ := "0123456789abcdef".toList.idxOf? c

/-- Reads bytes up to the bracket that ends a line. -/
def readPairs : List Char → Option (List UInt8)
  | [] => none
  | [c] => if c = ']' then some [] else none
  | [_, _] => none
  | c :: d :: e :: rest =>
    if e = ' ' then do
      let high ← readDigit c
      let low ← readDigit d
      let bytes ← readPairs rest
      return UInt8.ofNat (16 * high + low) :: bytes
    else none

/-- Reads a line. -/
def readHexLine (line : List Char) : Option (List UInt8) :=
  match line.dropWhile (· ≠ '[') with
  | _ :: ' ' :: rest => readPairs rest
  | _ => none

/-- **Reads lines.** Nothing may stand behind the last line end. -/
def readHexLines (text : List Char) : Option (List UInt8) :=
  match (text.splitOn '\n').getLast? with
  | some [] => ((text.splitOn '\n').dropLast.mapM readHexLine).map List.flatten
  | _ => none

theorem readDigit_digitChar {n : ℕ} (hn : n < 16) : readDigit (Nat.digitChar n) = some n := by
  have hall : ∀ m < 16, readDigit (Nat.digitChar m) = some m := by decide
  exact hall n hn

theorem hexPair_eq (c : UInt8) :
    ∃ high low, hexPair c = [Nat.digitChar high, Nat.digitChar low] ∧ high < 16 ∧ low < 16 ∧
      UInt8.ofNat (16 * high + low) = c := by
  have hc : c.toNat < 256 := c.toNat_lt_size
  refine ⟨c.toNat / 16, c.toNat % 16, rfl, by omega, Nat.mod_lt _ (by decide), ?_⟩
  rw [Nat.div_add_mod, UInt8.ofNat_toNat]

theorem hexPairs_cons (c : UInt8) (bytes : List UInt8) :
    hexPairs (c :: bytes) = hexPair c ++ ' ' :: hexPairs bytes := by
  unfold hexPairs
  rw [List.flatMap_cons, List.append_assoc]
  rfl

theorem hexPairs_append (xs ys : List UInt8) : hexPairs (xs ++ ys) = hexPairs xs ++ hexPairs ys :=
  List.flatMap_append

theorem hexPairs_length (bytes : List UInt8) : (hexPairs bytes).length = 3 * bytes.length := by
  induction bytes with
  | nil => rfl
  | cons c bytes ih =>
    rw [hexPairs_cons, List.length_append, List.length_cons, ih, List.length_cons]
    simp only [hexPair, List.length_cons, List.length_nil]
    omega

/-- What was written up to the bracket is read. -/
theorem readPairs_hexPairs (bytes : List UInt8) :
    readPairs (hexPairs bytes ++ [']']) = some bytes := by
  induction bytes with
  | nil => rfl
  | cons c bytes ih =>
    obtain ⟨high, low, hpair, hhigh, hlow, hbyte⟩ := hexPair_eq c
    rw [hexPairs_cons, hpair]
    show readPairs (Nat.digitChar high :: Nat.digitChar low :: ' ' :: (hexPairs bytes ++ [']']))
      = some (c :: bytes)
    rw [readPairs, if_pos rfl, readDigit_digitChar hhigh, readDigit_digitChar hlow, ih, ← hbyte]
    rfl

/-- A line is read whatever stands in front, a bracket apart. -/
theorem readHexLine_hexLine {front : List Char} (hfront : '[' ∉ front) (bytes : List UInt8) :
    readHexLine (hexLine front bytes) = some bytes := by
  have hdrop : (hexLine front bytes).dropWhile (· ≠ '[')
      = '[' :: ' ' :: (hexPairs bytes ++ [']']) := by
    have hskip : ∀ c ∈ front ++ [' '], decide (c ≠ '[') = true := by
      intro c hc
      rcases List.mem_append.mp hc with hc | hc
      · exact decide_eq_true fun h => hfront (h ▸ hc)
      · rw [List.mem_singleton.mp hc]
        decide
    have hline : hexLine front bytes
        = (front ++ [' ']) ++ ('[' :: ' ' :: (hexPairs bytes ++ [']'])) := by
      simp [hexLine]
    rw [hline, List.dropWhile_append_of_pos hskip, List.dropWhile_cons_of_neg (by decide)]
  unfold readHexLine
  rw [hdrop]
  exact readPairs_hexPairs bytes

theorem newline_not_mem_digitChar {n : ℕ} (hn : n < 16) : Nat.digitChar n ≠ '\n' := by
  have hall : ∀ m < 16, Nat.digitChar m ≠ '\n' := by decide
  exact hall n hn

theorem newline_not_mem_hexLine {front : List Char} (hfront : '\n' ∉ front) (bytes : List UInt8) :
    '\n' ∉ hexLine front bytes := by
  have hpairs : '\n' ∉ hexPairs bytes := by
    intro hmem
    obtain ⟨c, -, hc⟩ := List.mem_flatMap.mp hmem
    obtain ⟨high, low, hpair, hhigh, hlow, -⟩ := hexPair_eq c
    rw [hpair] at hc
    have hh := newline_not_mem_digitChar hhigh
    have hl := newline_not_mem_digitChar hlow
    simp [Ne.symm hh, Ne.symm hl] at hc
  simp [hexLine, hfront, hpairs]

theorem splitOn_hexLines {front : List Char} (hfront : '\n' ∉ front) (lines : List (List UInt8)) :
    (hexLines front lines).splitOn '\n' = lines.map (hexLine front) ++ [[]] := by
  induction lines with
  | nil => rfl
  | cons l lines ih =>
    have hcons : hexLines front (l :: lines)
        = hexLine front l ++ '\n' :: hexLines front lines := by
      simp [hexLines]
    rw [hcons, List.splitOn_append_cons_self_of_not_mem (newline_not_mem_hexLine hfront l), ih]
    rfl

/-- **Lines are read back.** -/
theorem readHexLines_hexLines {front : List Char} (hbracket : '[' ∉ front)
    (hnewline : '\n' ∉ front)
    (lines : List (List UInt8)) : readHexLines (hexLines front lines) = some lines.flatten := by
  have hlines : (lines.map (hexLine front)).mapM readHexLine = some lines := by
    induction lines with
    | nil => rfl
    | cons l lines ih =>
      rw [List.map_cons, List.mapM_cons, readHexLine_hexLine hbracket, ih]
      rfl
  unfold readHexLines
  rw [splitOn_hexLines hnewline, List.getLast?_concat, List.dropLast_concat]
  show ((lines.map (hexLine front)).mapM readHexLine).map List.flatten = some lines.flatten
  rw [hlines]
  rfl

/-- How long the lines are. -/
theorem hexLines_length (front : List Char) (lines : List (List UInt8)) :
    (hexLines front lines).length
      = (front.length + 5) * lines.length + 3 * lines.flatten.length := by
  induction lines with
  | nil => rfl
  | cons l lines ih =>
    have hcons : hexLines front (l :: lines)
        = hexLine front l ++ '\n' :: hexLines front lines := by
      simp [hexLines]
    rw [hcons, List.length_append, List.length_cons, ih, List.flatten_cons, List.length_append,
      List.length_cons, Nat.mul_succ]
    simp only [hexLine, List.length_append, List.length_cons, List.length_nil, hexPairs_length]
    omega
