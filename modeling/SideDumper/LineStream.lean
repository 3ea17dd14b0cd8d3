import SideDumper.HexText
import Mathlib.Data.Nat.Init

/-!
# Streams of records that are made of lines

A writer prints one record after the other. A record begins with a line of its
own kind, its head, and the lines behind it either belong to its body or say
nothing. The reader knows no lengths and no ends of records: it splits the
text at the line ends, looks at each line alone, and begins a new record at
every head.

What is needed for reading back is that each line is recognized for what it
is (`Shows`). Then any number of records that are printed one behind the other
are read back (`readStream_flatMap`).
-/

/-- **What a line is.** -/
inductive StreamLine (η β : Type*)
  | head (h : η)
  | body (b : β)
  | skip

namespace StreamLine

variable {η β : Type*}

/-- The body of the record that the lines begin in, and the records whose
heads are among them. -/
def collect : List (StreamLine η β) → List β × List (η × List β)
  | [] => ([], [])
  | .head h :: ls => ([], (h, (collect ls).1) :: (collect ls).2)
  | .body b :: ls => (b :: (collect ls).1, (collect ls).2)
  | .skip :: ls => collect ls

/-- The bodies among lines. -/
def bodies : List (StreamLine η β) → List β
  | [] => []
  | .body b :: ls => b :: bodies ls
  | .head _ :: ls | .skip :: ls => bodies ls

/-- No record begins here. -/
def Headless (ls : List (StreamLine η β)) : Prop := ∀ h, StreamLine.head h ∉ ls

theorem bodies_append (xs ys : List (StreamLine η β)) :
    bodies (xs ++ ys) = bodies xs ++ bodies ys := by
  induction xs with
  | nil => rfl
  | cons x xs ih =>
    rw [List.cons_append]
    cases x with
    | body b => rw [bodies, bodies, ih, List.cons_append]
    | head h => rw [bodies, bodies, ih]
    | skip => rw [bodies, bodies, ih]

theorem bodies_map_body (bs : List β) : bodies (bs.map .body : List (StreamLine η β)) = bs := by
  induction bs with
  | nil => rfl
  | cons b bs ih => rw [List.map_cons, bodies, ih]

/-- Lines that say nothing have no body. -/
theorem bodies_of_skip {ls : List (StreamLine η β)} (h : ∀ l ∈ ls, l = .skip) :
    bodies ls = [] := by
  rw [List.eq_replicate_of_mem h]
  induction ls.length with
  | zero => rfl
  | succ n ih => rw [List.replicate_succ, bodies, ih]

theorem Headless.append {xs ys : List (StreamLine η β)} (hxs : Headless xs) (hys : Headless ys) :
    Headless (xs ++ ys) :=
  fun h hmem => (List.mem_append.mp hmem).elim (hxs h) (hys h)

theorem headless_map_body (bs : List β) : Headless (bs.map .body : List (StreamLine η β)) := by
  intro h hmem
  obtain ⟨b, -, hb⟩ := List.mem_map.mp hmem
  cases hb

theorem headless_of_skip {ls : List (StreamLine η β)} (h : ∀ l ∈ ls, l = .skip) :
    Headless ls := by
  intro x hmem
  cases h _ hmem

/-- Lines without a head belong to the record in front of them. -/
theorem collect_append {xs : List (StreamLine η β)} (hxs : Headless xs)
    (ys : List (StreamLine η β)) :
    collect (xs ++ ys) = (bodies xs ++ (collect ys).1, (collect ys).2) := by
  induction xs with
  | nil => rfl
  | cons x xs ih =>
    have htail := ih fun h hmem => hxs h (List.mem_cons_of_mem x hmem)
    rw [List.cons_append]
    cases x with
    | head h => exact absurd List.mem_cons_self (hxs h)
    | body b => rw [collect, htail, bodies, List.cons_append]
    | skip => rw [collect, htail, bodies]

end StreamLine

section Reader

open StreamLine

variable {η β ρ γ : Type*}

/-- **Reads a stream**: `classify` says what a line is, or that it is none. No
body may stand in front of the first head, and nothing behind the last line
end. -/
def readStream (classify : List Char → Option (StreamLine η β)) (text : List Char) :
    Option (List (η × List β)) :=
  match (text.splitOn '\n').getLast?, (text.splitOn '\n').dropLast.mapM classify with
  | some [], some ls =>
    match collect ls with
    | ([], rs) => some rs
    | _ => none
  | _, _ => none

/-- **A text shows lines**: each ends with a newline and is recognized. -/
inductive Shows (classify : List Char → Option (StreamLine η β)) : List Char →
    List (StreamLine η β) → Prop
  | nil : Shows classify [] []
  | cons {l t : List Char} {x : StreamLine η β} {xs : List (StreamLine η β)} (hl : '\n' ∉ l)
      (hx : classify l = some x) (ht : Shows classify t xs) :
        Shows classify (l ++ '\n' :: t) (x :: xs)

variable {classify : List Char → Option (StreamLine η β)} {s t l : List Char}
    {xs ys : List (StreamLine η β)}
  {x : StreamLine η β}

theorem Shows.append (hs : Shows classify s xs) (ht : Shows classify t ys) :
    Shows classify (s ++ t) (xs ++ ys) := by
  induction hs with
  | nil => exact ht
  | @cons l t' x xs hl hx _ ih =>
    rw [List.append_assoc, List.cons_append, List.cons_append]
    exact .cons hl hx ih

theorem Shows.line (hl : '\n' ∉ l) (hx : classify l = some x) :
    Shows classify (l ++ ['\n']) [x] :=
  .cons hl hx .nil

/-- The lines are found. -/
theorem Shows.splitOn (h : Shows classify t xs) :
    ∃ ls, t.splitOn '\n' = ls ++ [[]] ∧ ls.mapM classify = some xs := by
  induction h with
  | nil => exact ⟨[], rfl, rfl⟩
  | @cons l t x xs hl hx _ ih =>
    obtain ⟨ls, hsplit, hls⟩ := ih
    refine ⟨l :: ls, ?_, ?_⟩
    · rw [List.splitOn_append_cons_self_of_not_mem hl, hsplit, List.cons_append]
    · rw [List.mapM_cons, hx, hls]
      rfl

/-- Lines that are written with their ends are found again. -/
theorem splitOn_flatMap_lines {α : Type*} (line : α → List Char) {as : List α}
    (h : ∀ a ∈ as, '\n' ∉ line a) :
    (as.flatMap fun a => line a ++ ['\n']).splitOn '\n' = as.map line ++ [[]] := by
  induction as with
  | nil => rfl
  | cons a as ih =>
    rw [List.forall_mem_cons] at h
    rw [List.flatMap_cons, List.append_assoc, List.singleton_append,
      List.splitOn_append_cons_self_of_not_mem h.1, ih h.2, List.map_cons, List.cons_append]

/-- **Records that are printed one behind the other are read back**, when a
record shows a head and behind it lines from which it is put together again. -/
theorem readStream_flatMap (print : ρ → List Char) (assemble : η → List β → γ) (f : ρ → γ)
    (hprint : ∀ r, ∃ h xs, Headless xs ∧ assemble h (bodies xs) = f r ∧
      Shows classify (print r) (.head h :: xs))
    (rs : List ρ) :
    (readStream classify (rs.flatMap print)).map (List.map fun r => assemble r.1 r.2)
      = some (rs.map f) := by
  have hshows : ∃ xs rs', Shows classify (rs.flatMap print) xs ∧ collect xs = ([], rs') ∧
      rs'.map (fun r => assemble r.1 r.2) = rs.map f := by
    induction rs with
    | nil => exact ⟨[], [], .nil, rfl, rfl⟩
    | cons r rs ih =>
      obtain ⟨xs, rs', hxs, hcollect, hrs⟩ := ih
      obtain ⟨h, zs, hheadless, hf, hr⟩ := hprint r
      refine ⟨(.head h :: zs) ++ xs, (h, bodies zs) :: rs', List.flatMap_cons ▸ hr.append hxs, ?_,
        ?_⟩
      · rw [List.cons_append, collect, collect_append hheadless, hcollect, List.append_nil]
      · rw [List.map_cons, List.map_cons, hf, hrs]
  obtain ⟨xs, rs', hxs, hcollect, hrs⟩ := hshows
  obtain ⟨ls, hsplit, hls⟩ := hxs.splitOn
  unfold readStream
  rw [hsplit, List.getLast?_concat, List.dropLast_concat, hls]
  dsimp only
  rw [hcollect]
  exact congrArg some hrs

end Reader

/-! ## Reading a line -/

/-- Reads the text `p`. -/
def expect : List Char → List Char → Option (List Char)
  | [], cs => some cs
  | _ :: _, [] => none
  | p :: ps, c :: cs => if p = c then expect ps cs else none

theorem expect_append (p cs : List Char) : expect p (p ++ cs) = some cs := by
  induction p with
  | nil => rfl
  | cons p ps ih => rw [List.cons_append, expect, if_pos rfl, ih]

/-- A digit of a base. -/
def isDigitOf (b : ℕ) (c : Char) : Bool := (readDigit c).any (· < b)

/-- Reads digits as a number, as many as there are. -/
def readNum (b : ℕ) (cs : List Char) : ℕ × List Char :=
  ((cs.takeWhile (isDigitOf b)).foldl (fun v c => b * v + (readDigit c).getD 0) 0,
    cs.dropWhile (isDigitOf b))

section Digits

variable {b n : ℕ} {d : Char} {r : List Char}

theorem isDigitOf_digitChar (hb : b ≤ 16) (hn : n < b) :
    isDigitOf b (Nat.digitChar n) = true := by
  rw [isDigitOf, readDigit_digitChar (Nat.lt_of_lt_of_le hn hb), Option.any_some,
    decide_eq_true hn]

theorem isDigitOf_toDigits (hb : 1 < b) (hb' : b ≤ 16) (n : ℕ) :
    ∀ c ∈ Nat.toDigits b n, isDigitOf b c = true := by
  induction n using Nat.strong_induction_on with
  | _ n ih =>
    intro c hc
    rw [Nat.toDigits_eq_if hb] at hc
    split at hc
    · rw [List.mem_singleton.mp hc]
      exact isDigitOf_digitChar hb' ‹_›
    · have hlt : n / b < n := Nat.div_lt_self (by omega) hb
      rcases List.mem_append.mp hc with hc | hc
      · exact ih _ hlt c hc
      · rw [List.mem_singleton.mp hc]
        exact isDigitOf_digitChar hb' (Nat.mod_lt _ (by omega))

/-- The digits of a number have its value. -/
theorem foldl_toDigits (hb : 1 < b) (hb' : b ≤ 16) (n : ℕ) :
    (Nat.toDigits b n).foldl (fun v c => b * v + (readDigit c).getD 0) 0 = n := by
  induction n using Nat.strong_induction_on with
  | _ n ih =>
    rw [Nat.toDigits_eq_if hb]
    split
    · rename_i hlt
      rw [List.foldl_cons, List.foldl_nil, readDigit_digitChar (Nat.lt_of_lt_of_le hlt hb'),
        Option.getD_some]
      omega
    · have hlt : n / b < n := Nat.div_lt_self (by omega) hb
      rw [List.foldl_append, ih _ hlt, List.foldl_cons, List.foldl_nil,
        readDigit_digitChar (Nat.lt_of_lt_of_le (Nat.mod_lt _ (by omega)) hb'), Option.getD_some,
          Nat.div_add_mod]

/-- Zeros in front do not matter. -/
theorem foldl_zeros (b k : ℕ) :
    (List.replicate k '0').foldl (fun v c => b * v + (readDigit c).getD 0) 0 = 0 := by
  induction k with
  | zero => rfl
  | succ k ih =>
    rw [List.replicate_succ, List.foldl_cons]
    exact ih

/-- **A number is read back**, with any number of zeros in front, up to the first
character that is no digit. -/
theorem readNum_toDigits (hb : 1 < b) (hb' : b ≤ 16) (hd : isDigitOf b d = false) (k n : ℕ) :
    readNum b (List.replicate k '0' ++ Nat.toDigits b n ++ d :: r) = (n, d :: r) := by
  have hall : ∀ c ∈ List.replicate k '0' ++ Nat.toDigits b n, isDigitOf b c = true := by
    intro c hc
    rcases List.mem_append.mp hc with hc | hc
    · rw [List.eq_of_mem_replicate hc]
      exact isDigitOf_digitChar hb' (by omega : 0 < b)
    · exact isDigitOf_toDigits hb hb' n c hc
  have hnot : ¬ isDigitOf b d = true := by rw [hd]; exact Bool.false_ne_true
  rw [readNum, List.takeWhile_append_of_pos hall, List.dropWhile_append_of_pos hall,
    List.takeWhile_cons_of_neg hnot,
    List.dropWhile_cons_of_neg hnot, List.append_nil, List.foldl_append, foldl_zeros,
      foldl_toDigits hb hb']

end Digits
