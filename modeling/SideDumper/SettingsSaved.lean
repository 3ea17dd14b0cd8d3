import SideDumper.LineStream
import SideDumper.SettingsPrint

/-!
# Settings that are saved and restored

`Read_Enabled` and `Read_Disabled` list the devices from 1 on that are enabled
and those that are not, and `Read_DeviceSettings` prints the settings of one
device, or, for the file `all`, of all of them. What is read can be kept and
written back later: the lists to the files they come from, the settings to the
files of their devices. That restores the settings, whatever they have become
since, as long as the text between the brackets is written and not the line
that was read: behind its `SideDumper` the scanners find nothing.
-/

/-! ## The reads -/

/-- The loop of `Read_Enabled` and `Read_Disabled` from the device `u` on, when
`left` numbers are left below `g_uMaxDevNumber`. -/
def listDevices (listed : TDeviceSettings → Bool) (t : DevSettings) : ℕ → ℕ → List Char
  | 0, _ => []
  | left + 1, u =>
    match getDeviceSettings t u with
    | none => []
    | some s =>
      (if listed s then padZero 2 (Nat.toDigits 10 u) ++ " ".toList else []) ++ listDevices listed
        t left (u + 1)

/-- `Read_Enabled`. -/
def readEnabled (t : DevSettings) : List Char :=
  "SideDumper: enabled devices = [ ".toList ++ listDevices (fun s => s.oEnabled ≠ 0) t 99 1
    ++ "]\n".toList

/-- `Read_Disabled`. -/
def readDisabled (t : DevSettings) : List Char :=
  "SideDumper: disabled devices = [ ".toList ++ listDevices (fun s => s.oEnabled = 0) t 99 1
    ++ "]\n".toList

/-- `g_uDeviceAllNumber`. -/
def uDeviceAllNumber : ℕ := 9999

/-- The loop of `Read_DeviceSettings` for the file `all`. -/
def printAll (t : DevSettings) : ℕ → ℕ → List Char
  | 0, _ => []
  | left + 1, u =>
    if (printSettings t u).length = 0 then [] else printSettings t u ++ printAll t left (u + 1)

/-- `Read_DeviceSettings`. -/
def readDeviceSettings (t : DevSettings) (uDev : ℕ) : List Char :=
  if uDev = uDeviceAllNumber then printAll t 99 1 else printSettings t uDev

section Reads

variable {t : DevSettings} {listed : TDeviceSettings → Bool} {u left : ℕ}

/-- The devices that a list has. -/
def listedDevices (listed : TDeviceSettings → Bool) (t : DevSettings) : List ℕ :=
  (List.range' 1 15).filter fun u => listed (t u)

/-- The loop ends behind the last device that has settings. -/
theorem listDevices_eq (hu : u ≤ 16) (hleft : 16 - u < left) : listDevices listed t left u
    = ((List.range' u (16 - u)).filter fun v => listed (t v)).flatMap
        fun v => padZero 2 (Nat.toDigits 10 v) ++ " ".toList := by
  induction left generalizing u with
  | zero => omega
  | succ left ih =>
    rw [listDevices, getDeviceSettings]
    by_cases hlt : u < 16
    · have hrange : List.range' u (16 - u) = u :: List.range' (u + 1) (16 - (u + 1)) := by
        rw [show 16 - u = 16 - (u + 1) + 1 by omega, List.range'_succ]
      rw [if_pos hlt, hrange, List.filter_cons]
      dsimp only
      rw [ih (by omega) (by omega)]
      split
      · rfl
      · rfl
    · rw [if_neg hlt, show 16 - u = 0 by omega]
      rfl

/-- All devices from 1 on. -/
theorem listDevices_all (listed : TDeviceSettings → Bool) (t : DevSettings) :
    listDevices listed t 99 1
    = (listedDevices listed t).flatMap fun v => padZero 2 (Nat.toDigits 10 v) ++ " ".toList :=
  listDevices_eq (by omega) (by omega)

theorem readEnabled_eq (t : DevSettings) :
    readEnabled t = "SideDumper: enabled devices = [ ".toList
    ++ (listedDevices (fun s => s.oEnabled ≠ 0) t).flatMap
      (fun v => padZero 2 (Nat.toDigits 10 v) ++ " ".toList)
    ++ "]\n".toList := by
  unfold readEnabled
  rw [listDevices_all]

theorem readDisabled_eq (t : DevSettings) :
    readDisabled t = "SideDumper: disabled devices = [ ".toList
    ++ (listedDevices (fun s => s.oEnabled = 0) t).flatMap
      (fun v => padZero 2 (Nat.toDigits 10 v) ++ " ".toList)
    ++ "]\n".toList := by
  unfold readDisabled
  rw [listDevices_all (fun s => s.oEnabled = 0)]

/-- **The file `all`** has what the files of the devices have. -/
theorem printAll_eq (hu : u ≤ 16) (hleft : 16 - u < left) :
    printAll t left u = (List.range' u (16 - u)).flatMap (printSettings t) := by
  induction left generalizing u with
  | zero => omega
  | succ left ih =>
    rw [printAll]
    by_cases hlt : u < 16
    · have hrange : List.range' u (16 - u) = u :: List.range' (u + 1) (16 - (u + 1)) := by
        rw [show 16 - u = 16 - (u + 1) + 1 by omega, List.range'_succ]
      have hne : (printSettings t u).length ≠ 0 := by
        rw [printSettings_eq hlt, List.length_append, List.length_cons]
        omega
      rw [if_neg hne, hrange, List.flatMap_cons, ih (by omega) (by omega)]
    · have hnone : printSettings t u = [] := by
        rw [printSettings, getDeviceSettings, if_neg hlt]
      rw [hnone, if_pos List.length_nil, show 16 - u = 0 by omega]
      rfl

end Reads

/-- What stands between the brackets. -/
theorem betweenBrackets_append {xs ys : List Char} (hxs : '[' ∉ xs) (hys : ']' ∉ ys)
    (zs : List Char) :
    betweenBrackets (xs ++ '[' :: (ys ++ ']' :: zs)) = ys := by
  have hskip : ∀ c ∈ xs, decide (c ≠ '[') = true := fun c hc => decide_eq_true fun h =>
    hxs (h ▸ hc)
  have htake : ∀ c ∈ ys, decide (c ≠ ']') = true := fun c hc => decide_eq_true fun h =>
    hys (h ▸ hc)
  rw [betweenBrackets, List.dropWhile_append_of_pos hskip, List.dropWhile_cons_of_neg (by simp),
    List.tail_cons,
    List.takeWhile_append_of_pos htake, List.takeWhile_cons_of_neg (by simp), List.append_nil]

theorem asciiChars_append (xs ys : List Char) :
    asciiChars (xs ++ ys) = asciiChars xs ++ asciiChars ys :=
  List.map_append

/-! ## Lists -/

section Lists

variable {t p : DevSettings} {listed : TDeviceSettings → Bool} {us : List ℕ}

/-- What stands behind a number of a list. -/
theorem blank_delimitor : ∀ c ∈ [(32 : UInt8)], isDelimitor c = true := List.all_eq_true.mp rfl

theorem blank_ne_nil : [(32 : UInt8)] ≠ [] := List.cons_ne_nil _ _

theorem printed_ne_nil (u : ℕ) : padZero 2 (Nat.toDigits 10 u) ≠ [] :=
  List.append_ne_nil_of_right_ne_nil _ Nat.toDigits_ne_nil

theorem printed_isDigit (u : ℕ) : ∀ c ∈ padZero 2 (Nat.toDigits 10 u), c.isDigit = true := by
  intro c hc
  rcases List.mem_append.mp hc with hc | hc
  · rw [List.eq_of_mem_replicate hc]
    rfl
  · exact toDigits_isDigit u c hc

theorem printed_lt {u : ℕ} (hu : u < 16) :
    Nat.ofDigitChars 10 (padZero 2 (Nat.toDigits 10 u)) 0 < 2 ^ 32 := by
  rw [padZero, Nat.ofDigitChars_append, Nat.ofDigitChars_replicate_zero, Nat.mul_zero,
    Nat.ofDigitChars_ten_toDigits]
  omega

/-- A number of a list that was read. -/
def printedNumber (u : ℕ) (hu : u < 16) : ListedNumber where
  digits := padZero 2 (Nat.toDigits 10 u)
  behind := [32]
  digits_ne := printed_ne_nil u
  isDigit := printed_isDigit u
  lt := printed_lt hu
  behind_ne := blank_ne_nil
  behind_delimitor := blank_delimitor

theorem printedNumber_value (u : ℕ) (hu : u < 16) : (printedNumber u hu).value = u := by
  show Nat.ofDigitChars 10 (padZero 2 (Nat.toDigits 10 u)) 0 = u
  rw [padZero, Nat.ofDigitChars_append, Nat.ofDigitChars_replicate_zero, Nat.mul_zero,
    Nat.ofDigitChars_ten_toDigits]

/-- **A list that was read**, as a list that is written. -/
def savedList (us : List ℕ) (hus : ∀ u ∈ us, u < 16) : DeviceList where
  front := [32]
  entries := us.pmap printedNumber hus
  front_delimitor := blank_delimitor

theorem savedList_devices (hus : ∀ u ∈ us, u < 16) : (savedList us hus).devices = us := by
  show (us.pmap printedNumber hus).map ListedNumber.value = us
  rw [List.map_pmap]
  induction us with
  | nil => rfl
  | cons u us ih =>
    rw [List.pmap_cons, printedNumber_value, ih]

theorem savedList_text (hus : ∀ u ∈ us, u < 16) : (savedList us hus).text
    = asciiChars (' ' :: us.flatMap fun v => padZero 2 (Nat.toDigits 10 v) ++ " ".toList) := by
  show [32] ++ (us.pmap printedNumber hus).flatMap ListedNumber.text
    = [32] ++ asciiChars (us.flatMap fun v => padZero 2 (Nat.toDigits 10 v) ++ " ".toList)
  congr 1
  induction us with
  | nil => rfl
  | cons u us ih =>
    rw [List.pmap_cons, List.flatMap_cons, List.flatMap_cons, asciiChars_append, ih,
      asciiChars_append]
    rfl

theorem savedList_text_length (hus : ∀ u ∈ us, u < 16) :
    (savedList us hus).text.length = 3 * us.length + 1 := by
  have hdigits : ∀ v < 16, (padZero 2 (Nat.toDigits 10 v) ++ " ".toList).length = 3 := by decide
  rw [savedList_text, ListedNumber.length_asciiChars, List.length_cons]
  congr 1
  induction us with
  | nil => rfl
  | cons u us ih =>
    rw [List.flatMap_cons, List.length_append, hdigits u (hus u List.mem_cons_self),
      ih fun v hv => hus v (List.mem_cons_of_mem u hv), List.length_cons]
    omega

theorem lt_of_mem_listedDevices (listed : TDeviceSettings → Bool) (p : DevSettings) :
    ∀ u ∈ listedDevices listed p, u < 16 := by
  intro u hu
  have hrange := List.mem_range'_1.mp (List.mem_of_mem_filter hu)
  omega

theorem bracket_not_mem_listed (us : List ℕ) :
    ']' ∉ ' ' :: us.flatMap fun v => padZero 2 (Nat.toDigits 10 v) ++ " ".toList := by
  have hall : ∀ v, ']' ∉ padZero 2 (Nat.toDigits 10 v) ++ " ".toList := by
    intro v hmem
    rcases List.mem_append.mp hmem with hmem | hmem
    · rcases List.mem_append.mp hmem with hmem | hmem
      · exact absurd (List.eq_of_mem_replicate hmem) (by decide)
      · exact absurd (toDigits_isDigit v _ hmem) (by decide)
    · exact absurd hmem (by decide)
  rw [List.mem_cons, not_or]
  refine ⟨by decide, fun hmem => ?_⟩
  obtain ⟨v, -, hv⟩ := List.mem_flatMap.mp hmem
  exact hall v hv

/-- **Writing what was read of a list** switches the devices that were listed. -/
theorem write_listed (on : Bool) (rest : List UInt8) (t : DevSettings) :
    ((SettingsFile.list on).write (asciiChars (' ' :: (listedDevices listed p).flatMap fun v =>
        padZero 2 (Nat.toDigits 10 v) ++ " ".toList)) rest t).1
      = fun d => if d < 16 ∧ d ∈ listedDevices listed p then (t d).set .oEnabled on.toNat
        else t d := by
  have hlt := lt_of_mem_listedDevices listed p
  have hlen : (listedDevices listed p).length ≤ 15 := List.length_filter_le _ _
  have hfit : (savedList _ hlt).text.length ≤ 255 := by
    rw [savedList_text_length]
    omega
  rw [← savedList_text hlt, DeviceList.applied_of_length_le hfit]
  funext d
  show (if d < 16 ∧ d ∈ (savedList _ hlt).devices then _ else _) = _
  rw [savedList_devices]

theorem betweenBrackets_readEnabled (p : DevSettings) : betweenBrackets (readEnabled p)
    = ' ' :: (listedDevices (fun s => s.oEnabled ≠ 0) p).flatMap
        fun v => padZero 2 (Nat.toDigits 10 v) ++ " ".toList := by
  have hhead : "SideDumper: enabled devices = [ ".toList
    = "SideDumper: enabled devices = ".toList ++ '[' :: [' '] := rfl
  have hend : "]\n".toList = ']' :: ['\n'] := rfl
  rw [readEnabled_eq, hhead, hend, List.append_assoc, List.append_assoc, List.cons_append,
    List.singleton_append, ← List.cons_append]
  exact betweenBrackets_append (by decide) (bracket_not_mem_listed _) _

theorem betweenBrackets_readDisabled (p : DevSettings) : betweenBrackets (readDisabled p)
    = ' ' :: (listedDevices (fun s => s.oEnabled = 0) p).flatMap
        fun v => padZero 2 (Nat.toDigits 10 v) ++ " ".toList := by
  have hhead : "SideDumper: disabled devices = [ ".toList
    = "SideDumper: disabled devices = ".toList ++ '[' :: [' '] := rfl
  have hend : "]\n".toList = ']' :: ['\n'] := rfl
  rw [readDisabled_eq, hhead, hend, List.append_assoc, List.append_assoc, List.cons_append,
    List.singleton_append, ← List.cons_append]
  exact betweenBrackets_append (by decide) (bracket_not_mem_listed _) _

/-- What the two files said is written to them again. -/
def restoreLists (enabled disabled : List Char) (rest rest' : List UInt8) (t : DevSettings) :
    DevSettings :=
  ((SettingsFile.list false).write (asciiChars (betweenBrackets disabled)) rest'
    ((SettingsFile.list true).write (asciiChars (betweenBrackets enabled)) rest t).1).1

theorem mem_listedDevices {d : ℕ} :
    d ∈ listedDevices listed p ↔ (1 ≤ d ∧ d < 16) ∧ listed (p d) = true := by
  rw [listedDevices, List.mem_filter, List.mem_range'_1]

/-- What the files say depends on which devices are enabled. -/
theorem readLists_congr (h : ∀ d, 1 ≤ d ∧ d < 16 → ((t d).oEnabled = 0 ↔ (p d).oEnabled = 0)) :
    readEnabled t = readEnabled p ∧ readDisabled t = readDisabled p := by
  have hon : listedDevices (fun s => s.oEnabled ≠ 0) t
      = listedDevices (fun s => s.oEnabled ≠ 0) p := by
    refine List.filter_congr fun d hd => ?_
    simp only [ne_eq, h d (List.mem_range'_1.mp hd)]
  have hoff : listedDevices (fun s => s.oEnabled = 0) t
      = listedDevices (fun s => s.oEnabled = 0) p := by
    refine List.filter_congr fun d hd => ?_
    simp only [h d (List.mem_range'_1.mp hd)]
  rw [readEnabled_eq, readEnabled_eq, readDisabled_eq, readDisabled_eq, hon, hoff]
  exact ⟨rfl, rfl⟩

/-- **The devices that were enabled are enabled again, the others are disabled**,
whatever the settings have become. The device 0, which is on neither list, and
the other settings stay as they are; and the files say again what they said. -/
theorem lists_restored (p t : DevSettings) (rest rest' : List UInt8) :
    (restoreLists (readEnabled p) (readDisabled p) rest rest' t = fun d =>
        if 1 ≤ d ∧ d < 16 then (t d).set .oEnabled (if (p d).oEnabled = 0 then 0 else 1)
          else t d) ∧
      readEnabled (restoreLists (readEnabled p) (readDisabled p) rest rest' t) = readEnabled p ∧
      readDisabled (restoreLists (readEnabled p) (readDisabled p) rest rest' t)
        = readDisabled p := by
  have hlists : restoreLists (readEnabled p) (readDisabled p) rest rest' t = fun d =>
      if 1 ≤ d ∧ d < 16 then (t d).set .oEnabled (if (p d).oEnabled = 0 then 0 else 1)
        else t d := by
    unfold restoreLists
    rw [betweenBrackets_readEnabled, betweenBrackets_readDisabled, write_listed, write_listed]
    funext d
    simp only [mem_listedDevices, decide_eq_true_eq]
    by_cases hd : 1 ≤ d ∧ d < 16
    · by_cases h0 : (p d).oEnabled = 0
      · simp [hd, h0]
      · simp [hd, h0]
    · rw [if_neg hd, if_neg (fun h => hd h.2.1), if_neg (fun h => hd h.2.1)]
  refine ⟨hlists, readLists_congr fun d hd => ?_⟩
  rw [hlists]
  dsimp only
  rw [if_pos hd]
  by_cases h0 : (p d).oEnabled = 0
  · simp [h0, TDeviceSettings.set]
  · simp [h0, TDeviceSettings.set]

end Lists

/-! ## Settings -/

section Saved

variable {t p : DevSettings} {u : ℕ}

/-- The settings that were printed, with the dumper function that is there. -/
def TDeviceSettings.withDumperOf (s s' : TDeviceSettings) : TDeviceSettings :=
  { s with pfnDumper := s'.pfnDumper }

/-- **Writing the printed settings of a device.** -/
theorem write_printSettings (hu : u < 16) (hp : ∀ f, (p u).get f < 0x100000000)
    (rest : List UInt8)
    (t : DevSettings) :
    ((SettingsFile.device u).write (asciiChars (betweenBrackets (printSettings p u))) rest t).1
      = Function.update t u ((p u).withDumperOf (t u)) := by
  have hlist := write_settings hu (printedList (p u) hp) rest t
  have htext : (printedList (p u) hp).text
      = asciiChars (betweenBrackets (printSettings p u)) := by
    rw [betweenBrackets_printSettings hu, ← text_printedEntries (p u) hp]
    rfl
  rw [← htext, hlist]
  rfl

/-- The lines of the file `all` are written to the files of the devices, from
the device `u` on. -/
def restoreSettings (rest : ℕ → List UInt8) : ℕ → List (List Char) → DevSettings → DevSettings
  | _, [], t => t
  | u, l :: ls, t =>
    restoreSettings rest (u + 1) ls ((SettingsFile.device u).write
      (asciiChars (betweenBrackets l)) (rest u) t).1

/-- The line of a device, without its end. -/
def printedLine (p : DevSettings) (u : ℕ) : List Char :=
  printedFront u ++ '[' :: ((printedFields.flatMap (printedField (p u)) ++ [' ']) ++ [']'])

theorem printSettings_eq_line (hu : u < 16) (p : DevSettings) :
    printSettings p u = printedLine p u ++ ['\n'] := by
  rw [printSettings_eq hu, printedLine]
  simp only [List.append_assoc, List.cons_append, List.nil_append]

theorem betweenBrackets_printedLine (hu : u < 16) (p : DevSettings) :
    betweenBrackets (printedLine p u) = betweenBrackets (printSettings p u) := by
  rw [betweenBrackets_printSettings hu, printedLine]
  exact betweenBrackets_append (fun h => bracket_not_mem_printedFront u _ h rfl)
    (fun h => bracket_not_mem_printedFields _ _ h rfl) []

theorem newline_not_mem_printedLine (p : DevSettings) (u : ℕ) : '\n' ∉ printedLine p u := by
  have hdigits : ∀ n, '\n' ∉ Nat.toDigits 10 n :=
    fun n h => absurd (toDigits_isDigit n _ h) (by decide)
  have hfront : '\n' ∉ printedFront u := by
    have hlit : '\n' ∉ "SideDumper: device_".toList ∧ '\n' ∉ " settings = ".toList := by decide
    have hzeros : '\n' ∉ padZero 2 (Nat.toDigits 10 u) := by
      intro h
      rcases List.mem_append.mp h with h | h
      · exact absurd (List.eq_of_mem_replicate h) (by decide)
      · exact hdigits u h
    change '\n' ∉ "SideDumper: device_".toList ++ padZero 2 (Nat.toDigits 10 u)
      ++ " settings = ".toList
    simp only [List.mem_append, hlit, hzeros, or_self, not_false_eq_true]
  have hfields : '\n' ∉ printedFields.flatMap (printedField (p u)) := by
    have hlabel : ∀ f : SettingsField, '\n' ∉ f.label.toList := by
      intro f
      cases f <;> decide
    intro h
    obtain ⟨f, -, h⟩ := List.mem_flatMap.mp h
    rw [printedField, List.mem_cons, List.mem_append] at h
    rcases h with h | h | h
    · cases h
    · exact hlabel f h
    · exact hdigits _ h
  simp [printedLine, hfront, hfields]

theorem length_flatMap_le {α : Type*} {f : α → List Char} {as : List α} {n : ℕ}
    (h : ∀ a ∈ as, (f a).length ≤ n) :
    (as.flatMap f).length ≤ as.length * n := by
  induction as with
  | nil => exact Nat.zero_le _
  | cons a as ih =>
    rw [List.forall_mem_cons] at h
    rw [List.flatMap_cons, List.length_append, List.length_cons, Nat.succ_mul, Nat.add_comm]
    exact Nat.add_le_add (ih h.2) h.1

/-- A line has 117 characters at most. -/
theorem length_printedLine_le (hu : u < 16) (hp : ∀ f, (p u).get f < 0x100000000) :
    (printedLine p u).length ≤ 116 := by
  have hfield : ∀ f ∈ printedFields, (printedField (p u) f).length ≤ 20 := by
    intro f _
    have hlabel : f.label.toList.length ≤ 9 := by cases f <;> decide
    have hword := length_toDigits_word (hp f)
    rw [printedField, List.length_cons, List.length_append]
    omega
  have hfields : (printedFields.flatMap (printedField (p u))).length ≤ 4 * 20 :=
    length_flatMap_le hfield
  have hfront : ∀ v < 16, (printedFront v).length = 33 := by decide
  rw [printedLine, List.length_append, List.length_cons, List.length_append, List.length_append,
    hfront u hu, List.length_singleton, List.length_singleton]
  omega

/-- The file `all`, line by line. -/
theorem readDeviceSettings_all (p : DevSettings) :
    readDeviceSettings p uDeviceAllNumber = (List.range' 1 15).flatMap fun u =>
      printedLine p u ++ ['\n'] := by
  rw [readDeviceSettings, if_pos rfl, printAll_eq (by omega) (by omega)]
  exact List.flatMap_congr fun u hu =>
    printSettings_eq_line (by have := List.mem_range'_1.mp hu; omega) p

/-- **What the lines restore.** -/
theorem restoreSettings_lines (hp : ∀ d < 16, ∀ f, (p d).get f < 0x100000000)
    (rest : ℕ → List UInt8) {u k : ℕ}
    (huk : u + k = 16) (t : DevSettings) :
    restoreSettings rest u ((List.range' u k).map (printedLine p) ++ [[]]) t
      = fun d => if u ≤ d ∧ d < 16 then (p d).withDumperOf (t d) else t d := by
  induction k generalizing u t with
  | zero =>
    -- behind the last line there is no device
    obtain rfl : u = 16 := huk
    funext d
    rw [if_neg (by omega)]
    rfl
  | succ k ih =>
    have hu : u < 16 := by omega
    rw [List.range'_succ, List.map_cons, List.cons_append, restoreSettings,
      betweenBrackets_printedLine hu, write_printSettings hu (hp u hu), ih (by omega)]
    funext d
    by_cases hd : d = u
    · subst hd
      rw [if_neg (by omega), Function.update_self, if_pos (by omega)]
    · rw [Function.update_of_ne hd]
      by_cases hle : u ≤ d ∧ d < 16
      · rw [if_pos (by omega), if_pos hle]
      · rw [if_neg (by omega), if_neg hle]

/-- Nothing is read at a letter that is no digit and that no name begins with. -/
theorem tokens_letter (behind : ℕ) (x : List UInt8) :
    numbers.tokens behind (83 :: x) = [] ∧ settings.tokens behind (83 :: x) = [] := by
  have heat : eatDelimitor (83 :: x) = 83 :: x := rfl
  have hfield : fieldAt (83 :: x) = none := by
    have hnot : ∀ f : SettingsField, ¬ f.name <+: 83 :: x := by
      intro f h
      cases f <;> exact absurd (List.cons_prefix_cons.mp h).1 (by decide)
    simp only [fieldAt, if_neg (hnot _)]
  refine ⟨Reader.tokens_of_none ?_, Reader.tokens_of_none ?_⟩
  · rw [numbers_read, heat, if_pos]
    exact .inl rfl
  · rw [settings_read, heat, hfield]
    split
    · rfl
    · rfl

/-- **A line that is written back as it was read** changes nothing, to whichever
file it is written and whatever stands behind it in memory. -/
theorem write_uncut (file : SettingsFile) (y : List Char) (rest : List UInt8) (t : DevSettings) :
    (file.write (asciiChars ("SideDumper".toList ++ y)) rest t).1 = t := by
  obtain ⟨x, hx⟩ : ∃ x, (asciiChars ("SideDumper".toList ++ y)).take 255 ++ rest = 83 :: x :=
    ⟨_, rfl⟩
  obtain ⟨hnumbers, hsettings⟩ := tokens_letter rest.length x
  cases file with
  | enabled =>
    show numbers.run enable rest.length
      ((asciiChars ("SideDumper".toList ++ y)).take 255 ++ rest) t = t
    rw [Reader.run_eq_foldl, hx, hnumbers, List.foldl_nil]
  | disabled =>
    show numbers.run disable rest.length ((asciiChars ("SideDumper".toList ++ y)).take
      255 ++ rest) t = t
    rw [Reader.run_eq_foldl, hx, hnumbers, List.foldl_nil]
  | device u =>
    rw [SettingsFile.write]
    split
    · rfl
    · rw [Reader.run_eq_foldl, hx, hsettings, List.foldl_nil]

theorem printedLine_front (p : DevSettings) (u : ℕ) :
    ∃ y, printedLine p u ++ ['\n'] = "SideDumper".toList ++ y := by
  have hlit : "SideDumper: device_".toList = "SideDumper".toList ++ ": device_".toList := by
    decide
  unfold printedLine printedFront
  rw [hlit]
  simp only [List.append_assoc, -String.reduceToList]
  exact ⟨_, rfl⟩

/-- **A line that is written as it was read** changes nothing. -/
theorem write_readDeviceSettings (hu : u < 16) (p : DevSettings) (file : SettingsFile)
    (rest : List UInt8)
    (t : DevSettings) : (file.write (asciiChars (readDeviceSettings p u)) rest t).1 = t := by
  obtain ⟨y, hy⟩ := printedLine_front p u
  have hline : readDeviceSettings p u = "SideDumper".toList ++ y := by
    rw [readDeviceSettings, if_neg (by rw [uDeviceAllNumber]; omega), printSettings_eq_line hu,
      hy]
  rw [hline, write_uncut]

/-- **The file `all` restores the settings** of the devices from 1 on, whatever
they have become, when what stands between the brackets of its lines is written
to the files of the devices; it says again what it said. It is the files of the
devices one behind the other, and fits into a page. The lines as they were read
restore nothing. -/
theorem settings_restored (hp : ∀ d < 16, ∀ f, (p d).get f < 0x100000000) (t : DevSettings)
    (rest : ℕ → List UInt8) :
    (restoreSettings rest 1 ((readDeviceSettings p uDeviceAllNumber).splitOn '\n') t
        = fun d => if 1 ≤ d ∧ d < 16 then (p d).withDumperOf (t d) else t d) ∧
      readDeviceSettings (restoreSettings rest 1
        ((readDeviceSettings p uDeviceAllNumber).splitOn '\n') t)
        uDeviceAllNumber = readDeviceSettings p uDeviceAllNumber ∧
      readDeviceSettings p uDeviceAllNumber = (List.range' 1 15).flatMap (readDeviceSettings p) ∧
      (readDeviceSettings p uDeviceAllNumber).length ≤ 4096 ∧
      ∀ u < 16, ∀ (file : SettingsFile) (rest : List UInt8),
        (file.write (asciiChars (readDeviceSettings p u)) rest t).1 = t := by
  have hsplit : (readDeviceSettings p uDeviceAllNumber).splitOn '\n'
      = (List.range' 1 15).map (printedLine p) ++ [[]] := by
    rw [readDeviceSettings_all]
    exact splitOn_flatMap_lines _ fun u _ => newline_not_mem_printedLine p u
  have hrestore : restoreSettings rest 1 ((readDeviceSettings p uDeviceAllNumber).splitOn '\n') t
      = fun d => if 1 ≤ d ∧ d < 16 then (p d).withDumperOf (t d) else t d := by
    rw [hsplit]
    exact restoreSettings_lines hp rest rfl t
  refine ⟨hrestore, ?_, ?_, ?_, fun u hu file rest => write_readDeviceSettings hu p file rest t⟩
  · rw [hrestore, readDeviceSettings_all, readDeviceSettings_all]
    refine List.flatMap_congr fun u hu => ?_
    rw [printedLine, printedLine, if_pos (List.mem_range'_1.mp hu)]
    rfl
  · rw [readDeviceSettings_all]
    refine List.flatMap_congr fun u hu => ?_
    have hu := List.mem_range'_1.mp hu
    rw [readDeviceSettings, if_neg (by rw [uDeviceAllNumber]; omega),
      printSettings_eq_line (by omega)]
  · have hline : ∀ u ∈ List.range' 1 15, (printedLine p u ++ ['\n']).length ≤ 117 := by
      intro u hu
      have hu' : u < 16 := by have := List.mem_range'_1.mp hu; omega
      rw [List.length_append, List.length_singleton]
      exact Nat.succ_le_succ (length_printedLine_le hu' (hp u hu'))
    rw [readDeviceSettings_all]
    exact (length_flatMap_le hline).trans (by decide)

/-- The settings of a new kernel, restored over settings in which all words are
9. -/
theorem settings_restored_initial :
    (restoreSettings (fun _ => []) 1
      ((readDeviceSettings initialSettings uDeviceAllNumber).splitOn '\n')
      (fun _ => ⟨⟨9, 9⟩, 9, 9, 9⟩) 4).uInLimit = 0xffffffff := by
  have hwords : ∀ d < 16, ∀ f, (initialSettings d).get f < 0x100000000 := by
    intro d _ f
    cases f <;> simp [initialSettings, TDeviceSettings.get]
  have h := (settings_restored hwords (fun _ => ⟨⟨9, 9⟩, 9, 9, 9⟩) fun _ => []).1
  rw [h]
  rfl

end Saved
