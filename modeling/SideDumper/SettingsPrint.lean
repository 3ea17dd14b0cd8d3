import SideDumper.SettingsLists
import SideDumper.ProcFs
import Mathlib.Data.List.Induction

/-!
# Settings that are printed and written

`PrintSettings` prints the settings of a device between brackets, as
assignments in decimal. `Write_DeviceSettings` reads assignments. A text of
assignments that fits into its buffer sets each field it names to the last
value it gives, and leaves everything else alone; what is printed between the
brackets is such a text.
-/

/-! ## Numbers that are printed -/

section Printed

variable {v : ℕ} {d : UInt8} {r : List UInt8}

theorem toDigits_isDigit (v : ℕ) : ∀ c ∈ Nat.toDigits 10 v, c.isDigit :=
  fun _ hc => Nat.isDigit_of_mem_toDigits (by decide) (by decide) hc

/-- Only 0 is printed with a zero in front. -/
theorem toDigits_head (hv : v ≠ 0) : ∃ c cs, Nat.toDigits 10 v = c :: cs ∧ c ≠ '0' := by
  induction v using Nat.strong_induction_on with
  | _ v ih =>
    by_cases hlt : v < 10
    · have hall : ∀ k < 10, k ≠ 0 → Nat.digitChar k ≠ '0' := by decide
      exact ⟨_, [], Nat.toDigits_of_lt_base hlt, hall v hlt hv⟩
    · obtain ⟨c, cs, heq, hc⟩ := ih (v / 10) (by omega) (by omega)
      refine ⟨c, cs ++ [Nat.digitChar (v % 10)], ?_, hc⟩
      rw [Nat.toDigits_of_base_le (by decide) (by omega), heq, List.cons_append]

/-- **A printed number is read back**, in base 10 and in base 0. -/
theorem simpleStrtoul_toDigits (hv : v < 0x100000000) (hd : isDelimitor d = true) {base : ℕ}
    (hbase : base = 10 ∨ base = 0) :
    simpleStrtoul (asciiChars (Nat.toDigits 10 v) ++ d :: r) base = (v, d :: r) := by
  have hten : strtoulDigits 10 0 (asciiChars (Nat.toDigits 10 v) ++ d :: r) = (v, d :: r) := by
    have hval : Nat.ofDigitChars 10 (Nat.toDigits 10 v) 0 = v := Nat.ofDigitChars_ten_toDigits
    rw [strtoulDigits_decimal_end (toDigits_isDigit v) (hval.symm ▸ hv)
      (digitValue_delimitor hd 10), hval]
  obtain rfl | rfl := hbase
  · exact hten
  · rw [simpleStrtoul, if_pos rfl]
    by_cases h0 : v = 0
    · -- the zero is taken for the mark of base 8, and there is no digit behind it
      have hx : d ≠ 120 := by
        rintro rfl
        exact absurd hd (by decide)
      have hbase : strtoulBase (48 :: d :: r) = (8, d :: r) := by
        unfold strtoulBase
        cases r <;> simp [hx]
      have hbytes : asciiChars (Nat.toDigits 10 v) ++ d :: r = 48 :: d :: r := by
        rw [h0]
        rfl
      rw [hbytes, hbase, strtoulDigits, digitValue_delimitor hd 8, h0]
    · obtain ⟨c, cs, heq, hc⟩ := toDigits_head h0
      have hdigit := toDigits_isDigit v c (heq ▸ List.mem_cons_self)
      have hne : c.val.toUInt8 ≠ 48 := by
        have hall : ∀ k < 10, (Nat.digitChar k).val.toUInt8 = 48 →
            Nat.digitChar k = '0' := by decide
        obtain ⟨k, hk, rfl⟩ := exists_digitChar_of_isDigit hdigit
        exact fun h => hc (hall k hk h)
      have hbase : strtoulBase (asciiChars (Nat.toDigits 10 v) ++ d :: r)
          = (10, asciiChars (Nat.toDigits 10 v) ++ d :: r) := by
        rw [heq]
        exact if_pos hne
      rw [hbase]
      exact hten

end Printed

/-! ## Assignments -/

/-- **A setting of a text**, with the delimiters behind it. -/
structure ListedSetting where
  field : SettingsField
  value : ℕ
  behind : List UInt8
  lt : value < 0x100000000
  behind_ne : behind ≠ []
  behind_delimitor : ∀ c ∈ behind, isDelimitor c = true

/-- The text of a setting. -/
def ListedSetting.text (x : ListedSetting) : List UInt8 :=
  x.field.name ++ (asciiChars (Nat.toDigits 10 x.value) ++ x.behind)

/-- **A text of settings** that the buffer has room for; it may begin with
delimiters. -/
structure SettingsList where
  front : List UInt8
  entries : List ListedSetting
  front_delimitor : ∀ c ∈ front, isDelimitor c = true
  length_le : (front ++ entries.flatMap ListedSetting.text).length ≤ 255

namespace SettingsList

/-- The bytes of the text. -/
def text (l : SettingsList) : List UInt8 := l.front ++ l.entries.flatMap ListedSetting.text

/-- The fields with the values given for them. -/
def assignments (l : SettingsList) : List (SettingsField × ℕ) :=
  l.entries.map (fun x => (x.field, x.value))

/-- The last value given for a field. -/
def lastGiven (l : SettingsList) (f : SettingsField) : Option ℕ :=
  (l.assignments.reverse.find? (·.1 = f)).map (·.2)

end SettingsList

section Assignments

variable {behind : ℕ} {z : List UInt8}

/-- A name begins with no delimiter. -/
theorem eatDelimitor_name (f : SettingsField) (x : List UInt8) :
    eatDelimitor (f.name ++ x) = f.name ++ x := by
  cases f <;> rfl

/-- **A setting is read.** -/
theorem ListedSetting.read (x : ListedSetting) (hz : behind ≤ z.length) :
    settings.read behind (x.text ++ z) = some ((x.field, x.value), x.behind ++ z) := by
  obtain ⟨d, ds, hds⟩ := List.exists_cons_of_ne_nil x.behind_ne
  have hd : isDelimitor d = true := x.behind_delimitor d (hds ▸ List.mem_cons_self)
  have hbase : x.field.base = 10 ∨ x.field.base = 0 := by
    cases x.field <;> simp [SettingsField.base]
  have hpos : 0 < (asciiChars (Nat.toDigits 10 x.value)).length := by
    rw [ListedNumber.length_asciiChars]
    exact Nat.length_toDigits_pos
  have hnum := simpleStrtoul_toDigits (r := ds ++ z) x.lt hd hbase
  rw [text, List.append_assoc, settings_read, eatDelimitor_name, fieldAt_name, Option.bind_some,
    List.drop_left, List.append_assoc, hds, List.cons_append, hnum, if_neg, if_neg]
  · rw [List.length_append]
    dsimp only
    omega
  · rw [List.length_append, List.length_append, List.length_cons, List.length_append]
    omega

/-- Delimiters in front make no difference to the settings. -/
theorem settings_tokens_delimitors {ds : List UInt8} (h : ∀ c ∈ ds, isDelimitor c = true)
    (behind : ℕ)
    (x : List UInt8) : settings.tokens behind (ds ++ x) = settings.tokens behind x := by
  refine Reader.tokens_congr ?_
  rw [settings_read, settings_read, eatDelimitor_delimitors h]

/-- **All settings are read**, whatever stands behind the text. -/
theorem tokens_entries (xs : List ListedSetting) (r : List UInt8) :
    settings.tokens r.length (xs.flatMap ListedSetting.text ++ r)
      = xs.map (fun x => (x.field, x.value)) := by
  induction xs with
  | nil =>
    refine Reader.tokens_of_none ?_
    rw [List.flatMap_nil, List.nil_append, settings_read, if_pos (eatDelimitor_length_le r)]
  | cons x xs ih =>
    have hread := x.read (z := xs.flatMap ListedSetting.text ++ r)
      (List.length_append ▸ Nat.le_add_left _ _ : r.length ≤ _)
    rw [List.flatMap_cons, List.append_assoc, Reader.tokens_of_some hread,
      settings_tokens_delimitors x.behind_delimitor, ih]
    rfl

/-- The settings after some assignments, in the copy and in the table. -/
theorem foldl_storeSetting {u : ℕ} (hu : u < 16) (as : List (SettingsField × ℕ))
    (t : DevSettings) :
    as.foldl (storeSetting u) (t u, t) = (as.foldl (fun s a => s.set a.1 a.2) (t u),
      Function.update t u (as.foldl (fun s a => s.set a.1 a.2) (t u))) := by
  induction as generalizing t with
  | nil => rw [List.foldl_nil, List.foldl_nil, Function.update_eq_self]
  | cons a as ih =>
    have hstep := ih (Function.update t u ((t u).set a.1 a.2))
    rw [Function.update_self, Function.update_idem] at hstep
    rw [List.foldl_cons, List.foldl_cons, storeSetting, setDeviceSettings, if_pos hu]
    exact hstep

theorem foldl_set_pfnDumper (as : List (SettingsField × ℕ)) (s : TDeviceSettings) :
    (as.foldl (fun s a => s.set a.1 a.2) s).pfnDumper = s.pfnDumper := by
  induction as generalizing s with
  | nil => rfl
  | cons a as ih => rw [List.foldl_cons, ih, TDeviceSettings.set_pfnDumper]

/-- **A field has the last value that is assigned to it.** -/
theorem foldl_set_get (as : List (SettingsField × ℕ)) (s : TDeviceSettings) (f : SettingsField) :
    (as.foldl (fun s a => s.set a.1 a.2) s).get f
      = ((as.reverse.find? (·.1 = f)).map (·.2)).getD (s.get f) := by
  induction as using List.reverseRecOn with
  | nil => rfl
  | append_singleton as a ih =>
    rw [List.foldl_append, List.foldl_cons, List.foldl_nil, TDeviceSettings.get_set,
      List.reverse_append, List.reverse_singleton, List.singleton_append, List.find?_cons]
    by_cases hf : f = a.1
    · simp [hf]
    · have hne : decide (a.1 = f) = false := decide_eq_false fun h => hf h.symm
      rw [if_neg hf, ih, hne]

/-- **A text of settings is applied as a fold.** -/
theorem write_settings {u : ℕ} (hu : u < 16) (l : SettingsList) (rest : List UInt8)
    (t : DevSettings) :
    (SettingsFile.device u).write l.text rest t
      = (Function.update t u (l.assignments.foldl (fun s a => s.set a.1 a.2) (t u)),
        (l.text.length : ℤ)) := by
  have htake : l.text.take 255 = l.text := List.take_of_length_le l.length_le
  simp only [SettingsFile.write, getDeviceSettings, if_pos hu]
  rw [htake, Reader.run_eq_foldl, SettingsList.text, List.append_assoc,
    settings_tokens_delimitors l.front_delimitor, tokens_entries, ← SettingsList.assignments,
      foldl_storeSetting hu]

end Assignments

/-! ## What is printed -/

/-- The line that is printed for settings. -/
def settingsLine (u : ℕ) (s : TDeviceSettings) : List Char :=
  "SideDumper: device_".toList ++ padZero 2 (Nat.toDigits 10 u) ++ " settings = [ Enabled:".toList
    ++ Nat.toDigits 10 s.oEnabled ++ " Async:".toList ++ Nat.toDigits 10 s.oAsync
    ++ " OutLimit:".toList ++ Nat.toDigits 10 s.uOutLimit
    ++ " InLimit:".toList ++ Nat.toDigits 10 s.uInLimit ++ " ]\n".toList

/-- `PrintSettings`: the text it prints, whose length it returns. -/
def printSettings (t : DevSettings) (u : ℕ) : List Char :=
  match getDeviceSettings t u with
  | none => []
  | some s => settingsLine u s

/-- The text between the brackets. -/
def betweenBrackets (text : List Char) : List Char :=
  (text.dropWhile (· ≠ '[')).tail.takeWhile (· ≠ ']')

/-- The name of a field as it is printed. -/
def SettingsField.label : SettingsField → String
  | .oEnabled => "Enabled:"
  | .oAsync => "Async:"
  | .uOutLimit => "OutLimit:"
  | .uInLimit => "InLimit:"

/-- The fields in the order in which they are printed. -/
def printedFields : List SettingsField := [.oEnabled, .oAsync, .uOutLimit, .uInLimit]

section Print

variable {s : TDeviceSettings}

/-- A field with a blank in front. -/
def printedField (s : TDeviceSettings) (f : SettingsField) : List Char :=
  ' ' :: (f.label.toList ++ Nat.toDigits 10 (s.get f))

theorem name_eq_label (f : SettingsField) : f.name = asciiChars f.label.toList := by
  cases f <;> rfl

/-- A digit is no bracket. -/
theorem ne_of_isDigit {c b : Char} (hc : c.isDigit) (hb : b.isDigit = false) : c ≠ b := by
  rintro rfl
  rw [hb] at hc
  cases hc

theorem bracket_not_mem_printedFields (s : TDeviceSettings) :
    ∀ c ∈ printedFields.flatMap (printedField s) ++ [' '], c ≠ ']' := by
  have hlabel : ∀ f : SettingsField, ']' ∉ f.label.toList := by
    intro f
    cases f <;> decide
  intro c hc
  rw [List.mem_append, List.mem_flatMap] at hc
  obtain ⟨f, -, hc⟩ | hc := hc
  · rw [printedField, List.mem_cons, List.mem_append] at hc
    obtain rfl | hc | hc := hc
    · decide
    · exact ne_of_mem_of_not_mem hc (hlabel f)
    · exact ne_of_isDigit (toDigits_isDigit _ c hc) (by decide)
  · rw [List.mem_singleton.mp hc]
    decide

/-- What stands in front of the brackets. -/
def printedFront (u : ℕ) : List Char :=
  "SideDumper: device_".toList ++ padZero 2 (Nat.toDigits 10 u) ++ " settings = ".toList

theorem bracket_not_mem_printedFront (u : ℕ) : ∀ c ∈ printedFront u, c ≠ '[' := by
  have hlit : '[' ∉ "SideDumper: device_".toList ++ " settings = ".toList := by decide
  intro c hc
  change c ∈ "SideDumper: device_".toList ++ padZero 2 (Nat.toDigits 10 u)
    ++ " settings = ".toList at hc
  rw [List.mem_append, List.mem_append, padZero, List.mem_append] at hc
  obtain (hc | hc | hc) | hc := hc
  · exact ne_of_mem_of_not_mem (List.mem_append_left _ hc) hlit
  · rw [List.eq_of_mem_replicate hc]
    decide
  · exact ne_of_isDigit (toDigits_isDigit u c hc) (by decide)
  · exact ne_of_mem_of_not_mem (List.mem_append_right _ hc) hlit

theorem printSettings_eq {u : ℕ} (hu : u < 16) (t : DevSettings) : printSettings t u
    = printedFront u ++ '[' :: ((printedFields.flatMap (printedField (t u)) ++ [' ']) ++ [']',
      '\n']) := by
  have henabled : " settings = [ Enabled:".toList
      = " settings = ".toList ++ '[' :: ' ' :: "Enabled:".toList := rfl
  have hasync : " Async:".toList = ' ' :: "Async:".toList := rfl
  have hout : " OutLimit:".toList = ' ' :: "OutLimit:".toList := rfl
  have hin : " InLimit:".toList = ' ' :: "InLimit:".toList := rfl
  have hend : " ]\n".toList = [' ', ']', '\n'] := rfl
  have hline : printSettings t u = settingsLine u (t u) := by
    rw [printSettings, getDeviceSettings, if_pos hu]
  have hfront : printedFront u = "SideDumper: device_".toList ++ padZero 2 (Nat.toDigits 10 u)
    ++ " settings = ".toList := rfl
  rw [hline, hfront]
  change "SideDumper: device_".toList ++ padZero 2 (Nat.toDigits 10 u)
    ++ " settings = [ Enabled:".toList
    ++ Nat.toDigits 10 (t u).oEnabled ++ " Async:".toList ++ Nat.toDigits 10 (t u).oAsync
    ++ " OutLimit:".toList ++ Nat.toDigits 10 (t u).uOutLimit
    ++ " InLimit:".toList ++ Nat.toDigits 10 (t u).uInLimit ++ " ]\n".toList = _
  rw [henabled, hasync, hout, hin, hend]
  simp only [printedFields, printedField, SettingsField.label, TDeviceSettings.get,
    List.flatMap_cons, List.flatMap_nil, List.append_assoc, List.cons_append, List.nil_append]

/-- **What is printed between the brackets.** -/
theorem betweenBrackets_printSettings {u : ℕ} (hu : u < 16) (t : DevSettings) :
    betweenBrackets (printSettings t u)
      = printedFields.flatMap (printedField (t u)) ++ [' '] := by
  have hdrop : ∀ xs ys : List Char, (∀ c ∈ xs, c ≠ '[') →
      (xs ++ '[' :: ys).dropWhile (· ≠ '[') = '[' :: ys := by
    intro xs ys hxs
    rw [List.dropWhile_append_of_pos (by simpa using hxs), List.dropWhile_cons_of_neg (by simp)]
  have htake : ∀ xs ys : List Char, (∀ c ∈ xs, c ≠ ']') →
      (xs ++ ']' :: ys).takeWhile (· ≠ ']') = xs := by
    intro xs ys hxs
    rw [List.takeWhile_append_of_pos (by simpa using hxs), List.takeWhile_cons_of_neg (by simp),
      List.append_nil]
  rw [printSettings_eq hu, betweenBrackets, hdrop _ _ (bracket_not_mem_printedFront u),
    List.tail_cons, htake _ _ (bracket_not_mem_printedFields _)]

/-- The settings `s` as settings of a text. -/
def printedEntries (s : TDeviceSettings) (hs : ∀ f, s.get f < 0x100000000)
    (fs : List SettingsField) :
    List ListedSetting :=
  fs.map fun f => ⟨f, s.get f, [32], hs f, List.cons_ne_nil _ _, List.all_eq_true.mp rfl⟩

theorem text_printedEntries (s : TDeviceSettings) (hs : ∀ f, s.get f < 0x100000000)
    (fs : List SettingsField) :
    [32] ++ (printedEntries s hs fs).flatMap ListedSetting.text
      = asciiChars (fs.flatMap (printedField s) ++ [' ']) := by
  induction fs with
  | nil => rfl
  | cons f fs ih =>
    have hblank : asciiChars [' '] = [32] := rfl
    have happend : ∀ xs ys : List Char, asciiChars (xs ++ ys) = asciiChars xs ++ asciiChars ys :=
      fun xs ys => List.map_append
    rw [List.flatMap_cons, List.append_assoc, happend, ← ih, printedField,
      ← List.singleton_append (x := ' '), happend, happend, hblank, ← name_eq_label]
    simp only [printedEntries, List.map_cons, List.flatMap_cons, ListedSetting.text,
      List.append_assoc]

/-- A word has at most ten digits. -/
theorem length_toDigits_word {v : ℕ} (hv : v < 0x100000000) : (Nat.toDigits 10 v).length ≤ 10 :=
  (Nat.length_toDigits_le_iff (by decide) (by decide)).mpr (by omega)

theorem length_printedFields (hs : ∀ f, s.get f < 0x100000000) :
    (printedFields.flatMap (printedField s) ++ [' ']).length ≤ 255 := by
  have hfield : ∀ f, (printedField s f).length ≤ 20 := by
    intro f
    have hlabel : f.label.toList.length ≤ 9 := by cases f <;> decide
    have hword := length_toDigits_word (hs f)
    rw [printedField, List.length_cons, List.length_append]
    omega
  have h₁ := hfield .oEnabled
  have h₂ := hfield .oAsync
  have h₃ := hfield .uOutLimit
  have h₄ := hfield .uInLimit
  simp only [printedFields, List.flatMap_cons, List.flatMap_nil, List.length_append,
    List.length_singleton, List.length_nil]
  omega

/-- **The printed text** is a text of settings. -/
def printedList (s : TDeviceSettings) (hs : ∀ f, s.get f < 0x100000000) : SettingsList where
  front := [32]
  entries := printedEntries s hs printedFields
  front_delimitor := List.all_eq_true.mp rfl
  length_le := by
    rw [text_printedEntries, ListedNumber.length_asciiChars]
    exact length_printedFields hs

/-- **Printing and then writing**: the fields are those that were printed. -/
theorem write_printed {u d : ℕ} (hu : u < 16) (hd : d < 16) (t p : DevSettings)
    (hp : ∀ f, (p d).get f < 0x100000000) (rest : List UInt8) (f : SettingsField) :
    (((SettingsFile.device u).write (asciiChars (betweenBrackets (printSettings p d))) rest t).1
      u).get f
      = (p d).get f := by
  rw [betweenBrackets_printSettings hd, ← text_printedEntries (p d) hp]
  show (((SettingsFile.device u).write (printedList (p d) hp).text rest t).1 u).get f = _
  rw [write_settings hu]
  dsimp only
  rw [Function.update_self, foldl_set_get]
  cases f <;> rfl

end Print

/-- **Settings are applied as a fold, and what is printed can be written.**
Each field that a text names has the last value given for it, and everything
else is as before; the text between the brackets of `PrintSettings` sets the
fields to those that were printed. -/
theorem settings_applied {u d : ℕ} (hu : u < 16) (hd : d < 16) (l : SettingsList)
    (rest : List UInt8)
    (t p : DevSettings) (hp : ∀ f, (p d).get f < 0x100000000) :
    ((∀ f, (((SettingsFile.device u).write l.text rest t).1 u).get f
      = (l.lastGiven f).getD ((t u).get f)) ∧
        (((SettingsFile.device u).write l.text rest t).1 u).pfnDumper = (t u).pfnDumper ∧
        (∀ e, e ≠ u → ((SettingsFile.device u).write l.text rest t).1 e = t e) ∧
        ((SettingsFile.device u).write l.text rest t).2 = l.text.length) ∧
      ∀ f, (((SettingsFile.device u).write (asciiChars (betweenBrackets (printSettings p d))) rest
        t).1 u).get f
        = (p d).get f := by
  refine ⟨?_, write_printed hu hd t p hp rest⟩
  rw [write_settings hu]
  dsimp only
  refine ⟨fun f => ?_, ?_, fun e he => Function.update_of_ne he _ _, rfl⟩
  · rw [Function.update_self, foldl_set_get]
    rfl
  · rw [Function.update_self, foldl_set_pfnDumper]

/-- `Async:1` and `OutLimit:0`, with the device 8 of a new kernel. -/
def asyncNoLimit : SettingsList where
  front := []
  entries := [⟨.oAsync, 1, [32], by decide, by decide, List.all_eq_true.mp rfl⟩,
    ⟨.uOutLimit, 0, [32], by decide, by decide, List.all_eq_true.mp rfl⟩]
  front_delimitor := DeviceList.delimitor_nil
  length_le := by decide

theorem settings_applied_async :
    (((SettingsFile.device 8).write asyncNoLimit.text [] initialSettings).1 8).oAsync = 1 ∧
      (((SettingsFile.device 8).write asyncNoLimit.text [] initialSettings).1 8).uInLimit
        = 0xffffffff := by
  have hwords : ∀ f, (initialSettings 8).get f < 0x100000000 := by
    intro f
    cases f <;> decide
  obtain ⟨⟨hget, -⟩, -⟩ :=
    settings_applied (by decide : 8 < 16) (by decide : 8 < 16) asyncNoLimit [] initialSettings
    initialSettings hwords
  exact ⟨hget .oAsync, hget .uInLimit⟩
