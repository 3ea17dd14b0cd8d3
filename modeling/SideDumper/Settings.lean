import SideDumper.Scanner
import SideDumper.UrbDump
import Mathlib.Logic.Function.Basic

/-!
# The settings of the side dumper

`g_Inst.aDevSettings` has what is dumped of each device. It is changed
through files under `/proc`: `Write_Enabled` and `Write_Disabled` read device
numbers, `Write_DeviceSettings` reads assignments to the fields of one
device.

All three copy what was written into a buffer of 256 bytes on the stack,
without a terminator, and scan that buffer. A pointer into it is the list of
the bytes from there on: the rest of the text, then whatever the buffer and
the memory behind it held before, up to the first NUL byte, which is the end
of the list.
-/

/-- **`SideDumper_TDeviceSettings`**, its words as they are stored. -/
structure TDeviceSettings extends DeviceSettings where
  oEnabled : ℕ
  oAsync : ℕ
  /-- The address of the dumper function. -/
  pfnDumper : ℕ

/-- The fields that `Write_DeviceSettings` assigns to. -/
inductive SettingsField
  | oEnabled
  | oAsync
  | uOutLimit
  | uInLimit
deriving DecidableEq, Repr

namespace TDeviceSettings

/-- Read a field. -/
def get (s : TDeviceSettings) : SettingsField → ℕ
  | .oEnabled => s.oEnabled
  | .oAsync => s.oAsync
  | .uOutLimit => s.uOutLimit
  | .uInLimit => s.uInLimit

/-- Write a field. -/
def set (s : TDeviceSettings) (f : SettingsField) (v : ℕ) : TDeviceSettings :=
  match f with
  | .oEnabled => { s with oEnabled := v }
  | .oAsync => { s with oAsync := v }
  | .uOutLimit => { s with uOutLimit := v }
  | .uInLimit => { s with uInLimit := v }

variable (s : TDeviceSettings) (f g : SettingsField) (v : ℕ)

theorem get_set : (s.set f v).get g = if g = f then v else s.get g := by
  cases f <;> cases g <;> rfl

@[simp] theorem get_set_self : (s.set f v).get f = v := by
  rw [get_set, if_pos rfl]

theorem get_set_of_ne (h : g ≠ f) : (s.set f v).get g = s.get g := by
  rw [get_set, if_neg h]

@[simp] theorem set_pfnDumper : (s.set f v).pfnDumper = s.pfnDumper := by
  cases f <;> rfl

variable {s}

end TDeviceSettings

/-- `g_Inst.aDevSettings`, of which the entries below 16 exist. -/
abbrev DevSettings := ℕ → TDeviceSettings

/-- `SideDumper_SetDeviceSettings`. -/
def setDeviceSettings (t : DevSettings) (u : ℕ) (s : TDeviceSettings) : DevSettings :=
  if u < 16 then Function.update t u s else t

/-- `SideDumper_GetDeviceSettings`, `none` for `-ENODEV`. -/
def getDeviceSettings (t : DevSettings) (u : ℕ) : Option TDeviceSettings :=
  if u < 16 then some (t u) else none

/-- What `SideDumper_Enable` and `SideDumper_Disable` store into
`oEnabled`. -/
def storeEnabled (v : ℕ) (t : DevSettings) (u : ℕ) : DevSettings :=
  if u < 16 then Function.update t u ((t u).set .oEnabled v) else t

/-- `SideDumper_Enable`. -/
def enable : DevSettings → ℕ → DevSettings := storeEnabled 1

/-- `SideDumper_Disable`. -/
def disable : DevSettings → ℕ → DevSettings := storeEnabled 0

/-! ## Scanning -/

/-- The characters of a text, as bytes. -/
def ascii (s : String) : List UInt8 := s.toList.map (fun c => c.val.toUInt8)

/-- What separates tokens: a blank, a tab, a comma, a colon or a newline. -/
def isDelimitor (c : UInt8) : Bool := c = 32 || c = 9 || c = 44 || c = 58 || c = 10

/-- `EatDelimitor`. -/
def eatDelimitor (x : List UInt8) : List UInt8 := x.dropWhile isDelimitor

/-- The value of a hexadecimal digit, `none` for another byte. -/
def hexValue (c : UInt8) : Option ℕ :=
  if 48 ≤ c ∧ c ≤ 57 then some (c.toNat - 48)
  else if 97 ≤ c ∧ c ≤ 102 then some (c.toNat - 87)
  else if 65 ≤ c ∧ c ≤ 70 then some (c.toNat - 55)
  else none

/-- The value of a digit in a base. -/
def digitValue (base : ℕ) (c : UInt8) : Option ℕ := (hexValue c).filter (· < base)

/-- The loop of `simple_strtoul`. -/
def strtoulDigits (base : ℕ) : ℕ → List UInt8 → ℕ × List UInt8
  | result, [] => (result, [])
  | result, c :: x =>
    match digitValue base c with
    | some v => strtoulDigits base ((result * base + v) % 0x100000000) x
    | none => (result, c :: x)

/-- The base that `simple_strtoul` finds out for the base 0, and where the
digits begin. -/
def strtoulBase : List UInt8 → ℕ × List UInt8
  | [] => (10, [])
  | c :: x =>
    if c ≠ 48 then (10, c :: x)
    else
      match x with
      | d :: e :: y => if d = 120 ∧ (hexValue e).isSome then (16, e :: y) else (8, x)
      | _ => (8, x)

/-- **`simple_strtoul`**: the number, and the end pointer. -/
def simpleStrtoul (x : List UInt8) (base : ℕ) : ℕ × List UInt8 :=
  if base = 0 then strtoulDigits (strtoulBase x).1 0 (strtoulBase x).2 else strtoulDigits base 0 x

/-! ## The loops -/

/-- A pass of the loop of `Write_Enabled` and `Write_Disabled`, up to the
call: the number and the next position, or `none` for the `break`. -/
def readNumber (behind : ℕ) (x : List UInt8) : Option (ℕ × List UInt8) :=
  let cur := eatDelimitor x
  let r := simpleStrtoul cur 10
  if cur.length = r.2.length ∨ cur.length ≤ behind then none else some r

/-- The name of a field in a text. -/
def SettingsField.name : SettingsField → List UInt8
  | .oEnabled => ascii "Enabled:"
  | .oAsync => ascii "Async:"
  | .uOutLimit => ascii "OutLimit:"
  | .uInLimit => ascii "InLimit:"

/-- The base in which the value of a field is read. -/
def SettingsField.base : SettingsField → ℕ
  | .oEnabled | .oAsync => 10
  | .uOutLimit | .uInLimit => 0

/-- The field whose name is at the front, by `memcmp`. -/
def fieldAt (cur : List UInt8) : Option SettingsField :=
  if SettingsField.oEnabled.name <+: cur then some .oEnabled
  else if SettingsField.oAsync.name <+: cur then some .oAsync
  else if SettingsField.uOutLimit.name <+: cur then some .uOutLimit
  else if SettingsField.uInLimit.name <+: cur then some .uInLimit
  else none

/-- A pass of the loop of `Write_DeviceSettings`, up to the call: the field
and its value, and the next position. -/
def readSetting (behind : ℕ) (x : List UInt8) : Option ((SettingsField × ℕ) × List UInt8) :=
  let cur := eatDelimitor x
  if cur.length ≤ behind then none
  else
    match fieldAt cur with
    | none => none
    | some f =>
      let cur := cur.drop f.name.length
      let r := simpleStrtoul cur f.base
      if cur.length = r.2.length then none else some ((f, r.1), r.2)

theorem eatDelimitor_length_le (x : List UInt8) : (eatDelimitor x).length ≤ x.length :=
  (List.dropWhile_suffix isDelimitor).length_le

theorem strtoulDigits_suffix (base n : ℕ) (x : List UInt8) :
    (strtoulDigits base n x).2 <:+ x := by
  induction x generalizing n with
  | nil => exact List.suffix_rfl
  | cons c x ih =>
    rw [strtoulDigits]
    split
    · exact (ih _).trans (List.suffix_cons c x)
    · exact List.suffix_rfl

theorem strtoulBase_suffix (x : List UInt8) : (strtoulBase x).2 <:+ x := by
  unfold strtoulBase
  split
  · exact List.suffix_rfl
  · split
    · exact List.suffix_rfl
    · split
      · split
        · exact (List.suffix_cons _ _).trans (List.suffix_cons _ _)
        · exact List.suffix_cons _ _
      · exact List.suffix_cons _ _

/-- The end pointer points into the text. -/
theorem simpleStrtoul_suffix (x : List UInt8) (base : ℕ) : (simpleStrtoul x base).2 <:+ x := by
  unfold simpleStrtoul
  split
  · exact (strtoulDigits_suffix _ _ _).trans (strtoulBase_suffix x)
  · exact strtoulDigits_suffix _ _ _

/-- The loop of `Write_Enabled` and `Write_Disabled`. -/
def numbers : Reader UInt8 ℕ where
  read := readNumber
  shrinks := by
    intro behind x y v h
    unfold readNumber at h
    dsimp only at h
    split at h
    · cases h
    · rename_i hne
      rw [Option.some.injEq] at h
      rw [not_or, h] at hne
      have hlen := (simpleStrtoul_suffix (eatDelimitor x) 10).length_le
      rw [h] at hlen
      dsimp only at hlen hne
      have := eatDelimitor_length_le x
      omega

/-- The loop of `Write_DeviceSettings`. -/
def settings : Reader UInt8 (SettingsField × ℕ) where
  read := readSetting
  shrinks := by
    intro behind x y v h
    unfold readSetting at h
    dsimp only at h
    split at h
    · cases h
    split at h
    · cases h
    rename_i f hf
    split at h
    · cases h
    rename_i hne
    rw [Option.some.injEq, Prod.mk.injEq] at h
    obtain ⟨-, rfl⟩ := h
    have hlen := (simpleStrtoul_suffix ((eatDelimitor x).drop f.name.length) f.base).length_le
    have := eatDelimitor_length_le x
    rw [List.length_drop] at hlen hne
    omega

/-! ## The files -/

/-- The files that change the settings, with what `data` says for a
`device_xx`. -/
inductive SettingsFile
  | enabled
  | disabled
  | device (u : ℕ)
deriving DecidableEq, Repr

/-- What a pass of the loop of `Write_DeviceSettings` does with an
assignment: into the copy `s` on the stack, and from there to the table. -/
def storeSetting (u : ℕ) (st : TDeviceSettings × DevSettings) (a : SettingsField × ℕ) :
    TDeviceSettings × DevSettings :=
  let s := st.1.set a.1 a.2
  (s, setDeviceSettings st.2 u s)

/-- **`Write_Enabled`, `Write_Disabled` and `Write_DeviceSettings`** for a
text that the buffer has room for, with `rest` behind it: the settings
afterwards and the return value, `-22` for `-EINVAL`. -/
def SettingsFile.write (file : SettingsFile) (text rest : List UInt8) (t : DevSettings) :
    DevSettings × ℤ :=
  let a := text.take 255
  match file with
  | enabled => (numbers.run enable rest.length (a ++ rest) t, text.length)
  | disabled => (numbers.run disable rest.length (a ++ rest) t, text.length)
  | device u =>
    match getDeviceSettings t u with
    | none => (t, -22)
    | some s => ((settings.run (storeSetting u) rest.length (a ++ rest) (s, t)).2, text.length)
