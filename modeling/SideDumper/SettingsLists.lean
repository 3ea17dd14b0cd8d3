import SideDumper.SettingsText
import Mathlib.Data.List.TakeWhile

/-!
# Lists of devices

A text for `Write_Enabled` or `Write_Disabled` is a list of numbers with
delimiters behind each. At most 255 bytes of it are copied, and the whole
count is returned. What is left of the list is the numbers that end, with a
delimiter, in front of the cut. A number at the cut goes on with the digits
that the buffer happens to hold there, so that it may name any device.
-/

/-- The bytes of characters. -/
def asciiChars (cs : List Char) : List UInt8 := cs.map (fun c => c.val.toUInt8)

/-! ## Decimal numbers -/

section Decimal

variable {cs : List Char} {c : Char} {d : UInt8} {r : List UInt8}

theorem exists_digitChar_of_isDigit (h : c.isDigit) : ∃ k < 10, c = Nat.digitChar k := by
  have hall : ∀ k < 10, (Nat.digitChar k).toNat = 48 + k := by decide
  obtain ⟨hlow, hhigh⟩ : 48 ≤ c.toNat ∧ c.toNat ≤ 57 := Char.isDigit_iff_toNat.mp h
  refine ⟨c.toNat - 48, by omega, Char.toNat_inj.mp ?_⟩
  rw [hall _ (by omega)]
  omega

theorem digitValue_digit (h : c.isDigit) : digitValue 10 c.val.toUInt8 = some (c.toNat - 48) := by
  have hall : ∀ k < 10, digitValue 10 (Nat.digitChar k).val.toUInt8
      = some ((Nat.digitChar k).toNat - 48) := by
    decide
  obtain ⟨k, hk, rfl⟩ := exists_digitChar_of_isDigit h
  exact hall k hk

/-- **Decimal digits** are read as the number they stand for, as far as 32
bits hold it. -/
theorem strtoulDigits_decimal (hcs : ∀ c ∈ cs, c.isDigit) (n : ℕ) (r : List UInt8) :
    strtoulDigits 10 (n % 0x100000000) (asciiChars cs ++ r)
      = strtoulDigits 10 (Nat.ofDigitChars 10 cs n % 0x100000000) r := by
  induction cs generalizing n with
  | nil => rfl
  | cons c cs ih =>
    rw [List.forall_mem_cons] at hcs
    have hmod : (n % 0x100000000 * 10 + (c.toNat - 48)) % 0x100000000
        = (10 * n + (c.toNat - 48)) % 0x100000000 := by omega
    rw [asciiChars, List.map_cons, List.cons_append, strtoulDigits, digitValue_digit hcs.1]
    dsimp only
    rw [hmod, Nat.ofDigitChars_cons]
    exact ih hcs.2 _

theorem allDigits_decimal (hcs : ∀ c ∈ cs, c.isDigit) : allDigits 10 (asciiChars cs) = true := by
  rw [allDigits, asciiChars, List.all_map, List.all_eq_true]
  intro c hc
  rw [Function.comp_apply, digitValue_digit (hcs c hc)]
  rfl

/-- A number ends at the first byte that is no digit. -/
theorem strtoulDigits_decimal_end (hcs : ∀ c ∈ cs, c.isDigit)
    (hlt : Nat.ofDigitChars 10 cs 0 < 0x100000000)
    (hd : digitValue 10 d = none) : strtoulDigits 10 0 (asciiChars cs ++ d :: r)
      = (Nat.ofDigitChars 10 cs 0, d :: r) := by
  have h := strtoulDigits_decimal hcs 0 (d :: r)
  rw [Nat.zero_mod, Nat.mod_eq_of_lt hlt, strtoulDigits, hd] at h
  exact h

/-- No delimiter is a digit. -/
theorem hexValue_delimitor (h : isDelimitor d = true) : hexValue d = none := by
  simp only [isDelimitor, Bool.or_eq_true, decide_eq_true_eq] at h
  rcases h with (((rfl | rfl) | rfl) | rfl) | rfl <;> decide

theorem digitValue_delimitor (h : isDelimitor d = true) (base : ℕ) :
    digitValue base d = none := by
  rw [digitValue, hexValue_delimitor h]
  rfl

theorem not_isDelimitor_digit (h : c.isDigit) : isDelimitor c.val.toUInt8 = false := by
  rw [← Bool.not_eq_true]
  intro hd
  have hv := digitValue_digit h
  rw [digitValue_delimitor hd] at hv
  cases hv

/-- Delimiters are eaten. -/
theorem eatDelimitor_delimitors {ds : List UInt8} (h : ∀ c ∈ ds, isDelimitor c = true)
    (x : List UInt8) :
    eatDelimitor (ds ++ x) = eatDelimitor x :=
  eatDelimitor_append_of_eq_nil (List.dropWhile_eq_nil_iff.mpr h)

theorem eatDelimitor_decimal (hne : cs ≠ []) (hcs : ∀ c ∈ cs, c.isDigit) (x : List UInt8) :
    eatDelimitor (asciiChars cs ++ x) = asciiChars cs ++ x := by
  obtain ⟨c, cs, rfl⟩ := List.exists_cons_of_ne_nil hne
  rw [eatDelimitor, asciiChars, List.map_cons, List.cons_append, List.dropWhile_cons_of_neg]
  rw [not_isDelimitor_digit (hcs c List.mem_cons_self)]
  exact Bool.false_ne_true

/-- Delimiters in front make no difference to the numbers. -/
theorem tokens_delimitors {ds : List UInt8} (h : ∀ c ∈ ds, isDelimitor c = true) (behind : ℕ)
    (x : List UInt8) :
    numbers.tokens behind (ds ++ x) = numbers.tokens behind x := by
  refine Reader.tokens_congr ?_
  rw [numbers_read, numbers_read, eatDelimitor_delimitors h]

end Decimal

/-! ## The numbers of a list -/

/-- **A number of a list** below 2^32, with the delimiters behind it. -/
structure ListedNumber where
  digits : List Char
  behind : List UInt8
  digits_ne : digits ≠ []
  isDigit : ∀ c ∈ digits, c.isDigit
  lt : Nat.ofDigitChars 10 digits 0 < 0x100000000
  behind_ne : behind ≠ []
  behind_delimitor : ∀ c ∈ behind, isDelimitor c = true

namespace ListedNumber

/-- The number. -/
def value (x : ListedNumber) : ℕ := Nat.ofDigitChars 10 x.digits 0

/-- Its text. -/
def text (x : ListedNumber) : List UInt8 := asciiChars x.digits ++ x.behind

/-- **The numbers that end within `n` bytes**, with a delimiter. -/
def wholeIn : List ListedNumber → ℕ → List ℕ
  | [], _ => []
  | x :: xs, n => if x.digits.length < n then x.value :: wholeIn xs (n - x.text.length) else []

/-- **The first `n` bytes end in a number**: no delimiter behind it is among
them. -/
def cutIn : List ListedNumber → ℕ → Prop
  | [], _ => False
  | x :: xs, n => if x.digits.length < n then cutIn xs (n - x.text.length) else 0 < n

instance cutIn.decidable : ∀ (xs : List ListedNumber) (n : ℕ), Decidable (cutIn xs n)
  | [], _ => inferInstanceAs (Decidable False)
  | x :: xs, n =>
    have := cutIn.decidable xs (n - x.text.length)
    inferInstanceAs (Decidable (if x.digits.length < n then cutIn xs (n - x.text.length)
      else 0 < n))

variable {x : ListedNumber} {xs : List ListedNumber} {n : ℕ} {r z : List UInt8}

theorem length_asciiChars (cs : List Char) : (asciiChars cs).length = cs.length :=
  List.length_map _

/-- The number is read where a delimiter stands behind it. -/
theorem read (x : ListedNumber) {m behind : ℕ} (hm : 0 < m) (hz : behind ≤ z.length) :
    numbers.read behind (asciiChars x.digits ++ (x.behind.take m ++ z))
      = some (x.value, x.behind.take m ++ z) := by
  obtain ⟨d, ds, hds⟩ : ∃ d ds, x.behind.take m = d :: ds := by
    obtain ⟨d, ds, hb⟩ := List.exists_cons_of_ne_nil x.behind_ne
    obtain ⟨k, rfl⟩ := Nat.exists_eq_succ_of_ne_zero (Nat.pos_iff_ne_zero.mp hm)
    exact ⟨d, ds.take k, by rw [hb, List.take_succ_cons]⟩
  have hd : digitValue 10 d = none := by
    refine digitValue_delimitor (x.behind_delimitor d (List.mem_of_mem_take (i := m) ?_)) 10
    rw [hds]
    exact List.mem_cons_self
  have hpos := List.length_pos_iff.mpr x.digits_ne
  rw [numbers_read, eatDelimitor_decimal x.digits_ne x.isDigit, hds, List.cons_append,
    strtoulDigits_decimal_end x.isDigit x.lt hd, if_neg]
  · rfl
  · rw [List.length_append, length_asciiChars, List.length_cons, List.length_append]
    omega

/-- The first number is read, and then the others. -/
theorem tokens_cons (h : x.digits.length < n) (r : List UInt8) :
    numbers.tokens r.length (((x :: xs).flatMap text).take n ++ r)
      = x.value :: numbers.tokens r.length ((xs.flatMap text).take (n - x.text.length) ++ r) := by
  have htake : ((x :: xs).flatMap text).take n ++ r = asciiChars x.digits ++
      (x.behind.take (n - x.digits.length)
        ++ ((xs.flatMap text).take (n - x.text.length) ++ r)) := by
    have hlen : x.text.length = x.digits.length + x.behind.length := by
      rw [text, List.length_append, length_asciiChars]
    rw [hlen, Nat.sub_add_eq, List.flatMap_cons, text, List.append_assoc, List.take_append,
      List.take_append,
      length_asciiChars, List.take_of_length_le (by rw [length_asciiChars]; omega)]
    simp only [List.append_assoc]
  have hread :=
    x.read (z := (xs.flatMap text).take (n - x.text.length) ++ r) (Nat.sub_pos_of_lt h)
    (List.length_append ▸ Nat.le_add_left _ _ : r.length ≤ _)
  rw [htake, Reader.tokens_of_some hread,
    tokens_delimitors (fun c hc => x.behind_delimitor c (List.mem_of_mem_take hc))]

/-- Nothing is read behind the end of the text. -/
theorem tokens_self (r : List UInt8) : numbers.tokens r.length r = [] := by
  refine Reader.tokens_of_none ?_
  rw [numbers_read, if_pos (.inr (eatDelimitor_length_le r))]

/-- **What is read of a list that is not cut in a number.** -/
theorem tokens_of_not_cutIn (h : ¬ cutIn xs n) (r : List UInt8) :
    numbers.tokens r.length ((xs.flatMap text).take n ++ r) = wholeIn xs n := by
  induction xs generalizing n with
  | nil =>
    rw [List.flatMap_nil, List.take_nil, List.nil_append, tokens_self]
    rfl
  | cons x xs ih =>
    rw [cutIn] at h
    rw [wholeIn]
    split at h
    · rename_i hlen
      rw [tokens_cons hlen, ih h, if_pos hlen]
    · rename_i hlen
      rw [show n = 0 by omega, List.take_zero, List.nil_append, tokens_self,
        if_neg (Nat.not_lt_zero _)]

/-- **What is read of a list that is cut in a number**: the number at the cut
goes on behind it. -/
theorem tokens_of_cutIn (h : cutIn xs n) : ∃ y, OpenNumber y ∧ ∀ r,
    numbers.tokens r.length ((xs.flatMap text).take n ++ r)
      = wholeIn xs n ++ numbers.tokens r.length (y ++ r) := by
  induction xs generalizing n with
  | nil => exact h.elim
  | cons x xs ih =>
    rw [cutIn] at h
    rw [wholeIn]
    split at h
    · rename_i hlen
      obtain ⟨y, hy, htokens⟩ := ih h
      refine ⟨y, hy, fun r => ?_⟩
      rw [tokens_cons hlen, htokens, if_pos hlen, List.cons_append]
    · rename_i hlen
      have htake : ((x :: xs).flatMap text).take n = asciiChars (x.digits.take n) := by
        rw [List.flatMap_cons, text, List.append_assoc,
          List.take_append_of_le_length (by rw [length_asciiChars]; omega), asciiChars,
            ← List.map_take]
        rfl
      have hne : x.digits.take n ≠ [] := by
        rw [Ne, List.take_eq_nil_iff, not_or]
        exact ⟨by omega, x.digits_ne⟩
      have hdigits : ∀ c ∈ x.digits.take n, c.isDigit :=
        fun c hc => x.isDigit c (List.mem_of_mem_take hc)
      have heat := eatDelimitor_decimal hne hdigits []
      rw [List.append_nil] at heat
      refine ⟨asciiChars (x.digits.take n), ⟨?_, ?_⟩, fun r => ?_⟩
      · rw [heat, asciiChars, Ne, List.map_eq_nil_iff]
        exact hne
      · rw [heat, openDigits_ten]
        exact allDigits_decimal hdigits
      · rw [htake, if_neg hlen, List.nil_append]

/-- What is whole is in the list. -/
theorem wholeIn_subset (xs : List ListedNumber) (n : ℕ) :
    ∀ v ∈ wholeIn xs n, v ∈ xs.map value := by
  induction xs generalizing n with
  | nil => exact fun v hv => absurd hv List.not_mem_nil
  | cons x xs ih =>
    intro v hv
    rw [wholeIn] at hv
    rw [List.map_cons, List.mem_cons]
    split at hv
    · rcases List.mem_cons.mp hv with rfl | hv
      · exact .inl rfl
      · exact .inr (ih _ v hv)
    · cases hv

/-- Where there is room for all of the list, all of it is whole. -/
theorem wholeIn_of_length_le (xs : List ListedNumber) (h : (xs.flatMap text).length ≤ n) :
    wholeIn xs n = xs.map value ∧ ¬ cutIn xs n := by
  induction xs generalizing n with
  | nil => exact ⟨rfl, id⟩
  | cons x xs ih =>
    have hpos := List.length_pos_iff.mpr x.behind_ne
    have hlen : x.text.length = x.digits.length + x.behind.length := by
      rw [text, List.length_append, length_asciiChars]
    rw [List.flatMap_cons, List.length_append] at h
    obtain ⟨hwhole, hcut⟩ := ih (n := n - x.text.length) (by omega)
    rw [wholeIn, cutIn, if_pos (by omega), if_pos (by omega), hwhole]
    exact ⟨rfl, hcut⟩

end ListedNumber

/-! ## Writing a list -/

/-- **A list of devices**, which may begin with delimiters. -/
structure DeviceList where
  front : List UInt8
  entries : List ListedNumber
  front_delimitor : ∀ c ∈ front, isDelimitor c = true

/-- The file that a list is written to: `enabled` or `disabled`. -/
def SettingsFile.list (on : Bool) : SettingsFile := if on then enabled else disabled

namespace DeviceList

/-- The text of a list. -/
def text (l : DeviceList) : List UInt8 := l.front ++ l.entries.flatMap ListedNumber.text

/-- The numbers in it. -/
def devices (l : DeviceList) : List ℕ := l.entries.map ListedNumber.value

/-- Those that end, with a delimiter, within the 255 bytes that are copied. -/
def whole (l : DeviceList) : List ℕ := ListedNumber.wholeIn l.entries (255 - l.front.length)

/-- **A number is cut off**: the last of the bytes that are copied is a digit. -/
def Cut (l : DeviceList) : Prop := ListedNumber.cutIn l.entries (255 - l.front.length)

instance (l : DeviceList) : Decidable l.Cut := ListedNumber.cutIn.decidable _ _

/-- The settings when each device of a list is switched. -/
def switched (l : DeviceList) (on : Bool) (t : DevSettings) : DevSettings :=
  fun d => if d < 16 ∧ d ∈ l.devices then (t d).set .oEnabled on.toNat else t d

/-- **The list is applied whole**, whatever the buffer held before: when the
full count is returned, exactly the devices of the list are switched, and
nothing else is changed. -/
def Applied (l : DeviceList) (on : Bool) (t : DevSettings) : Prop :=
  ∀ rest, ((SettingsFile.list on).write l.text rest t).2 = l.text.length →
    ((SettingsFile.list on).write l.text rest t).1 = l.switched on t

variable {l : DeviceList} {on : Bool} {t : DevSettings}

/-- The full count is always returned, and the numbers are switched that are
read. -/
theorem write_list (on : Bool) (text rest : List UInt8) (t : DevSettings) :
    (SettingsFile.list on).write text rest t
      = (fun d => if d < 16 ∧ d ∈ numbers.tokens rest.length (text.take 255 ++ rest) then
          (t d).set .oEnabled on.toNat else t d, (text.length : ℤ)) := by
  cases on with
  | false =>
    refine Prod.ext ?_ rfl
    show numbers.run disable rest.length (text.take 255 ++ rest) t = _
    rw [Reader.run_eq_foldl]
    exact foldl_storeEnabled 0 t _
  | true =>
    refine Prod.ext ?_ rfl
    show numbers.run enable rest.length (text.take 255 ++ rest) t = _
    rw [Reader.run_eq_foldl]
    exact foldl_storeEnabled 1 t _

theorem text_take (l : DeviceList) :
    l.text.take 255 = l.front.take 255 ++ (l.entries.flatMap ListedNumber.text).take
      (255 - l.front.length) :=
  List.take_append

theorem front_take_delimitor (l : DeviceList) : ∀ c ∈ l.front.take 255, isDelimitor c = true :=
  fun c hc => l.front_delimitor c (List.mem_of_mem_take hc)

/-- A list that is not cut off in a number: its whole numbers are read. -/
theorem tokens_of_not_cut (h : ¬ l.Cut) (rest : List UInt8) :
    numbers.tokens rest.length (l.text.take 255 ++ rest) = l.whole := by
  rw [text_take, List.append_assoc, tokens_delimitors l.front_take_delimitor]
  exact ListedNumber.tokens_of_not_cutIn h rest

/-- **A number that is cut off** may become any device, or none. -/
theorem tokens_of_cut (h : l.Cut) : ∀ d < 17, ∃ rest,
    numbers.tokens rest.length (l.text.take 255 ++ rest) = l.whole ++ [d] := by
  intro d hd
  obtain ⟨y, hy, htokens⟩ := ListedNumber.tokens_of_cutIn h
  refine ⟨zerosThen d, ?_⟩
  rw [text_take, List.append_assoc, tokens_delimitors l.front_take_delimitor, htokens,
    tokens_zerosThen hy hd]
  rfl

/-- In any case the whole numbers come first. -/
theorem whole_subset_tokens (l : DeviceList) (rest : List UInt8) :
    ∀ d ∈ l.whole, d ∈ numbers.tokens rest.length (l.text.take 255 ++ rest) := by
  intro d hd
  by_cases h : l.Cut
  · obtain ⟨y, -, htokens⟩ := ListedNumber.tokens_of_cutIn h
    rw [text_take, List.append_assoc, tokens_delimitors l.front_take_delimitor, htokens]
    exact List.mem_append_left _ hd
  · rw [tokens_of_not_cut h]
    exact hd

/-- Switching a device that is switched changes nothing. -/
theorem set_oEnabled_self {s : TDeviceSettings} {v : ℕ} (h : s.oEnabled = v) :
    s.set .oEnabled v = s := by
  rw [← h]
  rfl

/-- The tokens that are read are switched, so where a list is applied whole
they are its devices, as far as a device is not switched already. -/
theorem Applied.mem_tokens_iff (h : l.Applied on t) {d : ℕ} (hd : d < 16)
    (hne : (t d).oEnabled ≠ on.toNat)
    (rest : List UInt8) :
    d ∈ numbers.tokens rest.length (l.text.take 255 ++ rest) ↔ d ∈ l.devices := by
  have hset : (t d).set .oEnabled on.toNat ≠ t d :=
    fun hs => hne (congrArg TDeviceSettings.oEnabled hs).symm
  have hd' := congrFun (h rest (by rw [write_list])) d
  rw [write_list, switched] at hd'
  dsimp only at hd'
  by_cases hr : d ∈ numbers.tokens rest.length (l.text.take 255 ++ rest)
  · rw [if_pos ⟨hd, hr⟩] at hd'
    refine iff_of_true hr (by_contra fun hn => ?_)
    rw [if_neg (fun hn' => hn hn'.2)] at hd'
    exact hset hd'
  · rw [if_neg (fun hn => hr hn.2)] at hd'
    refine iff_of_false hr (fun hn => ?_)
    rw [if_pos ⟨hd, hn⟩] at hd'
    exact hset hd'.symm

/-- No device is missed, and none is hit by a number that was cut off. -/
theorem Applied.mem_whole (h : l.Applied on t) {d : ℕ} (hd : d < 16)
    (hne : (t d).oEnabled ≠ on.toNat)
    (hwhy : d ∈ l.devices ∨ l.Cut) : d ∈ l.whole := by
  by_cases hcut : l.Cut
  · -- The number that is cut off may be this device or none.
    by_contra hwhole
    obtain ⟨rest, htokens⟩ := tokens_of_cut hcut d (by omega)
    obtain ⟨rest', htokens'⟩ := tokens_of_cut hcut 16 (by decide)
    have hin := h.mem_tokens_iff hd hne rest
    have hout := h.mem_tokens_iff hd hne rest'
    rw [htokens, List.mem_append, List.mem_singleton, or_iff_right hwhole] at hin
    rw [htokens', List.mem_append, List.mem_singleton, or_iff_right hwhole] at hout
    exact absurd (hout.mpr (hin.mp rfl)) (by omega)
  · rw [← tokens_of_not_cut hcut []]
    exact (h.mem_tokens_iff hd hne []).mpr (hwhy.resolve_right hcut)

/-- The tokens that are read are the devices of the list, as far as it
matters. -/
theorem mem_tokens_iff_of_whole {d : ℕ} (h : d ∈ l.devices ∨ l.Cut → d ∈ l.whole)
    (rest : List UInt8) :
    d ∈ numbers.tokens rest.length (l.text.take 255 ++ rest) ↔ d ∈ l.devices := by
  by_cases hcut : l.Cut
  · have hwhole := h (.inr hcut)
    exact iff_of_true (l.whole_subset_tokens rest d hwhole)
      (ListedNumber.wholeIn_subset _ _ d hwhole)
  · rw [tokens_of_not_cut hcut]
    exact ⟨ListedNumber.wholeIn_subset _ _ d, fun hn => h (.inl hn)⟩

/-- **When a list is applied whole**: exactly when each device that is not
switched already is named by a number that ends within the bytes that are
copied, or is not named at all and no number is cut off. -/
theorem applied_iff (l : DeviceList) (on : Bool) (t : DevSettings) : l.Applied on t ↔
    ∀ d < 16, (t d).oEnabled ≠ on.toNat → (d ∈ l.devices ∨ l.Cut) → d ∈ l.whole := by
  refine ⟨fun h d hd hne hwhy => h.mem_whole hd hne hwhy, fun h rest _ => ?_⟩
  rw [write_list]
  funext d
  rw [switched]
  dsimp only
  by_cases hd : d < 16
  · by_cases heq : (t d).oEnabled = on.toNat
    · rw [set_oEnabled_self heq, ite_self, ite_self]
    · simp only [mem_tokens_iff_of_whole (h d hd heq)]
  · rw [if_neg (fun hn => hd hn.1), if_neg (fun hn => hd hn.1)]

/-- A list of at most 255 bytes is whole. -/
theorem whole_of_length_le (h : l.text.length ≤ 255) : l.whole = l.devices ∧ ¬ l.Cut := by
  rw [text, List.length_append] at h
  exact ListedNumber.wholeIn_of_length_le l.entries (by omega)

/-- **A list of at most 255 bytes is applied whole.** -/
theorem applied_of_length_le (h : l.text.length ≤ 255) (on : Bool) (t : DevSettings)
    (rest : List UInt8) :
    ((SettingsFile.list on).write l.text rest t).1 = l.switched on t := by
  obtain ⟨hwhole, hcut⟩ := whole_of_length_le h
  rw [write_list, tokens_of_not_cut hcut, hwhole]
  rfl

theorem delimitor_nil : ∀ c ∈ ([] : List UInt8), isDelimitor c = true := List.all_eq_true.mp rfl

/-- The device 1, some blanks, and the device 2. -/
def blanksBetween (k : ℕ) : DeviceList where
  front := []
  entries := [⟨['1'], 32 :: List.replicate k 32, by decide, List.all_eq_true.mp rfl, by decide,
    List.cons_ne_nil _ _, fun c hc => by rw [List.eq_of_mem_replicate (n := k + 1) hc]; decide⟩,
    ⟨['2'], [10], by decide, List.all_eq_true.mp rfl, by decide, by decide,
      List.all_eq_true.mp rfl⟩]
  front_delimitor := delimitor_nil

/-- The device 2 stands behind the 255 bytes that are copied. -/
theorem whole_blanksBetween {k : ℕ} (hk : 253 ≤ k) :
    (blanksBetween k).whole = [1] ∧ ¬ (blanksBetween k).Cut := by
  have hone : Nat.ofDigitChars 10 ['1'] 0 = 1 := by decide
  simp [whole, Cut, blanksBetween, ListedNumber.wholeIn, ListedNumber.cutIn,
    ListedNumber.text, asciiChars, ListedNumber.value, hone]
  omega

/-- The device 2 is not enabled. -/
theorem not_applied : ¬ ∀ (l : DeviceList) (on : Bool) (t : DevSettings), l.Applied on t := by
  intro h
  obtain ⟨hwhole, hcut⟩ := whole_blanksBetween (k := 254) (by decide)
  have h₂ := congrFun (h (blanksBetween 254) true initialSettings [] (by rw [write_list])) 2
  rw [write_list, tokens_of_not_cut hcut, hwhole] at h₂
  exact absurd (congrArg TDeviceSettings.oEnabled h₂) (by decide)

end DeviceList
