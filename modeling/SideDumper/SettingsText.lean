import SideDumper.Settings
import Mathlib.Tactic.NormNum

/-!
# What a write to the settings depends on

The buffer is not terminated behind what was copied, and `pEnd` is compared
with the position only where a token begins. A token that the end of the text
cuts off is therefore read on into what the buffer held before: digits that
follow the last number belong to it, and the rest of a field name that was
begun is looked for there.

`write_independent_iff` says that this is the only way in which the result
depends on more than the text.
-/

/-- The bytes `5` and `6`, which are digits in every base. -/
def IsFiveOrSix (c : UInt8) : Prop := c = 53 ∨ c = 54

/-! ## Numbers -/

/-- All of the text are digits. -/
def allDigits (base : ℕ) (x : List UInt8) : Bool := x.all (fun c => (digitValue base c).isSome)

/-- **A number that may go on behind the text**: all of it are digits, or it
is the `0x` of a number that has no digits yet. -/
def OpenDigits (base : ℕ) (x : List UInt8) : Prop :=
  if base = 0 then x = [48, 120] ∨ allDigits (strtoulBase x).1 (strtoulBase x).2 = true
  else allDigits base x = true

section Digits

variable {base n : ℕ} {x r : List UInt8}

theorem strtoulDigits_append (h : allDigits base x = false) (n : ℕ) :
    strtoulDigits base n (x ++ r)
      = ((strtoulDigits base n x).1, (strtoulDigits base n x).2 ++ r) := by
  induction x generalizing n with
  | nil => cases h
  | cons c x ih =>
    rw [List.cons_append, strtoulDigits, strtoulDigits]
    cases hc : digitValue base c with
    | none => rfl
    | some v =>
      refine ih ?_ _
      rw [allDigits, List.all_cons, hc] at h
      exact h

/-- The end pointer is at the end exactly behind digits alone. -/
theorem strtoulDigits_eq_nil : (strtoulDigits base n x).2 = [] ↔ allDigits base x = true := by
  induction x generalizing n with
  | nil => exact iff_of_true rfl rfl
  | cons c x ih =>
    rw [strtoulDigits, allDigits, List.all_cons]
    cases hc : digitValue base c with
    | none => exact iff_of_false (by simp) (by simp)
    | some v =>
      rw [Option.isSome_some, Bool.true_and]
      exact ih

/-- Digits are read one after the other. -/
theorem strtoulDigits_append_digits (h : allDigits base x = true) (n : ℕ) :
    strtoulDigits base n (x ++ r) = strtoulDigits base (strtoulDigits base n x).1 r := by
  induction x generalizing n with
  | nil => rfl
  | cons c x ih =>
    rw [allDigits, List.all_cons, Bool.and_eq_true] at h
    obtain ⟨v, hv⟩ := Option.isSome_iff_exists.mp h.1
    rw [List.cons_append, strtoulDigits, strtoulDigits, hv]
    exact ih h.2 _

theorem strtoulDigits_fiveOrSix {c : UInt8} (hc : IsFiveOrSix c) (hbase : 8 ≤ base) (n : ℕ) :
    strtoulDigits base n [c] = ((n * base + (c.toNat - 48)) % 0x100000000, []) := by
  have hv : digitValue base c = some (c.toNat - 48) := by
    rcases hc with rfl | rfl
    · exact Option.filter_eq_some_iff.mpr ⟨by decide, by simpa using (by omega : 5 < base)⟩
    · exact Option.filter_eq_some_iff.mpr ⟨by decide, by simpa using (by omega : 6 < base)⟩
  rw [strtoulDigits, hv]
  rfl

/-- Finding out the base looks at three bytes at most. -/
theorem strtoulBase_append (hnil : x ≠ []) (hzero : x ≠ [48]) (hx : x ≠ [48, 120]) :
    strtoulBase (x ++ r) = ((strtoulBase x).1, (strtoulBase x).2 ++ r) := by
  match x with
  | [] => exact absurd rfl hnil
  | [c] =>
    have hc : c ≠ 48 := fun h => hzero (by rw [h])
    simp only [strtoulBase, List.cons_append, if_pos hc]
  | [c, d] =>
    by_cases hc : c = 48
    · have hd : d ≠ 120 := fun h => hx (by rw [hc, h])
      cases r with
      | nil => rw [List.append_nil, List.append_nil]
      | cons e r => simp [strtoulBase, hc, hd]
    · simp [strtoulBase, hc]
  | c :: d :: e :: y =>
    by_cases hc : c = 48
    · by_cases hd : d = 120 ∧ (hexValue e).isSome
      · simp only [strtoulBase, List.cons_append, if_neg (not_not.mpr hc), if_pos hd]
      · simp only [strtoulBase, List.cons_append, if_neg (not_not.mpr hc), if_neg hd]
    · simp [strtoulBase, hc]

/-- The base is 8, 10 or 16. -/
theorem le_strtoulBase (x : List UInt8) : 8 ≤ (strtoulBase x).1 := by
  unfold strtoulBase
  split
  · decide
  · split
    · exact (by decide : 8 ≤ 10)
    · split
      · split
        · exact (by decide : 8 ≤ 16)
        · exact Nat.le_refl 8
      · exact Nat.le_refl 8

/-- **A number that is not open is read off the text.** -/
theorem simpleStrtoul_append (h : ¬ OpenDigits base x) :
    simpleStrtoul (x ++ r) base = ((simpleStrtoul x base).1, (simpleStrtoul x base).2 ++ r) := by
  unfold OpenDigits at h
  unfold simpleStrtoul
  by_cases hb : base = 0
  · rw [if_pos hb, not_or, Bool.not_eq_true] at h
    have hnil : x ≠ [] := fun hx => by simp [hx, strtoulBase, allDigits] at h
    have hzero : x ≠ [48] := fun hx => by simp [hx, strtoulBase, allDigits] at h
    rw [if_pos hb, if_pos hb, strtoulBase_append hnil hzero h.1]
    exact strtoulDigits_append h.2 0
  · rw [if_neg hb, Bool.not_eq_true] at h
    rw [if_neg hb, if_neg hb]
    exact strtoulDigits_append h 0

/-- **A number that is open goes on with what follows.** -/
theorem simpleStrtoul_open (h : OpenDigits base x) (hbase : base = 0 ∨ 8 ≤ base) :
    ∃ n b, ∀ c, IsFiveOrSix c →
      simpleStrtoul (x ++ [c]) base = ((n * b + (c.toNat - 48)) % 0x100000000, []) := by
  have hdigits : ∀ (b : ℕ) (y : List UInt8), 8 ≤ b → allDigits b y = true → ∀ c, IsFiveOrSix c →
      strtoulDigits b 0 (y ++ [c])
        = (((strtoulDigits b 0 y).1 * b + (c.toNat - 48)) % 0x100000000, []) := by
    intro b y hb hy c hc
    rw [strtoulDigits_append_digits hy, strtoulDigits_fiveOrSix hc hb]
  unfold OpenDigits at h
  unfold simpleStrtoul
  by_cases hb : base = 0
  · rw [if_pos hb] at h
    simp only [if_pos hb]
    by_cases hx : x = [48, 120]
    · refine ⟨0, 16, fun c hc => ?_⟩
      rcases hc with rfl | rfl <;> rw [hx] <;> rfl
    by_cases hzero : x = [48]
    · refine ⟨0, 8, fun c hc => ?_⟩
      rcases hc with rfl | rfl <;> rw [hzero] <;> rfl
    by_cases hnil : x = []
    · refine ⟨0, 10, fun c hc => ?_⟩
      rcases hc with rfl | rfl <;> rw [hnil] <;> rfl
    refine ⟨(strtoulDigits (strtoulBase x).1 0 (strtoulBase x).2).1, (strtoulBase x).1,
      fun c hc => ?_⟩
    rw [strtoulBase_append hnil hzero hx]
    exact hdigits _ _ (le_strtoulBase x) (h.resolve_left hx) c hc
  · rw [if_neg hb] at h
    simp only [if_neg hb]
    exact ⟨_, _, hdigits base x (hbase.resolve_left hb) h⟩

end Digits

/-! ## Tokens -/

/-- **A position at which the text ends in a number.** -/
def OpenNumber (x : List UInt8) : Prop := eatDelimitor x ≠ [] ∧ OpenDigits 10 (eatDelimitor x)

/-- **A position at which the text ends in an assignment**: in the name of a
field, or in the number behind it. -/
def OpenSetting (x : List UInt8) : Prop :=
  eatDelimitor x ≠ [] ∧ ∃ f : SettingsField,
    (eatDelimitor x <+: f.name ∧ eatDelimitor x ≠ f.name)
      ∨ ∃ ds, eatDelimitor x = f.name ++ ds ∧ OpenDigits f.base ds

section Tokens

variable {x y r : List UInt8} {n : ℕ}

theorem eatDelimitor_append (h : eatDelimitor x ≠ []) :
    eatDelimitor (x ++ r) = eatDelimitor x ++ r := by
  unfold eatDelimitor at h ⊢
  rw [List.dropWhile_append, if_neg (by simpa using h)]

theorem eatDelimitor_append_of_eq_nil (h : eatDelimitor x = []) :
    eatDelimitor (x ++ r) = eatDelimitor r := by
  unfold eatDelimitor at h ⊢
  rw [List.dropWhile_append, if_pos (by simpa using h)]

theorem openDigits_ten : OpenDigits 10 x ↔ allDigits 10 x = true := by
  rw [OpenDigits, if_neg (by decide)]

/-- A pass of the loop, without names. -/
theorem numbers_read (behind : ℕ) (x : List UInt8) : numbers.read behind x =
    if (eatDelimitor x).length = (strtoulDigits 10 0 (eatDelimitor x)).2.length
        ∨ (eatDelimitor x).length ≤ behind then none
      else some (strtoulDigits 10 0 (eatDelimitor x)) := rfl

theorem numbers_read_nil (behind : ℕ) : numbers.read behind [] = none := by
  rw [numbers_read, if_pos (.inl rfl)]

/-- Nothing but delimiters. -/
theorem numbers_read_of_eq_nil (h : eatDelimitor x = []) :
    numbers.read r.length (x ++ r) = none := by
  rw [numbers_read, eatDelimitor_append_of_eq_nil h, if_pos (.inr (eatDelimitor_length_le r))]

theorem local_numbers (h : ¬ OpenNumber x) : numbers.Local x := by
  intro r
  by_cases hx : eatDelimitor x = []
  · have h₀ := numbers_read_of_eq_nil (r := []) hx
    rw [List.append_nil, List.length_nil] at h₀
    rw [numbers_read_of_eq_nil hx, h₀, Option.map_none]
  have hopen : allDigits 10 (eatDelimitor x) = false :=
    Bool.not_eq_true _ ▸ fun ho => h ⟨hx, openDigits_ten.mpr ho⟩
  have hpos := List.length_pos_iff.mpr hx
  rw [numbers_read, numbers_read, eatDelimitor_append hx, strtoulDigits_append hopen]
  dsimp only
  rw [List.length_append, List.length_append]
  by_cases hlen : (eatDelimitor x).length = (strtoulDigits 10 0 (eatDelimitor x)).2.length
  · rw [if_pos (.inl (by rw [hlen])), if_pos (.inl hlen), Option.map_none]
  · rw [if_neg (by omega), if_neg (by omega), Option.map_some]

/-- What is read of an open number, and of the digits behind it. -/
theorem tokens_openNumber (h : OpenNumber x) (hr : allDigits 10 r = true) :
    numbers.tokens r.length (x ++ r) = [(strtoulDigits 10 0 (eatDelimitor x ++ r)).1] := by
  obtain ⟨hx, ho⟩ := h
  rw [openDigits_ten] at ho
  have hpos := List.length_pos_iff.mpr hx
  have hall : allDigits 10 (eatDelimitor x ++ r) = true := by
    rw [allDigits, List.all_append, Bool.and_eq_true]
    exact ⟨ho, hr⟩
  have hend : (strtoulDigits 10 0 (eatDelimitor x ++ r)).2 = [] := strtoulDigits_eq_nil.mpr hall
  have hread : numbers.read r.length (x ++ r)
      = some ((strtoulDigits 10 0 (eatDelimitor x ++ r)).1, []) := by
    rw [numbers_read, eatDelimitor_append hx, hend, List.length_append, List.length_nil,
      if_neg (by omega), ← hend]
  rw [Reader.tokens_of_some hread, Reader.tokens_of_none (numbers_read_nil _)]

/-- Nothing is read behind an open number. -/
theorem numbers_last {v : ℕ} (h : OpenNumber x) (hread : numbers.read 0 x = some (v, y)) :
    ¬ OpenNumber y ∧ numbers.read 0 y = none := by
  obtain ⟨hx, ho⟩ := h
  rw [openDigits_ten] at ho
  have hend : (strtoulDigits 10 0 (eatDelimitor x)).2 = [] := strtoulDigits_eq_nil.mpr ho
  rw [numbers_read] at hread
  split at hread
  · cases hread
  · rw [Option.some.injEq] at hread
    rw [hread] at hend
    dsimp only at hend
    rw [hend]
    exact ⟨fun hn => hn.1 rfl, numbers_read_nil 0⟩

/-! ## Assignments -/

/-- A pass of the loop of `Write_DeviceSettings`, without names. -/
theorem settings_read (behind : ℕ) (x : List UInt8) : settings.read behind x =
    if (eatDelimitor x).length ≤ behind then none
    else (fieldAt (eatDelimitor x)).bind fun f =>
      if ((eatDelimitor x).drop f.name.length).length
          = (simpleStrtoul ((eatDelimitor x).drop f.name.length) f.base).2.length then none
      else some ((f, (simpleStrtoul ((eatDelimitor x).drop f.name.length) f.base).1),
        (simpleStrtoul ((eatDelimitor x).drop f.name.length) f.base).2) := by
  change readSetting behind x = _
  unfold readSetting
  dsimp only
  cases fieldAt (eatDelimitor x) <;> rfl

/-- The field whose name is at the front is found. -/
theorem fieldAt_name (f : SettingsField) (ds : List UInt8) : fieldAt (f.name ++ ds) = some f := by
  have hne : ∀ g : SettingsField, g ≠ f → ¬ g.name <+: f.name ++ ds := by
    intro g hg hp
    -- the first letters differ
    have hhead : g.name.head? = f.name.head? := by
      obtain ⟨t, ht⟩ := hp
      have h := congrArg List.head? ht
      cases f <;> cases g <;> exact h
    cases f <;> cases g <;> first | exact hg rfl | exact absurd hhead (by decide)
  have hself : f.name <+: f.name ++ ds := List.prefix_append _ _
  unfold fieldAt
  cases f
  · rw [if_pos hself]
  · rw [if_neg (hne _ (by decide)), if_pos hself]
  · rw [if_neg (hne _ (by decide)), if_neg (hne _ (by decide)), if_pos hself]
  · rw [if_neg (hne _ (by decide)), if_neg (hne _ (by decide)), if_neg (hne _ (by decide)),
      if_pos hself]

theorem fieldAt_eq_some {z : List UInt8} {f : SettingsField} (h : fieldAt z = some f) :
    ∃ ds, z = f.name ++ ds := by
  have hmem : ∀ g : SettingsField, g.name <+: z → some g = some f → ∃ ds, z = f.name ++ ds := by
    intro g hp hg
    obtain ⟨ds, hds⟩ := hp
    cases hg
    exact ⟨ds, hds.symm⟩
  unfold fieldAt at h
  repeat' split at h
  · exact hmem _ ‹_› h
  · exact hmem _ ‹_› h
  · exact hmem _ ‹_› h
  · exact hmem _ ‹_› h
  · cases h

/-- Which name is at the front is told by the text, unless the text ends in
it. -/
theorem fieldAt_append {z : List UInt8} (h : ¬ ∃ f : SettingsField, z <+: f.name ∧ z ≠ f.name)
    (r : List UInt8) : fieldAt (z ++ r) = fieldAt z := by
  cases hz : fieldAt z with
  | some f =>
    obtain ⟨ds, rfl⟩ := fieldAt_eq_some hz
    rw [List.append_assoc, fieldAt_name]
  | none =>
    cases hr : fieldAt (z ++ r) with
    | none => rfl
    | some f =>
      obtain ⟨ds, hds⟩ := fieldAt_eq_some hr
      obtain hp | hp := List.prefix_or_prefix_of_prefix (List.prefix_append z r)
        (hds ▸ List.prefix_append f.name ds)
      · by_cases heq : z = f.name
        · have hf := fieldAt_name f []
          rw [List.append_nil, ← heq, hz] at hf
          cases hf
        · exact absurd ⟨f, hp, heq⟩ h
      · obtain ⟨ds', rfl⟩ := hp
        rw [fieldAt_name] at hz
        cases hz

theorem settings_read_nil (behind : ℕ) : settings.read behind [] = none := by
  rw [settings_read, show eatDelimitor [] = [] from rfl, List.length_nil, if_pos (Nat.zero_le _)]

theorem settings_read_of_eq_nil (h : eatDelimitor x = []) :
    settings.read r.length (x ++ r) = none := by
  rw [settings_read, eatDelimitor_append_of_eq_nil h, if_pos (eatDelimitor_length_le r)]

theorem local_settings (h : ¬ OpenSetting x) : settings.Local x := by
  intro r
  by_cases hx : eatDelimitor x = []
  · have h₀ := settings_read_of_eq_nil (r := []) hx
    rw [List.append_nil, List.length_nil] at h₀
    rw [settings_read_of_eq_nil hx, h₀, Option.map_none]
  have hname : ¬ ∃ f : SettingsField, eatDelimitor x <+: f.name ∧ eatDelimitor x ≠ f.name :=
    fun ⟨f, hf⟩ => h ⟨hx, f, .inl hf⟩
  have hpos := List.length_pos_iff.mpr hx
  rw [settings_read, settings_read, eatDelimitor_append hx, fieldAt_append hname,
    List.length_append, if_neg (by omega), if_neg (by omega)]
  cases hf : fieldAt (eatDelimitor x) with
  | none => rfl
  | some f =>
    obtain ⟨ds, hds⟩ := fieldAt_eq_some hf
    have hopen : ¬ OpenDigits f.base ds := fun ho => h ⟨hx, f, .inr ⟨ds, hds, ho⟩⟩
    simp only [Option.bind_some, hds, List.append_assoc, List.drop_left,
      simpleStrtoul_append hopen, List.length_append]
    by_cases hlen : ds.length = (simpleStrtoul ds f.base).2.length
    · rw [if_pos (by omega), if_pos hlen, Option.map_none]
    · rw [if_neg (by omega), if_neg hlen, Option.map_some]

/-- What is read of an open assignment: a number that depends on the bytes
behind the text. -/
theorem tokens_openSetting (h : OpenSetting x) :
    ∃ (f : SettingsField) (pre : List UInt8) (n b : ℕ),
    ∀ c, IsFiveOrSix c → settings.tokens (pre ++ [c]).length (x ++ (pre ++ [c]))
      = [(f, (n * b + (c.toNat - 48)) % 0x100000000)] := by
  obtain ⟨hx, f, hf⟩ := h
  have hpos := List.length_pos_iff.mpr hx
  -- the name is completed, and then the number
  obtain ⟨pre, ds, hds, hopen⟩ : ∃ pre ds, eatDelimitor x ++ pre = f.name ++ ds ∧
      OpenDigits f.base ds := by
    obtain ⟨⟨pre, hpre⟩, -⟩ | ⟨ds, hds, ho⟩ := hf
    · refine ⟨pre, [], by rw [hpre, List.append_nil], ?_⟩
      cases f <;> simp [OpenDigits, SettingsField.base, allDigits, strtoulBase]
    · exact ⟨[], ds, by rw [hds, List.append_nil], ho⟩
  obtain ⟨n, b, hnum⟩ := simpleStrtoul_open hopen (by cases f <;> simp [SettingsField.base])
  refine ⟨f, pre, n, b, fun c hc => ?_⟩
  have hz : eatDelimitor x ++ (pre ++ [c]) = f.name ++ (ds ++ [c]) := by
    rw [← List.append_assoc, hds, List.append_assoc]
  have hlong : ¬ (eatDelimitor x ++ (pre ++ [c])).length ≤ (pre ++ [c]).length := by
    rw [List.length_append]
    omega
  have hread : settings.read (pre ++ [c]).length (x ++ (pre ++ [c]))
      = some ((f, (n * b + (c.toNat - 48)) % 0x100000000), []) := by
    rw [settings_read, eatDelimitor_append hx, if_neg hlong, hz,
      fieldAt_name, Option.bind_some, List.drop_left, hnum c hc]
    dsimp only
    rw [if_neg (by simp)]
  rw [Reader.tokens_of_some hread, Reader.tokens_of_none (settings_read_nil _)]

/-- Nothing is read behind an open assignment. -/
theorem settings_last {v : SettingsField × ℕ} (h : OpenSetting x)
    (hread : settings.read 0 x = some (v, y)) :
    ¬ OpenSetting y ∧ settings.read 0 y = none := by
  obtain ⟨hx, f, hf⟩ := h
  have hpos := List.length_pos_iff.mpr hx
  rw [settings_read, if_neg (by omega)] at hread
  obtain ⟨g, hg, hread⟩ := Option.bind_eq_some_iff.mp hread
  obtain ⟨es, hes⟩ := fieldAt_eq_some hg
  obtain ⟨hp, hne⟩ | ⟨ds, hds, ho⟩ := hf
  · -- the name is cut off, so that nothing is found
    exfalso
    have hfg : f = g := by
      obtain ⟨t, ht⟩ := hp
      have h := fieldAt_name f []
      rw [List.append_nil, ← ht, hes, List.append_assoc, fieldAt_name] at h
      exact (Option.some.inj h).symm
    subst hfg
    have := hp.length_le
    rw [hes, List.length_append] at this
    rw [hes, List.length_eq_zero_iff.mp (by omega : es.length = 0), List.append_nil] at hne
    exact hne rfl
  rw [hds, fieldAt_name, Option.some.injEq] at hg
  subst hg
  rw [hds, List.drop_left] at hread
  split at hread
  · cases hread
  rename_i hlen
  rw [Option.some.injEq, Prod.mk.injEq] at hread
  have hy : (simpleStrtoul ds f.base).2 = [] ∨ (simpleStrtoul ds f.base).2 = [120] := by
    unfold OpenDigits at ho
    unfold simpleStrtoul
    by_cases hb : f.base = 0
    · rw [if_pos hb] at ho ⊢
      rcases ho with rfl | ho
      · exact .inr (by decide)
      · exact .inl (strtoulDigits_eq_nil.mpr ho)
    · rw [if_neg hb] at ho ⊢
      exact .inl (strtoulDigits_eq_nil.mpr ho)
  rw [hread.2] at hy
  rcases hy with rfl | rfl
  · exact ⟨fun hn => hn.1 rfl, settings_read_nil 0⟩
  · refine ⟨fun hn => ?_, by decide⟩
    obtain ⟨-, g, ⟨⟨t, ht⟩, -⟩ | ⟨t, ht, -⟩⟩ := hn
    · cases g <;> cases ht
    · cases g <;> cases ht

end Tokens

/-! ## Writing -/

/-- **A text that is cut off where it matters.** For a list of devices it
ends in a number, and there is a device for which a number makes a difference:
it is not set as the numbers are to set it, and none before names it. For the
settings of a device it ends in an assignment. -/
def SettingsFile.Exposed (file : SettingsFile) (text : List UInt8) (t : DevSettings) : Prop :=
  match file with
  | enabled => ∃ ts y, numbers.Reaches text ts y ∧ OpenNumber y ∧
      ∃ d < 16, (t d).oEnabled ≠ 1 ∧ d ∉ ts
  | disabled => ∃ ts y, numbers.Reaches text ts y ∧ OpenNumber y ∧
      ∃ d < 16, (t d).oEnabled ≠ 0 ∧ d ∉ ts
  | device u => u < 16 ∧ ∃ ts y, settings.Reaches text ts y ∧ OpenSetting y

section Write

variable {t : DevSettings} {v d u : ℕ} {ts : List ℕ} {text x y : List UInt8}

/-- The table after some calls of `SideDumper_Enable` or `SideDumper_Disable`. -/
theorem foldl_storeEnabled (v : ℕ) (t : DevSettings) (ts : List ℕ) : ts.foldl (storeEnabled v) t =
    fun d => if d < 16 ∧ d ∈ ts then (t d).set .oEnabled v else t d := by
  induction ts generalizing t with
  | nil => funext d; rw [List.foldl_nil, if_neg (by simp)]
  | cons u ts ih =>
    funext d
    rw [List.foldl_cons, ih, storeEnabled]
    dsimp only
    by_cases hd : d < 16
    · by_cases hdu : d = u
      · subst hdu
        rw [if_pos hd, Function.update_self, if_pos (⟨hd, List.mem_cons_self⟩ : d < 16 ∧
          d ∈ d :: ts)]
        split
        · rfl
        · rfl
      · have hmem : d ∈ u :: ts ↔ d ∈ ts := by rw [List.mem_cons, or_iff_right hdu]
        have hother : (if u < 16 then Function.update t u ((t u).set .oEnabled v) else t) d
            = t d := by
          split
          · exact Function.update_of_ne hdu _ _
          · rfl
        rw [hother]
        simp only [hmem]
    · have hts : ∀ ts : List ℕ, ¬ (d < 16 ∧ d ∈ ts) := fun _ h => hd h.1
      rw [if_neg (hts ts), if_neg (hts (u :: ts))]
      split
      · exact Function.update_of_ne (by omega) _ _
      · rfl

theorem strtoulDigits_lt {base n : ℕ} (h : n < 0x100000000) (x : List UInt8) :
    (strtoulDigits base n x).1 < 0x100000000 := by
  induction x generalizing n with
  | nil => exact h
  | cons c x ih =>
    rw [strtoulDigits]
    split
    · exact ih (Nat.mod_lt _ (by decide))
    · exact h

theorem strtoulDigits_zeros (k n : ℕ) (r : List UInt8) :
    strtoulDigits 10 (n % 0x100000000) (List.replicate k 48 ++ r)
      = strtoulDigits 10 (n * 10 ^ k % 0x100000000) r := by
  induction k generalizing n with
  | zero => rw [List.replicate_zero, List.nil_append, Nat.pow_zero, Nat.mul_one]
  | succ k ih =>
    have hv : digitValue 10 48 = some 0 := by decide
    rw [List.replicate_succ, List.cons_append, strtoulDigits, hv]
    dsimp only
    rw [ih, Nat.add_zero, Nat.pow_succ', ← Nat.mul_assoc, Nat.mul_assoc, Nat.mul_assoc,
      Nat.mod_mul_mod]

/-- The number `d` in decimal behind so many zeros that nothing is left of what
stands in front. -/
def zerosThen (d : ℕ) : List UInt8 :=
  List.replicate 32 48 ++ [UInt8.ofNat (48 + d / 10), UInt8.ofNat (48 + d % 10)]

theorem allDigits_zerosThen : ∀ d < 17, allDigits 10 (zerosThen d) = true := by
  decide

/-- **Any device can be named behind an open number.** -/
theorem tokens_zerosThen (h : OpenNumber x) (hd : d < 17) :
    numbers.tokens (zerosThen d).length (x ++ zerosThen d) = [d] := by
  have hlast : ∀ d < 17, strtoulDigits 10 0 [UInt8.ofNat (48 + d / 10), UInt8.ofNat (48 + d % 10)]
      = (d, []) := by
    decide
  have hzero : ∀ n, n * 10 ^ 32 % 0x100000000 = 0 := fun n =>
    Nat.mod_eq_zero_of_dvd (Dvd.dvd.mul_left (by norm_num) n)
  have hlt : (strtoulDigits 10 0 (eatDelimitor x)).1 < 0x100000000 :=
    strtoulDigits_lt (by decide) _
  rw [tokens_openNumber h (allDigits_zerosThen d hd),
    strtoulDigits_append_digits (openDigits_ten.mp h.2),
    zerosThen, ← Nat.mod_eq_of_lt hlt, strtoulDigits_zeros, hzero, hlast d hd]

/-- **When a list of devices has the same effect with anything behind it.** -/
theorem numbers_independent_iff (v : ℕ) (text : List UInt8) (t : DevSettings) :
    (∀ r r', numbers.run (storeEnabled v) r.length (text ++ r) t
        = numbers.run (storeEnabled v) r'.length (text ++ r') t)
      ↔ ¬ ∃ ts y, numbers.Reaches text ts y ∧ OpenNumber y ∧ ∃ d < 16, (t d).oEnabled ≠ v ∧
        d ∉ ts := by
  have hlocal : ∀ x, ¬ OpenNumber x → numbers.Local x := fun x => local_numbers
  have hlast : ∀ x v y, OpenNumber x → numbers.read 0 x = some (v, y) →
      ¬ OpenNumber y ∧ numbers.read 0 y = none := fun x v y => numbers_last
  simp only [Reader.run_eq_foldl, foldl_storeEnabled]
  constructor
  · rintro h ⟨ts, y, hy, hopen, d, hd, hne, hmem⟩
    have hother : ¬ (d < 16 ∧ d ∈ ts ++ [16]) := by
      rw [List.mem_append, List.mem_singleton]
      rintro ⟨-, hm | rfl⟩
      · exact hmem hm
      · exact absurd hd (by decide)
    have heq := congrArg (fun s : TDeviceSettings => s.get .oEnabled)
      (congrFun (h (zerosThen d) (zerosThen 16)) d)
    rw [Reader.tokens_append_of_reaches hlocal hlast hy hopen, tokens_zerosThen hopen (by omega),
      Reader.tokens_append_of_reaches hlocal hlast hy hopen, tokens_zerosThen hopen (by omega),
      if_pos ⟨hd, List.mem_append_right _ (List.mem_singleton_self d)⟩, if_neg hother] at heq
    exact hne heq.symm
  · intro h r r'
    by_cases hopen : ∃ ts y, numbers.Reaches text ts y ∧ OpenNumber y
    · obtain ⟨ts, y, hy, hopen⟩ := hopen
      -- every device is set already when the last number is read
      have hset : ∀ d < 16, (t d).oEnabled = v ∨ d ∈ ts := by
        intro d hd
        by_contra hn
        rw [not_or] at hn
        exact h ⟨ts, y, hy, hopen, d, hd, hn⟩
      have htable : ∀ r, (fun d => if d < 16 ∧ d ∈ numbers.tokens r.length (text ++ r)
          then (t d).set .oEnabled v else t d)
          = fun d => if d < 16 then (t d).set .oEnabled v else t d := by
        intro r
        funext d
        rw [Reader.tokens_append_of_reaches hlocal hlast hy hopen]
        by_cases hd : d < 16
        · rw [if_pos hd]
          rcases hset d hd with hv | hmem
          · rw [← hv]
            exact ite_self _
          · rw [if_pos ⟨hd, List.mem_append_left _ hmem⟩]
        · rw [if_neg hd, if_neg (fun h => hd h.1)]
      rw [htable, htable]
    · have hclosed : ∀ ts y, numbers.Reaches text ts y → ¬ OpenNumber y := fun ts y hy ho =>
        hopen ⟨ts, y, hy, ho⟩
      rw [Reader.tokens_append_of_closed hlocal text r hclosed,
        Reader.tokens_append_of_closed hlocal text r' hclosed]

/-- **When assignments have the same effect with anything behind them.** -/
theorem settings_independent_iff (hu : u < 16) (text : List UInt8) (s : TDeviceSettings)
    (t : DevSettings) :
    (∀ r r', (settings.run (storeSetting u) r.length (text ++ r) (s, t)).2
        = (settings.run (storeSetting u) r'.length (text ++ r') (s, t)).2)
      ↔ ¬ ∃ ts y, settings.Reaches text ts y ∧ OpenSetting y := by
  have hlocal : ∀ x, ¬ OpenSetting x → settings.Local x := fun x => local_settings
  have hlast : ∀ x v y, OpenSetting x → settings.read 0 x = some (v, y) →
      ¬ OpenSetting y ∧ settings.read 0 y = none := fun x v y => settings_last
  simp only [Reader.run_eq_foldl]
  constructor
  · rintro h ⟨ts, y, hy, hopen⟩
    obtain ⟨f, pre, n, b, hc⟩ := tokens_openSetting hopen
    have hval : ∀ c, IsFiveOrSix c →
        (((settings.tokens (pre ++ [c]).length (text ++ (pre ++ [c]))).foldl
        (storeSetting u) (s, t)).2 u).get f = (n * b + (c.toNat - 48)) % 0x100000000 := by
      intro c hfs
      rw [Reader.tokens_append_of_reaches hlocal hlast hy hopen, hc c hfs, List.foldl_append,
        List.foldl_cons, List.foldl_nil, storeSetting, setDeviceSettings, if_pos hu]
      dsimp only
      rw [Function.update_self, TDeviceSettings.get_set_self]
    have heq := congrArg (fun t : DevSettings => (t u).get f) (h (pre ++ [53]) (pre ++ [54]))
    rw [hval 53 (.inl rfl), hval 54 (.inr rfl), show (53 : UInt8).toNat = 53 from rfl,
      show (54 : UInt8).toNat = 54 from rfl] at heq
    omega
  · intro h r r'
    have hclosed : ∀ ts y, settings.Reaches text ts y → ¬ OpenSetting y :=
      fun ts y hy ho => h ⟨ts, y, hy, ho⟩
    rw [Reader.tokens_append_of_closed hlocal text r hclosed,
      Reader.tokens_append_of_closed hlocal text r' hclosed]

/-- **When a write depends on what was written alone**: exactly when the text,
as far as it is copied, is not cut off where it matters. -/
theorem write_independent_iff (file : SettingsFile) (text : List UInt8) (t : DevSettings) :
    (∀ rest rest', file.write text rest t = file.write text rest' t)
      ↔ ¬ file.Exposed (text.take 255) t := by
  cases file with
  | enabled =>
    refine Iff.trans (forall₂_congr fun r r' => ?_) (numbers_independent_iff 1 (text.take 255) t)
    exact Prod.mk_left_inj
  | disabled =>
    refine Iff.trans (forall₂_congr fun r r' => ?_) (numbers_independent_iff 0 (text.take 255) t)
    exact Prod.mk_left_inj
  | device u =>
    by_cases hu : u < 16
    · refine Iff.trans (forall₂_congr fun r r' => ?_)
        (Iff.trans (settings_independent_iff hu (text.take 255) (t u) t)
          (not_congr (and_iff_right hu).symm))
      simp only [SettingsFile.write, getDeviceSettings, if_pos hu]
      exact Prod.mk_left_inj
    · refine iff_of_true (fun r r' => ?_) (fun h => hu h.1)
      simp only [SettingsFile.write, getDeviceSettings, if_neg hu]

/-- The settings a kernel starts with. -/
def initialSettings : DevSettings := fun _ => ⟨⟨0xffffffff, 0xffffffff⟩, 0, 0, 0⟩

/-- `1` is written to `enabled`, and the buffer happens to go on with a `2`. -/
theorem write_not_independent : ¬ ∀ (file : SettingsFile) (text : List UInt8) (t : DevSettings)
    (rest rest' : List UInt8), file.write text rest t = file.write text rest' t := by
  intro h
  have htokens : ∀ r v, numbers.read r.length (ascii "1" ++ r) = some (v, []) →
      (SettingsFile.enabled.write (ascii "1") r initialSettings).1
        = enable initialSettings v := by
    intro r v hread
    change numbers.run enable r.length (ascii "1" ++ r) initialSettings = _
    rw [Reader.run_eq_foldl, Reader.tokens_of_some hread,
      Reader.tokens_of_none (numbers_read_nil _)]
    rfl
  have heq := h .enabled (ascii "1") initialSettings [] (ascii "2")
  have h₁ := htokens [] 1 (by decide)
  have h₂ := htokens (ascii "2") 12 (by decide)
  rw [heq, h₂] at h₁
  exact absurd (congrArg (fun t : DevSettings => (t 1).oEnabled) h₁) (by decide)

end Write
