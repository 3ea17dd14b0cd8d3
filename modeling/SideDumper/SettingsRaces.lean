import SideDumper.Settings

/-!
# Settings that are changed at the same time

`SideDumper_Enable` and `SideDumper_Disable` store one field.
`Write_DeviceSettings` reads the settings of its device, copies the text from
the user, which may sleep, and then stores all fields once for each
assignment of the text: the one that is assigned to, and the others as it has
read them. What another has written to these in between is reverted.
-/

/-- **A call of `Write_DeviceSettings`** that is under way: its device, the
settings `s` on its stack, the text, and from the copy on what is behind the
text in the buffer and the position. -/
structure SettingsWriter where
  u : ℕ
  s : TDeviceSettings
  text : List UInt8
  scan : Option (ℕ × List UInt8)

/-- **The table with its writers.** `log` is history: the writes that name a
field of a device, with the value, the latest first. -/
structure SettingsSys where
  table : DevSettings
  writers : ℕ → Option SettingsWriter
  log : List (ℕ × SettingsField × ℕ)

/-- The steps: `SideDumper_Enable` and `SideDumper_Disable`, the call of
`Write_DeviceSettings` up to `SideDumper_GetDeviceSettings`, its
`copy_from_user` with what the buffer holds behind the text, and a pass of its
loop. -/
inductive SettingsMove
  | enable (u : ℕ)
  | disable (u : ℕ)
  | get (i u : ℕ) (text : List UInt8)
  | copy (i : ℕ) (rest : List UInt8)
  | pass (i : ℕ)

namespace SettingsSys

/-- The table before any of the writes. -/
def start (t : DevSettings) : SettingsSys := ⟨t, fun _ => none, []⟩

/-- `oEnabled` of a device is set. -/
def switch (y : SettingsSys) (v u : ℕ) : SettingsSys :=
  { y with
    table := storeEnabled v y.table u
    log := if u < 16 then (u, .oEnabled, v) :: y.log else y.log }

/-- A writer goes on. -/
def writer (y : SettingsSys) (i : ℕ) (w : Option SettingsWriter) : SettingsSys :=
  { y with writers := Function.update y.writers i w }

/-- A pass of the loop of a writer whose text has an assignment at the
position. -/
def assign (y : SettingsSys) (i : ℕ) (w : SettingsWriter) (a : SettingsField × ℕ)
    (scan : ℕ × List UInt8) :
    SettingsSys :=
  let st := storeSetting w.u (w.s, y.table) a
  { table := st.2
    writers := Function.update y.writers i (some { w with s := st.1, scan := some scan })
    log := (w.u, a) :: y.log }

/-- **A step**, if it is possible. -/
def move (y : SettingsSys) : SettingsMove → Option SettingsSys
  | .enable u => some (y.switch 1 u)
  | .disable u => some (y.switch 0 u)
  | .get i u text =>
    match y.writers i, getDeviceSettings y.table u with
    | none, some s => some (y.writer i (some ⟨u, s, text, none⟩))
    | _, _ => none
  | .copy i rest => do
    let w ← y.writers i
    if w.scan.isSome then none
    else some (y.writer i (some { w with scan := some (rest.length, w.text.take 255 ++ rest) }))
  | .pass i => do
    let w ← y.writers i
    let (behind, x) ← w.scan
    match settings.read behind x with
    | none => some (y.writer i none)
    | some (a, next) => some (y.assign i w a (behind, next))

/-- A run. -/
def moves : SettingsSys → List SettingsMove → Option SettingsSys
  | y, [] => some y
  | y, m :: ms => do (← y.move m).moves ms

/-! ## The last write -/

/-- The value of the last write that names a field of a device. -/
def lastNamed (t : DevSettings) (log : List (ℕ × SettingsField × ℕ)) (u : ℕ)
    (f : SettingsField) : ℕ :=
  match log.find? (fun w => w.1 = u ∧ w.2.1 = f) with
  | some w => w.2.2
  | none => (t u).get f

/-- Every field has the value of the last write that names it. -/
def Kept (t : DevSettings) (y : SettingsSys) : Prop :=
  ∀ u < 16, ∀ f, (y.table u).get f = lastNamed t y.log u f

/-- A step changes no field but the one it names. -/
def Frame (y y' : SettingsSys) : Prop :=
  ∀ u < 16, ∀ f, (∀ v, y'.log ≠ (u, f, v) :: y.log) → (y'.table u).get f = (y.table u).get f

/-- **No change is lost** in a run. -/
def KeptThroughout (t : DevSettings) : SettingsSys → List SettingsMove → Prop
  | y, [] => y.Kept t
  | y, m :: ms => y.Kept t ∧ ∀ y', y.move m = some y' → y.Frame y' ∧ y'.KeptThroughout t ms

/-- **A step that stores nothing stale**: when a writer assigns to a field, it
has the other fields of its device as they are in the table. -/
def Clean (y : SettingsSys) (m : SettingsMove) : Prop :=
  ∀ i w behind x f v next, m = .pass i → y.writers i = some w → w.scan = some (behind, x) →
    settings.read behind x = some ((f, v), next) → ∀ g, g ≠ f → w.s.get g = (y.table w.u).get g

/-- A run of such steps. -/
def CleanThroughout : SettingsSys → List SettingsMove → Prop
  | _, [] => True
  | y, m :: ms => y.Clean m ∧ ∀ y', y.move m = some y' → y'.CleanThroughout ms

section Runs

variable {t : DevSettings} {y y' : SettingsSys} {m : SettingsMove} {ms : List SettingsMove}
  {u v : ℕ} {f : SettingsField} {log : List (ℕ × SettingsField × ℕ)}

theorem lastNamed_cons (g : SettingsField) (d : ℕ) : lastNamed t ((u, f, v) :: log) d g
    = if d = u ∧ g = f then v else lastNamed t log d g := by
  unfold lastNamed
  rw [List.find?_cons]
  by_cases h : d = u ∧ g = f
  · simp [h]
  · have hne : decide (u = d ∧ f = g) = false := by
      rw [decide_eq_false_iff_not]
      rintro ⟨rfl, rfl⟩
      exact h ⟨rfl, rfl⟩
    simp only [hne, if_neg h]

/-- The device of every writer is there. -/
def Writers (y : SettingsSys) : Prop := ∀ i w, y.writers i = some w → w.u < 16

theorem Writers.update {i : ℕ} (h : y.Writers) {o : Option SettingsWriter}
    (ho : ∀ w, o = some w → w.u < 16)
    (hw : y'.writers = Function.update y.writers i o) : y'.Writers := by
  intro j w hj
  rw [hw, Function.update_apply] at hj
  split at hj
  · exact ho w hj
  · exact h j w hj

theorem Writers.move (h : y.Writers) (hm : y.move m = some y') : y'.Writers := by
  cases m with
  | enable u =>
    cases hm
    exact h
  | disable u =>
    cases hm
    exact h
  | get i u text =>
    unfold SettingsSys.move getDeviceSettings at hm
    dsimp only at hm
    split at hm
    · rename_i s _ hs
      cases hm
      split at hs
      · refine h.update (fun w hw => ?_) rfl
        cases hw
        assumption
      · cases hs
    · cases hm
  | copy i rest =>
    obtain ⟨w, hw, hm⟩ := Option.bind_eq_some_iff.mp hm
    split at hm
    · cases hm
    · cases hm
      refine h.update (fun w' hw' => ?_) rfl
      cases hw'
      exact h i w hw
  | pass i =>
    obtain ⟨w, hw, hm⟩ := Option.bind_eq_some_iff.mp hm
    obtain ⟨⟨behind, x⟩, -, hm⟩ := Option.bind_eq_some_iff.mp hm
    dsimp only at hm
    split at hm
    · cases hm
      exact h.update (fun w' hw' => by cases hw') rfl
    · cases hm
      refine h.update (fun w' hw' => ?_) rfl
      cases hw'
      exact h i w hw

/-- The passes of a writer. -/
theorem move_pass {i : ℕ} {w : SettingsWriter} {behind : ℕ} {x : List UInt8}
    (hi : y.writers i = some w)
    (hx : w.scan = some (behind, x)) : y.move (.pass i) = match settings.read behind x with
      | none => some (y.writer i none)
      | some (a, next) => some (y.assign i w a (behind, next)) := by
  rw [SettingsSys.move, hi, Option.bind_eq_bind, Option.bind_some, hx, Option.bind_eq_bind,
    Option.bind_some]

/-- A step that changes neither the table nor the history. -/
theorem kept_of_same (hk : y.Kept t) (ht : y'.table = y.table) (hl : y'.log = y.log) :
    y.Frame y' ∧ y'.Kept t := by
  refine ⟨fun u _ f _ => by rw [ht], fun u hu f => ?_⟩
  rw [ht, hl]
  exact hk u hu f

/-- A write that stores settings `s` for the value `v` of a field. -/
theorem kept_write_iff (hk : y.Kept t) (hu : u < 16) {s : TDeviceSettings} (hs : s.get f = v)
    (ht : y'.table = Function.update y.table u s) (hl : y'.log = (u, f, v) :: y.log) :
    (y.Frame y' ∧ y'.Kept t) ↔ ∀ g, g ≠ f → s.get g = (y.table u).get g := by
  constructor
  · rintro ⟨hframe, -⟩ g hg
    have h := hframe u hu g (fun w hw => by
      rw [hl, List.cons.injEq, Prod.mk.injEq, Prod.mk.injEq] at hw
      exact hg hw.1.2.1.symm)
    rwa [ht, Function.update_self] at h
  · intro h
    have hfield : ∀ d < 16, ∀ g,
        (y'.table d).get g = if d = u ∧ g = f then v else (y.table d).get g := by
      intro d _ g
      rw [ht]
      by_cases hd : d = u
      · subst hd
        rw [Function.update_self]
        by_cases hg : g = f
        · rw [if_pos ⟨rfl, hg⟩, hg, hs]
        · rw [if_neg (fun hn => hg hn.2), h g hg]
      · rw [Function.update_of_ne hd, if_neg (fun hn => hd hn.1)]
    refine ⟨fun d hd g hlog => ?_, fun d hd g => ?_⟩
    · rw [hfield d hd g, if_neg]
      rintro ⟨rfl, rfl⟩
      exact hlog v hl
    · rw [hfield d hd g, hl, lastNamed_cons, hk d hd g]

theorem kept_switch (hk : y.Kept t) (v u : ℕ) :
    y.Frame (y.switch v u) ∧ (y.switch v u).Kept t := by
  by_cases hu : u < 16
  · refine (kept_write_iff hk hu (s := (y.table u).set .oEnabled v)
      (TDeviceSettings.get_set_self _ _ _)
      (if_pos hu) (if_pos hu)).mpr (fun g hg => ?_)
    rw [TDeviceSettings.get_set_of_ne _ _ _ _ hg]
  · exact kept_of_same hk (if_neg hu) (if_neg hu)

/-- **One step loses no change exactly when it is clean.** -/
theorem kept_move_iff (hw : y.Writers) (hk : y.Kept t) (hm : y.move m = some y') :
    (y.Frame y' ∧ y'.Kept t) ↔ y.Clean m := by
  have hother : (∀ i, m ≠ .pass i) → y.Clean m := fun h i _ _ _ _ _ _ hi => absurd hi (h i)
  cases m with
  | enable u =>
    cases hm
    exact iff_of_true (kept_switch hk 1 u) (hother (by simp))
  | disable u =>
    cases hm
    exact iff_of_true (kept_switch hk 0 u) (hother (by simp))
  | get i u text =>
    refine iff_of_true ?_ (hother (by simp))
    unfold SettingsSys.move at hm
    dsimp only at hm
    split at hm
    · cases hm
      exact kept_of_same hk rfl rfl
    · cases hm
  | copy i rest =>
    refine iff_of_true ?_ (hother (by simp))
    obtain ⟨w, -, hm⟩ := Option.bind_eq_some_iff.mp hm
    split at hm
    · cases hm
    · cases hm
      exact kept_of_same hk rfl rfl
  | pass i =>
    obtain ⟨w, hi, hm⟩ := Option.bind_eq_some_iff.mp hm
    obtain ⟨⟨behind, x⟩, hx, hm⟩ := Option.bind_eq_some_iff.mp hm
    dsimp only at hm
    split at hm
    · -- the text has been read
      rename_i hread
      cases hm
      refine iff_of_true (kept_of_same hk rfl rfl) fun j w' b' x' f v next hj hw' hx' hread' => ?_
      cases hj
      rw [hi, Option.some.injEq] at hw'
      subst hw'
      rw [hx, Option.some.injEq, Prod.mk.injEq] at hx'
      rw [← hx'.1, ← hx'.2, hread] at hread'
      cases hread'
    · -- the copy is stored, with the fields that the assignment does not name
      rename_i a next hread
      obtain ⟨f, v⟩ := a
      cases hm
      have hu := hw i w hi
      refine (kept_write_iff hk hu (s := w.s.set f v) (TDeviceSettings.get_set_self _ _ _)
        (if_pos hu) rfl).trans ⟨fun h j w' b' x' f' v' next' hj hw' hx' hread' g hg => ?_,
          fun h g hg => ?_⟩
      · cases hj
        rw [hi, Option.some.injEq] at hw'
        subst hw'
        rw [hx, Option.some.injEq, Prod.mk.injEq] at hx'
        rw [← hx'.1, ← hx'.2, hread, Option.some.injEq, Prod.mk.injEq, Prod.mk.injEq] at hread'
        rw [← hread'.1.1] at hg
        rw [← h g hg, TDeviceSettings.get_set_of_ne _ _ _ _ hg]
      · rw [TDeviceSettings.get_set_of_ne _ _ _ _ hg]
        exact h i w behind x f v next rfl hi hx hread g hg

/-- A run of writes from a state in which nothing is lost. -/
theorem keptThroughout_iff_of_kept (hw : y.Writers) (hk : y.Kept t) :
    y.KeptThroughout t ms ↔ y.CleanThroughout ms := by
  induction ms generalizing y with
  | nil => exact iff_of_true hk trivial
  | cons m ms ih =>
    rw [KeptThroughout, CleanThroughout, and_iff_right hk]
    cases hm : y.move m with
    | none =>
      -- a step that is not possible is clean
      have hclean : y.Clean m := by
        intro i w behind x f v next hi hwi hx hread
        subst hi
        rw [move_pass hwi hx, hread] at hm
        cases hm
      exact iff_of_true (fun y' h => by cases h) ⟨hclean, fun y' h => by cases h⟩
    | some y' =>
      have hstep := kept_move_iff hw hk hm
      constructor
      · intro h
        obtain ⟨hframe, hrun⟩ := h y' rfl
        have hk' : y'.Kept t := by
          cases ms with
          | nil => exact hrun
          | cons m' ms => exact hrun.1
        refine ⟨hstep.mp ⟨hframe, hk'⟩, fun y'' h => ?_⟩
        cases h
        exact (ih (hw.move hm) hk').mp hrun
      · rintro ⟨hclean, hrun⟩ y'' h
        cases h
        obtain ⟨hframe, hk'⟩ := hstep.mpr hclean
        exact ⟨hframe, (ih (hw.move hm) hk').mpr (hrun y' rfl)⟩

/-- **When no change of the settings is lost in a run**: exactly when no step
stores anything stale. -/
theorem keptThroughout_iff (t : DevSettings) (ms : List SettingsMove) :
    (start t).KeptThroughout t ms ↔ (start t).CleanThroughout ms :=
  keptThroughout_iff_of_kept (fun _ _ h => by cases h) (fun _ _ _ => rfl)

/-- A device is enabled while a writer of `Async:1` copies its text. -/
def enableMeanwhile : List SettingsMove :=
  [.get 0 1 (ascii "Async:1"), .copy 0 [], .enable 1, .pass 0]

/-- The writer has read the settings before, and disables the device again. -/
theorem not_keptThroughout :
    ¬ ∀ (t : DevSettings) (ms : List SettingsMove), (start t).KeptThroughout t ms := by
  intro h
  have h₀ := h (fun _ => ⟨⟨0, 0⟩, 0, 0, 0⟩) enableMeanwhile
  have h₁ := (h₀.2 _ rfl).2
  have h₂ := (h₁.2 _ rfl).2
  have h₃ := (h₂.2 _ rfl).2
  have h₄ := (h₃.2 _ rfl).2
  exact absurd (h₄ 1 (by decide) .oEnabled) (by decide)

/-! ## A writer alone -/

end Runs

end SettingsSys
