import SideDumper.RunEntries

/-!
# The count of EDs

`ed_cnt` of a device is the number of its EDs that are in use. `ep_add_ed`
counts one up for the device it is given. `dl_del_list` has only the ED: it
takes the device address from the ED's `hwINFO` and looks the device up in
`ohci->dev[]`, where the last submission to that address has put its own
device. Several devices may share the default address 0.
-/

/-- The number of EDs of a device that are not `ED_NEW`. -/
def Ohci.edsInUse (o : Ohci) (d : DevPtr) : ℕ :=
  (List.range 32).countP (fun i => (o.ed ((o.usbDev d).edBase + i)).state ≠ .edNew)

/-- **The EDs of the devices lie apart**, and a request is for one of 16
endpoints of a device that has been allocated. -/
structure Ohci.Layout (o : Ohci) : Prop where
  apart : ∀ d d' i j, (o.usbDev d).edBase ≠ 0 → (o.usbDev d').edBase ≠ 0 → i < 32 → j < 32 →
    (o.usbDev d).edBase + i = (o.usbDev d').edBase + j → d = d'
  device : ∀ u, (o.urb u).dev ≠ 0 → (o.usbDev (o.urb u).dev).edBase ≠ 0
  endpoint : ∀ u, (o.urb u).pipe.endpoint < 16

/-- The ED is one of the device. -/
def Ohci.Owns (o : Ohci) (d : DevPtr) (e : EdPtr) : Prop :=
  (o.usbDev d).edBase ≠ 0 ∧ ∃ i < 32, e = (o.usbDev d).edBase + i

/-- **What a step must not do**: mark an ED that is `ED_NEW`, or remove an ED
whose address the table of devices has for another device. -/
def EdCntClean (s : Sys) : Act → Prop
  | .unlink u => ∀ e, unlinksEd s.mem u = some e → (s.mem.ed e).state ≠ .edNew
  | .resume => ∀ f e tail fa tdP tasks, s.tasks = .delQueue f e tail fa tail tdP :: tasks →
      (s.mem.ed e).state.del = true → s.mem.Owns (s.mem.dev fa) e
  | _ => True

/-! ## Counting -/

/-- One element more has the property. -/
theorem countP_add_one {α : Type*} {p q : α → Bool} {xs : List α} {x : α} (hnd : xs.Nodup)
    (hx : x ∈ xs)
    (hp : p x = false) (hq : q x = true) (hne : ∀ y, y ≠ x → q y = p y) :
    xs.countP q = xs.countP p + 1 := by
  obtain ⟨as, bs, rfl⟩ := List.append_of_mem hx
  rw [List.nodup_append, List.nodup_cons] at hnd
  have has : as.countP q = as.countP p := List.countP_congr (fun y hy => by
    rw [hne y (fun h => hnd.2.2 y hy x List.mem_cons_self h)])
  have hbs : bs.countP q = bs.countP p := List.countP_congr (fun y hy => by
    rw [hne y (fun h => hnd.2.1.1 (h ▸ hy))])
  rw [List.countP_append, List.countP_append, List.countP_cons_of_pos hq,
    List.countP_cons_of_neg (by rw [hp]; decide), has, hbs]
  omega

namespace Ledger

/-- The number of EDs of a device that are not `ED_NEW`. -/
def edsInUse (l : Ledger) (d : DevPtr) : ℕ :=
  (List.range 32).countP (fun i => l.state (l.base d + i) ≠ .edNew)

/-- What the driver has been told of devices and URBs. -/
structure Layout (l : Ledger) : Prop where
  apart : ∀ d d' i j, l.base d ≠ 0 → l.base d' ≠ 0 → i < 32 → j < 32 →
    l.base d + i = l.base d' + j → d = d'
  device : ∀ u, (l.const u).dev ≠ 0 → l.base (l.const u).dev ≠ 0
  endpoint : ∀ u, (l.const u).pipe.endpoint < 16

/-- **The invariant**: the counts are right, and an ED that is in use has been
linked, unlinked or freed. -/
structure Counted (l : Ledger) : Prop where
  cnt : ∀ d, l.base d ≠ 0 → l.edCnt d = l.edsInUse d
  flags : ∀ e, l.state e ≠ .edNew → (l.state e).unlink = true ∨ (l.state e).oper = true ∨
    (l.state e).del = true

section Counting

variable {l l' : Ledger} {d : DevPtr} {e : EdPtr} {u : UrbPtr} {st : EdState}

/-- The other accounts do not matter. -/
theorem Counted.congr (h : l.Counted) (hcnt : l'.edCnt = l.edCnt) (hbase : l'.base = l.base)
    (hstate : l'.state = l.state) : l'.Counted where
  cnt := by
    unfold edsInUse
    rw [hcnt, hbase, hstate]
    exact h.cnt
  flags := hstate ▸ h.flags

/-- An ED in use changes its state. -/
theorem Counted.setState (h : l.Counted) (hold : l.state e ≠ .edNew)
    (hst : st.unlink = true ∨ st.oper = true ∨ st.del = true) : (l.setState e st).Counted where
  cnt := fun d hd => by
    rw [setState_edCnt, h.cnt d hd]
    refine congrArg Nat.cast (List.countP_congr (fun i _ => ?_))
    have hne : st ≠ .edNew := by
      rintro rfl
      simp [EdState.edNew] at hst
    simp only [Ledger.setState, Function.update_apply]
    split
    · rename_i heq
      simp [heq, hold, hne]
    · rfl
  flags := fun x hx => by
    simp only [Ledger.setState, Function.update_apply] at hx ⊢
    split
    · exact hst
    · rename_i hne
      rw [if_neg hne] at hx
      exact h.flags x hx

/-- The count of a device that has not the ED. -/
theorem edsInUse_of_ne (hne : ∀ i < 32, l.base d + i ≠ e) :
    (List.range 32).countP (fun i => Function.update l.state e st (l.base d + i) ≠ .edNew)
      = l.edsInUse d :=
  List.countP_congr (fun i hi => by rw [Function.update_of_ne (hne i (List.mem_range.mp hi))])

/-- **An ED is added to its device.** -/
theorem edsInUse_add (l : Ledger) {i : ℕ} (hi : i < 32) (he : e = l.base d + i)
    (hnew : l.state e = .edNew) (hst : st ≠ .edNew) :
    (List.range 32).countP (fun i => Function.update l.state e st (l.base d + i) ≠ .edNew)
      = l.edsInUse d + 1 := by
  refine countP_add_one List.nodup_range (List.mem_range.mpr hi) ?_ ?_ (fun j hj => ?_)
  · simp [← he, hnew]
  · simp [← he, hst]
  · rw [Function.update_of_ne (fun h => hj (Nat.add_left_cancel (h.trans he)))]

/-- **An ED is taken from its device.** -/
theorem edsInUse_remove {i : ℕ} (hi : i < 32) (he : e = l.base d + i)
    (hold : l.state e ≠ .edNew) :
    (List.range 32).countP (fun i => Function.update l.state e .edNew (l.base d + i) ≠ .edNew) + 1
      = l.edsInUse d := by
  have h := edsInUse_add { l with state := Function.update l.state e .edNew } hi he
    (Function.update_self _ _ _) hold
  dsimp only at h
  rw [Function.update_idem, Function.update_eq_self] at h
  exact h.symm

/-- **`ep_add_ed`.** -/
theorem Counted.added {fa : ℕ} {dummy : TdPtr} {i : ℕ} (h : l.Counted) (hl : l.Layout)
    (hd : l.base d ≠ 0)
    (hi : i < 32) (he : e = l.base d + i) (hadd : l.Added l' d e fa dummy) : l'.Counted := by
  obtain ⟨-, -, rfl⟩ | ⟨hnew, -, rfl⟩ := hadd
  · exact h.congr rfl rfl rfl
  refine ⟨fun d' hd' => ?_, fun x hx => ?_⟩
  · have hcnt := h.cnt d' hd'
    by_cases hdd : d' = d
    · subst hdd
      have huse : ((l.initEd d' e dummy).addEd d' e fa).edsInUse d' = l.edsInUse d' + 1 :=
        edsInUse_add l hi he hnew (by decide)
      have hone : ((l.initEd d' e dummy).addEd d' e fa).edCnt d' = l.edCnt d' + 1 :=
        Function.update_self _ _ _
      rw [huse, hone, hcnt]
      rfl
    · have huse : ((l.initEd d e dummy).addEd d e fa).edsInUse d' = l.edsInUse d' :=
        edsInUse_of_ne (fun j hj heq => hdd (hl.apart d' d j i hd' hd hj hi (heq.trans he)))
      have hone : ((l.initEd d e dummy).addEd d e fa).edCnt d' = l.edCnt d' :=
        Function.update_of_ne hdd _ _
      rw [huse, hone, hcnt]
  · have hstate : ((l.initEd d e dummy).addEd d e fa).state x
        = Function.update l.state e .edUnlink x := rfl
    rw [hstate] at hx ⊢
    rw [Function.update_apply] at hx ⊢
    split
    · exact .inl rfl
    · rename_i hne
      rw [if_neg hne] at hx
      exact h.flags x hx

/-- **`dl_del_list` removes an ED** of the device it finds in the table. -/
theorem Counted.removed {fa : ℕ} {tail : TdPtr} {i : ℕ} (h : l.Counted) (hl : l.Layout)
    (hd : l.base (l.dev fa) ≠ 0) (hi : i < 32) (he : e = l.base (l.dev fa) + i)
    (hold : l.state e ≠ .edNew) :
    (l.removeEd e tail fa).Counted := by
  refine ⟨fun d' hd' => ?_, fun x hx => ?_⟩
  · have hcnt := h.cnt d' hd'
    by_cases hdd : d' = l.dev fa
    · subst hdd
      have huse : (l.removeEd e tail fa).edsInUse (l.dev fa) + 1 = l.edsInUse (l.dev fa) :=
        edsInUse_remove hi he hold
      have hone : (l.removeEd e tail fa).edCnt (l.dev fa) = l.edCnt (l.dev fa) - 1 :=
        Function.update_self _ _ _
      rw [hone, hcnt]
      omega
    · have huse : (l.removeEd e tail fa).edsInUse d' = l.edsInUse d' :=
        edsInUse_of_ne (fun j hj heq => hdd (hl.apart d' _ j i hd' hd hj hi (heq.trans he)))
      have hone : (l.removeEd e tail fa).edCnt d' = l.edCnt d' := Function.update_of_ne hdd _ _
      rw [huse, hone, hcnt]
  · have hstate : (l.removeEd e tail fa).state x = Function.update l.state e .edNew x := rfl
    rw [hstate] at hx ⊢
    rw [Function.update_apply] at hx ⊢
    split
    · rename_i heq
      rw [if_pos heq] at hx
      exact absurd rfl hx
    · rename_i hne
      rw [if_neg hne] at hx
      exact h.flags x hx

end Counting

end Ledger

/-! ## Steps -/

/-- The ED of a pipe is among the EDs of the device. -/
theorem edOf_index {o : Ohci} {d : DevPtr} {pipe : Pipe} (h : pipe.endpoint < 16) :
    ∃ i < 32, edOf o d pipe = (o.usbDev d).edBase + i := by
  have hout : (if pipe.type ≠ .ctrl ∧ pipe.out then 1 else 0 : ℕ) ≤ 1 := by split <;> decide
  have hlt : 2 * pipe.endpoint + (if pipe.type ≠ .ctrl ∧ pipe.out then 1 else 0 : ℕ)
      < 32 := by omega
  exact ⟨_, hlt, rfl⟩

section Steps

variable {s s' : Sys} {a : Act} {u : UrbPtr} {l l' : Ledger}

theorem Ledger.Counted.swaps (h : l.Counted) (hs : Ledger.Swaps u l l') : l'.Counted := by
  have hc := hs.counts
  simp only [Prod.mk.injEq] at hc
  exact h.congr hc.1 hc.2.1 hc.2.2.1

theorem Ledger.Layout.congr (h : l.Layout) (hbase : l'.base = l.base)
    (hconst : l'.const = l.const) :
    l'.Layout where
  apart := hbase ▸ h.apart
  device := by
    rw [hbase, hconst]
    exact h.device
  endpoint := hconst ▸ h.endpoint

/-- **Every step that is clean keeps the counts right.** -/
theorem Ledger.Counted.entry (h : s.mem.ledger.Counted) (hl : s.mem.ledger.Layout)
    (hok : EdCntClean s a)
    (he : Sys.Entry s s' a) : s'.mem.ledger.Counted := by
  have hrm : ∀ {l : Ledger} {u}, l.Counted → (l.rmPriv u).Counted := fun h =>
    h.congr (Ledger.rmPriv_edCnt _ _) (Ledger.rmPriv_base _ _) (Ledger.rmPriv_state _ _)
  have hadded : ∀ {u l e dummy}, e = edOf s.mem (s.mem.urb u).dev (s.mem.urb u).pipe →
      (s.mem.urb u).dev ≠ 0 →
      s.mem.ledger.Added l (s.mem.urb u).dev e (s.mem.urb u).pipe.device dummy → l.Counted := by
    intro u l e dummy he hdev hadd
    obtain ⟨i, hi, hof⟩ := edOf_index (o := s.mem) (d := (s.mem.urb u).dev) (hl.endpoint u)
    exact h.added hl (hl.device u hdev) hi (he.trans hof) hadd
  cases he with
  | same _ hl' => rwa [hl']
  | stopped _ _ _ _ _ _ hl' =>
    rw [hl']
    exact h.congr rfl rfl rfl
  | noDummy _ _ _ _ _ hl' =>
    rw [hl']
    exact h.congr rfl rfl rfl
  | undone _ _ _ _ l hof hdev _ ha hl' =>
    rw [hl']
    exact hrm ((hadded hof hdev ha).congr rfl rfl rfl)
  | begun _ _ _ _ l hof hdev _ ha _ hl' =>
    rw [hl']
    exact (hadded hof hdev ha).congr rfl rfl rfl
  | failed _ _ _ _ _ _ hl' =>
    rw [hl']
    exact (hrm h).congr rfl rfl rfl
  | queued _ _ _ _ _ _ hnew _ hs => exact (h.setState hnew (by decide)).swaps hs
  | mark u hold hdev hpriv hun hl' =>
    have hnew : s.mem.ledger.state hold.ed ≠ .edNew := hok _ hun
    have hset : (s.mem.ledger.setPriv u (some { hold with urbDel := true })).Counted :=
      h.congr rfl rfl rfl
    rw [hl']
    exact hset.setState hnew (h.flags _ hnew)
  | drop _ _ _ _ _ hl' =>
    rw [hl']
    exact (hrm h).congr rfl rfl rfl
  | finish _ _ hl' =>
    rw [hl']
    exact h.congr rfl rfl rfl
  | free _ hnew hl' =>
    rw [hl']
    exact h.setState hnew (by decide)
  | returned _ _ _ _ _ _ _ _ hl' =>
    rw [hl']
    exact (hrm h).congr rfl rfl rfl
  | cleared _ _ _ _ _ _ hl' =>
    rw [hl']
    exact hrm h
  | refilled _ _ _ _ _ _ _ _ hs => exact h.swaps hs
  | idle _ hoper hl' =>
    rw [hl']
    exact h.setState (by rw [hoper]; decide) (by decide)
  | deleted _ _ _ _ t _ _ _ _ _ _ _ hl' =>
    have hrep : ∀ {l : Ledger} {u}, l.Counted → (l.report u).Counted := fun h =>
      h.congr Ledger.report_edCnt Ledger.report_base Ledger.report_state
    rw [hl']
    split
    · exact hrep (hrm h)
    · exact hrep h
  | removed f e tail fa tdP tasks ht hdel hl' =>
    obtain ⟨hb, i, hi, hei⟩ := hok f e tail fa tdP tasks ht hdel
    rw [hl']
    refine h.removed hl hb hi hei (fun hnew => ?_)
    rw [hnew] at hdel
    cases hdel
  | unmarked f e tail fa tdP tasks ht hdel hl' =>
    rw [hl']
    by_cases hnew : s.mem.ledger.state e = .edNew
    · have hsame : s.mem.ledger.setState e { s.mem.ledger.state e with urbDel := false }
          = s.mem.ledger := by
        have heq : ({ s.mem.ledger.state e with urbDel := false } : EdState)
            = s.mem.ledger.state e := by
          rw [hnew]
          rfl
        rw [heq, Ledger.setState, Function.update_eq_self]
      rwa [hsame]
    · exact h.setState hnew (h.flags e hnew)

/-- **`ed_cnt` is the number of EDs in use**, in every run of clean steps. -/
theorem edCnt_of_clean {o : Ohci} (ho : o.Idle) (hl : o.Layout)
    (hcnt : ∀ d, (o.usbDev d).edCnt = 0)
    (h : Sys.From EdCntClean ⟨o, [], [], []⟩ s) :
    ∀ d, (s.mem.usbDev d).edBase ≠ 0 → (s.mem.usbDev d).edCnt = s.mem.edsInUse d := by
  have hlay : o.ledger.Layout := ⟨hl.apart, hl.device, hl.endpoint⟩
  have hstart : o.ledger.Counted := by
    have hnew : ∀ e, o.ledger.state e = .edNew := ho.state
    refine ⟨fun d _ => (hcnt d).trans ?_, fun e he => absurd (hnew e) he⟩
    refine congrArg Nat.cast (List.countP_eq_zero.mpr (fun i _ => ?_)).symm
    simp [hnew]
  have hinv := h.of_entries (P := fun s => s.mem.ledger.Layout ∧
    s.mem.ledger.Counted) ho.base ⟨hlay, hstart⟩
    (fun s s' fuel a _ hp hok _ he => ⟨hp.1.congr he.layout.1 he.layout.2.1,
      hp.2.entry hp.1 hok he⟩)
  exact hinv.2.cnt

end Steps

/-! ## Two devices at the default address -/

/-- A driver with two devices that have no address yet, whose EDs are at the
addresses from 100 and from 200 on, and a control URB for each. -/
def twoNewDevices : Ohci :=
  { (default : Ohci) with
    usbDev := fun d => { (default : UsbDev) with edBase := 100 * d }
    urb := fun u => { (default : Urb) with pipe := ⟨.ctrl, 0, 0, false, false⟩, dev := u } }

theorem twoNewDevices_idle : twoNewDevices.Idle :=
  ⟨fun _ => rfl, rfl, fun l => by cases l <;> rfl, fun l => by cases l <;> rfl, fun _ => rfl,
    fun _ => rfl, fun _ => rfl⟩

theorem twoNewDevices_layout : twoNewDevices.Layout where
  apart := fun d d' i j _ _ hi hj h => by
    have hdiv : ∀ a b i j : ℕ, i < 32 → j < 32 → 100 * a + i = 100 * b + j → a = b := by omega
    exact hdiv d d' i j hi hj h
  device := fun u hu => Nat.mul_ne_zero (by decide) hu
  endpoint := fun _ => Nat.zero_lt_succ 15

/-- After one submission the device has one ED. -/
theorem edCnt_of_clean_submit : ∃ s : Sys, (s.mem.urb 1).hcpriv.isSome ∧
    (s.mem.usbDev 1).edCnt = s.mem.edsInUse 1 := by
  obtain ⟨s, hs, hpriv, hbase⟩ : ∃ s : Sys,
      Sys.step 1 ⟨twoNewDevices, [], [], []⟩ (.submitFirst 1 1001 (fun _ => 1002)) = some s ∧
      (s.mem.urb 1).hcpriv.isSome ∧ (s.mem.usbDev 1).edBase = 100 :=
    ⟨_, rfl, rfl, rfl⟩
  refine ⟨s, hpriv, edCnt_of_clean twoNewDevices_idle twoNewDevices_layout (fun _ => rfl)
    (.step 1 (.submitFirst 1 1001 (fun _ => 1002)) .start trivial hs) 1 ?_⟩
  rw [hbase]
  decide

/-- The control URB of the first device finds no memory for its TDs, so only its
ED is there; the second device submits; then the first device is freed. -/
def removeEarlier : List Act :=
  [.submitFirst 1 1001 (fun _ => 0), .submitFirst 2 1003 (fun _ => 1004), .freeEd 100, .frame 1,
    .delIrq false, .resume, .resume]

/-- The device that has submitted last is counted down. -/
theorem edCnt_sharedAddress :
    ¬ ∀ (o : Ohci) (s : Sys), o.Idle → o.Layout → (∀ d, (o.usbDev d).edCnt = 0) →
    Sys.From (fun _ _ => True) ⟨o, [], [], []⟩ s →
      ∀ d, (s.mem.usbDev d).edBase ≠ 0 → (s.mem.usbDev d).edCnt = s.mem.edsInUse d := by
  intro hclaim
  obtain ⟨s, hrun, hbase, hcnt, hunlink⟩ : ∃ s : Sys,
      Sys.run 1 ⟨twoNewDevices, [], [], []⟩ removeEarlier = some s ∧
        (s.mem.usbDev 2).edBase = 200 ∧
      (s.mem.usbDev 2).edCnt = 0 ∧ (s.mem.ed 200).state = .edUnlink :=
    ⟨_, rfl, rfl, rfl, rfl⟩
  have h := hclaim twoNewDevices s twoNewDevices_idle twoNewDevices_layout (fun _ => rfl)
    (Sys.From.run .start hrun) 2 (by rw [hbase]; decide)
  have hpos : 0 < s.mem.edsInUse 2 :=
    List.countP_pos_iff.mpr ⟨0, List.mem_range.mpr (by decide), by
    rw [hbase, Nat.add_zero, hunlink]
    decide⟩
  omega
