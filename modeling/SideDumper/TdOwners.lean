import SideDumper.BlockOwners
import SideDumper.RunEntries

/-!
# Who owns a TD

A TD block is the dummy TD at the end of the queue of an ED, or one of the TDs
of a private part; `td_fill` exchanges the two. The blocks `OHCI_ALLOC` has
handed out are these and no others, as long as no ED that has been removed is
marked by `sohci_unlink_urb`.
-/

/-- Where a TD can be. -/
inductive TdPlace
  /-- `hwTailP` of an ED. -/
  | dummy (e : EdPtr)
  /-- An element of `td[]` of a private part. -/
  | slot (u : UrbPtr) (i : ℕ)
deriving DecidableEq

/-- **The TD at a place**: the dummy TD of an ED that is not `ED_NEW`, and a
TD of a private part that is not null. -/
def Ohci.tdAt (o : Ohci) : TdPlace → Option TdPtr
  | .dummy e => if (o.ed e).state ≠ .edNew then some (o.ed e).hwTailP else none
  | .slot u i =>
    match (o.urb u).hcpriv with
    | none => none
    | some p => if i < p.length ∧ p.td i ≠ 0 then some (p.td i) else none

/-- **The TD blocks that have been handed out are those in use**, and none is in
use twice. -/
def Ohci.TdsOwned (o : Ohci) : Prop := SingleOwner o.tdAt o.tdAlloc

/-- What `OHCI_ALLOC` returns is not in use: the dummy TD of a new ED, and the
TDs of a request. -/
def Ohci.FreshTds (o : Ohci) (u : UrbPtr) (dummy : TdPtr) (tds : ℕ → TdPtr) : Prop :=
  (dummy ≠ 0 → o.tdAlloc dummy = false) ∧
    ∀ i < tdSize (o.urb u), tds i ≠ 0 → o.tdAlloc (tds i) = false ∧ tds i ≠ dummy ∧
      ∀ j < tdSize (o.urb u), tds j = tds i → j = i

/-- **What a step may do**: a completion callback does not unlink its URB, and
`sohci_free_dev` is not called in an interrupt; the TDs of a request are counted
by 16 bits; and a TD on the done list has been filled in for its URB. -/
def TdDomain (s : Sys) : Act → Prop
  | .submitFirst u dummy tds => s.mem.FreshTds u dummy tds ∧ tdSize (s.mem.urb u) < 65536
  | .unlink u => ∀ e next, .requeue u e next ∉ s.tasks
  | .freeEd _ => s.tasks = []
  | .resume =>
    ∀ t tasks p, s.tasks = .done t :: tasks → (s.mem.urb (s.mem.td t).urb).hcpriv = some p →
      (s.mem.td t).ed = p.ed
  | _ => True

/-- **What a step must not do**: mark an ED that is `ED_NEW`. -/
def TdClean (s : Sys) (a : Act) : Prop :=
  TdDomain s a ∧ ∀ u e, a = .unlink u → unlinksEd s.mem u = some e → (s.mem.ed e).state ≠ .edNew

namespace Ledger

/-- The TD at a place. -/
def tdAt (l : Ledger) : TdPlace → Option TdPtr
  | .dummy e => if l.state e ≠ .edNew then some (l.tail e) else none
  | .slot u i => (l.priv u).bind (fun h => if i < h.length then some (h.td i) else none)

/-- **The invariant of the blocks**: one owner each, and no null pointers. -/
structure Owners (l : Ledger) : Prop where
  owned : SingleOwner l.tdAt l.alloc
  tail : ∀ e, l.state e ≠ .edNew → l.tail e ≠ 0
  full : ∀ u h, l.priv u = some h → ∀ i < h.length, h.td i ≠ 0
  flags : ∀ e, l.state e ≠ .edNew → (l.state e).unlink = true ∨ (l.state e).oper = true ∨
    (l.state e).del = true

section Owners

variable {l l' : Ledger} {u : UrbPtr} {d : DevPtr} {e : EdPtr} {st : EdState} {h : Holding}
    {dummy : TdPtr}

theorem tdAt_slot {i : ℕ} (h : l'.priv u = l.priv u) :
    l'.tdAt (.slot u i) = l.tdAt (.slot u i) := by
  rw [tdAt, tdAt, h]

/-- What the owners do not depend on. -/
theorem Owners.congr (ho : l.Owners) (halloc : l'.alloc = l.alloc) (htail : l'.tail = l.tail)
    (hstate : l'.state = l.state) (hpriv : l'.priv = l.priv) : l'.Owners where
  owned := ho.owned.congr (by
    funext p
    cases p with
    | dummy e => rw [tdAt, tdAt, htail, hstate]
    | slot u i => rw [tdAt, tdAt, hpriv]) halloc
  tail := by
    rw [htail, hstate]
    exact ho.tail
  full := hpriv ▸ ho.full
  flags := hstate ▸ ho.flags

/-- There is no block at the null address. -/
theorem Owners.null (ho : l.Owners) : l.alloc 0 = false := by
  refine Bool.eq_false_iff.mpr (fun h0 => ?_)
  obtain ⟨p, hp⟩ := (ho.owned.exact 0).mp h0
  cases p with
  | dummy e =>
    simp only [tdAt] at hp
    split at hp
    · rename_i hst
      exact ho.tail e hst (Option.some.inj hp)
    · cases hp
  | slot u i =>
    obtain ⟨h, hpriv, hp⟩ := Option.bind_eq_some_iff.mp hp
    split at hp
    · rename_i hi
      exact ho.full u h hpriv i hi (Option.some.inj hp)
    · cases hp

/-- An ED in use changes its state. -/
theorem Owners.setState (ho : l.Owners) (hold : l.state e ≠ .edNew)
    (hst : st.unlink = true ∨ st.oper = true ∨ st.del = true) : (l.setState e st).Owners := by
  have hne : st ≠ .edNew := by
    rintro rfl
    simp [EdState.edNew] at hst
  have hnew : ∀ x, (l.setState e st).state x ≠ .edNew ↔ l.state x ≠ .edNew := by
    intro x
    simp only [Ledger.setState, Function.update_apply]
    split
    · rename_i hx
      simp [hx, hold, hne]
    · rfl
  refine ⟨ho.owned.congr ?_ rfl, fun x hx => ho.tail x ((hnew x).mp hx), ho.full, fun x hx => ?_⟩
  · funext p
    cases p with
    | dummy x => simp only [tdAt, hnew, setState_tail]
    | slot u i => rfl
  · by_cases hxe : x = e
    · rw [hxe, Ledger.setState]
      dsimp only
      rw [Function.update_self]
      exact hst
    · have hsame : (l.setState e st).state x = l.state x := Function.update_of_ne hxe _ _
      rw [hsame]
      exact ho.flags x ((hnew x).mp hx)

/-- **A new ED gets a dummy TD.** -/
theorem Owners.initEd (ho : l.Owners) (hnew : l.state e = .edNew) (hdummy : dummy ≠ 0)
    (hfresh : l.alloc dummy = false) : (l.initEd d e dummy).Owners := by
  have hself : (l.initEd d e dummy).tdAt (.dummy e) = some dummy := by
    simp [tdAt, Ledger.initEd, EdState.edUnlink, EdState.edNew]
  have hother : ∀ p, p ≠ .dummy e → (l.initEd d e dummy).tdAt p = l.tdAt p := by
    intro p hp
    cases p with
    | dummy x =>
      have hx : x ≠ e := fun hx => hp (hx ▸ rfl)
      simp only [tdAt, Ledger.initEd, Function.update_of_ne hx]
    | slot u i => rfl
  refine ⟨ho.owned.give (· = .dummy e) hother ?_ ?_ ?_ ?_, fun x hx => ?_, ho.full,
    fun x hx => ?_⟩
  · rintro p rfl
    simp [tdAt, hnew]
  · rintro p b rfl hb
    rw [hself] at hb
    cases hb
    exact hfresh
  · rintro p q b rfl rfl - -
    rfl
  · intro b
    simp only [Ledger.initEd, Function.update_apply]
    constructor
    · intro hb
      split at hb
      · rename_i hbd
        exact .inr ⟨_, rfl, hbd ▸ hself⟩
      · exact .inl hb
    · rintro (hb | ⟨p, rfl, hp⟩)
      · split
        · rfl
        · exact hb
      · rw [if_pos (Option.some.inj (hself.symm.trans hp)).symm]
  · simp only [Ledger.initEd, Function.update_apply] at hx ⊢
    split
    · exact hdummy
    · rename_i hxe
      rw [if_neg hxe] at hx
      exact ho.tail x hx
  · simp only [Ledger.initEd, Function.update_apply] at hx ⊢
    split
    · exact .inl rfl
    · rename_i hxe
      rw [if_neg hxe] at hx
      exact ho.flags x hx

/-- The private part a request gets. -/
theorem newPriv_slot {size i : ℕ} {tds : ℕ → TdPtr} (hsize : size < 65536) :
    ((l.setPriv u (some (newPriv e size tds).holding)).give size tds).tdAt (.slot u i)
      = if i < size then some (tds i) else none := by
  have hself : ((l.setPriv u (some (newPriv e size tds).holding)).give size tds).priv u
      = some (newPriv e size tds).holding := Function.update_self _ _ _
  have hlen : (newPriv e size tds).holding.length = size := Nat.mod_eq_of_lt hsize
  rw [tdAt, hself, Option.bind_some, hlen]
  split
  · rename_i hi
    exact congrArg some (if_pos hi)
  · rfl

/-- **A request gets its TDs.** -/
theorem Owners.begin {size : ℕ} {tds : ℕ → TdPtr} (ho : l.Owners) (hu : l.priv u = none)
    (hsize : size < 65536)
    (hnull : ∀ i < size, tds i ≠ 0) (hfresh : ∀ i < size, l.alloc (tds i) = false)
    (hdist : ∀ i < size, ∀ j < size, tds j = tds i → j = i) :
    ((l.setPriv u (some (newPriv e size tds).holding)).give size tds).Owners := by
  set l' := (l.setPriv u (some (newPriv e size tds).holding)).give size tds with hl'
  have hslot : ∀ i, l'.tdAt (.slot u i) = if i < size then some (tds i) else none :=
    fun i => newPriv_slot hsize
  have hsome : ∀ i b, l'.tdAt (.slot u i) = some b → i < size ∧ tds i = b := by
    intro i b hb
    rw [hslot] at hb
    split at hb
    · exact ⟨‹_›, Option.some.inj hb⟩
    · cases hb
  have hother : ∀ p, ¬ (∃ i, p = .slot u i) → l'.tdAt p = l.tdAt p := by
    intro p hp
    cases p with
    | dummy x => rfl
    | slot z i =>
      have hz : z ≠ u := fun hz => hp ⟨i, hz ▸ rfl⟩
      exact tdAt_slot (Function.update_of_ne hz _ _)
  refine ⟨ho.owned.give (fun p => ∃ i, p = .slot u i) hother ?_ ?_ ?_ ?_, ho.tail,
    fun z h hz i hi => ?_, ho.flags⟩
  · rintro p ⟨i, rfl⟩
    simp only [tdAt, hu, Option.bind_none]
  · rintro p b ⟨i, rfl⟩ hb
    obtain ⟨hi, rfl⟩ := hsome i b hb
    exact hfresh i hi
  · rintro p q b ⟨i, rfl⟩ ⟨j, rfl⟩ hp hq
    obtain ⟨hi, rfl⟩ := hsome i b hp
    obtain ⟨hj, hji⟩ := hsome j _ hq
    rw [hdist i hi j hj hji]
  · intro b
    simp only [hl', Ledger.give, Bool.or_eq_true, Bool.and_eq_true, List.any_eq_true,
      List.mem_range, decide_eq_true_eq]
    constructor
    · rintro (hb | ⟨-, i, hi, rfl⟩)
      · exact .inl hb
      · exact .inr ⟨_, ⟨i, rfl⟩, (hslot i).trans (if_pos hi)⟩
    · rintro (hb | ⟨p, ⟨i, rfl⟩, hp⟩)
      · exact .inl hb
      · obtain ⟨hi, rfl⟩ := hsome i b hp
        exact .inr ⟨hnull i hi, i, hi, rfl⟩
  · by_cases hzu : z = u
    · subst hzu
      have hself : l'.priv z = some (newPriv e size tds).holding := Function.update_self _ _ _
      rw [hself] at hz
      cases hz
      have hlt : i < size := by
        rw [← Nat.mod_eq_of_lt hsize]
        exact hi
      rw [show (newPriv e size tds).holding.td i = tds i from if_pos hlt]
      exact hnull i hlt
    · have hsame : l'.priv z = l.priv z := Function.update_of_ne hzu _ _
      exact ho.full z h (hsame ▸ hz) i hi

/-- **A private part goes**, with its TDs. -/
theorem Owners.rmPriv (ho : l.Owners) : (l.rmPriv u).Owners := by
  cases hu : l.priv u with
  | none => rwa [rmPriv_of_none l u hu]
  | some h =>
    have hnone : (l.rmPriv u).priv u = none := by rw [rmPriv_priv, Function.update_self]
    have hslot : ∀ i b, l.tdAt (.slot u i) = some b ↔ i < h.length ∧ h.td i = b := by
      intro i b
      simp only [tdAt, hu, Option.bind_some]
      split <;> simp_all
    refine ⟨ho.owned.take (fun p => ∃ i, p = .slot u i) ?_ ?_ ?_, ?_, fun z x hz => ?_, ?_⟩
    · intro p hp
      cases p with
      | dummy x => rw [tdAt, tdAt, rmPriv_state, rmPriv_tail]
      | slot z i =>
        have hz : z ≠ u := fun hz => hp ⟨i, hz ▸ rfl⟩
        exact tdAt_slot (rmPriv_priv_of_ne hz)
    · rintro p ⟨i, rfl⟩
      rw [tdAt, hnone, Option.bind_none]
    · intro b
      have hown : h.owns b = true ↔ ∃ i < h.length, h.td i = b := by
        simp only [Holding.owns, List.any_eq_true, List.mem_range, decide_eq_true_eq]
      have halloc : (l.rmPriv u).alloc b = (l.alloc b && !h.owns b) := by
        rw [Ledger.rmPriv, hu]
      rw [halloc, Bool.and_eq_true, Bool.not_eq_true', ← Bool.not_eq_true, hown]
      refine and_congr_right (fun _ => ⟨?_, ?_⟩)
      · rintro hnot p ⟨i, rfl⟩ hp
        exact hnot ⟨i, (hslot i b).mp hp⟩
      · rintro hnot ⟨i, hi⟩
        exact hnot _ ⟨i, rfl⟩ ((hslot i b).mpr hi)
    · rw [rmPriv_state, rmPriv_tail]
      exact ho.tail
    · have hzu : z ≠ u := by
        rintro rfl
        rw [hnone] at hz
        cases hz
      rw [rmPriv_priv_of_ne hzu] at hz
      exact ho.full z x hz
    · rw [rmPriv_state]
      exact ho.flags

/-- **An ED is removed**, with its dummy TD. -/
theorem Owners.removeEd {fa : ℕ} (ho : l.Owners) (hold : l.state e ≠ .edNew) :
    (l.removeEd e (l.tail e) fa).Owners := by
  have hstate : (l.removeEd e (l.tail e) fa).state = Function.update l.state e .edNew := rfl
  have hdummy : ∀ b, l.tdAt (.dummy e) = some b ↔ l.tail e = b := by
    intro b
    simp only [tdAt]
    rw [if_pos hold, Option.some.injEq]
  refine ⟨ho.owned.take (· = .dummy e) ?_ ?_ ?_, fun x hx => ?_, ho.full, fun x hx => ?_⟩
  · intro p hp
    cases p with
    | dummy x =>
      have hx : x ≠ e := fun hx => hp (hx ▸ rfl)
      simp only [tdAt, hstate, Function.update_of_ne hx]
      rfl
    | slot u i => rfl
  · rintro p rfl
    simp only [tdAt, hstate, Function.update_self]
    exact if_neg (fun hne => hne rfl)
  · intro b
    have halloc : (l.removeEd e (l.tail e) fa).alloc b =
        if b = l.tail e then false else l.alloc b :=
      Function.update_apply _ _ _ _
    rw [halloc]
    constructor
    · intro hb
      split at hb
      · cases hb
      · refine ⟨hb, ?_⟩
        rintro p rfl hp
        exact absurd ((hdummy b).mp hp).symm ‹_›
    · rintro ⟨hb, hnot⟩
      rw [if_neg (fun hbe => hnot _ rfl ((hdummy b).mpr hbe.symm))]
      exact hb
  · have hxe : x ≠ e := by
      rintro rfl
      rw [hstate, Function.update_self] at hx
      exact hx rfl
    rw [hstate, Function.update_of_ne hxe] at hx
    exact ho.tail x hx
  · have hxe : x ≠ e := by
      rintro rfl
      rw [hstate, Function.update_self] at hx
      exact hx rfl
    rw [hstate, Function.update_of_ne hxe] at hx ⊢
    exact ho.flags x hx

/-- **`td_fill`**: a TD of the request and the dummy TD change places. -/
theorem Owners.swap {i : ℕ} (ho : l.Owners) (hu : l.priv u = some h) (hi : i < h.length)
    (hed : l.state h.ed ≠ .edNew) : (l.swap u h i).Owners := by
  have hdummy : l.tdAt (.dummy h.ed) = some (l.tail h.ed) := if_pos hed
  have hslot : ∀ j, l.tdAt (.slot u j) = if j < h.length then some (h.td j) else none := by
    intro j
    simp only [tdAt, hu, Option.bind_some]
  have hne : l.tail h.ed ≠ h.td i := by
    intro heq
    have hplace := ho.owned.single (.dummy h.ed) (.slot u i) (h.td i) (heq ▸ hdummy)
      ((hslot i).trans (if_pos hi))
    cases hplace
  have hpriv : (l.swap u h i).priv u
      = some { h with td := Function.update h.td i (l.tail h.ed) } :=
    Function.update_self _ _ _
  have htail : (l.swap u h i).tail = Function.update l.tail h.ed (h.td i) := by
    rw [Ledger.swap, if_neg hne]
  refine ⟨ho.owned.swap (.dummy h.ed) (.slot u i) (fun p => ?_), fun x hx => ?_,
    fun z x hz j hj => ?_, ho.flags⟩
  · cases p with
    | dummy x =>
      by_cases hx : x = h.ed
      · rw [hx, Equiv.swap_apply_left, hslot i, if_pos hi]
        simp only [tdAt, htail, Function.update_self]
        exact if_pos hed
      · have hstay : Equiv.swap (.dummy h.ed) (.slot u i) (TdPlace.dummy x) = .dummy x :=
          Equiv.swap_apply_of_ne_of_ne (fun hp => hx (TdPlace.dummy.inj hp)) nofun
        rw [hstay]
        simp only [tdAt, htail, Function.update_of_ne hx]
        rfl
    | slot z j =>
      by_cases hz : z = u
      · subst hz
        by_cases hj : j = i
        · rw [hj, Equiv.swap_apply_right, hdummy]
          simp only [tdAt, hpriv, Option.bind_some, Function.update_self, if_pos hi]
        · have hstay : Equiv.swap (.dummy h.ed) (.slot z i) (TdPlace.slot z j) = .slot z j :=
            Equiv.swap_apply_of_ne_of_ne nofun (fun hp => hj (TdPlace.slot.inj hp).2)
          rw [hstay, hslot j]
          simp only [tdAt, hpriv, Option.bind_some, Function.update_of_ne hj]
      · have hstay : Equiv.swap (.dummy h.ed) (.slot u i) (TdPlace.slot z j) = .slot z j :=
          Equiv.swap_apply_of_ne_of_ne nofun (fun hp => hz (TdPlace.slot.inj hp).1)
        rw [hstay]
        exact tdAt_slot (Function.update_of_ne hz _ _)
  · rw [htail, Function.update_apply]
    split
    · exact ho.full u h hu i hi
    · exact ho.tail x hx
  · by_cases hz' : z = u
    · subst hz'
      rw [hpriv] at hz
      cases hz
      dsimp only
      rw [Function.update_apply]
      split
      · exact ho.tail h.ed hed
      · exact ho.full z h hu j hj
    · have hsame : (l.swap u h i).priv z = l.priv z := Function.update_of_ne hz' _ _
      exact ho.full z x (hsame ▸ hz) j hj

/-- **`td_submit_urb`.** -/
theorem Owners.swaps (ho : l.Owners) (hs : Ledger.Swaps u l l')
    (hed : ∀ h, l.priv u = some h → l.state h.ed ≠ .edNew) : l'.Owners := by
  induction hs with
  | refl l => exact ho
  | swap hp hi _ ih =>
    have hnew := hed _ hp
    refine ih (ho.swap hp hi hnew) (fun x hx => ?_)
    rw [Ledger.swap] at hx
    dsimp only at hx
    rw [Function.update_self] at hx
    cases hx
    exact hnew

/-- **`ep_add_ed`.** -/
theorem Owners.added {fa : ℕ} (ho : l.Owners) (hadd : l.Added l' d e fa dummy)
    (hfresh : dummy ≠ 0 → l.alloc dummy = false) :
    l'.Owners ∧ ∀ t, t ≠ dummy → l'.alloc t = l.alloc t := by
  obtain ⟨-, -, rfl⟩ | ⟨hnew, hdummy, rfl⟩ := hadd
  · exact ⟨ho.congr rfl rfl rfl rfl, fun t _ => rfl⟩
  · exact ⟨(ho.initEd (d := d) hnew hdummy (hfresh hdummy)).congr rfl rfl rfl rfl,
      fun t ht => Function.update_of_ne ht _ _⟩

/-- A private part that comes and goes again leaves everything as it was. -/
theorem Owners.undone {size : ℕ} {tds : ℕ → TdPtr} (ho : l.Owners) (hu : l.priv u = none)
    (hsize : size < 65536)
    (hfresh : ∀ i < size, tds i ≠ 0 → l.alloc (tds i) = false) :
    (((l.setPriv u (some (newPriv e size tds).holding)).give size tds).rmPriv u).Owners := by
  have hself : ((l.setPriv u (some (newPriv e size tds).holding)).give size tds).priv u
      = some (newPriv e size tds).holding := Function.update_self _ _ _
  have hpriv : (((l.setPriv u (some (newPriv e size tds).holding)).give size tds).rmPriv u).priv
      = l.priv := by
    rw [rmPriv_priv]
    exact (Function.update_idem _ _ _).trans (hu ▸ Function.update_eq_self u l.priv)
  refine ho.congr ?_ (rmPriv_tail _ _) (rmPriv_state _ _) hpriv
  funext t
  have hown : (newPriv e size tds).holding.owns t = true ↔ ∃ i < size, tds i = t := by
    simp only [Holding.owns, newPriv, UrbPriv.holding, Nat.mod_eq_of_lt hsize, List.any_eq_true,
      List.mem_range, decide_eq_true_eq]
    constructor
    · rintro ⟨i, hi, h⟩
      exact ⟨i, hi, (if_pos hi).symm.trans h⟩
    · rintro ⟨i, hi, h⟩
      exact ⟨i, hi, (if_pos hi).trans h⟩
  have halloc :
      (((l.setPriv u (some (newPriv e size tds).holding)).give size tds).rmPriv u).alloc t
      = ((l.alloc t || (t ≠ 0 && (List.range size).any (tds · = t)))
        && !(newPriv e size tds).holding.owns t) := by
    rw [Ledger.rmPriv, hself]
    rfl
  rw [halloc]
  by_cases hex : ∃ i < size, tds i = t
  · rw [hown.mpr hex, Bool.not_true, Bool.and_false]
    obtain ⟨i, hi, rfl⟩ := hex
    by_cases h0 : tds i = 0
    · rw [h0]
      exact ho.null.symm
    · exact (hfresh i hi h0).symm
  · have hnone : (List.range size).any (tds · = t) = false := by
      rw [Bool.eq_false_iff]
      intro hany
      obtain ⟨i, hi, h⟩ := List.any_eq_true.mp hany
      exact hex ⟨i, List.mem_range.mp hi, of_decide_eq_true h⟩
    rw [Bool.eq_false_iff.mpr (fun h => hex (hown.mp h)), hnone, Bool.and_false, Bool.or_false,
      Bool.not_false, Bool.and_true]

end Owners

/-! ## What the interrupt routines rely on -/

/-- The ED is in use and is not to be removed. -/
def Good (l : Ledger) (e : EdPtr) : Prop :=
  l.state e ≠ .edNew ∧ (l.state e).del = false

/-- **What a step leaves alone**: an ED that is to be removed keeps its dummy TD, no
other ED is to be removed, and private parts are for EDs in use. -/
structure Steady (l l' : Ledger) : Prop where
  del : ∀ e, (l'.state e).del = true → (l.state e).del = true ∧ l'.tail e = l.tail e
  good : ∀ e, l.Good e → l'.Good e
  priv : ∀ u h', l'.priv u = some h' → (∃ h, l.priv u = some h ∧ h.ed = h'.ed) ∨ l'.Good h'.ed

section Steady

variable {l l' l'' : Ledger} {u : UrbPtr} {d : DevPtr} {e : EdPtr} {st : EdState} {h : Holding}
    {dummy : TdPtr}

theorem Steady.of_eq (htail : l'.tail = l.tail) (hstate : l'.state = l.state)
    (hpriv : l'.priv = l.priv) :
    l.Steady l' where
  del := fun e he => ⟨hstate ▸ he, congrFun htail e⟩
  good := fun e he => by
    rw [Good, hstate]
    exact he
  priv := fun u h' hu => .inl ⟨h', hpriv ▸ hu, rfl⟩

theorem Steady.refl (l : Ledger) : l.Steady l := .of_eq rfl rfl rfl

theorem Steady.trans (h₁ : l.Steady l') (h₂ : l'.Steady l'') : l.Steady l'' where
  del := fun e he => by
    obtain ⟨he', ht'⟩ := h₂.del e he
    obtain ⟨he, ht⟩ := h₁.del e he'
    exact ⟨he, ht'.trans ht⟩
  good := fun e he => h₂.good e (h₁.good e he)
  priv := fun u x hx => by
    obtain ⟨y, hy, hyx⟩ | hgood := h₂.priv u x hx
    · obtain ⟨z, hz, hzy⟩ | hgood := h₁.priv u y hy
      · exact .inl ⟨z, hz, hzy.trans hyx⟩
      · exact .inr (hyx ▸ h₂.good _ hgood)
    · exact .inr hgood

theorem Steady.setState (hdel : st.del = true → (l.state e).del = true)
    (hgood : l.Good e → st ≠ .edNew ∧ st.del = false) :
    l.Steady (l.setState e st) where
  del := fun x hx => by
    simp only [Ledger.setState, Function.update_apply] at hx
    refine ⟨?_, rfl⟩
    split at hx
    · rename_i hxe
      exact hxe ▸ hdel hx
    · exact hx
  good := fun x hx => by
    simp only [Good, Ledger.setState, Function.update_apply]
    split
    · rename_i hxe
      exact hgood (hxe ▸ hx)
    · exact hx
  priv := fun u x hx => .inl ⟨x, hx, rfl⟩

theorem Steady.rmPriv : l.Steady (l.rmPriv u) where
  del := fun e he => ⟨rmPriv_state l u ▸ he, congrFun (rmPriv_tail l u) e⟩
  good := fun e he => by
    rw [Good, rmPriv_state]
    exact he
  priv := fun z x hx => by
    rw [rmPriv_priv, Function.update_apply] at hx
    split at hx
    · cases hx
    · exact .inl ⟨x, hx, rfl⟩

theorem Steady.setPriv (hu : (∃ x, l.priv u = some x ∧ x.ed = h.ed) ∨ l.Good h.ed) :
    l.Steady (l.setPriv u (some h)) where
  del := fun e he => ⟨he, rfl⟩
  good := fun e he => he
  priv := fun z x hx => by
    simp only [Ledger.setPriv, Function.update_apply] at hx
    split at hx
    · rename_i hz
      cases hx
      exact hz ▸ hu
    · exact .inl ⟨x, hx, rfl⟩

/-- **`ep_add_ed`** answers with an ED that is in use. -/
theorem Steady.added {fa : ℕ} (hadd : l.Added l' d e fa dummy) : l.Steady l' ∧ l'.Good e := by
  obtain ⟨hnew, hpend, rfl⟩ | ⟨hnew, -, rfl⟩ := hadd
  · refine ⟨.of_eq rfl rfl rfl, hnew, ?_⟩
    cases hdel : (l.state e).del with
    | false => exact hdel
    | true => simp [EdState.pending, hdel] at hpend
  · have hstate : ∀ x, ((l.initEd d e dummy).addEd d e fa).state x =
        if x = e then .edUnlink else l.state x :=
      fun x => Function.update_apply _ _ _ _
    refine ⟨⟨fun x hx => ?_, fun x hx => ?_, fun z x hx => .inl ⟨x, hx, rfl⟩⟩, ?_⟩
    · rw [hstate] at hx
      split at hx
      · cases hx
      · exact ⟨hx, Function.update_of_ne ‹_› _ _⟩
    · have hxe : x ≠ e := by
        rintro rfl
        exact hx.1 hnew
      rw [Good, hstate, if_neg hxe]
      exact hx
    · rw [Good, hstate, if_pos rfl]
      decide

theorem Steady.swaps (hs : Ledger.Swaps u l l') (hed : ∀ h, l.priv u = some h → l.Good h.ed) :
    l.Steady l' := by
  induction hs with
  | refl l => exact .refl l
  | swap hp _ _ ih =>
    rename_i l l' x i _ _
    have hgood := hed x hp
    have hself : (l.swap u x i).priv u
        = some { x with td := Function.update x.td i (l.tail x.ed) } :=
      Function.update_self _ _ _
    have hone : l.Steady (l.swap u x i) := by
      refine ⟨fun y hy => ⟨hy, Function.update_of_ne (fun hye => ?_) _ _⟩, fun y hy => hy,
        fun z y hy => ?_⟩
      · have hfalse : (l.state y).del = false := hye ▸ hgood.2
        rw [show (l.state y).del = true from hy] at hfalse
        cases hfalse
      · by_cases hz : z = u
        · subst hz
          rw [hself] at hy
          cases hy
          exact .inl ⟨x, hp, rfl⟩
        · have hsame : (l.swap u x i).priv z = l.priv z := Function.update_of_ne hz _ _
          exact .inl ⟨y, hsame ▸ hy, rfl⟩
    refine hone.trans (ih (fun y hy => ?_))
    rw [hself] at hy
    cases hy
    exact hgood

/-- An ED that was to be removed has been removed. -/
theorem Steady.removeEd {tail : TdPtr} {fa : ℕ} (hdel : (l.state e).del = true) :
    l.Steady (l.removeEd e tail fa) := by
  have hstate : ∀ x, (l.removeEd e tail fa).state x = if x = e then .edNew else l.state x :=
    fun x => Function.update_apply _ _ _ _
  refine ⟨fun x hx => ?_, fun x hx => ?_, fun z x hx => .inl ⟨x, hx, rfl⟩⟩
  · rw [hstate] at hx
    split at hx
    · cases hx
    · exact ⟨hx, rfl⟩
  · have hxe : x ≠ e := by
      rintro rfl
      have hfalse := hx.2
      rw [hdel] at hfalse
      cases hfalse
    rw [Good, hstate, if_neg hxe]
    exact hx

end Steady

end Ledger

/-! ## Steps -/

section Steps

variable {s s' : Sys} {a : Act} {fuel : ℕ} {u : UrbPtr} {e : EdPtr} {o : Ohci}

/-- **The invariant of a run**: `dl_del_list` frees the dummy TD an ED still has,
and a request that is to be queued again has an ED that is in use. -/
structure Sys.TdInv (s : Sys) : Prop where
  owners : s.mem.ledger.Owners
  walk : ∀ f e tail fa t tdP, .delQueue f e tail fa t tdP ∈ s.tasks →
    (s.mem.ledger.state e).del = true →
    tail = s.mem.ledger.tail e
  again : ∀ u e next h, .requeue u e next ∈ s.tasks → s.mem.ledger.priv u = some h →
    s.mem.ledger.Good h.ed

/-- A mark does not change the TDs of a private part. -/
theorem Ledger.Owners.mark {l : Ledger} {h : Holding} (ho : l.Owners) (hu : l.priv u = some h) :
    (l.setPriv u (some { h with urbDel := true })).Owners := by
  have hself : (l.setPriv u (some { h with urbDel := true })).priv u
      = some { h with urbDel := true } :=
    Function.update_self _ _ _
  refine ⟨ho.owned.congr ?_ rfl, ho.tail, fun z x hz i hi => ?_, ho.flags⟩
  · funext p
    cases p with
    | dummy x => rfl
    | slot z i =>
      by_cases hzu : z = u
      · rw [hzu, Ledger.tdAt, Ledger.tdAt, hself, hu]
        rfl
      · exact Ledger.tdAt_slot (Function.update_of_ne hzu _ _)
  · by_cases hzu : z = u
    · rw [hzu, hself] at hz
      cases hz
      exact ho.full u h hu i hi
    · have hsame : (l.setPriv u (some { h with urbDel := true })).priv z = l.priv z :=
        Function.update_of_ne hzu _ _
      exact ho.full z x (hsame ▸ hz) i hi

/-- **Every step that is clean keeps the owners**, and all but `sohci_free_dev` leave
alone what the interrupt routines rely on. -/
theorem Sys.TdInv.entry (hi : s.TdInv) (hok : TdClean s a) (he : Sys.Entry s s' a) :
    s'.mem.ledger.Owners ∧ ((∃ e, a = .freeEd e) ∨ s.mem.ledger.Steady s'.mem.ledger) := by
  have ho := hi.owners
  cases he with
  | same _ hl =>
    rw [hl]
    exact ⟨ho, .inr (.refl _)⟩
  | stopped _ _ _ _ _ _ hl | noDummy _ _ _ _ _ hl | finish _ _ hl =>
    rw [hl]
    exact ⟨ho.congr rfl rfl rfl rfl, .inr (.of_eq rfl rfl rfl)⟩
  | undone u dummy tds e l _ _ hnone hadd hl =>
    obtain ⟨⟨hdummy, hfresh⟩, hsize⟩ := hok.1
    obtain ⟨hol, halloc⟩ := ho.added hadd hdummy
    have hu : l.priv u = none := hadd.priv ▸ hnone
    obtain ⟨hsteady, hgood⟩ := Ledger.Steady.added hadd
    rw [hl]
    refine ⟨hol.undone hu hsize (fun i hi h0 => ?_), .inr (hsteady.trans ?_)⟩
    · obtain ⟨hf, hd, -⟩ := hfresh i hi h0
      exact (halloc _ hd).trans hf
    · have hset : l.Steady (l.setPriv u (some (newPriv e (tdSize (s.mem.urb u)) tds).holding)) :=
        .setPriv (.inr hgood)
      have hgive :
          l.Steady ((l.setPriv u (some (newPriv e (tdSize (s.mem.urb u)) tds).holding)).give
          (tdSize (s.mem.urb u)) tds) := hset.trans (.of_eq rfl rfl rfl)
      exact hgive.trans .rmPriv
  | begun u dummy tds e l _ _ hnone hadd hall hl =>
    obtain ⟨⟨hdummy, hfresh⟩, hsize⟩ := hok.1
    obtain ⟨hol, halloc⟩ := ho.added hadd hdummy
    have hu : l.priv u = none := hadd.priv ▸ hnone
    obtain ⟨hsteady, hgood⟩ := Ledger.Steady.added hadd
    have hol' : (l.use (s.mem.urb u).dev 1).Owners := hol.congr rfl rfl rfl rfl
    have huse : l.Steady (l.use (s.mem.urb u).dev 1) := .of_eq rfl rfl rfl
    rw [hl]
    refine ⟨hol'.begin hu hsize hall (fun i hi => ?_) (fun i hi => (hfresh i hi (hall i hi)).2.2),
      .inr ?_⟩
    · obtain ⟨hf, hd, -⟩ := hfresh i hi (hall i hi)
      exact (halloc _ hd).trans hf
    · exact ((hsteady.trans huse).trans (Ledger.Steady.setPriv (.inr (huse.good _ hgood)))).trans
        (.of_eq rfl rfl rfl)
  | failed _ _ _ _ _ _ hl | drop _ _ _ _ _ hl | returned _ _ _ _ _ _ _ _ hl =>
    rw [hl]
    exact ⟨(ho.rmPriv).congr rfl rfl rfl rfl,
      .inr (Ledger.Steady.rmPriv.trans (.of_eq rfl rfl rfl))⟩
  | queued u _ _ h _ hu hnew _ hs =>
    have hself : ∀ x, (s.mem.ledger.setState h.ed .edOper).priv u = some x →
        (s.mem.ledger.setState h.ed .edOper).state x.ed = .edOper := by
      intro x hx
      rw [Ledger.setState_priv, hu] at hx
      cases hx
      exact Function.update_self _ _ _
    refine ⟨(ho.setState hnew (.inr (.inl rfl))).swaps hs (fun x hx => ?_), .inr ?_⟩
    · rw [hself x hx]
      decide
    · refine (Ledger.Steady.setState (fun hd => absurd hd (by decide)) (fun _ => by decide)).trans
        (.swaps hs (fun x hx => ?_))
      rw [Ledger.Good, hself x hx]
      decide
  | mark u h _ hu hun hl =>
    have hnew : s.mem.ledger.state h.ed ≠ .edNew := hok.2 u _ rfl hun
    rw [hl]
    refine ⟨(ho.mark hu).setState hnew (ho.flags _ hnew), .inr ?_⟩
    have hset : s.mem.ledger.Steady (s.mem.ledger.setPriv u (some { h with urbDel := true })) :=
      .setPriv (.inl ⟨h, hu, rfl⟩)
    refine hset.trans (.setState id (fun hg => ⟨fun hst => ?_, hg.2⟩))
    have hmark : true = false := congrArg EdState.urbDel hst
    cases hmark
  | free e hnew hl =>
    rw [hl]
    exact ⟨ho.setState hnew (.inr (.inr rfl)), .inl ⟨e, rfl⟩⟩
  | cleared _ _ _ _ _ _ hl =>
    rw [hl]
    exact ⟨ho.rmPriv, .inr .rmPriv⟩
  | refilled u e next tasks h ht hu _ hs =>
    have hgood : ∀ x, s.mem.ledger.priv u = some x → s.mem.ledger.Good x.ed :=
      fun x hx => hi.again u e next x (by rw [ht]; exact List.mem_cons_self) hx
    exact ⟨ho.swaps hs (fun x hx => (hgood x hx).1), .inr (.swaps hs hgood)⟩
  | idle e hoper hl =>
    rw [hl]
    exact ⟨ho.setState (by rw [hoper]; decide) (.inl rfl),
      .inr (.setState (fun hd => absurd hd (by decide)) (fun _ => by decide))⟩
  | deleted f e tail fa t tdP tasks p _ _ _ _ hl =>
    have hrep : ∀ (l : Ledger) u, l.Owners → (l.report u).Owners ∧ l.Steady (l.report u) :=
      fun l u h => ⟨h.congr Ledger.report_alloc Ledger.report_tail Ledger.report_state
        Ledger.report_priv, .of_eq Ledger.report_tail Ledger.report_state Ledger.report_priv⟩
    rw [hl]
    split
    · obtain ⟨h₁, h₂⟩ := hrep _ (s.mem.td t).urb (ho.rmPriv (u := (s.mem.td t).urb))
      exact ⟨h₁, .inr (Ledger.Steady.rmPriv.trans h₂)⟩
    · obtain ⟨h₁, h₂⟩ := hrep _ (s.mem.td t).urb ho
      exact ⟨h₁, .inr h₂⟩
  | removed f e tail fa tdP tasks ht hdel hl =>
    have htail : tail = s.mem.ledger.tail e :=
      hi.walk f e tail fa tail tdP (by rw [ht]; exact List.mem_cons_self) hdel
    have hold : s.mem.ledger.state e ≠ .edNew := by
      intro hnew
      rw [hnew] at hdel
      cases hdel
    rw [hl]
    refine ⟨?_, .inr (.removeEd hdel)⟩
    rw [htail]
    exact ho.removeEd hold
  | unmarked f e tail fa tdP tasks _ hdel hl =>
    rw [hl]
    by_cases hnew : s.mem.ledger.state e = .edNew
    · have hsame : s.mem.ledger.setState e { s.mem.ledger.state e with urbDel := false }
          = s.mem.ledger := by
        have heq : ({ s.mem.ledger.state e with urbDel := false } : EdState)
            = s.mem.ledger.state e := by
          rw [hnew]
          rfl
        rw [heq, Ledger.setState, Function.update_eq_self]
      rw [hsame]
      exact ⟨ho, .inr (.refl _)⟩
    · refine ⟨ho.setState hnew (ho.flags e hnew),
        .inr (.setState id (fun hg => ⟨fun hst => ?_, hg.2⟩))⟩
      have hflags := ho.flags e hnew
      simp only [EdState.edNew, EdState.mk.injEq] at hst
      simp [hst] at hflags

/-- Only a pass of an interrupt routine gets one to the TDs of an ED, or behind a
callback. -/
theorem Sys.step_tasks (hs : s.step fuel a = some s') (ha : a ≠ .resume) :
    ∀ x ∈ s'.tasks, x ∈ s.tasks ∨ (∃ t r, x = .reverse t r) ∨ ∃ f e, x = .del f e := by
  have hsame : s'.tasks = s.tasks → ∀ x ∈ s'.tasks, x ∈ s.tasks ∨ (∃ t r, x = .reverse t r) ∨
      ∃ f e, x = .del f e :=
    fun ht x hx => .inl (ht ▸ hx)
  cases a with
  | resume => exact absurd rfl ha
  | doneIrq =>
    cases hs
    intro x hx
    obtain rfl | hx := List.mem_cons.mp hx
    · exact .inr (.inl ⟨_, _, rfl⟩)
    · exact .inl hx
  | delIrq f =>
    cases hs
    intro x hx
    obtain rfl | hx := List.mem_cons.mp hx
    · exact .inr (.inr ⟨_, _, rfl⟩)
    · exact .inl hx
  | submitFirst u dummy tds =>
    simp only [Sys.step] at hs
    split at hs
    · cases hs
    · cases hs
      exact hsame rfl
  | submitSecond u buf setup =>
    simp only [Sys.step] at hs
    split at hs
    · obtain ⟨o, -, hs⟩ := Option.bind_eq_some_iff.mp hs
      cases hs
      exact hsame rfl
    · cases hs
  | unlinkFinish u =>
    simp only [Sys.step] at hs
    split at hs
    · cases hs
      exact hsame rfl
    · cases hs
  | freeEd e =>
    simp only [Sys.step] at hs
    split at hs
    · cases hs
    · obtain ⟨o, -, hs⟩ := Option.bind_eq_some_iff.mp hs
      cases hs
      exact hsame rfl
  | unlink | frame | hcEd | hcTd | hcDone | hcData =>
    cases hs
    exact hsame rfl

/-- **What a pass of an interrupt routine goes on with.** -/
theorem IrqTask.step_task {task task' : IrqTask} {o o' : Ohci}
    (h : task.step fuel o = some (o', some task')) :
    (∀ f e tail fa t tdP, task' = .delQueue f e tail fa t tdP →
      (∃ t₀ tdP₀, task = .delQueue f e tail fa t₀ tdP₀) ∨ o' = o ∧ tail = o.ledger.tail e) ∧
    ∀ u e next, task' = .requeue u e next → o'.ledger = o.ledger ∧ o.ledger.Good e ∧
      ∃ t, task = .done t ∧ u = (o.td t).urb ∧ e = (o.td t).ed := by
  cases task with
  | reverse t rev =>
    simp only [IrqTask.step] at h
    split at h <;> cases h <;> exact ⟨by rintro _ _ _ _ _ _ ⟨⟩, by rintro _ _ _ ⟨⟩⟩
  | done t =>
    simp only [IrqTask.step] at h
    split at h
    · cases h
    · obtain ⟨⟨o₁, again⟩, h₁, h⟩ := Option.bind_eq_some_iff.mp h
      cases again with
      | false =>
        cases h
        exact ⟨by rintro _ _ _ _ _ _ ⟨⟩, by rintro _ _ _ ⟨⟩⟩
      | true =>
        cases h
        refine ⟨by rintro _ _ _ _ _ _ ⟨⟩, fun u e next hx => ?_⟩
        cases hx
        obtain ⟨hl, hag⟩ | ⟨hb, -⟩ := ledger_doneTd h₁
        · obtain ⟨-, -, -, hdel, hnew⟩ := hag rfl
          exact ⟨hl, ⟨hnew, hdel⟩, t, rfl, rfl, rfl⟩
        · cases hb
  | requeue u e next =>
    obtain ⟨o₁, -, h⟩ := Option.bind_eq_some_iff.mp h
    cases h
    exact ⟨by rintro _ _ _ _ _ _ ⟨⟩, by rintro _ _ _ ⟨⟩⟩
  | endEd e next =>
    obtain ⟨o₁, -, h⟩ := Option.bind_eq_some_iff.mp h
    cases h
    exact ⟨by rintro _ _ _ _ _ _ ⟨⟩, by rintro _ _ _ ⟨⟩⟩
  | del f e =>
    simp only [IrqTask.step] at h
    split at h
    · cases h
    · cases h
      refine ⟨fun f e tail fa t tdP hx => ?_, by rintro _ _ _ ⟨⟩⟩
      cases hx
      exact .inr ⟨rfl, rfl⟩
  | delQueue f e tail fa t tdP =>
    simp only [IrqTask.step] at h
    split at h
    · cases h
      exact ⟨by rintro _ _ _ _ _ _ ⟨⟩, by rintro _ _ _ ⟨⟩⟩
    · obtain ⟨⟨o₁, tdP'⟩, -, h⟩ := Option.bind_eq_some_iff.mp h
      cases h
      refine ⟨fun f e tail fa t tdP hx => ?_, by rintro _ _ _ ⟨⟩⟩
      cases hx
      exact .inl ⟨_, _, rfl⟩

/-- **Every clean step keeps the invariant.** -/
theorem Sys.TdInv.step (hi : s.TdInv) (hok : TdClean s a) (hs : s.step fuel a = some s')
    (he : Sys.Entry s s' a) :
    s'.TdInv := by
  obtain ⟨ho, hsteady⟩ := hi.entry hok he
  -- a routine that has been entered finds its ED as it was
  have hwalk : ∀ f e tail fa t tdP, .delQueue f e tail fa t tdP ∈ s.tasks →
      (s'.mem.ledger.state e).del = true → tail = s'.mem.ledger.tail e := by
    intro f e tail fa t tdP hm hdel
    obtain ⟨e', rfl⟩ | hsteady := hsteady
    · rw [show s.tasks = [] from hok.1] at hm
      cases hm
    · obtain ⟨hd, ht⟩ := hsteady.del e hdel
      exact (hi.walk f e tail fa t tdP hm hd).trans ht.symm
  have hagain : ∀ u e next h, .requeue u e next ∈ s.tasks → s'.mem.ledger.priv u = some h →
      s'.mem.ledger.Good h.ed := by
    intro u e next h hm hu
    obtain ⟨e', rfl⟩ | hsteady := hsteady
    · rw [show s.tasks = [] from hok.1] at hm
      cases hm
    · obtain ⟨x, hx, hxh⟩ | hgood := hsteady.priv u h hu
      · exact hxh ▸ hsteady.good _ (hi.again u e next x hm hx)
      · exact hgood
  by_cases ha : a = .resume
  · subst ha
    simp only [Sys.step] at hs
    split at hs
    · cases hs
    rename_i task tasks ht
    obtain ⟨⟨o, task'⟩, h₁, hs⟩ := Option.bind_eq_some_iff.mp hs
    cases hs
    refine ⟨ho, fun f e tail fa t tdP hm hdel => ?_, fun u e next h hm hu => ?_⟩
    · obtain hm | hm := List.mem_append.mp hm
      · obtain rfl := Option.mem_toList.mp hm
        obtain ⟨t₀, tdP₀, rfl⟩ | ⟨rfl, htail⟩ := (IrqTask.step_task h₁).1 f e tail fa t tdP rfl
        · exact hwalk f e tail fa t₀ tdP₀ (by rw [ht]; exact List.mem_cons_self) hdel
        · exact htail
      · exact hwalk f e tail fa t tdP (by rw [ht]; exact List.mem_cons_of_mem _ hm) hdel
    · obtain hm | hm := List.mem_append.mp hm
      · obtain rfl := Option.mem_toList.mp hm
        obtain ⟨hl, hgood, t, rfl, rfl, rfl⟩ := (IrqTask.step_task h₁).2 u e next rfl
        dsimp only at hu ⊢
        rw [hl] at hu ⊢
        obtain ⟨p, hp, rfl⟩ := Option.map_eq_some_iff.mp hu
        rw [hok.1 t tasks p ht hp] at hgood
        exact hgood
      · exact hagain u e next h (by rw [ht]; exact List.mem_cons_of_mem _ hm) hu
  · refine ⟨ho, fun f e tail fa t tdP hm hdel => ?_, fun u e next h hm hu => ?_⟩
    · obtain hm | ⟨_, _, hx⟩ | ⟨_, _, hx⟩ := Sys.step_tasks hs ha _ hm
      · exact hwalk f e tail fa t tdP hm hdel
      · cases hx
      · cases hx
    · obtain hm | ⟨_, _, hx⟩ | ⟨_, _, hx⟩ := Sys.step_tasks hs ha _ hm
      · exact hagain u e next h hm hu
      · cases hx
      · cases hx

/-- The places of the accounts are those of the memory. -/
theorem Ledger.Owners.tdAt_eq (ho : o.ledger.Owners) : o.tdAt = o.ledger.tdAt := by
  funext p
  cases p with
  | dummy e => rfl
  | slot u i =>
    have hpriv : o.ledger.priv u = (o.urb u).hcpriv.map UrbPriv.holding := rfl
    rw [Ohci.tdAt, Ledger.tdAt, hpriv]
    cases hp : (o.urb u).hcpriv with
    | none => rfl
    | some p =>
      dsimp only
      by_cases hi : i < p.length
      · have hnull : p.td i ≠ 0 := ho.full u p.holding (ledger_priv hp) i hi
        rw [if_pos ⟨hi, hnull⟩]
        exact (if_pos hi).symm
      · rw [if_neg (fun h => hi h.1)]
        exact (if_neg hi).symm

/-- When nothing has happened yet no block is in use. -/
theorem Ohci.Idle.tdInv (ho : o.Idle) (halloc : ∀ t, o.tdAlloc t = false) :
    Sys.TdInv ⟨o, [], [], []⟩ := by
  have hstate : ∀ e, o.ledger.state e = .edNew := ho.state
  have hpriv : ∀ u, o.ledger.priv u = none := fun u => ledger_priv_none (ho.hcpriv u)
  refine ⟨⟨.none (fun p => ?_) halloc, fun e he => absurd (hstate e) he, fun u h hu => ?_,
    fun e he => absurd (hstate e) he⟩, nofun, nofun⟩
  · cases p with
    | dummy e => exact if_neg (fun hne => hne (hstate e))
    | slot u i => rw [Ledger.tdAt, hpriv u, Option.bind_none]
  · rw [hpriv u] at hu
    cases hu

/-- **TD blocks have a single owner**, in every run of clean steps. -/
theorem tdsOwned_of_clean (ho : o.Idle) (halloc : ∀ t, o.tdAlloc t = false)
    (h : Sys.From TdClean ⟨o, [], [], []⟩ s) : s.mem.TdsOwned := by
  have hinv := h.of_entries ho.base (ho.tdInv halloc)
    (fun s s' fuel a _ hi hok hs he => hi.step hok hs he)
  rw [Ohci.TdsOwned, hinv.owners.tdAt_eq]
  exact hinv.owners.owned

end Steps

/-! ## An ED that has been removed -/

/-- A driver with bulk URBs for one endpoint, whose ED is at the address 12. -/
def bulkUrbs : Ohci :=
  { (default : Ohci) with
    usbDev := fun _ => { (default : UsbDev) with edBase := 10 }
    urb := fun _ => { (default : Urb) with pipe := ⟨.bulk, 1, 1, false, false⟩, dev := 1 } }

theorem bulkUrbs_idle : bulkUrbs.Idle :=
  ⟨fun _ => rfl, rfl, fun l => by cases l <;> rfl, fun l => by cases l <;> rfl, fun _ => rfl,
    fun _ => rfl, fun _ => rfl⟩

/-- The first submission gets blocks that are not in use. -/
theorem bulkUrbs_submit :
    TdDomain ⟨bulkUrbs, [], [], []⟩ (.submitFirst 1 100 (fun _ => 101)) := by
  refine ⟨⟨fun _ => rfl, fun i hi _ => ⟨rfl, Nat.succ_ne_self 100, fun j hj _ => ?_⟩⟩, by decide⟩
  have hone : tdSize (bulkUrbs.urb 1) = 1 := rfl
  rw [hone] at hi hj
  omega

/-- After the first phase of a submission there are two blocks. -/
theorem tdsOwned_of_clean_submit :
    ∃ s : Sys, s.mem.tdAlloc 100 = true ∧ s.mem.tdAlloc 101 = true ∧
    s.mem.TdsOwned := by
  obtain ⟨s, hs, hdummy, htd⟩ : ∃ s : Sys,
      Sys.step 1 ⟨bulkUrbs, [], [], []⟩ (.submitFirst 1 100 (fun _ => 101)) = some s ∧
      s.mem.tdAlloc 100 = true ∧ s.mem.tdAlloc 101 = true := ⟨_, rfl, rfl, rfl⟩
  exact ⟨s, hdummy, htd, tdsOwned_of_clean bulkUrbs_idle (fun _ => rfl)
    (.step 1 (.submitFirst 1 100 (fun _ => 101)) .start ⟨bulkUrbs_submit, nofun⟩ hs)⟩

/-- Steps of which nothing is asked. -/
theorem Sys.From.quiet {ok : Sys → Act → Prop} {fuel : ℕ} {s₀ s s' : Sys} {as : List Act}
    (h : Sys.From ok s₀ s)
    (hok : ∀ a ∈ as, ∀ s, ok s a) (hr : s.run fuel as = some s') : Sys.From ok s₀ s' := by
  induction as generalizing s with
  | nil =>
    cases hr
    exact h
  | cons a as ih =>
    obtain ⟨s₁, h₁, hr⟩ := Option.bind_eq_some_iff.mp hr
    exact ih (.step fuel a h (hok a List.mem_cons_self s) h₁)
      (fun a ha => hok a (List.mem_cons_of_mem _ ha)) hr

/-- The controller has taken the TD of a URB when its device is freed; then the
URB is unlinked. Its ED is in use again, with a dummy TD that has been freed. -/
theorem tdsOwned_unlinkRemoved : ¬ ∀ (o : Ohci) (s : Sys), o.Idle → (∀ t, o.tdAlloc t = false) →
    Sys.From TdDomain ⟨o, [], [], []⟩ s → s.mem.TdsOwned := by
  intro hclaim
  obtain ⟨s₁, s₂, s₃, s₄, s₅, s₆, s₇, h₁, h₂, h₃, h₄, h₅, h₆, h₇, ht₂, ht₄, ht₅, ht₆, hstate,
      htail, halloc⟩ :
      ∃ s₁ s₂ s₃ s₄ s₅ s₆ s₇ : Sys,
      Sys.step 1 ⟨bulkUrbs, [], [], []⟩ (.submitFirst 1 100 (fun _ => 101)) = some s₁ ∧
      s₁.run 1 [.submitSecond 1 0 0, .hcEd 12 101 false false] = some s₂ ∧
      s₂.step 1 (.freeEd 12) = some s₃ ∧ s₃.run 1 [.frame 1, .delIrq false] = some s₄ ∧
      s₄.step 1 .resume = some s₅ ∧ s₅.step 1 .resume = some s₆ ∧
        s₆.step 1 (.unlink 1) = some s₇ ∧
      s₂.tasks = [] ∧ s₄.tasks = [.del false 12] ∧
        s₅.tasks = [.delQueue false 12 101 1 101 (.head 12)] ∧
      s₆.tasks = [.del false 0] ∧ (s₇.mem.ed 12).state.urbDel = true ∧
        (s₇.mem.ed 12).hwTailP = 101 ∧
      s₇.mem.tdAlloc 101 = false :=
    ⟨_, _, _, _, _, _, _, rfl, rfl, rfl, rfl, rfl, rfl, rfl, rfl, rfl, rfl, rfl, rfl, rfl, rfl⟩
  have hrun : Sys.From TdDomain ⟨bulkUrbs, [], [], []⟩ s₇ := by
    have hquiet₂ : ∀ a ∈ [Act.submitSecond 1 0 0, .hcEd 12 101 false false], ∀ s,
        TdDomain s a := by
      simp [TdDomain]
    have hquiet₄ : ∀ a ∈ [Act.frame 1, .delIrq false], ∀ s, TdDomain s a := by
      simp [TdDomain]
    refine .step 1 (.unlink 1)
      (.step 1 .resume (.step 1 .resume (.quiet (.step 1 (.freeEd 12) (.quiet
      (.step 1 _ .start bulkUrbs_submit h₁) hquiet₂ h₂) ht₂ h₃) hquiet₄ h₄) ?_ h₅) ?_ h₆) ?_ h₇
    · intro t tasks p ht
      rw [ht₄] at ht
      cases ht
    · intro t tasks p ht
      rw [ht₅] at ht
      cases ht
    · intro e next hm
      rw [ht₆, List.mem_singleton] at hm
      cases hm
  have howned := hclaim bulkUrbs s₇ bulkUrbs_idle (fun _ => rfl) hrun
  have hnew : (s₇.mem.ed 12).state ≠ .edNew := by
    intro hnew
    rw [hnew] at hstate
    cases hstate
  have htrue := (howned.exact 101).mpr ⟨.dummy 12, by rw [Ohci.tdAt, if_pos hnew, htail]⟩
  rw [halloc] at htrue
  cases htrue
