import SideDumper.ScheduleUnlink
import SideDumper.SkelSteps

/-!
# Unlinking from a schedule of both kinds

In a schedule of interrupt EDs alone it is known what `ep_unlink` leaves. With
isochronous EDs among them, and with EDs left over from earlier, less is known,
but what one call redirects can still be read off the state before it. It gets
to the entries of `int_table` at which the ED comes first, one after the other,
and to the link in front of it on the first list where something precedes it.
An isochronous ED also has links back to it, `ed_prev` and `ed_isotail`.

`UnlinksAll` says that these are all the links of the schedule that lead to the
ED. Then nothing leads to it behind the call.
-/

/-- A link that can lead to a periodic ED. -/
inductive EdLink
  | cell (c : Cell)
  /-- The `ed_prev` of an ED. -/
  | prev (x : EdPtr)
  /-- `ed_isotail`. -/
  | isotail

/-- The ED a link leads to. -/
def EdLink.read (o : Ohci) : EdLink → EdPtr
  | .cell c => o.get c
  | .prev x => (o.ed x).edPrev
  | .isotail => o.edIsotail

/-- **The links of the periodic schedule**: the entries of `int_table`,
`ed_isotail` and the links of the EDs these lead to, `ed_prev` for the linked
isochronous ones only. -/
def EdLink.Counts (o : Ohci) : EdLink → Prop
  | .cell (.table _) => True
  | .cell (.next x) => o.skel.Lingers x ∧ x ≠ 0
  | .prev x => o.skel.Lingers x ∧ x ≠ 0 ∧ (o.ed x).type = .iso ∧ (o.ed x).state.oper = true
  | .isotail => True

/-- An ED stands directly behind another on the list of a branch. -/
def Ohci.Follows (o : Ohci) (x e : EdPtr) (b : ℕ) : Prop :=
  ∃ p r, Walk o.nextED 0 (o.intTable b) (p ++ x :: e :: r)

/-- The links of an interrupt ED that `ep_unlink` redirects. -/
def Ohci.RedirectsInt (o : Ohci) (e : EdPtr) : EdLink → Prop
  | .cell (.table b) => ∃ i < epRev 6 (o.interval e), visit (o.branch e) i = b ∧
      ∀ j ≤ i, o.intTable (visit (o.branch e) j) = e
  | .cell (.next x) => ∃ i < epRev 6 (o.interval e),
      (∀ j < i, o.intTable (visit (o.branch e) j) = e) ∧ o.Follows x e (visit (o.branch e) i)
  | .prev _ => False
  | .isotail => False

/-- The links of an isochronous ED that `ep_unlink` redirects. -/
def Ohci.RedirectsIso (o : Ohci) (e : EdPtr) : EdLink → Prop
  | .cell (.table b) => (o.ed e).edPrev = 0 ∧ b < 32
  | .cell (.next x) => (o.ed e).edPrev = 0 ∧ (∃ b < 32, o.Follows x e b) ∨
      (o.ed e).edPrev ≠ 0 ∧ x = (o.ed e).edPrev ∧ x ≠ e
  | .prev x => x = o.nextED e ∧ x ≠ 0
  | .isotail => True

/-- **The links of an ED that `ep_unlink` redirects.** -/
def Ohci.Redirects (o : Ohci) (e : EdPtr) : EdLink → Prop :=
  match (o.ed e).type with
  | .int => o.RedirectsInt e
  | .iso => o.RedirectsIso e
  | .ctrl | .bulk => fun _ => False

/-- **`ep_unlink` redirects all links of the schedule that lead to the ED.** -/
def UnlinksAll (o : Ohci) (e : EdPtr) : Prop :=
  (o.ed e).type.periodic = true → ∀ l : EdLink, l.Counts o → l.read o = e → o.Redirects e l

/-! ## What the loops write -/

/-- The link written leads where it should. -/
theorem get_set (o : Ohci) (c : Cell) (v : EdPtr) : (o.set c v).get c = v := by
  cases c <;> simp [Ohci.set, Ohci.get, Ohci.nextED]

/-- The other links stay. -/
theorem get_set_of_ne (o : Ohci) (c : Cell) (v : EdPtr) {c' : Cell} (h : c' ≠ c) :
    (o.set c v).get c' = o.get c' := by
  cases c with
  | table i =>
    cases c' with
    | table j => exact Function.update_of_ne (fun hj => h (congrArg Cell.table hj)) _ _
    | next x => rfl
  | next x =>
    cases c' with
    | table j => rfl
    | next y =>
      have hy : y ≠ x := fun hy => h (congrArg Cell.next hy)
      simp only [Ohci.get, Ohci.set, Ohci.nextED, Ohci.modEd_ed_of_ne _ _ _ _ hy]

/-- **Links to an ED are moved on** to the one behind it, some of them, and
nothing else is. -/
structure MovesOn (e : EdPtr) (o o' : Ohci) : Prop where
  cell : ∀ c, o'.get c = o.get c ∨ o.get c = e ∧ o'.get c = o.nextED e
  prev : ∀ x, (o'.ed x).edPrev = (o.ed x).edPrev
  isotail : o'.edIsotail = o.edIsotail

namespace MovesOn

variable {e : EdPtr} {o o₁ o' : Ohci} {c : Cell}

theorem refl : MovesOn e o o := ⟨fun _ => .inl rfl, fun _ => rfl, rfl⟩

/-- A link to another ED stays. -/
theorem same (h : MovesOn e o o') (hc : o.get c ≠ e) : o'.get c = o.get c :=
  (h.cell c).resolve_right (fun hm => hc hm.1)

variable (hne : o.nextED e ≠ e)

include hne

theorem nextED (h : MovesOn e o o') : o'.nextED e = o.nextED e := h.same (c := .next e) hne

theorem trans (h : MovesOn e o o₁) (h' : MovesOn e o₁ o') : MovesOn e o o' where
  cell c := by
    have hv : o₁.nextED e = o.nextED e := h.nextED hne
    obtain hc' | ⟨he', hc'⟩ := h'.cell c
    · rw [hc']
      exact h.cell c
    · obtain hc | ⟨-, hc⟩ := h.cell c
      · exact .inr ⟨hc ▸ he', hc'.trans hv⟩
      · exact absurd (hc.symm.trans he') hne
  prev x := (h'.prev x).trans (h.prev x)
  isotail := h'.isotail.trans h.isotail

omit hne in
/-- Moving one link on. -/
theorem set (hc : o.get c = e) : MovesOn e o (o.set c (o.nextED e)) where
  cell c' := by
    by_cases hcc : c' = c
    · subst hcc
      exact .inr ⟨hc, get_set _ _ _⟩
    · exact .inl (get_set_of_ne _ _ _ hcc)
  prev x := by
    cases c with
    | table i => rfl
    | next y =>
      dsimp only [Ohci.set]
      rw [Ohci.modEd_ed]
      split
      · rename_i hx
        rw [hx]
      · rfl
  isotail := by cases c <;> rfl

end MovesOn

section Loops

variable {o o₁ o₂ o' : Ohci} {e x : EdPtr} {c : Cell} {fuel inter inter' interval branch i k : ℕ}

theorem unlinkWalk_movesOn (hw : unlinkWalk e o fuel c inter = some (o', inter')) :
    MovesOn e o o' := by
  induction fuel generalizing c inter with
  | zero => cases hw
  | succ fuel ih =>
    rw [unlinkWalk] at hw
    split at hw
    · split at hw
      · cases hw
        exact .set ‹_›
      · exact ih hw
    · cases hw
      exact .refl

theorem unlinkIsoWalk_movesOn (hw : unlinkIsoWalk e o fuel c = some o') : MovesOn e o o' := by
  induction fuel generalizing c with
  | zero => cases hw
  | succ fuel ih =>
    rw [unlinkIsoWalk] at hw
    split at hw
    · split at hw
      · cases hw
        exact .set ‹_›
      · exact ih hw
    · cases hw
      exact .refl

variable (hne : o.nextED e ≠ e)

include hne

theorem unlinkIntLoop_movesOn (h : MovesOn e o o₁)
    (hw : unlinkIntLoop e interval branch fuel i o₁ = some o') : MovesOn e o o' := by
  induction fuel generalizing i o₁ with
  | zero => cases hw
  | succ fuel ih =>
    rw [unlinkIntLoop] at hw
    split at hw
    · obtain ⟨⟨o₂, stride⟩, h₂, hw⟩ := Option.bind_eq_some_iff.mp hw
      exact ih (h.trans hne (unlinkWalk_movesOn h₂)) hw
    · cases hw
      exact h

/-- A link that has been moved on stays so. -/
theorem MovesOn.stays (h : MovesOn e o₁ o') (hc : o₁.get c = o.nextED e) :
    o'.get c = o.nextED e := by
  rw [h.same (by rw [hc]; exact hne), hc]

variable (h0 : e ≠ 0)

include h0

/-- A pass from a link that led to the ED: it moves that link on, or has done
so, and the stride is one. -/
theorem unlinkWalk_here (h : MovesOn e o o₁) {b : ℕ} (hb : o.intTable b = e)
    (hw : unlinkWalk e o₁ fuel (.table b) 1 = some (o₂, inter')) :
    inter' = 1 ∧ o₂.intTable b = o.nextED e ∧ o₂.ed = o₁.ed := by
  have hv : o₁.nextED e = o.nextED e := h.nextED hne
  cases fuel with
  | zero => cases hw
  | succ fuel =>
    rw [unlinkWalk] at hw
    obtain hc | ⟨-, hc⟩ := h.cell (.table b)
    · have he : o₁.get (.table b) = e := hc.trans hb
      rw [if_pos ⟨he ▸ h0, by rw [he, hv]; exact hne.symm⟩, if_pos he] at hw
      cases hw
      exact ⟨rfl, (get_set o₁ (.table b) _).trans hv, rfl⟩
    · rw [if_neg (fun hcon => hcon.2 (hc.trans hv.symm))] at hw
      cases hw
      exact ⟨rfl, hc, rfl⟩

/-- **The entries of `int_table` at which the ED comes first**, one after the
other. -/
theorem unlinkIntLoop_table (h : MovesOn e o o₁) (hk : k ≤ i) (hi : i < epRev 6 interval)
    (hall : ∀ j ≤ i, o.intTable (visit branch j) = e)
    (hw : unlinkIntLoop e interval branch fuel k o₁ = some o') :
    o'.intTable (visit branch i) = o.nextED e := by
  induction fuel generalizing k o₁ with
  | zero => cases hw
  | succ fuel ih =>
    rw [unlinkIntLoop, if_pos (by omega)] at hw
    obtain ⟨⟨o₂, stride⟩, h₂, hw⟩ := Option.bind_eq_some_iff.mp hw
    have hmoves : MovesOn e o o₂ := h.trans hne (unlinkWalk_movesOn h₂)
    obtain ⟨rfl, htab, -⟩ := unlinkWalk_here hne h0 h (hall k hk) h₂
    rcases Nat.lt_or_ge k i with hki | hki
    · exact ih hmoves hki hw
    · obtain rfl : k = i := le_antisymm hk hki
      have hrest : MovesOn e o₂ o' :=
        unlinkIntLoop_movesOn (by rw [hmoves.nextED hne]; exact hne) .refl hw
      exact hrest.stays hne (c := .table _) htab

omit hne h0 in
/-- Where one ED stands directly behind another the list begins with
something else. -/
theorem Ohci.Follows.start_ne {b : ℕ} (hf : o.Follows x e b) : o.intTable b ≠ e := by
  obtain ⟨p, r, hw⟩ := hf
  have hnd := hw.nodup
  rintro rfl
  cases p with
  | nil =>
    rw [List.nil_append, List.nodup_cons] at hnd
    exact hnd.1 (by rw [← hw.1]; simp)
  | cons y p =>
    rw [List.cons_append, List.nodup_cons] at hnd
    exact hnd.1 (by rw [← hw.1]; simp)

/-- **The link in front of the ED** on the first list where something precedes
it. -/
theorem unlinkIntLoop_next (h : MovesOn e o o₁) (hed : o₁.ed = o.ed) (hk : k ≤ i)
    (hi : i < epRev 6 interval) (hall : ∀ j < i, o.intTable (visit branch j) = e)
    (hf : o.Follows x e (visit branch i))
    (hw : unlinkIntLoop e interval branch fuel k o₁ = some o') : o'.nextED x = o.nextED e := by
  induction fuel generalizing k o₁ with
  | zero => cases hw
  | succ fuel ih =>
    rw [unlinkIntLoop, if_pos (by omega)] at hw
    obtain ⟨⟨o₂, stride⟩, h₂, hw⟩ := Option.bind_eq_some_iff.mp hw
    have hmoves : MovesOn e o o₂ := h.trans hne (unlinkWalk_movesOn h₂)
    rcases Nat.lt_or_ge k i with hki | hki
    · obtain ⟨rfl, -, hed'⟩ := unlinkWalk_here hne h0 h (hall k hki) h₂
      exact ih hmoves (hed'.trans hed) hki hw
    · obtain rfl : k = i := le_antisymm hk hki
      have hnext : o₁.nextED = o.nextED := by
        funext y
        exact congrArg (fun m : EdPtr → Ed => (m y).hwNextED) hed
      have hsame : o₁.intTable (visit branch k) = o.intTable (visit branch k) :=
        h.same (c := .table _) hf.start_ne
      obtain ⟨p, r, hwalk⟩ := hf
      rw [← hnext, ← hsame] at hwalk
      have hbehind : unlinkWalk e o₁ (p.length + 2) (.table (visit branch k)) 1 = some _ :=
        unlinkWalk_behind hwalk (Nat.lt_succ_self _)
      obtain ⟨ho₂, -⟩ := Prod.mk.inj (unlinkWalk_fuelled.unique hbehind h₂)
      have hx : o₂.get (.next x) = o.nextED e := by
        rw [← ho₂, get_set, hnext]
      have hrest : MovesOn e o₂ o' :=
        unlinkIntLoop_movesOn (by rw [hmoves.nextED hne]; exact hne) .refl hw
      exact hrest.stays hne hx

/-- The pass over a list from a link that led to the ED. -/
theorem unlinkIsoWalk_here (h : MovesOn e o o₁) (hc : o.get c = e)
    (hw : unlinkIsoWalk e o₁ fuel c = some o₂) : o₂.get c = o.nextED e := by
  obtain hc₁ | ⟨-, hc₁⟩ := h.cell c
  · cases fuel with
    | zero => cases hw
    | succ fuel =>
      have he : o₁.get c = e := hc₁.trans hc
      rw [unlinkIsoWalk, if_pos (he ▸ h0), if_pos he] at hw
      cases hw
      rw [get_set, h.nextED hne]
  · exact (unlinkIsoWalk_movesOn hw).stays hne hc₁

/-- The pass over a list on which the ED stands behind another. -/
theorem unlinkIsoWalk_behind {p r : List EdPtr} (h : MovesOn e o o₁)
    (hwalk : Walk o.nextED 0 (o.get c) (p ++ x :: e :: r))
    (hw : unlinkIsoWalk e o₁ fuel c = some o₂) : o₂.nextED x = o.nextED e := by
  induction p generalizing c fuel with
  | nil =>
    obtain ⟨hc, hx0, hrest⟩ := hwalk
    have hxe : x ≠ e := fun hcon => by
      subst hcon
      exact hne hrest.1
    have hc₁ : o₁.get c = x := (h.same (by rw [hc]; exact hxe)).trans hc
    cases fuel with
    | zero => cases hw
    | succ fuel =>
      rw [unlinkIsoWalk, hc₁, if_pos hx0, if_neg hxe] at hw
      exact unlinkIsoWalk_here hne h0 (c := .next x) h hrest.1 hw
  | cons y p ih =>
    have hnd := hwalk.nodup
    obtain ⟨hc, hy0, hrest⟩ := hwalk
    have hye : y ≠ e := fun hcon => by
      subst hcon
      simp at hnd
    have hc₁ : o₁.get c = y := (h.same (by rw [hc]; exact hye)).trans hc
    cases fuel with
    | zero => cases hw
    | succ fuel =>
      rw [unlinkIsoWalk, hc₁, if_pos hy0, if_neg hye] at hw
      exact ih (c := .next y) hrest hw

omit h0 in
theorem isoLoop_movesOn {is : List ℕ} (h : MovesOn e o o₁)
    (hw : is.foldlM (fun o i => unlinkIsoWalk e o fuel (.table (epRev 5 i))) o₁ = some o') :
    MovesOn e o o' := by
  induction is generalizing o₁ with
  | nil =>
    cases hw
    exact h
  | cons i is ih =>
    rw [List.foldlM_cons] at hw
    obtain ⟨o₂, h₂, hw⟩ := Option.bind_eq_some_iff.mp hw
    exact ih (h.trans hne (unlinkIsoWalk_movesOn h₂)) hw

omit h0 in
/-- **What one pass of the loop over the entries moves on stays so.** -/
theorem isoLoop_pass {is : List ℕ} (h : MovesOn e o o₁) (hi : i ∈ is)
    (hpass : ∀ o₁ o₂, MovesOn e o o₁ →
      unlinkIsoWalk e o₁ fuel (.table (epRev 5 i)) = some o₂ → o₂.get c = o.nextED e)
    (hw : is.foldlM (fun o i => unlinkIsoWalk e o fuel (.table (epRev 5 i))) o₁ = some o') :
    o'.get c = o.nextED e := by
  induction is generalizing o₁ with
  | nil => cases hi
  | cons j is ih =>
    rw [List.foldlM_cons] at hw
    obtain ⟨o₂, h₂, hw₂⟩ := Option.bind_eq_some_iff.mp hw
    have hmoves : MovesOn e o o₂ := h.trans hne (unlinkIsoWalk_movesOn h₂)
    obtain hij | hi := List.mem_cons.mp hi
    · have hrest : MovesOn e o₂ o' :=
        isoLoop_movesOn (by rw [hmoves.nextED hne]; exact hne) .refl hw₂
      exact hrest.stays hne (hpass o₁ o₂ h (hij ▸ h₂))
    · exact ih hmoves hi hw₂

end Loops

/-! ## What the call leaves -/

/-- Where `ep_unlink` moves a link to an ED on to: to the EDs on both sides. -/
def EdLink.past (o : Ohci) (e : EdPtr) : EdLink → EdPtr
  | .cell _ => o.nextED e
  | .prev _ | .isotail => (o.ed e).edPrev

/-- **Links are moved past an ED**, the links back to it only if it is
isochronous, and with them those that `ep_unlink` redirects. -/
structure MovesPast (e : EdPtr) (o o' : Ohci) : Prop where
  moved : ∀ l : EdLink, l.read o' = l.read o ∨
    ((o.ed e).type = .int → ∃ c, l = .cell c) ∧ l.read o' = l.past o e
  done : ∀ l : EdLink, l.read o = e → o.Redirects e l → l.read o' = l.past o e

section Past

variable {o o₁ o' : Ohci} {e x : EdPtr} {fuel : ℕ} {s : Skel}

/-- The case `INT`. -/
theorem unlinkInt_movesPast (hty : (o.ed e).type = .int) (hne : o.nextED e ≠ e) (h0 : e ≠ 0)
    (hl : unlinkInt fuel o e = some o') : MovesPast e o o' := by
  obtain ⟨o₁, h₁, hl⟩ := Option.bind_eq_some_iff.mp hl
  obtain ⟨l, -, hl⟩ := Option.bind_eq_some_iff.mp hl
  cases hl
  have hmoves : MovesOn e o o₁ := unlinkIntLoop_movesOn hne .refl h₁
  refine ⟨fun l => ?_, fun l hle hr => ?_⟩
  · cases l with
    | cell c =>
      obtain hc | ⟨-, hc⟩ := hmoves.cell c
      · exact .inl (by cases c <;> exact hc)
      · exact .inr ⟨fun _ => ⟨c, rfl⟩, by cases c <;> exact hc⟩
    | prev x => exact .inl (hmoves.prev x)
    | isotail => exact .inl hmoves.isotail
  · unfold Ohci.Redirects at hr
    rw [hty] at hr
    cases l with
    | prev x => exact hr.elim
    | isotail => exact hr.elim
    | cell c =>
      cases c with
      | table b =>
        obtain ⟨i, hi, rfl, hall⟩ := hr
        have htab : o₁.intTable (visit (o.branch e) i) = o.nextED e :=
          unlinkIntLoop_table hne h0 .refl (Nat.zero_le i) hi hall h₁
        exact htab
      | next x =>
        obtain ⟨i, hi, hall, hf⟩ := hr
        have hnext : o₁.nextED x = o.nextED e :=
          unlinkIntLoop_next hne h0 .refl rfl (Nat.zero_le i) hi hall hf h₁
        exact hnext

/-- The pointers back, which the case `ISO` redirects first. -/
theorem unlinkIsoBack_get (c : Cell) : (unlinkIsoBack o e).get c = o.get c := by
  have hnext : ∀ (o' : Ohci) (y v : EdPtr),
      (o'.modEd y (fun r => { r with edPrev := v })).nextED = o'.nextED := fun o' y v => by
    funext z
    dsimp only [Ohci.nextED]
    rw [Ohci.modEd_ed]
    split
    · rename_i hz
      rw [hz]
    · rfl
  unfold unlinkIsoBack
  dsimp only
  cases c with
  | table i => split <;> split <;> rfl
  | next x => split <;> split <;> first | rfl | exact congrFun (hnext _ _ _) x

theorem unlinkIsoBack_isotail :
    (unlinkIsoBack o e).edIsotail = if o.edIsotail = e then (o.ed e).edPrev else o.edIsotail := by
  unfold unlinkIsoBack
  dsimp only
  split <;> split <;> rfl

theorem unlinkIsoBack_prev : ((unlinkIsoBack o e).ed x).edPrev
    = if x = o.nextED e ∧ x ≠ 0 then (o.ed e).edPrev else (o.ed x).edPrev := by
  have hprev : ∀ o' : Ohci, o'.ed = o.ed → ((if o'.nextED e ≠ 0 then
      o'.modEd (o'.nextED e) (fun r => { r with edPrev := (o'.ed e).edPrev })
        else o').ed x).edPrev
      = if x = o.nextED e ∧ x ≠ 0 then (o.ed e).edPrev else (o.ed x).edPrev := fun o' ho => by
    have hn : o'.nextED e = o.nextED e := by
      unfold Ohci.nextED
      rw [ho]
    rw [hn, ho]
    by_cases hx : x = o.nextED e
    · by_cases h0 : o.nextED e = 0
      · rw [if_neg (not_not.mpr h0), if_neg (fun hcon => hcon.2 (hx.trans h0)), ho]
      · rw [if_pos h0, if_pos ⟨hx, hx ▸ h0⟩, hx, Ohci.modEd_ed_self]
    · rw [if_neg (fun hcon : x = o.nextED e ∧ x ≠ 0 => hx hcon.1)]
      split
      · rw [Ohci.modEd_ed_of_ne _ _ _ _ hx, ho]
      · rw [ho]
  unfold unlinkIsoBack
  dsimp only
  split
  · exact hprev _ rfl
  · exact hprev _ rfl

/-- The links back are those that the first part redirects; the others are left to the
second part. -/
theorem unlinkIsoBack_movesPast (hty : (o.ed e).type = .iso)
    (htail : o'.edIsotail = (unlinkIsoBack o e).edIsotail)
    (hprev : ∀ x, (o'.ed x).edPrev = ((unlinkIsoBack o e).ed x).edPrev)
    (hcell : ∀ c, o'.get c = o.get c ∨ o'.get c = o.nextED e)
    (hdone : ∀ c, o.get c = e → o.RedirectsIso e (.cell c) → o'.get c = o.nextED e) :
    MovesPast e o o' := by
  have hint : (o.ed e).type ≠ .int := by
    rw [hty]
    decide
  refine ⟨fun l => ?_, fun l hle hr => ?_⟩
  · cases l with
    | cell c =>
      exact (hcell c).imp id (fun hc => ⟨fun hi => absurd hi hint, hc⟩)
    | prev x =>
      dsimp only [EdLink.read, EdLink.past]
      rw [hprev, unlinkIsoBack_prev]
      split
      · exact .inr ⟨fun hi => absurd hi hint, rfl⟩
      · exact .inl rfl
    | isotail =>
      dsimp only [EdLink.read, EdLink.past]
      rw [htail, unlinkIsoBack_isotail]
      split
      · exact .inr ⟨fun hi => absurd hi hint, rfl⟩
      · exact .inl rfl
  · unfold Ohci.Redirects at hr
    rw [hty] at hr
    cases l with
    | cell c => exact hdone c hle hr
    | prev x =>
      dsimp only [EdLink.read, EdLink.past]
      have hx : x = o.nextED e ∧ x ≠ 0 := hr
      rw [hprev, unlinkIsoBack_prev, if_pos hx]
    | isotail =>
      have htl : o.edIsotail = e := hle
      dsimp only [EdLink.read, EdLink.past]
      rw [htail, unlinkIsoBack_isotail, if_pos htl]

/-- The case `ISO`. -/
theorem unlinkIso_movesPast (hty : (o.ed e).type = .iso) (hne : o.nextED e ≠ e) (h0 : e ≠ 0)
    (hl : unlinkIso fuel o e = some o') : MovesPast e o o' := by
  have hnext : (unlinkIsoBack o e).nextED e = o.nextED e := unlinkIsoBack_get (.next e)
  have hself : ((unlinkIsoBack o e).ed e).edPrev = (o.ed e).edPrev := by
    rw [unlinkIsoBack_prev, if_neg (fun hcon => hne hcon.1.symm)]
  unfold unlinkIso at hl
  dsimp only at hl
  rw [hself] at hl
  split at hl
  · rename_i hp
    cases hl
    have hset : ∀ c, ((unlinkIsoBack o e).set (.next (o.ed e).edPrev) (o.nextED e)).get c
        = if c = .next (o.ed e).edPrev then o.nextED e else o.get c := fun c => by
      split
      · rename_i hc
        rw [hc, get_set]
      · rename_i hc
        rw [get_set_of_ne _ _ _ hc, unlinkIsoBack_get]
    rw [hnext]
    refine unlinkIsoBack_movesPast hty rfl (fun x => ?_) (fun c => ?_) (fun c hc hr => ?_)
    · rw [Ohci.modEd_ed]
      split
      · rename_i hx
        rw [hx]
      · rfl
    · have hc := hset c
      split at hc
      · exact .inr hc
      · exact .inl hc
    · cases c with
      | table b => exact absurd hr.1 hp
      | next x =>
        obtain ⟨hp0, -⟩ | ⟨-, hx, -⟩ := hr
        · exact absurd hp0 hp
        · exact (hset (.next x)).trans (if_pos (by rw [hx]))
  · rename_i hp
    have hp : (o.ed e).edPrev = 0 := not_not.mp hp
    have hne' : (unlinkIsoBack o e).nextED e ≠ e := hnext ▸ hne
    have hmoves := isoLoop_movesOn hne' .refl hl
    refine unlinkIsoBack_movesPast hty hmoves.isotail hmoves.prev (fun c => ?_)
      (fun c hc hr => ?_)
    · rw [← unlinkIsoBack_get (o := o) (e := e) c, ← hnext]
      exact (hmoves.cell c).imp id And.right
    · rw [← hnext]
      have hvisit : ∀ b < 32, epRev 5 b ∈ List.range 32 ∧ epRev 5 (epRev 5 b) = b := fun b hb =>
        ⟨List.mem_range.mpr (epRev_lt hb), epRev_epRev le_rfl hb⟩
      cases c with
      | table b =>
        obtain ⟨hmem, hrev⟩ := hvisit b hr.2
        refine isoLoop_pass hne' .refl hmem (fun o₁ o₂ h₁ h₂ => ?_) hl
        rw [hrev] at h₂
        exact unlinkIsoWalk_here hne' h0 h₁ ((unlinkIsoBack_get _).trans hc) h₂
      | next x =>
        obtain ⟨-, b, hb, p, r, hwalk⟩ | ⟨hp0, -⟩ := hr
        swap
        · exact absurd hp hp0
        obtain ⟨hmem, hrev⟩ := hvisit b hb
        refine isoLoop_pass (c := .next x) hne' .refl hmem (fun o₁ o₂ h₁ h₂ => ?_) hl
        rw [hrev] at h₂
        have hnexts : (unlinkIsoBack o e).nextED = o.nextED :=
          funext (fun y => unlinkIsoBack_get (.next y))
        refine unlinkIsoWalk_behind (p := p) (r := r) hne' h0 h₁ ?_ h₂
        rw [hnexts, unlinkIsoBack_get]
        exact hwalk

/-- A write to an ED that leaves its links alone. -/
theorem read_modEd {f : Ed → Ed} (hn : ∀ r, (f r).hwNextED = r.hwNextED)
    (hp : ∀ r, (f r).edPrev = r.edPrev) (l : EdLink) : l.read (o.modEd x f) = l.read o := by
  cases l with
  | isotail => rfl
  | prev y =>
    dsimp only [EdLink.read]
    rw [Ohci.modEd_ed]
    split
    · rename_i hy
      rw [hp, hy]
    · rfl
  | cell c =>
    cases c with
    | table i => rfl
    | next y =>
      dsimp only [EdLink.read, Ohci.get, Ohci.nextED]
      rw [Ohci.modEd_ed]
      split
      · rename_i hy
        rw [hn, hy]
      · rfl

/-- **`ep_unlink` of a periodic ED moves links past it.** -/
theorem epUnlink_movesPast (hty : (o.ed e).type.periodic = true) (hne : o.nextED e ≠ e)
    (h0 : e ≠ 0) (hl : epUnlink fuel o e = some o') : MovesPast e o o' := by
  obtain ⟨o₂, h₂, hl⟩ := Option.bind_eq_some_iff.mp hl
  cases hl
  -- the mark on the ED is none of its links
  have hread : ∀ l : EdLink,
      l.read (o.modEd e (fun r => { r with hwINFO := { r.hwINFO with k := true } })) = l.read o :=
    read_modEd (fun _ => rfl) (fun _ => rfl)
  have hself : ∀ {α : Type} (g : Ed → α), (∀ r k, g { r with hwINFO := k } = g r) →
      g ((o.modEd e (fun r => { r with hwINFO := { r.hwINFO with k := true } })).ed e)
        = g (o.ed e) :=
    fun g hg => by rw [Ohci.modEd_ed_self, hg]
  have hnext : (o.modEd e (fun r => { r with hwINFO := { r.hwINFO with k := true } })).nextED
      = o.nextED := funext (fun y => hread (.cell (.next y)))
  have htable : (o.modEd e (fun r => { r with hwINFO := { r.hwINFO with k := true } })).intTable
      = o.intTable := rfl
  have htype := hself Ed.type (fun _ _ => rfl)
  have hprev := hself Ed.edPrev (fun _ _ => rfl)
  have hinterval :
      (o.modEd e (fun r => { r with hwINFO := { r.hwINFO with k := true } })).interval e
      = o.interval e := hself Ed.intInterval (fun _ _ => rfl)
  have hbranch : (o.modEd e (fun r => { r with hwINFO := { r.hwINFO with k := true } })).branch e
      = o.branch e := hself Ed.intBranch (fun _ _ => rfl)
  generalize o.modEd e (fun r => { r with hwINFO := { r.hwINFO with k := true } }) = o₁
    at h₂ hread hnext htable htype hprev hinterval hbranch
  have hpast : MovesPast e o₁ o₂ := by
    unfold unlinkType at h₂
    cases ht : (o.ed e).type with
    | int =>
      rw [htype, ht] at h₂
      exact unlinkInt_movesPast (htype.trans ht) (hnext ▸ hne) h0 h₂
    | iso =>
      rw [htype, ht] at h₂
      exact unlinkIso_movesPast (htype.trans ht) (hnext ▸ hne) h0 h₂
    | ctrl => simp [ht, PipeType.periodic] at hty
    | bulk => simp [ht, PipeType.periodic] at hty
  have hpasts : ∀ l : EdLink, l.past o₁ e = l.past o e := fun l => by
    cases l with
    | cell c => exact congrFun hnext e
    | prev x => exact hprev
    | isotail => exact hprev
  have hredirects : ∀ l, o.Redirects e l → o₁.Redirects e l := fun l hr => by
    unfold Ohci.Redirects at hr ⊢
    rw [htype]
    cases ht : (o.ed e).type <;> rw [ht] at hr
    · unfold Ohci.RedirectsIso Ohci.Follows at hr ⊢
      rwa [hnext, htable, hprev]
    · unfold Ohci.RedirectsInt Ohci.Follows at hr ⊢
      rwa [hnext, htable, hinterval, hbranch]
    · exact hr
    · exact hr
  have hlast : ∀ l : EdLink,
      l.read (o₂.modEd e (fun r => { r with state := .edUnlink })) = l.read o₂ :=
    read_modEd (fun _ => rfl) (fun _ => rfl)
  refine ⟨fun l => ?_, fun l hle hr => ?_⟩
  · rw [hlast, ← hread, ← hpasts, ← htype]
    exact hpast.moved l
  · rw [hlast, ← hpasts]
    exact hpast.done l ((hread l).trans hle) (hredirects l hr)

variable (h0 : e ≠ 0) (hty : (o.ed e).type.periodic = true) (hoper : (o.ed e).state.oper = true)

include h0 hty hoper

/-- A linked ED is led to. -/
theorem lingers_of_linked : o.skel.Lingers e := fun _ hS => hS.linked e h0 hty hoper

variable (hall : UnlinksAll o e)

include hall

/-- No link of the ED leads to itself. -/
theorem UnlinksAll.next_ne : o.nextED e ≠ e := by
  intro hcon
  have hr := hall hty (.cell (.next e)) ⟨lingers_of_linked h0 hty hoper, h0⟩ hcon
  have hf : ∀ b, ¬ o.Follows e e b := by
    rintro b ⟨p, r, hw⟩
    have hnd := hw.nodup
    simp [List.nodup_append] at hnd
  unfold Ohci.Redirects at hr
  cases ht : (o.ed e).type <;> rw [ht] at hr
  · obtain ⟨-, b, -, hr⟩ | ⟨-, -, hr⟩ := hr
    · exact hf b hr
    · exact hr rfl
  · obtain ⟨_, -, -, hr⟩ := hr
    exact hf _ hr
  · exact hr
  · exact hr

/-- The EDs its links are moved on to are led to. -/
theorem UnlinksAll.past_lingers {l : EdLink} (hl : (o.ed e).type = .int → ∃ c, l = .cell c) :
    o.skel.Lingers (l.past o e) ∧ l.past o e ≠ e := by
  have hself := lingers_of_linked h0 hty hoper
  have hne := hall.next_ne h0 hty hoper
  have hprev : (o.ed e).type ≠ .int →
      o.skel.Lingers (o.ed e).edPrev ∧ (o.ed e).edPrev ≠ e := by
    intro hint
    have hiso : (o.ed e).type = .iso := by
      cases ht : (o.ed e).type <;> simp_all [PipeType.periodic]
    refine ⟨fun S hS => hS.prev e (hself S hS) h0 hiso hoper, fun hcon => ?_⟩
    have hr := hall hty (.prev e) ⟨hself, h0, hiso, hoper⟩ hcon
    unfold Ohci.Redirects at hr
    rw [hiso] at hr
    exact hne (show e = o.nextED e ∧ e ≠ 0 from hr).1.symm
  cases l with
  | cell c => exact ⟨fun S hS => hS.next e (hself S hS) h0, hne⟩
  | prev x =>
    refine hprev (fun hint => ?_)
    obtain ⟨c, hc⟩ := hl hint
    cases hc
  | isotail =>
    refine hprev (fun hint => ?_)
    obtain ⟨c, hc⟩ := hl hint
    cases hc

/-- **Behind `ep_unlink` the schedule leads to the EDs it led to before**, less
the unlinked one. -/
theorem epUnlink_holds (hl : epUnlink fuel o e = some o') :
    o'.skel.Holds {x | o.skel.Lingers x ∧ x ≠ e} := by
  have hpast := epUnlink_movesPast hty (hall.next_ne h0 hty hoper) h0 hl
  have hr := epUnlink_reschedules h0 hl
  have hlinked : ∀ x, (o'.skel.state x).oper = true → x ≠ e ∧
      o'.skel.state x = o.skel.state x := by
    intro x ho
    rw [hr.state] at ho ⊢
    by_cases hx : x = e
    · subst hx
      rw [Function.update_self] at ho
      cases ho
    · exact ⟨hx, Function.update_of_ne hx _ _⟩
  have hint : ∀ l : EdLink, o.Redirects e l → (o.ed e).type = .int → ∃ c, l = .cell c := by
    intro l hrl ht
    unfold Ohci.Redirects at hrl
    rw [ht] at hrl
    cases l with
    | cell c => exact ⟨c, rfl⟩
    | prev x => exact hrl.elim
    | isotail => exact hrl.elim
  have hread : ∀ l : EdLink, l.Counts o → o.skel.Lingers (l.read o) →
      o.skel.Lingers (l.read o') ∧ l.read o' ≠ e := by
    intro l hc hling
    obtain hsame | ⟨hcell, hmoved⟩ := hpast.moved l
    · by_cases hle : l.read o = e
      · have hrl := hall hty l hc hle
        rw [hpast.done l hle hrl]
        exact hall.past_lingers h0 hty hoper (hint l hrl)
      · rw [hsame]
        exact ⟨hling, hle⟩
    · rw [hmoved]
      exact hall.past_lingers h0 hty hoper hcell
  refine ⟨⟨⟨fun S hS => hS.zero, h0.symm⟩, fun i => ?_, ?_, fun x hx hx0 => ?_⟩,
    fun x hx0 hp ho => ?_, fun x hx hx0 hi ho => ?_⟩
  · exact hread (.cell (.table i)) trivial (fun S hS => hS.table i)
  · exact hread .isotail trivial (fun S hS => hS.isotail)
  · exact hread (.cell (.next x)) ⟨hx.1, hx0⟩ (fun S hS => hS.next x (hx.1 S hS) hx0)
  · obtain ⟨hxe, hst⟩ := hlinked x ho
    rw [hr.type] at hp
    rw [hst] at ho
    exact ⟨fun S hS => hS.linked x hx0 hp ho, hxe⟩
  · rw [hr.type] at hi
    rw [(hlinked x ho).2] at ho
    exact hread (.prev x) ⟨hx.1, hx0, hi, ho⟩ (fun S hS => hS.prev x (hx.1 S hS) hx0 hi ho)

end Past

/-- An interrupt ED that nothing precedes. -/
theorem UnlinksAll.of_first {o : Ohci} {e : EdPtr} (hty : (o.ed e).type = .int)
    (hnext : ∀ x, o.nextED x ≠ e) (hprev : ∀ x, (o.ed x).edPrev ≠ e) (htail : o.edIsotail ≠ e)
    (htable : ∀ b, o.intTable b = e → ∃ i < epRev 6 (o.interval e), visit (o.branch e) i = b)
    (hall : ∀ i < epRev 6 (o.interval e), o.intTable (visit (o.branch e) i) = e) :
    UnlinksAll o e := by
  intro _ l _ hle
  unfold Ohci.Redirects
  rw [hty]
  cases l with
  | prev x => exact absurd hle (hprev x)
  | isotail => exact absurd hle htail
  | cell c =>
    cases c with
    | next x => exact absurd hle (hnext x)
    | table b =>
      obtain ⟨i, hi, rfl⟩ := htable b hle
      exact ⟨i, hi, rfl, fun j hj => hall j (hj.trans_lt hi)⟩
