import SideDumper.Skeleton
import Mathlib.Data.Set.Insert

/-!
# What the periodic schedule can reach

Linking and unlinking interrupt and isochronous EDs walks along `hwNextED`
from the entries of `int_table` and writes to the EDs on the way. Here only
one thing about these walks matters: which EDs they can get to. A set of EDs
that contains the entries and is closed under the links stays so, and
everything outside of it is left alone. When an ED of another kind is in
every such set, it is left over on the periodic schedule, and its links are
no longer its own.
-/

/-- The types of the EDs in the periodic schedule. -/
def PipeType.periodic : PipeType → Bool
  | .iso | .int => true
  | .ctrl | .bulk => false

/-- **A set of EDs closed under the links of the periodic schedule**; the
null pointer is in it. -/
structure Skel.Closed (s : Skel) (S : Set EdPtr) : Prop where
  zero : 0 ∈ S
  table : ∀ i, s.table i ∈ S
  isotail : s.isotail ∈ S
  next : ∀ x ∈ S, x ≠ 0 → s.next x ∈ S

/-- **The periodic EDs that are linked are in a closed set**, and with an
isochronous one that is linked what its `ed_prev` leads to. -/
structure Skel.Holds (s : Skel) (S : Set EdPtr) : Prop extends s.Closed S where
  linked : ∀ x, x ≠ 0 → (s.type x).periodic = true → (s.state x).oper = true → x ∈ S
  prev : ∀ x ∈ S, x ≠ 0 → s.type x = .iso → (s.state x).oper = true → s.prev x ∈ S

/-- **An ED is left over on the periodic schedule**: the entries of
`int_table`, `ed_isotail` and the links of the linked EDs lead to it. -/
def Skel.Lingers (s : Skel) (e : EdPtr) : Prop := ∀ S, s.Holds S → e ∈ S

/-- Edits inside of a set, which stays closed. -/
structure EditsWithin (S : Set EdPtr) (s s' : Skel) : Prop where
  closed : s'.Closed S
  next : ∀ x, x ∉ S → s'.next x = s.next x
  prev : ∀ x, x ∉ S → s'.prev x = s.prev x
  prevIn : ∀ x, s'.prev x = s.prev x ∨ s'.prev x ∈ S
  same : s' = { s with
    table := s'.table, isotail := s'.isotail, next := s'.next, prev := s'.prev }

namespace EditsWithin

variable {S : Set EdPtr} {s s' s'' : Skel} {e v : EdPtr}

theorem refl (h : s.Closed S) : EditsWithin S s s :=
  ⟨h, fun _ _ => rfl, fun _ _ => rfl, fun _ => .inl rfl, rfl⟩

theorem trans (h : EditsWithin S s s') (h' : EditsWithin S s' s'') : EditsWithin S s s'' where
  closed := h'.closed
  next := fun x hx => (h'.next x hx).trans (h.next x hx)
  prev := fun x hx => (h'.prev x hx).trans (h.prev x hx)
  prevIn := fun x => by
    rcases h'.prevIn x with hx | hx
    · rw [hx]
      exact h.prevIn x
    · exact .inr hx
  same := by rw [h'.same, h.same]

theorem setNext (h : EditsWithin S s s') (he : e ∈ S) (hv : v ∈ S) :
    EditsWithin S s { s' with next := Function.update s'.next e v } := by
  refine h.trans ⟨{ h.closed with next := fun x hx h0 => ?_ }, fun x hx => ?_, fun _ _ => rfl,
    fun _ => .inl rfl, rfl⟩
  · dsimp only
    rw [Function.update_apply]
    split
    · exact hv
    · exact h.closed.next x hx h0
  · exact Function.update_of_ne (ne_of_mem_of_not_mem he hx).symm v s'.next

theorem setPrev (h : EditsWithin S s s') (he : e ∈ S) (hv : v ∈ S) :
    EditsWithin S s { s' with prev := Function.update s'.prev e v } := by
  refine h.trans ⟨{ h.closed with }, fun _ _ => rfl, fun x hx => ?_, fun x => ?_, rfl⟩
  · exact Function.update_of_ne (ne_of_mem_of_not_mem he hx).symm v s'.prev
  · dsimp only
    rw [Function.update_apply]
    split
    · exact .inr hv
    · exact .inl rfl

theorem setTable (h : EditsWithin S s s') (i : ℕ) (hv : v ∈ S) :
    EditsWithin S s { s' with table := Function.update s'.table i v } := by
  refine h.trans ⟨{ h.closed with table := fun j => ?_ }, fun _ _ => rfl, fun _ _ => rfl,
    fun _ => .inl rfl, rfl⟩
  dsimp only
  rw [Function.update_apply]
  split
  · exact hv
  · exact h.closed.table j

theorem setIsotail (h : EditsWithin S s s') (hv : v ∈ S) :
    EditsWithin S s { s' with isotail := v } :=
  h.trans ⟨{ h.closed with isotail := hv }, fun _ _ => rfl, fun _ _ => rfl,
    fun _ => .inl rfl, rfl⟩

end EditsWithin

/-! ## The loops -/

/-- The address of a link of a closed set. -/
def Cell.In (S : Set EdPtr) : Cell → Prop
  | .table _ => True
  | .next e => e ∈ S ∧ e ≠ 0

section Loops

variable {S : Set EdPtr} {o o' : Ohci} {e v : EdPtr} {c c' : Cell} {fuel inter inter' : ℕ}

theorem table_in (S : Set EdPtr) (i : ℕ) : (Cell.table i).In S := trivial

theorem get_mem (h : o.skel.Closed S) (hc : c.In S) : o.get c ∈ S := by
  cases c with
  | table i => exact h.table i
  | next x => exact h.next x hc.1 hc.2

theorem EditsWithin.set {s : Skel} (h : EditsWithin S s o.skel) (hc : c.In S) (hv : v ∈ S) :
    EditsWithin S s (o.set c v).skel := by
  cases c with
  | table i => exact h.setTable i hv
  | next x =>
    rw [Ohci.set, Ohci.skel_modEd_next]
    exact h.setNext hc.1 hv

theorem linkWalk_in {keep : EdPtr → Bool} (h : o.skel.Closed S) (hc : c.In S)
    (hw : linkWalk o keep fuel c inter = some (c', inter')) : c'.In S := by
  induction fuel generalizing c inter with
  | zero => cases hw
  | succ fuel ih =>
    rw [linkWalk] at hw
    split at hw
    · exact ih (c := .next (o.get c)) ⟨get_mem h hc, by tauto⟩ hw
    · cases hw
      exact hc

theorem linkIntLoop_edits {s : Skel} {interval intBranch i : ℕ} (h : EditsWithin S s o.skel)
    (he : e ∈ S) (hw : linkIntLoop e interval intBranch fuel i o = some o') :
    EditsWithin S s o'.skel := by
  induction fuel generalizing i o with
  | zero => cases hw
  | succ fuel ih =>
    rw [linkIntLoop] at hw
    split at hw
    · obtain ⟨⟨c, stride⟩, hc, hw⟩ := Option.bind_eq_some_iff.mp hw
      have hin : c.In S := linkWalk_in h.closed (table_in S _) hc
      refine ih (EditsWithin.set ?_ hin he) hw
      rw [Ohci.skel_modEd_next]
      exact h.setNext he (get_mem h.closed hin)
    · cases hw
      exact h

theorem linkIsoLoop_edits {s : Skel} {i : ℕ} (h : EditsWithin S s o.skel) (he : e ∈ S)
    (hw : linkIsoLoop e fuel i o = some o') : EditsWithin S s o'.skel := by
  induction fuel generalizing i o with
  | zero => cases hw
  | succ fuel ih =>
    rw [linkIsoLoop] at hw
    split at hw
    · obtain ⟨⟨c, stride⟩, hc, hw⟩ := Option.bind_eq_some_iff.mp hw
      exact ih (h.set (linkWalk_in h.closed (table_in S _) hc) he) hw
    · cases hw
      exact h

theorem unlinkWalk_edits {s : Skel} (h : EditsWithin S s o.skel) (he : e ∈ S) (h0 : e ≠ 0)
    (hc : c.In S) (hw : unlinkWalk e o fuel c inter = some (o', inter')) :
    EditsWithin S s o'.skel := by
  induction fuel generalizing c inter with
  | zero => cases hw
  | succ fuel ih =>
    rw [unlinkWalk] at hw
    split at hw
    · split at hw
      · cases hw
        exact h.set hc (h.closed.next e he h0)
      · exact ih (c := .next (o.get c)) ⟨get_mem h.closed hc, by tauto⟩ hw
    · cases hw
      exact h

theorem unlinkIntLoop_edits {s : Skel} {interval intBranch i : ℕ} (h : EditsWithin S s o.skel)
    (he : e ∈ S) (h0 : e ≠ 0) (hw : unlinkIntLoop e interval intBranch fuel i o = some o') :
    EditsWithin S s o'.skel := by
  induction fuel generalizing i o with
  | zero => cases hw
  | succ fuel ih =>
    rw [unlinkIntLoop] at hw
    split at hw
    · obtain ⟨⟨o₁, stride⟩, h₁, hw⟩ := Option.bind_eq_some_iff.mp hw
      exact ih (unlinkWalk_edits h he h0 (table_in S _) h₁) hw
    · cases hw
      exact h

theorem unlinkIsoWalk_edits {s : Skel} (h : EditsWithin S s o.skel) (he : e ∈ S) (h0 : e ≠ 0)
    (hc : c.In S) (hw : unlinkIsoWalk e o fuel c = some o') : EditsWithin S s o'.skel := by
  induction fuel generalizing c with
  | zero => cases hw
  | succ fuel ih =>
    rw [unlinkIsoWalk] at hw
    split at hw
    · split at hw
      · cases hw
        exact h.set hc (h.closed.next e he h0)
      · exact ih (c := .next (o.get c)) ⟨get_mem h.closed hc, by tauto⟩ hw
    · cases hw
      exact h

end Loops

/-! ## `ep_link` and `ep_unlink` of periodic EDs -/

section Periodic

variable {S : Set EdPtr} {s : Skel} {o o' : Ohci} {e : EdPtr} {fuel : ℕ}

theorem linkInt_edits (h : EditsWithin S s o.skel) (he : e ∈ S)
    (hl : linkInt fuel o e = some o') : EditsWithin S s o'.skel := by
  have hquiet : ∀ (o : Ohci) (n : ℕ),
      (o.modEd e (fun r => { r with intInterval := n })).skel = o.skel :=
    fun o n => Ohci.skel_modEd_quiet (fun _ => rfl)
  have hquiet' : ∀ (o : Ohci) (n : ℕ),
      (o.modEd e (fun r => { r with intBranch := n })).skel = o.skel :=
    fun o n => Ohci.skel_modEd_quiet (fun _ => rfl)
  obtain ⟨⟨branch, o₁⟩, h₁, hl⟩ := Option.bind_eq_some_iff.mp hl
  obtain ⟨l, -, h₁⟩ := Option.bind_eq_some_iff.mp h₁
  simp only [Option.some.injEq, Prod.mk.injEq] at h₁
  obtain ⟨-, rfl⟩ := h₁
  refine linkIntLoop_edits ?_ he hl
  rw [hquiet']
  exact (hquiet o _).symm ▸ h

theorem linkIsoAt_edits (h : EditsWithin S s o.skel) (he : e ∈ S)
    (hl : linkIsoAt fuel o e = some o') : EditsWithin S s o'.skel ∧ o'.skel.prev e ∈ S := by
  unfold linkIsoAt at hl
  split at hl
  · cases hl
    rw [Ohci.skel_modEd_prev, Ohci.skel_modEd_next]
    refine ⟨(h.setNext h.closed.isotail he).setPrev he h.closed.isotail, ?_⟩
    simp only [Function.update_self]
    exact h.closed.isotail
  · obtain ⟨o₁, h₁, hl⟩ := Option.bind_eq_some_iff.mp hl
    cases hl
    rw [Ohci.skel_modEd_prev]
    refine ⟨(linkIsoLoop_edits h he h₁).setPrev he h.closed.zero, ?_⟩
    simp only [Function.update_self]
    exact h.closed.zero

theorem linkIso_edits (h : EditsWithin S s o.skel) (he : e ∈ S)
    (hl : linkIso fuel o e = some o') : EditsWithin S s o'.skel ∧ o'.skel.prev e ∈ S := by
  have hquiet : (o.modEd e (fun r => { r with intInterval := 1 })).skel = o.skel :=
    Ohci.skel_modEd_quiet (fun _ => rfl)
  obtain ⟨o₁, h₁, hl⟩ := Option.bind_eq_some_iff.mp hl
  cases hl
  obtain ⟨hedit, hprev⟩ := linkIsoAt_edits (hquiet.symm ▸ h) he h₁
  exact ⟨hedit.setIsotail he, hprev⟩

theorem unlinkInt_edits (h : EditsWithin S s o.skel) (he : e ∈ S) (h0 : e ≠ 0)
    (hl : unlinkInt fuel o e = some o') : EditsWithin S s o'.skel := by
  obtain ⟨o₁, h₁, hl⟩ := Option.bind_eq_some_iff.mp hl
  obtain ⟨l, -, hl⟩ := Option.bind_eq_some_iff.mp hl
  cases hl
  have hloop : EditsWithin S s o₁.skel := unlinkIntLoop_edits h he h0 h₁
  exact hloop

theorem unlinkIsoBack_edits (h : EditsWithin S s o.skel) (he : e ∈ S) (h0 : e ≠ 0)
    (hp : o.skel.prev e ∈ S) : EditsWithin S s (unlinkIsoBack o e).skel := by
  have hnext : o.nextED e ∈ S := h.closed.next e he h0
  have hnext' : ∀ o' : Ohci, EditsWithin S s o'.skel → o'.nextED e ∈ S → (o'.ed e).edPrev ∈ S →
      EditsWithin S s (if o'.nextED e ≠ 0 then
        o'.modEd (o'.nextED e) (fun r => { r with edPrev := (o'.ed e).edPrev })
          else o').skel := by
    intro o' h' hn hv
    split
    · rw [Ohci.skel_modEd_prev]
      exact h'.setPrev hn hv
    · exact h'
  refine hnext' _ ?_ ?_ ?_
  · split
    · exact h.setIsotail hp
    · exact h
  · split <;> exact hnext
  · split <;> exact hp

theorem unlinkIso_edits (h : EditsWithin S s o.skel) (he : e ∈ S) (h0 : e ≠ 0)
    (hp : o.skel.prev e ∈ S) (hl : unlinkIso fuel o e = some o') : EditsWithin S s o'.skel := by
  have hback := unlinkIsoBack_edits h he h0 hp
  have hnext : (unlinkIsoBack o e).nextED e ∈ S := hback.closed.next e he h0
  unfold unlinkIso at hl
  dsimp only at hl
  split at hl
  · cases hl
    rw [Ohci.skel_modEd_next]
    refine hback.setNext ?_ hnext
    rcases (unlinkIsoBack_edits (EditsWithin.refl h.closed) he h0 hp).prevIn e with hx | hx
    · have hx' : ((unlinkIsoBack o e).ed e).edPrev = o.skel.prev e := hx
      rwa [hx']
    · exact hx
  · generalize unlinkIsoBack o e = o₁ at hback hl
    generalize List.range 32 = is at hl
    induction is generalizing o₁ with
    | nil =>
      cases hl
      exact hback
    | cons i is ih =>
      rw [List.foldlM_cons] at hl
      obtain ⟨o₂, h₂, hl⟩ := Option.bind_eq_some_iff.mp hl
      exact ih o₂ (unlinkIsoWalk_edits hback he h0 (table_in S _) h₂) hl

end Periodic
