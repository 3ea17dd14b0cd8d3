import SideDumper.DoublyLinked
import SideDumper.SkelSteps

/-!
# The control and the bulk list as sequences

`ep_link` and `ep_unlink` keep four views of a list in step: the head
register, the tail pointer, the forward links and the links back. `Chains`
says which sequence each of the two lists is, and `HcRun` follows the
sequences through any number of calls: linking puts an ED at the end, and
unlinking takes it out from where it is. The links of an ED that is on no
list are never read, so it does not matter what an earlier stay has left
there.
-/

namespace Skel

section Lists

variable {s : Skel} {e x : EdPtr} {l l' : HcList} {xs : List EdPtr}

theorem linkHc_head (s : Skel) (l : HcList) (e : EdPtr) :
    (s.linkHc l e).head l = if s.tail l = 0 then e else s.head l := by
  rw [linkHc]
  dsimp only
  split
  · exact Function.update_self _ _ _
  · rfl

theorem linkHc_tail (s : Skel) (l : HcList) (e : EdPtr) : (s.linkHc l e).tail l = e :=
  Function.update_self _ _ _

theorem linkHc_head_of_ne (hl : l' ≠ l) : (s.linkHc l e).head l' = s.head l' := by
  rw [linkHc]
  dsimp only
  split
  · exact Function.update_of_ne hl _ _
  · rfl

theorem linkHc_tail_of_ne (hl : l' ≠ l) : (s.linkHc l e).tail l' = s.tail l' :=
  Function.update_of_ne hl _ _

theorem unlinkHc_head (s : Skel) (l : HcList) (e : EdPtr) :
    (s.unlinkHc l e).head l = if s.prev e = 0 then s.next e else s.head l := by
  rw [unlinkHc]
  dsimp only
  split
  · exact Function.update_self _ _ _
  · rfl

theorem unlinkHc_tail (s : Skel) (l : HcList) (e : EdPtr) :
    (s.unlinkHc l e).tail l = if s.tail l = e then s.prev e else s.tail l := by
  rw [unlinkHc]
  dsimp only
  split
  · exact Function.update_self _ _ _
  · rfl

theorem unlinkHc_head_of_ne (hl : l' ≠ l) : (s.unlinkHc l e).head l' = s.head l' := by
  rw [unlinkHc]
  dsimp only
  split
  · exact Function.update_of_ne hl _ _
  · rfl

theorem unlinkHc_tail_of_ne (hl : l' ≠ l) : (s.unlinkHc l e).tail l' = s.tail l' := by
  rw [unlinkHc]
  dsimp only
  split
  · exact Function.update_of_ne hl _ _
  · rfl

/-- **Linking appends to the list.** -/
theorem linkHc_list (hx : DoublyLinked s.next s.prev 0 (s.head l) (s.tail l) xs) (h0 : e ≠ 0)
    (he : e ∉ xs) :
    DoublyLinked ((s.raise e).linkHc l e).next ((s.raise e).linkHc l e).prev 0
      (((s.raise e).linkHc l e).head l) (((s.raise e).linkHc l e).tail l) (xs ++ [e]) := by
  have hraise : DoublyLinked (s.raise e).next (s.raise e).prev 0 ((s.raise e).head l)
      ((s.raise e).tail l) xs :=
    hx.congr (fun x hxs => Function.update_of_ne (ne_of_mem_of_not_mem hxs he) _ _)
      (fun _ _ => rfl)
  rw [linkHc_head, linkHc_tail]
  exact hraise.append he h0 (Function.update_self _ _ _)

/-- **Unlinking takes the ED out of the list.** -/
theorem unlinkHc_erase (hx : DoublyLinked s.next s.prev 0 (s.head l) (s.tail l) xs)
    (he : e ∈ xs) :
    DoublyLinked (s.unlinkHc l e).next (s.unlinkHc l e).prev 0 ((s.unlinkHc l e).head l)
      ((s.unlinkHc l e).tail l) (xs.erase e) := by
  obtain ⟨as, bs, rfl⟩ := List.append_of_mem he
  have hnotin : e ∉ as := fun hin => by
    have hnd := hx.nodup
    simp only [List.nodup_append, List.nodup_cons] at hnd
    exact hnd.2.2 e hin e List.mem_cons_self rfl
  rw [List.erase_append_right _ hnotin, List.erase_cons_head, unlinkHc_head, unlinkHc_tail]
  exact hx.remove

/-- Linking writes the new ED and the one at the tail. -/
theorem linkHc_keeps (hx : DoublyLinked s.next s.prev 0 (s.head l) (s.tail l) xs) (hxe : x ≠ e)
    (hxs : x ∉ xs) : ((s.raise e).linkHc l e).next x = s.next x ∧
      ((s.raise e).linkHc l e).prev x = s.prev x := by
  refine ⟨?_, Function.update_of_ne hxe _ _⟩
  have hnext : (s.raise e).next x = s.next x := Function.update_of_ne hxe _ _
  rw [linkHc]
  dsimp only
  split
  · exact hnext
  · rename_i hne
    rw [Function.update_of_ne, hnext]
    rintro rfl
    exact hxs (List.mem_reverse.mp (hx.bwd.start_mem hne))

/-- Unlinking writes the two neighbours. -/
theorem unlinkHc_keeps (hx : DoublyLinked s.next s.prev 0 (s.head l) (s.tail l) xs) (he : e ∈ xs)
    (hxs : x ∉ xs) (hx0 : x ≠ 0) : (s.unlinkHc l e).next x = s.next x ∧
      (s.unlinkHc l e).prev x = s.prev x := by
  obtain ⟨as, bs, rfl⟩ := List.append_of_mem he
  have hprev : s.prev e ≠ 0 → s.prev e ∈ as ++ e :: bs := by
    intro hne
    rw [hx.prev_eq] at hne ⊢
    cases hr : as.reverse with
    | nil => simp [hr] at hne
    | cons y ys =>
      have hy : y ∈ as := List.mem_reverse.mp (by rw [hr]; exact List.mem_cons_self)
      exact List.mem_append_left _ hy
  have hnext : s.next e ≠ 0 → s.next e ∈ as ++ e :: bs := by
    intro hne
    rw [hx.next_eq] at hne ⊢
    cases bs with
    | nil => simp at hne
    | cons b bs => simp
  rw [unlinkHc]
  dsimp only
  constructor
  · split
    · rfl
    · rename_i hne
      exact Function.update_of_ne (ne_of_mem_of_not_mem (hprev hne) hxs).symm _ _
  · split
    · rfl
    · by_cases hne : s.next e = 0
      · rw [hne]
        exact Function.update_of_ne hx0 _ _
      · exact Function.update_of_ne (ne_of_mem_of_not_mem (hnext hne) hxs).symm _ _

end Lists

/-- **Which sequence each list is.** -/
structure Chains (s : Skel) (xs : HcList → List EdPtr) : Prop where
  list : ∀ l, DoublyLinked s.next s.prev 0 (s.head l) (s.tail l) (xs l)
  type : ∀ l, ∀ e ∈ xs l, s.type e = l.type

namespace Chains

variable {s : Skel} {xs : HcList → List EdPtr} {l l' : HcList} {e x : EdPtr}

/-- No ED is on both lists. -/
theorem disjoint (h : s.Chains xs) (hl : l' ≠ l) (hx : x ∈ xs l') : x ∉ xs l := fun hx' =>
  hl (HcList.type_injective ((h.type l' x hx).symm.trans (h.type l x hx')))

/-- `ep_link` of an ED that is on no list. -/
theorem link (h : s.Chains xs) (h0 : e ≠ 0) (ht : s.type e = l.type) (he : e ∉ xs l) :
    ((s.raise e).linkHc l e).Chains (Function.update xs l (xs l ++ [e])) where
  list := fun l' => by
    by_cases hl : l' = l
    · subst hl
      rw [Function.update_self]
      exact linkHc_list (h.list l') h0 he
    · rw [Function.update_of_ne hl, linkHc_head_of_ne hl, linkHc_tail_of_ne hl]
      have hkeep : ∀ x ∈ xs l', ((s.raise e).linkHc l e).next x = s.next x ∧
          ((s.raise e).linkHc l e).prev x = s.prev x := by
        intro x hx
        have hxe : x ≠ e := by
          rintro rfl
          exact hl (HcList.type_injective ((h.type l' x hx).symm.trans ht))
        exact linkHc_keeps (h.list l) hxe (h.disjoint hl hx)
      exact (h.list l').congr (fun x hx => (hkeep x hx).1) (fun x hx => (hkeep x hx).2)
  type := fun l' x hx => by
    by_cases hl : l' = l
    · subst hl
      rw [Function.update_self, List.mem_append, List.mem_singleton] at hx
      rcases hx with hx | rfl
      · exact h.type l' x hx
      · exact ht
    · rw [Function.update_of_ne hl] at hx
      exact h.type l' x hx

/-- `ep_unlink` of an ED that is on its list. -/
theorem unlink (h : s.Chains xs) (he : e ∈ xs l) :
    (s.unlinkHc l e).Chains (Function.update xs l ((xs l).erase e)) where
  list := fun l' => by
    by_cases hl : l' = l
    · subst hl
      rw [Function.update_self]
      exact unlinkHc_erase (h.list l') he
    · rw [Function.update_of_ne hl, unlinkHc_head_of_ne hl, unlinkHc_tail_of_ne hl]
      have hkeep : ∀ x ∈ xs l', (s.unlinkHc l e).next x = s.next x ∧
          (s.unlinkHc l e).prev x = s.prev x := fun x hx =>
        unlinkHc_keeps (h.list l) he (h.disjoint hl hx) ((h.list l').ne_stop hx)
      exact (h.list l').congr (fun x hx => (hkeep x hx).1) (fun x hx => (hkeep x hx).2)
  type := fun l' x hx => by
    by_cases hl : l' = l
    · subst hl
      rw [Function.update_self] at hx
      exact h.type l' x (List.mem_of_mem_erase hx)
    · rw [Function.update_of_ne hl] at hx
      exact h.type l' x hx

end Chains

end Skel

/-! ## Runs of the two functions -/

/-- **Any number of calls of the two functions** for control and bulk EDs,
in any order, with the EDs linked now in the order of linking. -/
inductive HcRun (fuel : ℕ) : Ohci → (HcList → List EdPtr) → Prop
  | start (o : Ohci) (h : ∀ l, o.hcHead l = 0 ∧ o.hcTail l = 0) : HcRun fuel o (fun _ => [])
  | link {o o' : Ohci} {xs : HcList → List EdPtr} (l : HcList) (e : EdPtr) (h : HcRun fuel o xs)
      (h0 : e ≠ 0) (ht : (o.ed e).type = l.type) (he : e ∉ xs l) (hl :
        epLink fuel o e = some o') :
      HcRun fuel o' (Function.update xs l (xs l ++ [e]))
  | unlink {o o' : Ohci} {xs : HcList → List EdPtr} (l : HcList) (e : EdPtr) (h : HcRun fuel o xs)
      (he : e ∈ xs l) (hl : epUnlink fuel o e = some o') :
      HcRun fuel o' (Function.update xs l ((xs l).erase e))

/-- **A list in the memory is the sequence `xs`**: the chain from the head
register along `hwNextED` is `xs` and ends in 0, the tail pointer is the
last one, and each `ed_prev` is the ED in front. -/
structure Ohci.HcExact (o : Ohci) (l : HcList) (xs : List EdPtr) : Prop where
  chain : Walk o.nextED 0 (o.hcHead l) xs
  tail : o.hcTail l = xs.getLast?.getD 0
  prev : ∀ as e bs, xs = as ++ e :: bs → (o.ed e).edPrev = as.getLast?.getD 0

/-- **A list is as it was**, in the registers and in each of its EDs. -/
def Ohci.SameList (o o' : Ohci) (l : HcList) (xs : List EdPtr) : Prop :=
  o'.hcHead l = o.hcHead l ∧ o'.hcTail l = o.hcTail l ∧
    ∀ x ∈ xs, o'.nextED x = o.nextED x ∧ (o'.ed x).edPrev = (o.ed x).edPrev

section Runs

variable {o o' : Ohci} {xs : HcList → List EdPtr} {l l' : HcList} {e : EdPtr} {fuel : ℕ}

theorem Skel.Chains.hcExact (h : o.skel.Chains xs) (l : HcList) : o.HcExact l (xs l) where
  chain := (h.list l).fwd
  tail := by
    have ht := (h.list l).bwd.start_eq
    rw [List.headD_eq_head?_getD, List.head?_reverse] at ht
    exact ht
  prev := fun as e bs hxs => by
    have hlist := h.list l
    rw [hxs] at hlist
    have hp := hlist.prev_eq
    rw [List.headD_eq_head?_getD, List.head?_reverse] at hp
    exact hp

/-- The states do not matter. -/
theorem Skel.Chains.setState {s : Skel} {st : EdState} (h : s.Chains xs) :
    (s.setState e st).Chains xs := ⟨h.list, h.type⟩

theorem HcRun.chains (h : HcRun fuel o xs) : o.skel.Chains xs := by
  induction h with
  | start o h =>
    refine ⟨fun l => ?_, fun l e he => absurd he List.not_mem_nil⟩
    have hh : o.skel.head l = 0 := (h l).1
    have ht : o.skel.tail l = 0 := (h l).2
    rw [hh, ht]
    exact DoublyLinked.nil
  | link l e _ h0 ht he hl ih =>
    rw [epLink_hc ht hl]
    exact ih.link h0 ht he
  | unlink l e _ he hl ih =>
    rw [epUnlink_hc (ih.type l e he) hl]
    exact (ih.unlink he).setState

/-- `ep_link` of a control or bulk ED does not loop. -/
theorem exists_epLink_hc (fuel : ℕ) (ht : (o.ed e).type = l.type) :
    ∃ o', epLink fuel o e = some o' := by
  have htype : ((o.modEd e (fun r => { r with state := .edOper, hwNextED := 0 })).ed e).type
      = l.type := by
    rw [Ohci.modEd_ed_self]
    exact ht
  unfold epLink
  dsimp only
  rw [htype]
  cases l <;> exact ⟨_, rfl⟩

/-- Nor does `ep_unlink`. -/
theorem exists_epUnlink_hc (fuel : ℕ) (ht : (o.ed e).type = l.type) :
    ∃ o', epUnlink fuel o e = some o' := by
  unfold epUnlink unlinkType
  dsimp only
  rw [Ohci.modEd_ed_self]
  dsimp only
  rw [ht]
  cases l <;> exact ⟨_, rfl⟩

/-- **The two lists are exact doubly linked lists.** After any calls of
`ep_link` and `ep_unlink`, each list is the sequence of its linked EDs in the
order of linking; and a further call returns and leaves the other list as it
is. -/
theorem hcRun_exact (h : HcRun fuel o xs) :
    (∀ l, o.HcExact l (xs l)) ∧
    (∀ l e, e ≠ 0 → (o.ed e).type = l.type → e ∉ xs l → ∃ o', epLink fuel o e = some o' ∧
      ∀ l', l' ≠ l → o.SameList o' l' (xs l')) ∧
    ∀ l e, e ∈ xs l → ∃ o', epUnlink fuel o e = some o' ∧
      ∀ l', l' ≠ l → o.SameList o' l' (xs l') := by
  have hc := h.chains
  refine ⟨hc.hcExact, fun l e _ ht _ => ?_, fun l e he => ?_⟩
  · obtain ⟨o', hl⟩ := exists_epLink_hc fuel ht
    refine ⟨o', hl, fun l' hne => ?_⟩
    have hs := epLink_hc ht hl
    have hhead : o'.skel.head l' = o.skel.head l' := by rw [hs, Skel.linkHc_head_of_ne hne]; rfl
    have htail : o'.skel.tail l' = o.skel.tail l' := by rw [hs, Skel.linkHc_tail_of_ne hne]; rfl
    refine ⟨hhead, htail, fun x hx => ?_⟩
    have hxe : x ≠ e := by
      rintro rfl
      exact hne (HcList.type_injective ((hc.type l' x hx).symm.trans ht))
    have hkeep := Skel.linkHc_keeps (hc.list l) hxe (hc.disjoint hne hx)
    rw [← hs] at hkeep
    exact hkeep
  · have ht := hc.type l e he
    obtain ⟨o', hl⟩ := exists_epUnlink_hc fuel ht
    refine ⟨o', hl, fun l' hne => ?_⟩
    have hs := epUnlink_hc ht hl
    have hhead : o'.skel.head l' = o.skel.head l' := by
      rw [hs, Skel.setState_head, Skel.unlinkHc_head_of_ne hne]
    have htail : o'.skel.tail l' = o.skel.tail l' := by
      rw [hs, Skel.setState_tail, Skel.unlinkHc_tail_of_ne hne]
    refine ⟨hhead, htail, fun x hx => ?_⟩
    have hkeep :=
      Skel.unlinkHc_keeps (hc.list l) he (hc.disjoint hne hx) ((hc.list l').ne_stop hx)
    rw [← Skel.setState_next _ e .edUnlink, ← Skel.setState_prev _ e .edUnlink, ← hs] at hkeep
    exact hkeep

/-- Two bulk EDs linked, the first of them taken out and linked again, with
the links of its first stay still in it. -/
theorem hcRun_exact_relinked : ∃ o : Ohci, o.HcExact .bulk [13, 12] := by
  have hstart :
      HcRun 1 { (default : Ohci) with ed := fun _ => { (default : Ed) with type := .bulk } }
      (fun _ => []) := .start _ (fun l => by cases l <;> exact ⟨rfl, rfl⟩)
  have h₁ := hstart.link .bulk 12 (by decide) rfl (by decide) rfl
  have h₂ := h₁.link .bulk 13 (by decide) rfl (by decide) rfl
  have h₃ := h₂.unlink .bulk 12 (by decide) rfl
  have h₄ := h₃.link .bulk 12 (by decide) rfl (by decide) rfl
  exact ⟨_, (hcRun_exact h₄).1 .bulk⟩

end Runs
