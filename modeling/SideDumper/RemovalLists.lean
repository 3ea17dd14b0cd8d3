import SideDumper.Walk
import SideDumper.RunEffects

/-!
# The removal lists

`ep_rm_ed` puts an ED on one of two lists, by the parity of the frame number,
unless its state says that it is on one already, and `dl_del_list` looks at
the EDs of a list and empties it. So the flags `ED_DEL` and `ED_URB_DEL`
should tell which EDs are listed. They do as long as no flag is overwritten
by `ep_link`, and no ED is put on a list that is being walked, which is
emptied at the end of the walk: `RmClean`.

While `dl_del_list` walks a list, what counts is the rest of it, from the ED
the walk has got to.
-/

/-- **Listed and flagged are the same**: the two removal lists end, and
together they hold each ED once if `ED_DEL` or `ED_URB_DEL` is set in its
state and not at all otherwise. -/
def RmAgrees (o : Ohci) : Prop :=
  ∃ rs : Bool → List EdPtr,
    (∀ f, Walk (fun e => (o.ed e).edRmList) 0 (o.edRmList f) (rs f)) ∧
    ∀ e, e ≠ 0 → (rs false ++ rs true).count e = if (o.ed e).state.pending then 1 else 0

/-- A removal list is being walked. -/
def Sys.Walking (s : Sys) (f : Bool) : Prop := f ∈ s.walks.map Prod.fst

instance (s : Sys) (f : Bool) : Decidable (s.Walking f) := inferInstanceAs (Decidable (_ ∈ _))

/-- **What a step must not do**: link an ED with `ED_URB_DEL`, put an ED on
the list of the current frame while that list is being walked, or walk a list
that is being walked. -/
def RmClean (s : Sys) : Act → Prop
  | .submitSecond u buf setup => ∀ e, linksEd s.mem u buf setup = some e →
      (s.mem.ed e).state.urbDel = false
  | .unlink u => ∀ e, unlinksEd s.mem u = some e → (s.mem.ed e).state.pending = false →
      ¬ s.Walking s.mem.frame
  | .freeEd e => (s.mem.ed e).state ≠ .edNew → (s.mem.ed e).state.pending = false →
      ¬ s.Walking s.mem.frame
  | .delIrq f => ¬ s.Walking f
  | _ => True

/-! ## The invariant -/

/-- Where what is left of a list starts: at the ED the walk has got to, or at
the head of the list when no walk is under way. -/
def restOf : List (Bool × EdPtr) → (Bool → EdPtr) → Bool → EdPtr
  | [], rm, f => rm f
  | (g, e) :: ws, rm, f => if f = g then e else restOf ws rm f

/-- **The two lists, starting where `start` says, are `rs`**, and they hold
the EDs that are flagged, once. -/
structure Skel.Lists (s : Skel) (start : Bool → EdPtr) (rs : Bool → List EdPtr) : Prop where
  walk : ∀ f, Walk s.rmNext 0 (start f) (rs f)
  nodup : (rs false ++ rs true).Nodup
  mem : ∀ e, e ∈ rs false ++ rs true ↔ e ≠ 0 ∧ (s.state e).pending = true

/-- **What is left of the lists is right**, and no list is walked twice. -/
structure Skel.RmInv (s : Skel) (ws : List (Bool × EdPtr)) : Prop where
  lists : ∃ rs, s.Lists (restOf ws s.rm) rs
  once : (ws.map Prod.fst).Nodup

section Rest

variable {ws : List (Bool × EdPtr)} {rm : Bool → EdPtr} {f : Bool} {e v : EdPtr}

theorem restOf_of_notMem (h : f ∉ ws.map Prod.fst) : restOf ws rm f = rm f := by
  induction ws with
  | nil => rfl
  | cons w ws ih =>
    rw [List.map_cons, List.mem_cons, not_or] at h
    rw [restOf, if_neg h.1]
    exact ih h.2

/-- Writing the head of a list that is not walked. -/
theorem restOf_update (h : f ∉ ws.map Prod.fst) :
    restOf ws (Function.update rm f v) = Function.update (restOf ws rm) f v := by
  funext g
  induction ws with
  | nil => rfl
  | cons w ws ih =>
    rw [List.map_cons, List.mem_cons, not_or] at h
    rw [restOf, ih h.2, Function.update_apply, Function.update_apply, restOf]
    split
    · subst g
      rw [if_neg (Ne.symm h.1)]
    · rfl

/-- Entering a walk. -/
theorem restOf_enter (h : f ∉ ws.map Prod.fst) : restOf ((f, rm f) :: ws) rm = restOf ws rm := by
  funext g
  rw [restOf]
  split
  · subst g
    exact (restOf_of_notMem h).symm
  · rfl

/-- Going on with a walk. -/
theorem restOf_cons :
    restOf ((f, v) :: ws) rm = Function.update (restOf ((f, e) :: ws) rm) f v := by
  funext g
  rw [Function.update_apply, restOf, restOf]
  split <;> rfl

end Rest

namespace Skel

section Keep

variable {s s' : Skel} {start : Bool → EdPtr} {rs : Bool → List EdPtr} {e : EdPtr} {f : Bool}
  {ws : List (Bool × EdPtr)} {st : EdState}

theorem Lists.congr (h : s.Lists start rs) (hnext : s'.rmNext = s.rmNext)
    (hstate : ∀ x, (s'.state x).pending = (s.state x).pending) : s'.Lists start rs where
  walk := hnext ▸ h.walk
  nodup := h.nodup
  mem := fun x => by
    rw [hstate]
    exact h.mem x

/-- **Putting an ED in front of a list.** -/
theorem Lists.push (h : s.Lists start rs) (h0 : e ≠ 0) (hp : (s.state e).pending = false)
    (hnext : s'.rmNext = Function.update s.rmNext e (start f))
    (hstate : ∀ x, x ≠ e → s'.state x = s.state x) (hself : (s'.state e).pending = true) :
    s'.Lists (Function.update start f e) (Function.update rs f (e :: rs f)) := by
  have he : e ∉ rs false ++ rs true := fun hin => by
    have hpend := ((h.mem e).mp hin).2
    rw [hp] at hpend
    cases hpend
  have hperm : (Function.update rs f (e :: rs f) false ++ Function.update rs f
      (e :: rs f) true).Perm
      (e :: (rs false ++ rs true)) := by
    cases f with
    | false => simp [Function.update]
    | true => simp [Function.update]
  have hrs : ∀ g, e ∉ rs g := fun g hin => he (by cases g <;> simp [hin])
  refine ⟨fun g => ?_, ?_, fun x => ?_⟩
  · rw [hnext]
    by_cases hg : g = f
    · subst hg
      rw [Function.update_self, Function.update_self]
      refine ⟨rfl, h0, ?_⟩
      rw [Function.update_self]
      exact (h.walk g).update_of_notMem (hrs g)
    · rw [Function.update_of_ne hg, Function.update_of_ne hg]
      exact (h.walk g).update_of_notMem (hrs g)
  · exact hperm.nodup_iff.mpr (List.nodup_cons.mpr ⟨he, h.nodup⟩)
  · rw [hperm.mem_iff, List.mem_cons]
    by_cases hx : x = e
    · subst hx
      exact iff_of_true (.inl rfl) ⟨h0, hself⟩
    · rw [or_iff_right hx, h.mem x, hstate x hx]

/-- **Going past the first ED of a list**, whose flags are cleared. -/
theorem Lists.pop (h : s.Lists start rs) (h0 : e ≠ 0) (he : start f = e)
    (hnext : s'.rmNext = s.rmNext) (hstate : ∀ x, x ≠ e → s'.state x = s.state x)
    (hself : (s'.state e).pending = false) :
    s'.Lists (Function.update start f (s.rmNext e)) (Function.update rs f (rs f).tail) := by
  obtain ⟨ys, hys⟩ : ∃ ys, rs f = e :: ys := by
    have hw := h.walk f
    cases hr : rs f with
    | nil =>
      rw [hr, he] at hw
      exact absurd hw h0
    | cons y ys =>
      rw [hr, he] at hw
      exact ⟨ys, by rw [← hw.1]⟩
  have hperm : (rs false ++ rs true).Perm (e :: (Function.update rs f ys false
      ++ Function.update rs f ys true)) := by
    cases f with
    | false => simp [Function.update, hys]
    | true => simp [Function.update, hys]
  have hnd := List.nodup_cons.mp (hperm.nodup_iff.mp h.nodup)
  rw [hys, List.tail_cons]
  refine ⟨fun g => ?_, hnd.2, fun x => ?_⟩
  · rw [hnext]
    by_cases hg : g = f
    · subst hg
      rw [Function.update_self, Function.update_self]
      have hw := h.walk g
      rw [hys] at hw
      exact hw.2.2
    · rw [Function.update_of_ne hg, Function.update_of_ne hg]
      exact h.walk g
  · by_cases hx : x = e
    · subst hx
      refine iff_of_false hnd.1 (fun hp => ?_)
      rw [hself] at hp
      exact absurd hp.2 (by decide)
    · rw [hstate x hx, ← h.mem x, hperm.mem_iff, List.mem_cons, or_iff_right hx]

theorem RmInv.congr (h : s.RmInv ws) (hrm : s'.rm = s.rm) (hnext : s'.rmNext = s.rmNext)
    (hstate : ∀ x, (s'.state x).pending = (s.state x).pending) : s'.RmInv ws := by
  obtain ⟨rs, hrs⟩ := h.lists
  exact ⟨⟨rs, hrm ▸ hrs.congr hnext hstate⟩, h.once⟩

/-- A change of one state that keeps what the flags say. -/
theorem RmInv.reschedules (h : s.RmInv ws) (hr : Reschedules e st s s')
    (hp : st.pending = (s.state e).pending) : s'.RmInv ws := by
  refine h.congr hr.rm hr.rmNext fun x => ?_
  rw [hr.state]
  by_cases hx : x = e
  · subst hx
    rw [Function.update_self, hp]
  · rw [Function.update_of_ne hx]

/-- **`ep_rm_ed` with the flag that follows it.** -/
theorem RmInv.request (h : s.RmInv ws) (h0 : e ≠ 0) (hst : st.pending = true)
    (hw : (s.state e).pending = false → s.frame ∉ ws.map Prod.fst) :
    ((s.rmEd e).setState e st).RmInv ws := by
  cases hp : (s.state e).pending with
  | true =>
    have hrm : s.rmEd e = s := by rw [Skel.rmEd, if_pos hp]
    rw [hrm]
    refine h.congr rfl rfl fun x => ?_
    by_cases hx : x = e
    · subst hx
      rw [setState_self, hst, hp]
    · rw [setState_of_ne _ _ _ _ hx]
  | false =>
    have hrm : s.rmEd e = s.push e := by rw [Skel.rmEd, if_neg (by rw [hp]; decide)]
    obtain ⟨rs, hrs⟩ := h.lists
    have hrest : restOf ws s.rm s.frame = s.rm s.frame := restOf_of_notMem (hw hp)
    have hpush : ((s.push e).setState e st).Lists (Function.update (restOf ws s.rm) s.frame e)
        (Function.update rs s.frame (e :: rs s.frame)) := by
      refine hrs.push h0 hp ?_ (fun x hx => setState_of_ne _ _ _ _ hx)
        (by rw [setState_self, hst])
      rw [hrest]
      rfl
    rw [← restOf_update (hw hp)] at hpush
    rw [hrm]
    exact ⟨⟨_, hpush⟩, h.once⟩

end Keep

end Skel

/-! ## Steps -/

section Steps

variable {s s' : Sys} {a : Act}

theorem pending_settled (st : EdState) : (Skel.settled st).pending = false := by
  unfold Skel.settled
  split
  · rfl
  · simp [EdState.pending, *]

/-- **Every step that is clean keeps the lists right.** -/
theorem RmInv.effect (h : s.mem.skel.RmInv s.walks) (hok : RmClean s a)
    (heff : Sys.Effect s s' a) : s'.mem.skel.RmInv s'.walks := by
  cases heff with
  | quiet a hs hw => rwa [hs, hw]
  | frame n b hs hw =>
    rw [hs, hw]
    exact h.congr rfl rfl (fun _ => rfl)
  | init u dummy tds e _ _ hnew hs hw =>
    rw [hs, hw]
    refine h.congr rfl rfl fun x => ?_
    by_cases hx : x = e
    · subst hx
      rw [Skel.init_self, hnew]
      rfl
    · rw [Skel.init_of_ne _ _ _ _ hx]
  | link u buf setup e fuel o o' hlinks _ hdel hs hl hs' hw =>
    have hurb : (s.mem.skel.state e).urbDel = false := hok e hlinks
    have hr := epLink_reschedules hl
    rw [hs] at hr
    rw [hs', hw]
    exact h.reschedules hr (by simp [EdState.pending, EdState.edOper, hdel, hurb])
  | unlink e fuel h0 hoper hun hw =>
    rw [hw]
    exact h.reschedules (epUnlink_reschedules h0 hun) (by rw [hoper]; rfl)
  | mark u e hun h0 hs hw =>
    rw [hs, hw]
    exact h.request h0 (by simp [EdState.pending]) (hok e hun)
  | free e fuel o h0 hnew hun hs hw =>
    rw [hs, hw]
    rcases hun with ⟨hoper, hun⟩ | ⟨-, rfl⟩
    · have hr := epUnlink_reschedules h0 hun
      refine (h.reschedules hr (by rw [hoper]; rfl)).request h0 rfl (fun _ => ?_)
      rw [hr.frame]
      exact hok hnew (by
        have hstate : (s.mem.ed e).state = .edOper := hoper
        rw [hstate]
        rfl)
    · exact h.request h0 rfl (hok hnew)
  | delIrq f hs hw =>
    have hf : f ∉ s.walks.map Prod.fst := hok
    rw [hs, hw]
    obtain ⟨rs, hrs⟩ := h.lists
    refine ⟨⟨rs, ?_⟩, List.nodup_cons.mpr ⟨hf, h.once⟩⟩
    rwa [restOf_enter hf]
  | settle f e rest h0 hs hw hw' =>
    rw [hs, hw']
    rw [hw] at h
    obtain ⟨rs, hrs⟩ := h.lists
    have hpop : (s.mem.skel.setState e (Skel.settled (s.mem.skel.state e))).Lists
        (Function.update (restOf ((f, e) :: rest) s.mem.skel.rm) f (s.mem.skel.rmNext e))
        (Function.update rs f (rs f).tail) :=
      hrs.pop h0 (by rw [restOf, if_pos rfl]) rfl (fun x hx => Skel.setState_of_ne _ _ _ _ hx)
        (by rw [Skel.setState_self, pending_settled])
    rw [← restOf_cons] at hpop
    exact ⟨⟨_, hpop⟩, h.once⟩
  | delEnd f rest hs hw hw' =>
    rw [hs, hw']
    rw [hw] at h
    obtain ⟨rs, hrs⟩ := h.lists
    have hf : f ∉ rest.map Prod.fst := (List.nodup_cons.mp h.once).1
    refine ⟨⟨rs, ?_⟩, (List.nodup_cons.mp h.once).2⟩
    have hrest : restOf rest (Function.update s.mem.skel.rm f 0)
        = restOf ((f, 0) :: rest) s.mem.skel.rm := by
      rw [restOf_update hf]
      funext g
      rw [Function.update_apply, restOf]
    rw [Skel.clearRm, hrest]
    exact hrs.congr rfl (fun _ => rfl)

theorem Ohci.Idle.rmInv {o : Ohci} (h : o.Idle) : o.skel.RmInv [] := by
  refine ⟨⟨fun _ => [], fun f => h.rm f, List.nodup_nil, fun e => ?_⟩, List.nodup_nil⟩
  have hs : o.skel.state e = .edNew := h.state e
  simp [hs, EdState.edNew, EdState.pending]

/-- **Listed and flagged are the same in every run of clean steps**, whenever
`dl_del_list` is not under way. -/
theorem rmAgrees_of_clean (h : s.Reach RmClean) (hw : s.walks = []) : RmAgrees s.mem := by
  have hinv := (Sys.Reach.of_effects (P := fun s => s.mem.skel.RmInv s.walks)
    (fun _ ho => ho.rmInv) (fun _ _ _ _ hp hok heff => RmInv.effect hp hok heff) h).2
  rw [hw] at hinv
  obtain ⟨rs, hrs⟩ := hinv.lists
  refine ⟨rs, hrs.walk, fun e h0 => ?_⟩
  have hmem := hrs.mem e
  rw [and_iff_right h0] at hmem
  split
  · exact List.count_eq_one_of_mem hrs.nodup (hmem.mpr ‹_›)
  · exact List.count_eq_zero_of_not_mem (fun he => ‹¬ _› (hmem.mp he))

end Steps

/-! ## A flag overwritten -/

/-- The second phase of a submission links the ED that an unlink has put on a
removal list in between, and so overwrites its flag. -/
theorem rmLists_not_agree :
    ¬ ∀ s : Sys, s.Reach (fun _ _ => True) → s.walks = [] → RmAgrees s.mem := by
  intro h
  obtain ⟨s, hrun, hwalks, hhead, hpend⟩ : ∃ s,
      Sys.run 1 ⟨twoBulkUrbs, [], [], []⟩ unlinkBetween = some s ∧ s.walks = [] ∧
      s.mem.edRmList false = 12 ∧ (s.mem.ed 12).state.pending = false :=
    ⟨_, rfl, rfl, by decide, by decide⟩
  obtain ⟨rs, hwalk, hcount⟩ := h s (Sys.Reach.run (.init _ twoBulkUrbs_idle) hrun) hwalks
  have hin : 12 ∈ rs false := by
    have hw := hwalk false
    rw [hhead] at hw
    exact hw.start_mem (by decide)
  have hone := List.count_pos_iff.mpr (List.mem_append_left (rs true) hin)
  rw [hcount 12 (by decide), hpend] at hone
  exact absurd hone (by decide)

/-- A clean run that unlinks a URB after both phases of its submission. -/
theorem rmAgrees_unlinked : ∃ s : Sys, s.mem.edRmList false = 12 ∧ RmAgrees s.mem := by
  obtain ⟨s₁, s₂, s₃, h₁, h₂, h₃, hlinks, hurb, hwalks, hwalks', hhead⟩ : ∃ s₁ s₂ s₃,
      Sys.step 1 ⟨twoBulkUrbs, [], [], []⟩ (.submitFirst 1 100 (fun _ => 101)) = some s₁ ∧
      s₁.step 1 (.submitSecond 1 0 0) = some s₂ ∧ s₂.step 1 (.unlink 1) = some s₃ ∧
      linksEd s₁.mem 1 0 0 = some 12 ∧ (s₁.mem.ed 12).state.urbDel = false ∧
      ¬ s₂.Walking s₂.mem.frame ∧ s₃.walks = [] ∧ s₃.mem.edRmList false = 12 :=
    ⟨_, _, _, rfl, rfl, rfl, by decide, by decide, by decide, rfl, by decide⟩
  refine ⟨s₃, hhead, rmAgrees_of_clean (.step 1 (.unlink 1) (.step 1 (.submitSecond 1 0 0)
    (.step 1 (.submitFirst 1 100 (fun _ => 101)) (.init _ twoBulkUrbs_idle) trivial h₁) ?_ h₂)
    (fun _ _ _ => hwalks) h₃) hwalks'⟩
  intro e he
  rw [hlinks] at he
  cases he
  exact hurb
