import SideDumper.Walk
import SideDumper.SkelSteps

/-!
# Removals and frames

An ED whose removal is requested is put on the list of the current frame's
parity, and its TDs may be touched when the controller cannot be at it any
more: in a later frame. `hc_interrupt` therefore works off the other list.
Meanwhile the control or the bulk list is switched off, and `dl_del_list`
switches both on again when nothing is left.

`Removals` is the memory with the number of frames there have been, and for
each ED the frame in which it was put on its list.
-/

/-- `dl_del_list` for the list of the frames of the other parity, if there is
an ED on it. -/
def delOtherFrame (fuel : ℕ) (o : Ohci) : Option Ohci :=
  if o.edRmList (!o.frame) ≠ 0 then dlDelList fuel o (!o.frame) else some o

/-- **The part of `hc_interrupt` for `OHCI_INTR_SF`.** The interrupt is enabled
again if EDs of the current frame wait. -/
def sfInterrupt (fuel : ℕ) (o : Ohci) : Option Ohci :=
  (delOtherFrame fuel { o with intrSf := false }).map (fun o' =>
    if o'.edRmList o.frame ≠ 0 then { o' with intrSf := true } else o')

/-- `ep_rm_ed` with the flag its caller sets: `ED_DEL` in `sohci_free_dev`,
`ED_URB_DEL` in `sohci_unlink_urb`. -/
def requestRemoval (o : Ohci) (e : EdPtr) (del : Bool) : Ohci :=
  (epRmEd o e).modEd e (fun r =>
    { r with state := if del then .edDel else { r.state with urbDel := true } })

/-- **The EDs `dl_del_list` gets to**, whose TD chains it edits. -/
def delVisits : ℕ → Ohci → EdPtr → List EdPtr
  | 0, _, _ => []
  | fuel + 1, o, e =>
    if e = 0 then []
    else e :: match delTds e (o.ed e).hwTailP fuel o (o.ed e).hwHeadP (.head e) with
      | none => []
      | some o' =>
        let o' := delEdEnd o' e (o.ed e).hwTailP (o.ed e).hwINFO.fa
        delVisits fuel o' (o'.ed e).edRmList

/-- **A memory changed elsewhere**: the frame, the removal lists and the
switches are the same, and an ED that is to be removed still is. -/
structure Elsewhere (o o' : Ohci) : Prop where
  frame : o'.frame = o.frame
  rm : o'.edRmList = o.edRmList
  enabled : (o'.cle, o'.ble) = (o.cle, o.ble)
  pending : ∀ e, (o.ed e).state.pending = true → (o'.ed e).state.pending = true ∧
    (o'.ed e).edRmList = (o.ed e).edRmList ∧ (o'.ed e).type = (o.ed e).type

/-- **The memory with the number of frames**, and when each ED was put on its
removal list. -/
structure Removals where
  mem : Ohci
  now : ℕ
  since : EdPtr → ℕ

/-- What can happen next. -/
inductive RemovalAct
  /-- The removal of an ED is requested. -/
  | remove (e : EdPtr) (del : Bool)
  /-- The frame counter advances. -/
  | frame
  /-- The SF interrupt is handled. -/
  | sf
  /-- A `sohci_unlink_urb` made in interrupt context looks at a frame. -/
  | poll
  /-- Something else. -/
  | other (f : Ohci → Ohci) (elsewhere : ∀ o, Elsewhere o (f o))

namespace Removals

/-- **One step.** -/
def step (fuel : ℕ) (r : Removals) : RemovalAct → Option Removals
  | .remove e del =>
    if e = 0 then none
    else some { r with
      mem := requestRemoval r.mem e del
      since := if (r.mem.ed e).state.pending then r.since else Function.update r.since e r.now }
  | .frame =>
    some { r with mem := { r.mem with frameNo := (r.now + 1) % 65536 }, now := r.now + 1 }
  | .sf => (sfInterrupt fuel r.mem).map (fun o => { r with mem := o })
  | .poll => (delOtherFrame fuel r.mem).map (fun o => { r with mem := o })
  | .other f _ => some { r with mem := f r.mem }

/-- The EDs whose TD chains a step edits. -/
def edited (fuel : ℕ) (r : Removals) : RemovalAct → List EdPtr
  | .sf => delVisits fuel { r.mem with intrSf := false } (r.mem.edRmList (!r.mem.frame))
  | .poll => delVisits fuel r.mem (r.mem.edRmList (!r.mem.frame))
  | _ => []

/-- The states of the runs that start with both lists empty and both switches
on. -/
inductive Reach : Removals → Prop
  | init (r : Removals) : (∀ f, r.mem.edRmList f = 0) → r.mem.cle = true → r.mem.ble = true →
      r.mem.frameNo = r.now % 65536 → Reach r
  | step {r r' : Removals} (fuel : ℕ) (a : RemovalAct) : Reach r → r.step fuel a = some r' →
      Reach r'

end Removals

/-! ## `dl_del_list` -/

/-- **What `dl_del_list` leaves**, when it has dealt with the EDs of a list. -/
structure DelKeeps (es : List EdPtr) (o o' : Ohci) : Prop where
  frame : o'.skel.frame = o.skel.frame
  rm : o'.skel.rm = o.skel.rm
  rmNext : o'.skel.rmNext = o.skel.rmNext
  type : o'.skel.type = o.skel.type
  state : ∀ x ∉ es, o'.skel.state x = o.skel.state x
  enabled : (o'.cle, o'.ble) = (o.cle, o.ble)

section DelList

variable {o o' o'' : Ohci} {e : EdPtr} {t : TdPtr} {u : UrbPtr} {tdP tdP' : TdLink} {fuel : ℕ}
  {es es' : List EdPtr}

theorem DelKeeps.of_quiet (hq : Quiet o o') (he : (o'.cle, o'.ble) = (o.cle, o.ble)) :
    DelKeeps es o o' := by
  refine ⟨?_, ?_, ?_, ?_, fun x _ => ?_, he⟩ <;> rw [hq.skel]

theorem DelKeeps.trans (h : DelKeeps es o o') (h' : DelKeeps es' o' o'') :
    DelKeeps (es ++ es') o o'' where
  frame := h'.frame.trans h.frame
  rm := h'.rm.trans h.rm
  rmNext := h'.rmNext.trans h.rmNext
  type := h'.type.trans h.type
  state := fun x hx => by
    rw [List.mem_append, not_or] at hx
    exact (h'.state x hx.2).trans (h.state x hx.1)
  enabled := h'.enabled.trans h.enabled

theorem enabled_delTd (h : delTd o e t tdP = some (o', tdP')) :
    (o'.cle, o'.ble) = (o.cle, o.ble) := by
  obtain ⟨p, -, ⟨-, rfl, -⟩ | ⟨-, -, o₁, o₂, ho₁, -, rfl, rfl⟩⟩ := delTd_outcome h
  · rfl
  have hlen : (o₁.cle, o₁.ble) = (o.cle, o.ble) := by
    obtain rfl | h₁ := ho₁
    · rfl
    unfold dlTransferLength at h₁
    dsimp only at h₁
    split at h₁
    · cases h₁
      rfl
    · obtain ⟨p, -, h₁⟩ := Option.bind_eq_some_iff.mp h₁
      cases h₁
      rfl
  have hset : ∀ v, ((o₁.setTdLink tdP v).cle, (o₁.setTdLink tdP v).ble) = (o₁.cle, o₁.ble) := by
    intro v
    cases tdP <;> rfl
  have hcount : ∀ o₂ : Ohci, ((countTd o₂ (o.td t).urb).cle, (countTd o₂ (o.td t).urb).ble)
      = (o₂.cle, o₂.ble) :=
    fun _ => rfl
  have hrm : ∀ o₂ : Ohci, ((urbRmPriv o₂ (o.td t).urb).cle, (urbRmPriv o₂ (o.td t).urb).ble)
      = (o₂.cle, o₂.ble) := by
    intro o₂
    unfold urbRmPriv
    split <;> rfl
  have hreport : ∀ o₂ : Ohci, ((reportDel o₂ (o.td t).urb).cle, (reportDel o₂ (o.td t).urb).ble)
      = (o₂.cle, o₂.ble) := by
    intro o₂
    have hcall : ∀ o₃ : Ohci, ((callComplete o₃ (o.td t).urb).cle,
        (callComplete o₃ (o.td t).urb).ble)
        = (o₃.cle, o₃.ble) := fun _ => rfl
    have hdec : ∀ (o₃ : Ohci) (g : Urb → Urb),
        (((decDevUse o₃ (o.td t).urb).modUrb (o.td t).urb g).cle,
        ((decDevUse o₃ (o.td t).urb).modUrb (o.td t).urb g).ble)
          = (o₃.cle, o₃.ble) := fun _ _ => rfl
    unfold reportDel
    split
    · rw [hcall, hdec]
    · rfl
  rw [hreport]
  split
  · rw [hrm, hcount, hset, hlen]
  · rw [hcount, hset, hlen]

theorem delTds_keeps {tail : TdPtr} (h : delTds e tail fuel o t tdP = some o') :
    DelKeeps [] o o' := by
  induction fuel generalizing o t tdP with
  | zero => cases h
  | succ fuel ih =>
    rw [delTds] at h
    split at h
    · cases h
      exact .of_quiet (.refl _) rfl
    · obtain ⟨⟨o₁, tdP₁⟩, h₁, h⟩ := Option.bind_eq_some_iff.mp h
      have hone : DelKeeps [] o o₁ := .of_quiet (quiet_delTd h₁) (enabled_delTd h₁)
      exact hone.trans (ih h)

theorem delEdEnd_keeps (tail : TdPtr) (fa : ℕ) : DelKeeps [e] o (delEdEnd o e tail fa) := by
  have hs : (delEdEnd o e tail fa).skel = o.skel.setState e (Skel.settled (o.skel.state e)) :=
    skel_delEdEnd
  refine ⟨?_, ?_, ?_, ?_, fun x hx => ?_, ?_⟩
  · rw [hs, Skel.setState_frame]
  · rw [hs, Skel.setState_rm]
  · rw [hs, Skel.setState_rmNext]
  · rw [hs, Skel.setState_type]
  · rw [hs, Skel.setState_of_ne _ _ _ _ (fun hxe => hx (List.mem_singleton.mpr hxe))]
  · unfold delEdEnd
    split
    · dsimp only
      split <;> rfl
    · rfl

/-- The loop over a list of EDs. -/
theorem delEds_keeps (hw : Walk o.skel.rmNext 0 e es) (h : delEds fuel o e = some o') :
    DelKeeps es o o' := by
  induction fuel generalizing o e es with
  | zero => cases h
  | succ fuel ih =>
    rw [delEds] at h
    cases es with
    | nil =>
      rw [if_pos (walk_nil.mp hw)] at h
      cases h
      exact .of_quiet (.refl _) rfl
    | cons x xs =>
      obtain ⟨rfl, h0, hw⟩ := hw
      rw [if_neg h0] at h
      obtain ⟨o₁, h₁, h⟩ := Option.bind_eq_some_iff.mp h
      have hone := (delTds_keeps h₁).trans (delEdEnd_keeps (e := e) (o.ed e).hwTailP
        (o.ed e).hwINFO.fa)
      have hnext := congrFun hone.rmNext e
      rw [← hone.rmNext] at hw
      exact hone.trans (ih hw h)

/-- **`dl_del_list` gets to the EDs of the list and no others.** -/
theorem delVisits_subset {es : List EdPtr} (hw : Walk o.skel.rmNext 0 e es) :
    ∀ x ∈ delVisits fuel o e, x ∈ es := by
  induction fuel generalizing o e es with
  | zero => exact fun x hx => absurd hx List.not_mem_nil
  | succ fuel ih =>
    rw [delVisits]
    cases es with
    | nil =>
      rw [if_pos (walk_nil.mp hw)]
      exact fun x hx => absurd hx List.not_mem_nil
    | cons y ys =>
      obtain ⟨rfl, h0, hw⟩ := hw
      rw [if_neg h0]
      refine fun x hx => (List.mem_cons.mp hx).elim (fun hx => hx ▸ List.mem_cons_self)
        (fun hx => List.mem_cons_of_mem _ ?_)
      cases htds : delTds e (o.ed e).hwTailP fuel o (o.ed e).hwHeadP (.head e) with
      | none =>
        rw [htds] at hx
        exact absurd hx List.not_mem_nil
      | some o₁ =>
        rw [htds] at hx
        have hone := (delTds_keeps htds).trans (delEdEnd_keeps (e := e) (o.ed e).hwTailP
          (o.ed e).hwINFO.fa)
        rw [← hone.rmNext] at hw
        exact ih hw x hx

end DelList

/-! ## The invariant -/

namespace Removals

/-- **What holds of a listed ED**: it is flagged, the list is that of the frame
in which it was put there, and its kind of processing is off. -/
structure Listed (r : Removals) (f : Bool) (e : EdPtr) : Prop where
  pending : (r.mem.skel.state e).pending = true
  since : decide (r.since e % 2 = 1) = f
  control : r.mem.skel.type e = .ctrl → r.mem.cle = false
  bulk : r.mem.skel.type e = .bulk → r.mem.ble = false

/-- **The invariant.** -/
structure Inv (r : Removals) : Prop where
  frame : r.mem.skel.frame = decide (r.now % 2 = 1)
  lists : ∃ rs : Bool → List EdPtr, (∀ f, Walk r.mem.skel.rmNext 0 (r.mem.skel.rm f) (rs f)) ∧
    (rs false ++ rs true).Nodup ∧ ∀ f, ∀ e ∈ rs f, r.Listed f e
  enabled : (∀ f, r.mem.skel.rm f = 0) → r.mem.cle = true ∧ r.mem.ble = true

section Steps

variable {r r' : Removals} {fuel : ℕ} {a : RemovalAct} {e : EdPtr} {o : Ohci}

/-- The parity of the frame is not that of the EDs on the other list. -/
theorem Inv.waits (h : r.Inv) : ∀ a, ∀ e ∈ r.edited fuel a, r.since e ≠ r.now := by
  obtain ⟨rs, hw, -, hlisted⟩ := h.lists
  have hother : ∀ o : Ohci, o.skel = r.mem.skel →
      ∀ e ∈ delVisits fuel o (r.mem.edRmList (!r.mem.frame)), r.since e ≠ r.now := by
    intro o ho e he hnow
    have hin := delVisits_subset (show Walk _ 0 _ (rs (!r.mem.frame)) by rw [ho]; exact hw _) e he
    have hpar := (hlisted _ e hin).since
    have hframe : r.mem.frame = decide (r.now % 2 = 1) := h.frame
    rw [hnow, ← hframe] at hpar
    cases hf : r.mem.frame <;> rw [hf] at hpar <;> cases hpar
  intro a
  cases a with
  | sf => exact hother _ rfl
  | poll => exact hother _ rfl
  | remove e del => exact fun e he => absurd he List.not_mem_nil
  | frame => exact fun e he => absurd he List.not_mem_nil
  | other f elsewhere => exact fun e he => absurd he List.not_mem_nil

/-- Something else happens. -/
theorem Inv.other (h : r.Inv) (ho : Elsewhere r.mem o) : Inv { r with mem := o } := by
  obtain ⟨rs, hw, hnd, hlisted⟩ := h.lists
  have hcle : o.cle = r.mem.cle := congrArg Prod.fst ho.enabled
  have hble : o.ble = r.mem.ble := congrArg Prod.snd ho.enabled
  have hrm : o.skel.rm = r.mem.skel.rm := ho.rm
  refine ⟨ho.frame.trans h.frame, ⟨rs, fun f => ?_, hnd, fun f e he => ?_⟩, fun hempty => ?_⟩
  · dsimp only
    rw [hrm]
    exact (hw f).congr (fun y hy => (ho.pending y (hlisted f y hy).pending).2.1)
  · have hl := hlisted f e he
    obtain ⟨hp, -, hty⟩ := ho.pending e hl.pending
    exact ⟨hp, hl.since, fun hc => hcle.trans (hl.control (hty.symm.trans hc)),
      fun hb => hble.trans (hl.bulk (hty.symm.trans hb))⟩
  · dsimp only at hempty ⊢
    rw [hrm] at hempty
    rw [hcle, hble]
    exact h.enabled hempty

/-- What `ep_rm_ed` does to the switches. -/
theorem enabled_epRmEd (o : Ohci) (e : EdPtr) :
    ((epRmEd o e).cle, (epRmEd o e).ble) =
      if (o.ed e).state.pending then (o.cle, o.ble)
      else (if (o.ed e).type = .ctrl then false else o.cle, if (o.ed e).type = .bulk then false
        else o.ble) := by
  unfold epRmEd
  split
  · rfl
  · dsimp only
    rw [Ohci.modEd_ed_self]
    dsimp only
    rw [Ohci.modEd_ed_self]
    dsimp only
    cases (o.ed e).type <;> rfl

/-- **The removal of an ED is requested.** -/
theorem Inv.remove (h : r.Inv) (h0 : e ≠ 0) (del : Bool) : Inv { r with
    mem := requestRemoval r.mem e del
    since :=
      if (r.mem.ed e).state.pending then r.since else Function.update r.since e r.now } := by
  obtain ⟨rs, hw, hnd, hlisted⟩ := h.lists
  obtain ⟨st, hst, hskel⟩ : ∃ st : EdState, st.pending = true ∧
      (requestRemoval r.mem e del).skel = (r.mem.skel.rmEd e).setState e st := by
    refine ⟨if del then .edDel else { (((epRmEd r.mem e).ed e).state) with urbDel := true }, ?_,
      ?_⟩
    · cases del <;> simp [EdState.pending, EdState.edDel]
    · unfold requestRemoval
      rw [Ohci.skel_modEd_state (by intro; rfl) rfl, skel_epRmEd]
      rfl
  have hen : ((requestRemoval r.mem e del).cle, (requestRemoval r.mem e del).ble) = _ :=
    enabled_epRmEd r.mem e
  by_cases hp : (r.mem.ed e).state.pending = true
  · have hrm : r.mem.skel.rmEd e = r.mem.skel := if_pos hp
    rw [if_pos hp] at hen
    rw [hrm] at hskel
    simp only [if_pos hp]
    refine h.other ⟨?_, ?_, hen, fun x hx => ?_⟩
    · exact congrArg Skel.frame hskel
    · exact congrArg Skel.rm hskel
    · refine ⟨?_, congrFun (congrArg Skel.rmNext hskel) x, congrFun (congrArg Skel.type hskel) x⟩
      have hxs : ((requestRemoval r.mem e del).ed x).state
          = Function.update r.mem.skel.state e st x :=
        congrFun (congrArg Skel.state hskel) x
      rw [hxs, Function.update_apply]
      split
      · exact hst
      · exact hx
  · have hrm : r.mem.skel.rmEd e = r.mem.skel.push e := if_neg hp
    rw [if_neg hp] at hen
    rw [hrm] at hskel
    simp only [if_neg hp]
    have hcle : r.mem.cle = false ∨ r.mem.skel.type e = .ctrl →
        (requestRemoval r.mem e del).cle = false := by
      intro hc
      have hc' : (requestRemoval r.mem e del).cle =
          if (r.mem.ed e).type = .ctrl then false else r.mem.cle :=
        congrArg Prod.fst hen
      rw [hc']
      split
      · rfl
      · exact hc.resolve_right ‹_›
    have hble : r.mem.ble = false ∨ r.mem.skel.type e = .bulk →
        (requestRemoval r.mem e del).ble = false := by
      intro hb
      have hb' : (requestRemoval r.mem e del).ble =
          if (r.mem.ed e).type = .bulk then false else r.mem.ble :=
        congrArg Prod.snd hen
      rw [hb']
      split
      · rfl
      · exact hb.resolve_right ‹_›
    have hout : ∀ g, e ∉ rs g := fun g he => hp (hlisted g e he).pending
    have hold : ∀ g, ∀ x ∈ rs g, Listed ⟨requestRemoval r.mem e del, r.now,
        Function.update r.since e r.now⟩ g x := by
      intro g x hx
      have hl := hlisted g x hx
      have hne : x ≠ e := ne_of_mem_of_not_mem hx (hout g)
      refine ⟨?_, ?_, fun hc => hcle (.inl (hl.control ?_)), fun hb => hble (.inl (hl.bulk ?_))⟩
      · dsimp only
        rw [hskel, Skel.setState_of_ne _ _ _ _ hne]
        exact hl.pending
      · simp only [Function.update_of_ne hne]
        exact hl.since
      · rw [hskel] at hc
        exact hc
      · rw [hskel] at hb
        exact hb
    have hpushed : Listed ⟨requestRemoval r.mem e del, r.now, Function.update r.since e r.now⟩
        r.mem.skel.frame e := by
      refine ⟨?_, ?_, fun hc => hcle (.inr ?_), fun hb => hble (.inr ?_)⟩
      · dsimp only
        rw [hskel, Skel.setState_self, hst]
      · simp only [Function.update_self]
        exact h.frame.symm
      · rw [hskel] at hc
        exact hc
      · rw [hskel] at hb
        exact hb
    refine ⟨?_, ⟨Function.update rs r.mem.skel.frame (e :: rs r.mem.skel.frame), fun g => ?_, ?_,
      fun g x hx => ?_⟩, fun hempty => ?_⟩
    · dsimp only
      rw [hskel]
      exact h.frame
    · dsimp only
      rw [hskel, Skel.setState_rmNext, Skel.setState_rm, Skel.push]
      dsimp only
      by_cases hg : g = r.mem.skel.frame
      · subst hg
        rw [Function.update_self, Function.update_self]
        refine ⟨rfl, h0, ?_⟩
        rw [Function.update_self]
        exact (hw _).update_of_notMem (hout _)
      · rw [Function.update_of_ne hg, Function.update_of_ne hg]
        exact (hw g).update_of_notMem (hout g)
    · have hnot : e ∉ rs false ++ rs true :=
        fun he => (List.mem_append.mp he).elim (hout _) (hout _)
      cases r.mem.skel.frame with
      | false => simpa [Function.update] using ⟨by simpa using hnot, hnd⟩
      | true => simpa [Function.update, List.nodup_middle] using ⟨by simpa using hnot, hnd⟩
    · by_cases hg : g = r.mem.skel.frame
      · subst hg
        rw [Function.update_self] at hx
        exact (List.mem_cons.mp hx).elim (fun hx => hx ▸ hpushed) (hold _ x)
      · rw [Function.update_of_ne hg] at hx
        exact hold g x hx
    · have hhead := hempty r.mem.skel.frame
      rw [hskel, Skel.setState_rm, Skel.push] at hhead
      dsimp only at hhead
      rw [Function.update_self] at hhead
      exact absurd hhead h0

/-- **The list of the other frames is worked off.** -/
theorem Inv.delOther (h : r.Inv) (ho : delOtherFrame fuel r.mem = some o) :
    Inv { r with mem := o } := by
  unfold delOtherFrame at ho
  split at ho
  swap
  · cases ho
    exact h
  obtain ⟨o₁, h₁, ho⟩ := Option.bind_eq_some_iff.mp ho
  obtain ⟨rs, hw, hnd, hlisted⟩ := h.lists
  have hk := delEds_keeps (hw _) h₁
  have hskel : o.skel = o₁.skel.clearRm (!r.mem.frame) := by
    cases ho
    exact skel_delEnd
  have hen : (o.cle, o.ble) =
      if r.mem.edRmList r.mem.frame = 0 then (true, true) else (r.mem.cle, r.mem.ble) := by
    have hrm : o₁.edRmList = r.mem.edRmList := hk.rm
    have hend : ∀ f, (delEnd o₁ f).cle = (if o₁.edRmList (!f) = 0 then true else o₁.cle) ∧
        (delEnd o₁ f).ble = if o₁.edRmList (!f) = 0 then true else o₁.ble := by
      intro f
      unfold delEnd
      dsimp only
      split <;> exact ⟨rfl, rfl⟩
    cases ho
    rw [(hend _).1, (hend _).2, Bool.not_not, hrm]
    have hold := hk.enabled
    simp only [Prod.mk.injEq] at hold
    split
    · rfl
    · rw [hold.1, hold.2]
  have hdisj : ∀ x ∈ rs r.mem.frame, x ∉ rs (!r.mem.frame) := by
    have hdis := List.disjoint_of_nodup_append hnd
    intro x hx hx'
    cases hf : r.mem.frame with
    | false =>
      rw [hf] at hx hx'
      exact hdis hx hx'
    | true =>
      rw [hf] at hx hx'
      exact hdis hx' hx
  refine ⟨?_, ⟨Function.update rs (!r.mem.frame) [], fun g => ?_, ?_, fun g x hx => ?_⟩,
    fun hempty => ?_⟩
  · dsimp only
    rw [hskel]
    exact hk.frame.trans h.frame
  · dsimp only
    rw [hskel, Skel.clearRm]
    dsimp only
    by_cases hg : g = !r.mem.frame
    · subst hg
      rw [Function.update_self, Function.update_self]
      exact rfl
    · rw [Function.update_of_ne hg, Function.update_of_ne hg, hk.rmNext, hk.rm]
      exact hw g
  · cases r.mem.frame with
    | false => simpa [Function.update] using hnd.of_append_left
    | true => simpa [Function.update] using hnd.of_append_right
  · by_cases hg : g = !r.mem.frame
    · subst hg
      rw [Function.update_self] at hx
      exact absurd hx List.not_mem_nil
    · rw [Function.update_of_ne hg] at hx
      obtain rfl : g = r.mem.frame := by
        cases g <;> cases hf : r.mem.frame <;> rw [hf] at hg <;> first | rfl | exact absurd rfl hg
      have hl := hlisted _ x hx
      have hne : ¬ r.mem.edRmList r.mem.frame = 0 := by
        intro h0
        have hwalk := hw r.mem.frame
        have hhead : r.mem.skel.rm r.mem.frame = 0 := h0
        rw [hhead] at hwalk
        cases hrs : rs r.mem.frame with
        | nil =>
          rw [hrs] at hx
          exact absurd hx List.not_mem_nil
        | cons y ys =>
          rw [hrs] at hwalk
          exact hwalk.2.1 hwalk.1.symm
      rw [if_neg hne] at hen
      simp only [Prod.mk.injEq] at hen
      refine ⟨?_, hl.since, fun hc => hen.1.trans (hl.control ?_),
        fun hb => hen.2.trans (hl.bulk ?_)⟩
      · dsimp only
        rw [hskel]
        exact (congrArg EdState.pending (hk.state x (hdisj x hx))).trans hl.pending
      · rw [hskel] at hc
        exact (congrFun hk.type x).symm.trans hc
      · rw [hskel] at hb
        exact (congrFun hk.type x).symm.trans hb
  · have hhead := hempty r.mem.frame
    dsimp only at hhead
    rw [hskel, Skel.clearRm] at hhead
    dsimp only at hhead
    rw [Function.update_of_ne (by cases r.mem.frame <;> decide), hk.rm] at hhead
    have hzero : r.mem.edRmList r.mem.frame = 0 := hhead
    rw [if_pos hzero] at hen
    exact ⟨congrArg Prod.fst hen, congrArg Prod.snd hen⟩

theorem Inv.step (h : r.Inv) (hs : r.step fuel a = some r') : r'.Inv := by
  cases a with
  | remove e del =>
    unfold Removals.step at hs
    dsimp only at hs
    split at hs
    · cases hs
    · cases hs
      exact h.remove ‹_› del
  | frame =>
    cases hs
    obtain ⟨rs, hw, hnd, hlisted⟩ := h.lists
    refine ⟨?_, ⟨rs, hw, hnd, fun f e he => ?_⟩, h.enabled⟩
    · have hmod : (r.now + 1) % 65536 % 2 = (r.now + 1) % 2 := by omega
      exact congrArg (fun n => decide (n = 1)) hmod
    · have hl := hlisted f e he
      exact ⟨hl.pending, hl.since, hl.control, hl.bulk⟩
  | sf =>
    obtain ⟨o, ho, rfl⟩ := Option.map_eq_some_iff.mp hs
    obtain ⟨o₁, h₁, rfl⟩ := Option.map_eq_some_iff.mp ho
    have hoff : Inv { r with mem := { r.mem with intrSf := false } } :=
      ⟨h.frame, h.lists.imp fun rs hrs => ⟨hrs.1, hrs.2.1, fun f e he =>
        let hl := hrs.2.2 f e he
        ⟨hl.pending, hl.since, hl.control, hl.bulk⟩⟩, h.enabled⟩
    have hdone := hoff.delOther h₁
    split
    · exact hdone.other ⟨rfl, rfl, rfl, fun e he => ⟨he, rfl, rfl⟩⟩
    · exact hdone
  | poll =>
    obtain ⟨o, ho, rfl⟩ := Option.map_eq_some_iff.mp hs
    exact h.delOther ho
  | other f elsewhere =>
    cases hs
    exact h.other (elsewhere r.mem)

theorem Reach.inv (h : r.Reach) : r.Inv := by
  induction h with
  | init r hrm hcle hble hframe =>
    refine ⟨?_, ⟨fun _ => [], hrm, List.nodup_nil, fun _ _ he => absurd he List.not_mem_nil⟩,
      fun _ => ⟨hcle, hble⟩⟩
    have hmod : r.mem.frameNo % 2 = r.now % 2 := by omega
    exact congrArg (fun n => decide (n = 1)) hmod
  | step fuel a _ hs ih => exact ih.step hs

end Steps

end Removals
