import SideDumper.PeriodicFrame
import SideDumper.QueueFrame

/-!
# What the functions for EDs do to the skeleton

The functions that deal with EDs, as writes to the skeleton. Of the periodic
part of `ep_link` and `ep_unlink` no more is said than `EditsWithin` does.
-/

/-- The type of the EDs on a list. -/
def HcList.type : HcList → PipeType
  | .control => .ctrl
  | .bulk => .bulk

theorem HcList.type_injective {l l' : HcList} (h : l.type = l'.type) : l = l' := by
  cases l <;> cases l' <;> first | rfl | cases h

theorem HcList.not_periodic (l : HcList) : l.type.periodic = false := by
  cases l <;> rfl

/-- An ED that is not periodic belongs to one of the two lists. -/
theorem PipeType.exists_hcList {ty : PipeType} (h : ty.periodic = false) :
    ∃ l : HcList, ty = l.type := by
  cases ty with
  | ctrl => exact ⟨.control, rfl⟩
  | bulk => exact ⟨.bulk, rfl⟩
  | iso => cases h
  | int => cases h

namespace Skel

/-- Set the state of an ED. -/
def setState (s : Skel) (e : EdPtr) (st : EdState) : Skel :=
  { s with state := Function.update s.state e st }

/-- An ED that was `ED_NEW` is set up for a pipe. -/
def init (s : Skel) (e : EdPtr) (ty : PipeType) : Skel :=
  { s with state := Function.update s.state e .edUnlink, type := Function.update s.type e ty }

/-- Put an ED on the removal list of the current frame. -/
def push (s : Skel) (e : EdPtr) : Skel :=
  { s with
    rm := Function.update s.rm s.frame e
    rmNext := Function.update s.rmNext e (s.rm s.frame) }

/-- `ep_rm_ed`, on the skeleton. -/
def rmEd (s : Skel) (e : EdPtr) : Skel := if (s.state e).pending then s else s.push e

/-- What `ep_link` does to every ED. -/
def raise (s : Skel) (e : EdPtr) : Skel :=
  { s with
    state := Function.update s.state e .edOper
    next := Function.update s.next e 0 }

/-- Append an ED to the control or the bulk list. -/
def linkHc (l : HcList) (s : Skel) (e : EdPtr) : Skel :=
  { s with
    next := if s.tail l = 0 then s.next else Function.update s.next (s.tail l) e
    prev := Function.update s.prev e (s.tail l)
    head := if s.tail l = 0 then Function.update s.head l e else s.head
    tail := Function.update s.tail l e }

/-- Take an ED out of the control or the bulk list. -/
def unlinkHc (l : HcList) (s : Skel) (e : EdPtr) : Skel :=
  { s with
    next := if s.prev e = 0 then s.next else Function.update s.next (s.prev e) (s.next e)
    head := if s.prev e = 0 then Function.update s.head l (s.next e) else s.head
    prev := if s.tail l = e then s.prev else Function.update s.prev (s.next e) (s.prev e)
    tail := if s.tail l = e then Function.update s.tail l (s.prev e) else s.tail }

/-- Empty a removal list. -/
def clearRm (s : Skel) (frame : Bool) : Skel := { s with rm := Function.update s.rm frame 0 }

/-- The state `dl_del_list` leaves an ED in. -/
def settled (st : EdState) : EdState := if st.del then .edNew else { st with urbDel := false }

section Simp

variable (s : Skel) (e x : EdPtr) (st : EdState) (ty : PipeType)

@[simp] theorem setState_self : (s.setState e st).state e = st := Function.update_self _ _ _

theorem setState_of_ne (hx : x ≠ e) : (s.setState e st).state x = s.state x :=
  Function.update_of_ne hx _ _

@[simp] theorem setState_rm : (s.setState e st).rm = s.rm := rfl
@[simp] theorem setState_rmNext : (s.setState e st).rmNext = s.rmNext := rfl
@[simp] theorem setState_frame : (s.setState e st).frame = s.frame := rfl
@[simp] theorem setState_next : (s.setState e st).next = s.next := rfl
@[simp] theorem setState_prev : (s.setState e st).prev = s.prev := rfl
@[simp] theorem setState_head : (s.setState e st).head = s.head := rfl
@[simp] theorem setState_tail : (s.setState e st).tail = s.tail := rfl
@[simp] theorem setState_type : (s.setState e st).type = s.type := rfl

theorem init_of_ne (hx : x ≠ e) : (s.init e ty).state x = s.state x :=
  Function.update_of_ne hx _ _

@[simp] theorem init_self : (s.init e ty).state e = .edUnlink := Function.update_self _ _ _

@[simp] theorem rmEd_state : (s.rmEd e).state = s.state := by
  unfold rmEd
  split <;> rfl

end Simp

end Skel

section Steps

variable {o o' : Ohci} {e : EdPtr} {u : UrbPtr} {fuel : ℕ} {l : HcList} {S : Set EdPtr}

/-! ## Linking and unlinking -/

theorem skel_raise : (o.modEd e (fun r => { r with state := .edOper, hwNextED := 0 })).skel
    = o.skel.raise e := by
  rw [Ohci.skel_modEd, Skel.raise]
  ext1
  case prev => exact Function.update_eq_self e o.skel.prev
  case rmNext => exact Function.update_eq_self e o.skel.rmNext
  case type => exact Function.update_eq_self e o.skel.type
  all_goals rfl

theorem skel_linkHc : (linkHc l o e).skel = o.skel.linkHc l e := by
  unfold linkHc Skel.linkHc
  have htail : o.skel.tail l = o.hcTail l := rfl
  rw [htail]
  dsimp only
  split
  · simp
  · simp

theorem skel_unlinkHc : (unlinkHc l o e).skel = o.skel.unlinkHc l e := by
  unfold unlinkHc Skel.unlinkHc
  have hprev : o.skel.prev e = (o.ed e).edPrev := rfl
  have hnext : o.skel.next e = o.nextED e := rfl
  -- the first write leaves the links that are read after it
  have hfirst : ∀ o' : Ohci, (o'.ed e).edPrev = (o.ed e).edPrev → o'.nextED e = o.nextED e →
      o'.hcTail l = o.hcTail l →
      (if o'.hcTail l = e then o'.setHcTail l (o'.ed e).edPrev
        else o'.modEd (o'.nextED e) (fun r => { r with edPrev := (o'.ed e).edPrev })).skel
      = { o'.skel with
          prev := if o.hcTail l = e then o'.skel.prev
            else Function.update o'.skel.prev (o.nextED e) (o.ed e).edPrev
          tail := if o.hcTail l = e then Function.update o'.skel.tail l (o.ed e).edPrev
            else o'.skel.tail } := by
    intro o' hp hn ht
    rw [hp, hn, ht]
    split
    · simp
    · simp
  rw [hprev, hnext, hfirst]
  · split
    · simp only [Ohci.skel_setHcHead]
      rfl
    · simp only [Ohci.skel_modEd_next]
      rfl
  · split
    · cases l <;> rfl
    · rw [Ohci.modEd_ed]
      split
      · have hself : e = (o.ed e).edPrev := ‹_›
        dsimp only
        rw [← hself]
        exact hself.symm
      · rfl
  · split
    · cases l <;> rfl
    · rw [Ohci.nextED, Ohci.modEd_ed]
      split <;> rfl
  · split
    · cases l <;> rfl
    · cases l <;> rfl

/-- `ep_link` of a control or bulk ED. -/
theorem epLink_hc (ht : o.skel.type e = l.type) (h : epLink fuel o e = some o') :
    o'.skel = (o.skel.raise e).linkHc l e := by
  have htype : ((o.modEd e (fun r => { r with state := .edOper, hwNextED := 0 })).ed e).type
      = l.type := by
    rw [Ohci.modEd_ed_self]
    exact ht
  unfold epLink at h
  dsimp only at h
  rw [htype] at h
  rw [← skel_raise, ← skel_linkHc]
  cases l with
  | control =>
    cases h
    rfl
  | bulk =>
    cases h
    rfl

/-- `ep_link` of a periodic ED. -/
theorem epLink_periodic (ht : (o.skel.type e).periodic = true) (hS : (o.skel.raise e).Closed S)
    (he : e ∈ S) (h : epLink fuel o e = some o') :
    EditsWithin S (o.skel.raise e) o'.skel ∧ (o.skel.type e = .iso → o'.skel.prev e ∈ S) := by
  have hraise : EditsWithin S (o.skel.raise e)
      (o.modEd e (fun r => { r with state := .edOper, hwNextED := 0 })).skel := by
    rw [skel_raise]
    exact EditsWithin.refl hS
  have htype : ((o.modEd e (fun r => { r with state := .edOper, hwNextED := 0 })).ed e).type
      = o.skel.type e := by
    rw [Ohci.modEd_ed_self]
    rfl
  unfold epLink at h
  dsimp only at h
  rw [htype] at h
  cases hty : o.skel.type e with
  | int =>
    rw [hty] at h
    exact ⟨linkInt_edits hraise he h, fun h => by cases h⟩
  | iso =>
    rw [hty] at h
    obtain ⟨hedits, hprev⟩ := linkIso_edits hraise he h
    exact ⟨hedits, fun _ => hprev⟩
  | ctrl =>
    rw [hty] at ht
    cases ht
  | bulk =>
    rw [hty] at ht
    cases ht

/-- The skip bit `ep_unlink` sets first, and the state it sets last. -/
theorem epUnlink_cases (h : epUnlink fuel o e = some o') : ∃ o₁ o₂ : Ohci,
    o₁.skel = o.skel ∧ unlinkType fuel o₁ e = some o₂ ∧
      o'.skel = o₂.skel.setState e .edUnlink := by
  obtain ⟨o₂, h₂, h⟩ := Option.bind_eq_some_iff.mp h
  cases h
  exact ⟨_, o₂, Ohci.skel_modEd_quiet (by intro; rfl), h₂,
    Ohci.skel_modEd_state (by intro; rfl) rfl⟩

/-- `ep_unlink` of a control or bulk ED. -/
theorem epUnlink_hc (ht : o.skel.type e = l.type) (h : epUnlink fuel o e = some o') :
    o'.skel = (o.skel.unlinkHc l e).setState e .edUnlink := by
  obtain ⟨o₁, o₂, h₁, h₂, h₃⟩ := epUnlink_cases h
  have htype : (o₁.ed e).type = l.type := by
    rw [← ht, ← h₁]
    rfl
  rw [h₃, ← h₁, ← skel_unlinkHc]
  unfold unlinkType at h₂
  rw [htype] at h₂
  cases l with
  | control =>
    cases h₂
    rfl
  | bulk =>
    cases h₂
    rfl

/-- `ep_unlink` of a periodic ED. -/
theorem epUnlink_periodic (ht : (o.skel.type e).periodic = true) (hS : o.skel.Closed S)
    (he : e ∈ S) (h0 : e ≠ 0) (hp : o.skel.type e = .iso → o.skel.prev e ∈ S)
    (h : epUnlink fuel o e = some o') :
    ∃ s, EditsWithin S o.skel s ∧ o'.skel = s.setState e .edUnlink := by
  obtain ⟨o₁, o₂, h₁, h₂, h₃⟩ := epUnlink_cases h
  refine ⟨o₂.skel, ?_, h₃⟩
  rw [← h₁] at ht hS hp ⊢
  have hrefl := EditsWithin.refl hS
  unfold unlinkType at h₂
  cases hty : (o₁.ed e).type with
  | int =>
    rw [hty] at h₂
    exact unlinkInt_edits hrefl he h0 h₂
  | iso =>
    rw [hty] at h₂
    exact unlinkIso_edits hrefl he h0 (hp hty) h₂
  | ctrl =>
    have ht' : (o₁.ed e).type.periodic = true := ht
    rw [hty] at ht'
    cases ht'
  | bulk =>
    have ht' : (o₁.ed e).type.periodic = true := ht
    rw [hty] at ht'
    cases ht'

/-- **What the removal lists see of a change of the schedule**: the state of
the ED. -/
structure Reschedules (e : EdPtr) (st : EdState) (s s' : Skel) : Prop where
  frame : s'.frame = s.frame
  rm : s'.rm = s.rm
  rmNext : s'.rmNext = s.rmNext
  state : s'.state = Function.update s.state e st
  type : s'.type = s.type

theorem epLink_reschedules (h : epLink fuel o e = some o') :
    Reschedules e .edOper o.skel o'.skel := by
  cases hty : (o.skel.type e).periodic with
  | false =>
    obtain ⟨l, hl⟩ := PipeType.exists_hcList hty
    rw [epLink_hc hl h]
    exact ⟨rfl, rfl, rfl, rfl, rfl⟩
  | true =>
    have huniv : (o.skel.raise e).Closed Set.univ :=
      ⟨trivial, fun _ => trivial, trivial, fun _ _ _ => trivial⟩
    have hsame := (epLink_periodic hty huniv trivial h).1.same
    rw [hsame]
    exact ⟨rfl, rfl, rfl, rfl, rfl⟩

theorem epUnlink_reschedules (h0 : e ≠ 0) (h : epUnlink fuel o e = some o') :
    Reschedules e .edUnlink o.skel o'.skel := by
  cases hty : (o.skel.type e).periodic with
  | false =>
    obtain ⟨l, hl⟩ := PipeType.exists_hcList hty
    rw [epUnlink_hc hl h]
    exact ⟨rfl, rfl, rfl, rfl, rfl⟩
  | true =>
    have huniv : o.skel.Closed Set.univ :=
      ⟨trivial, fun _ => trivial, trivial, fun _ _ _ => trivial⟩
    obtain ⟨s, hs, h'⟩ := epUnlink_periodic hty huniv trivial h0 (fun _ => trivial) h
    rw [h', hs.same]
    exact ⟨rfl, rfl, rfl, rfl, rfl⟩

/-! ## The other functions -/

/-- `ep_rm_ed`. -/
theorem skel_epRmEd : (epRmEd o e).skel = o.skel.rmEd e := by
  have hskip : (o.modEd e (fun r => { r with hwINFO := { r.hwINFO with k := true } })).skel
      = o.skel := Ohci.skel_modEd_quiet (by intro; rfl)
  unfold epRmEd Skel.rmEd
  have hstate : o.skel.state e = (o.ed e).state := rfl
  rw [hstate]
  split
  · rfl
  have hpush : ∀ o₁ : Ohci, o₁.skel = o.skel →
      ({ o₁.modEd e (fun r => { r with edRmList := o₁.edRmList o₁.frame }) with
        edRmList := Function.update o₁.edRmList o₁.frame e } : Ohci).skel = o.skel.push e := by
    intro o₁ h₁
    have h := Ohci.skel_modEd_rmNext (o := o₁) (e := e) (v := o₁.edRmList o₁.frame)
    have hskel : ({ o₁.modEd e (fun r => { r with edRmList := o₁.edRmList o₁.frame }) with
        edRmList := Function.update o₁.edRmList o₁.frame e } : Ohci).skel
        = { (o₁.modEd e (fun r => { r with edRmList := o₁.edRmList o₁.frame })).skel with
          rm := Function.update o₁.skel.rm o₁.skel.frame e } := rfl
    rw [hskel, h, ← h₁]
    rfl
  have hdone := hpush { o.modEd e (fun r => { r with hwINFO := { r.hwINFO with k := true } }) with
    intrSf := true } hskip
  dsimp only
  split
  · exact hdone
  · exact hdone
  · exact hdone

theorem skel_initEd {d : DevPtr} {pipe : Pipe} {dummy : TdPtr} :
    (initEd o d e pipe dummy).skel = o.skel.init e pipe.type := by
  unfold initEd
  rw [Ohci.skel_modDev, Ohci.skel_modEd, Skel.init]
  ext1
  case next => exact Function.update_eq_self e o.skel.next
  case prev => exact Function.update_eq_self e o.skel.prev
  case rmNext => exact Function.update_eq_self e o.skel.rmNext
  all_goals rfl

theorem initEd_urb {d : DevPtr} {pipe : Pipe} {dummy : TdPtr} :
    (initEd o d e pipe dummy).urb = o.urb := rfl

theorem fillEd_urb {d : DevPtr} {pipe : Pipe} {interval load : ℕ} :
    (fillEd o d e pipe interval load).urb = o.urb := rfl

/-- `ep_add_ed`, when it answers with an ED. -/
theorem skel_epAddEd {d : DevPtr} {pipe : Pipe} {interval load : ℕ} {dummy : TdPtr}
    {r : Option EdPtr} (h : epAddEd o d pipe interval load dummy = (r, o')) :
    (∀ x, r = some x → x = edOf o d pipe) ∧ o'.urb = o.urb ∧
      (o'.skel = o.skel ∨ o.skel.state (edOf o d pipe) = .edNew ∧ dummy ≠ 0 ∧
        o'.skel = o.skel.init (edOf o d pipe) pipe.type) := by
  have hfill : ∀ o : Ohci, ∀ e, (fillEd o d e pipe interval load).skel = o.skel := by
    intro o e
    unfold fillEd
    dsimp only
    rw [Ohci.skel_modEd_quiet]
    · rfl
    · intro r
      split <;> rfl
  unfold epAddEd at h
  dsimp only at h
  split at h
  · cases h
    exact ⟨by simp, rfl, .inl rfl⟩
  split at h
  · split at h
    · cases h
      exact ⟨by simp, rfl, .inl (Ohci.skel_modEd_quiet (by intro; rfl))⟩
    · rename_i hnew hdummy
      cases h
      have hskip : (o.modEd (edOf o d pipe) (fun r => { r with hwINFO := skipInfo })).skel
          = o.skel :=
        Ohci.skel_modEd_quiet (by intro; rfl)
      refine ⟨by simp, by rw [fillEd_urb, initEd_urb, Ohci.modEd_urb], .inr ⟨hnew, hdummy, ?_⟩⟩
      rw [hfill, skel_initEd, hskip]
  · cases h
    exact ⟨by simp, rfl, .inl (hfill _ _)⟩

/-- The end of `dl_del_list` for an ED. -/
theorem skel_delEdEnd {tail : TdPtr} {fa : ℕ} :
    (delEdEnd o e tail fa).skel = o.skel.setState e (Skel.settled (o.skel.state e)) := by
  have hstate : o.skel.state e = (o.ed e).state := rfl
  rw [Skel.setState, Skel.settled, hstate]
  unfold delEdEnd
  split
  · have hnew : ((({ o with tdAlloc := Function.update o.tdAlloc tail false } : Ohci).modEd e
        (fun r => { r with hwINFO := skipInfo, state := .edNew })).modDev (o.dev fa)
        (fun r => { r with edCnt := r.edCnt - 1 })).skel
        = { o.skel with state := Function.update o.skel.state e .edNew } := by
      rw [Ohci.skel_modDev, Ohci.skel_modEd_state (s := .edNew) (by intro; rfl) rfl]
      rfl
    dsimp only
    split
    · exact hnew
    · exact hnew
  · exact Ohci.skel_modEd_state (by intro; rfl) rfl

/-- The end of `dl_del_list`. -/
theorem skel_delEnd {frame : Bool} : (delEnd o frame).skel = o.skel.clearRm frame := by
  unfold delEnd
  dsimp only
  split <;> rfl

theorem privEd_congr (h : o'.urb = o.urb) : o'.privEd = o.privEd := by
  funext u
  rw [Ohci.privEd, h, Ohci.privEd]

theorem epLink_privEd (h : epLink fuel o e = some o') : o'.privEd = o.privEd :=
  privEd_congr (congrArg Queues.urb (queues_epLink h))

theorem epUnlink_privEd (h : epUnlink fuel o e = some o') : o'.privEd = o.privEd :=
  privEd_congr (congrArg Queues.urb (queues_epUnlink h))

theorem epRmEd_urb : (epRmEd o e).urb = o.urb := by
  unfold epRmEd
  split
  · rfl
  · dsimp only
    split <;> rfl

/-- **`sohci_free_dev`, for an ED**: nothing for a new one; another is
unlinked if its state is `ED_OPER` and nothing else, and its removal is
requested. -/
theorem freeEd_cases (h : freeEd fuel o e = some o') :
    o' = o ∨ o.skel.state e ≠ .edNew ∧ ∃ o₁ : Ohci,
      (o.skel.state e = .edOper ∧ epUnlink fuel o e = some o₁ ∨
        o.skel.state e ≠ .edOper ∧ o₁ = o) ∧
      o'.skel = (o₁.skel.rmEd e).setState e .edDel ∧ o'.privEd = o.privEd := by
  unfold freeEd at h
  split at h
  · cases h
    exact .inl rfl
  have hend : ∀ o₁ : Ohci, ((epRmEd o₁ e).modEd e (fun r => { r with state := .edDel })).skel
      = (o₁.skel.rmEd e).setState e .edDel := by
    intro o₁
    rw [Ohci.skel_modEd_state (s := .edDel) (by intro; rfl) rfl, skel_epRmEd]
    rfl
  refine .inr ⟨‹_›, ?_⟩
  split at h
  · obtain ⟨o₁, h₁, h⟩ := Option.bind_eq_some_iff.mp h
    cases h
    exact ⟨o₁, .inl ⟨‹_›, h₁⟩, hend o₁, (privEd_congr epRmEd_urb).trans (epUnlink_privEd h₁)⟩
  · cases h
    exact ⟨o, .inr ⟨‹_›, rfl⟩, hend o, privEd_congr epRmEd_urb⟩

/-- The end of the body of the loop of `dl_done_list`. -/
theorem doneEd_cases (h : doneEd fuel o e = some o') :
    o' = o ∨ o.skel.state e = .edOper ∧ epUnlink fuel o e = some o' := by
  unfold doneEd at h
  split at h
  · exact .inr ⟨by tauto, h⟩
  · cases h
    exact .inl rfl

/-- The branch of `sohci_unlink_urb` for a pending URB. -/
theorem skel_unlinkPending {p : UrbPriv} : (unlinkPending o u p).skel
    = (o.skel.rmEd p.ed).setState p.ed { o.skel.state p.ed with urbDel := true } := by
  have hstate : ∀ o₁ : Ohci, ((epRmEd o₁ p.ed).ed p.ed).state = (o₁.ed p.ed).state := by
    intro o₁
    have h := congrFun (congrArg Skel.state (skel_epRmEd (o := o₁) (e := p.ed))) p.ed
    rw [Skel.rmEd_state] at h
    exact h
  have hmark : ∀ o₁ : Ohci, ((epRmEd o₁ p.ed).modEd p.ed
      (fun r => { r with state := { r.state with urbDel := true } })).skel
      = (o₁.skel.rmEd p.ed).setState p.ed { o₁.skel.state p.ed with urbDel := true } := by
    intro o₁
    rw [Ohci.skel_modEd_state (s := { (o₁.ed p.ed).state with urbDel := true }) (by intro; rfl)
      (by rw [hstate]), skel_epRmEd]
    rfl
  unfold unlinkPending
  dsimp only
  split
  · rw [Ohci.skel_modUrb]
    exact hmark (o.modPriv u (fun p => { p with urbDel := true }))
  · exact hmark (o.modPriv u (fun p => { p with urbDel := true }))

theorem unlinkPending_owner {p : UrbPriv} {z : UrbPtr} {x : EdPtr}
    (h : (unlinkPending o u p).privEd z = some x) : o.privEd z = some x := by
  have hmark : Quiet o (o.modPriv u (fun p => { p with urbDel := true })) :=
    (Quiet.refl o).modPriv (by intro; rfl)
  have hrm : ∀ o₁ : Ohci, (epRmEd o₁ p.ed).privEd = o₁.privEd := fun o₁ => privEd_congr epRmEd_urb
  unfold unlinkPending at h
  dsimp only at h
  refine hmark.owner z x ?_
  rw [← hrm]
  split at h
  · have hstatus : ∀ o₁ : Ohci,
        Quiet o₁ (o₁.modUrb u (fun r => { r with status := .einprogress })) :=
      fun o₁ => (Quiet.refl o₁).modUrb (by intro; rfl)
    exact (hstatus _).owner z x h
  · exact h

/-- **The ED that `sohci_unlink_urb` marks**, if it does mark one. -/
def unlinksEd (o : Ohci) (u : UrbPtr) : Option EdPtr :=
  if (o.urb u).dev ≠ 0 ∧ (o.urb u).status = .einprogress ∧ !o.disabled then o.privEd u else none

/-- **`sohci_unlink_urb`**: nothing the lists see, or the removal of the ED of
the URB is requested and its state is marked. -/
theorem unlinkUrb_cases : Quiet o (unlinkUrb o u).1 ∨ ∃ e, unlinksEd o u = some e ∧
    o.privEd u = some e ∧
    (unlinkUrb o u).1.skel
      = (o.skel.rmEd e).setState e { o.skel.state e with urbDel := true } ∧
    ∀ z x, (unlinkUrb o u).1.privEd z = some x → o.privEd z = some x := by
  unfold unlinkUrb
  split
  · exact .inl (Quiet.refl o)
  split
  · exact .inl (Quiet.refl o)
  rename_i p hp
  split
  · have hed : o.privEd u = some p.ed := by
      rw [Ohci.privEd, hp]
      rfl
    refine .inr ⟨p.ed, ?_, hed, skel_unlinkPending, fun _ _ => unlinkPending_owner⟩
    rw [unlinksEd, if_pos ⟨‹_›, ‹_›⟩, hed]
  · exact .inl quiet_unlinkNow

/-! ## Submitting -/

/-- **The ED that the first phase of `sohci_submit_urb` sets up**, if it does
set one up. -/
def initsEd (o : Ohci) (u : UrbPtr) (dummy : TdPtr) : Option EdPtr :=
  let r := o.urb u
  let e := edOf o r.dev r.pipe
  if r.dev ≠ 0 ∧ r.hcpriv.isNone ∧ !o.disabled ∧ (o.ed e).state = .edNew ∧ dummy ≠ 0 then some e
  else none

/-- **The first phase of `sohci_submit_urb`**: a new ED may be set up, and
the URB may get a private part for it. -/
theorem submitFirst_cases {dummy : TdPtr} {tds : ℕ → TdPtr} {e : EdPtr}
    (he : e = edOf o (o.urb u).dev (o.urb u).pipe) :
    ((submitFirst o u dummy tds).1.skel = o.skel ∨ initsEd o u dummy = some e ∧
      o.skel.state e = .edNew ∧ (submitFirst o u dummy tds).1.skel
        = o.skel.init e (o.urb u).pipe.type) ∧
    ∀ z x, (submitFirst o u dummy tds).1.privEd z = some x → x = e ∨ o.privEd z = some x := by
  have hinc := quiet_incDevUse (o := o) (u := u)
  generalize hstart : submitFirst o u dummy tds = started
  obtain ⟨o', b⟩ := started
  dsimp only
  obtain ⟨-, rfl, -⟩ | ⟨hdev, hnone, ⟨-, -, rfl⟩ | ⟨hdis, r, o₁, hadd, hend⟩⟩ :=
    submitFirst_outcome hstart
  · exact ⟨.inl rfl, fun _ _ h => .inr h⟩
  · exact ⟨.inl hinc.skel, fun z x h => .inr (hinc.owner z x h)⟩
  have hof : edOf (incDevUse o u) (o.urb u).dev (o.urb u).pipe = e := by
    rw [he]
    simp [edOf, incDevUse, Ohci.log, Ohci.modDev]
  obtain ⟨hr, hurb, hskel⟩ := skel_epAddEd hadd
  rw [hof] at hr hskel
  have howner : ∀ z x, o₁.privEd z = some x → o.privEd z = some x := by
    intro z x hx
    rw [privEd_congr hurb] at hx
    exact hinc.owner z x hx
  have hskel' : o₁.skel = o.skel ∨ initsEd o u dummy = some e ∧ o.skel.state e = .edNew ∧
      o₁.skel = o.skel.init e (o.urb u).pipe.type := by
    rcases hskel with h | ⟨hnew, hdummy, h⟩
    · exact .inl h
    · refine .inr ⟨?_, hnew, h⟩
      have hnew' : (o.ed e).state = .edNew := hnew
      rw [initsEd, ← he, if_pos]
      exact ⟨hdev, by rw [hnone]; rfl, by rw [hdis]; rfl, hnew', hdummy⟩
  obtain ⟨-, -, rfl⟩ | ⟨x, o₂, rfl, ho₂, hend⟩ := hend
  · exact ⟨(quiet_decDevUse (o := o₁) (u := u)).skel ▸ hskel',
      fun z x h => .inr (howner z x (quiet_decDevUse.owner z x h))⟩
  have hxe : x = e := hr x rfl
  subst hxe
  have hiso : Quiet o₁ (if (o.urb u).pipe.type = .iso then o₁.modUrb u resetPackets else o₁) := by
    split
    · exact (Quiet.refl o₁).modUrb (by intro; rfl)
    · exact Quiet.refl o₁
  have halloc : ∀ o₃ : Ohci, Quiet o₃ (allocTds o₃ (tdSize (o.urb u)) tds) :=
    fun o₃ => (Quiet.refl o₃).of_urb_eq rfl rfl
  -- the private part, then what may come behind it
  have hpriv : o₂.skel = o₁.skel ∧ ∀ z y, o₂.privEd z = some y → y = x ∨ o.privEd z = some y := by
    rw [ho₂, (halloc _).skel]
    refine ⟨hiso.skel, fun z y hy => ?_⟩
    have hy' := (halloc _).owner z y hy
    rw [Ohci.privEd, Ohci.modUrb_urb] at hy'
    split at hy'
    · exact .inl (Option.some.inj hy').symm
    · exact .inr (howner z y (hiso.owner z y hy'))
  have hquiet : ∀ o₃ : Ohci, Quiet o₂ o₃ →
      (o₃.skel = o.skel ∨ initsEd o u dummy = some x ∧ o.skel.state x = .edNew ∧
        o₃.skel = o.skel.init x (o.urb u).pipe.type) ∧
      ∀ z y, o₃.privEd z = some y → y = x ∨ o.privEd z = some y := by
    intro o₃ h₃
    rw [h₃.skel, hpriv.1]
    exact ⟨hskel', fun z y hy => hpriv.2 z y (h₃.owner z y hy)⟩
  obtain ⟨-, -, rfl⟩ | ⟨-, -, rfl⟩ := hend
  · exact hquiet _ (quiet_decDevUse.trans quiet_urbRmPriv)
  · exact hquiet _ (Quiet.refl _)

/-- Whether `Portable_PrepareUrbOnSubmit` gets the buffers it needs. -/
def Urb.buffersOk (r : Urb) (buf setup : ℕ) : Bool :=
  (r.transferBufferLength = 0 || buf ≠ 0) && (r.setupPacket.isNone || setup ≠ 0)

theorem prepareUrbOnSubmit_snd {buf setup : ℕ} :
    (prepareUrbOnSubmit o u buf setup).2 = (o.urb u).buffersOk buf setup := by
  unfold prepareUrbOnSubmit Urb.buffersOk
  dsimp only
  split
  · grind
  split
  · grind
  split
  · grind
  · grind

/-- **The last part of `sohci_submit_urb`**: the ED is linked or has been, and the TDs
are filled. -/
theorem submitLink_steps (h : submitLink fuel o u e = some o') :
    ∃ o₁, ((o.ed e).state = .edOper ∧
      o₁ = o.modUrb u (fun r => { r with status := .einprogress, actualLength := 0 }) ∨
        (o.ed e).state ≠ .edOper ∧
          epLink fuel (o.modUrb u (fun r => { r with status := .einprogress, actualLength := 0 }))
            e = some o₁) ∧
      tdSubmitUrb (o₁.modUrb u (fun r => { r with status := .einprogress })) u = some o' := by
  unfold submitLink at h
  dsimp only at h
  split at h
  · obtain ⟨o₁, h₁, h⟩ := Option.bind_eq_some_iff.mp h
    exact ⟨o₁, .inr ⟨‹_›, h₁⟩, h⟩
  · exact ⟨_, .inl ⟨not_not.mp ‹_›, rfl⟩, h⟩

/-- **How the second phase of `sohci_submit_urb` ends**: the ED is not there yet or is
being removed; a buffer is missing; or the request is accepted. `o₁` is the
memory behind the calculation of the start frame. -/
theorem submitSecond_outcome {buf setup : ℕ} {b : Bool}
    (h : submitSecond fuel o u buf setup = some (o', b)) :
    ∃ p, (o.urb u).hcpriv = some p ∧
      (b = false ∧ ((o.ed p.ed).state = .edNew ∨ (o.ed p.ed).state.del = true) ∧
        o' = decDevUse (urbRmPriv o u) u ∨
        (o.ed p.ed).state ≠ .edNew ∧ (o.ed p.ed).state.del = false ∧ ∃ n o₁,
          o₁ = (prepareUrbOnSubmit (o.modUrb u (fun r => { r with startFrame := n })) u
            buf setup).1 ∧
          (b = false ∧ (o.urb u).buffersOk buf setup = false ∧ o' = urbRmPriv (decDevUse o₁ u) u ∨
            b = true ∧ (o.urb u).buffersOk buf setup = true ∧
              submitLink fuel o₁ u p.ed = some o')) := by
  obtain ⟨p, hp, h⟩ := Option.bind_eq_some_iff.mp h
  refine ⟨p, hp, ?_⟩
  dsimp only at h
  split at h
  · cases h
    exact .inl ⟨rfl, ‹_›, rfl⟩
  rename_i hlive
  push Not at hlive
  have hframe : ∃ n, (if (o.urb u).isoAsap then
      o.modUrb u (fun r => { r with startFrame := asapFrame o p.ed }) else o)
        = o.modUrb u (fun r => { r with startFrame := n }) := by
    split
    · exact ⟨_, rfl⟩
    · exact ⟨(o.urb u).startFrame, (Ohci.modUrb_eq_self o u _ rfl).symm⟩
  obtain ⟨n, hn⟩ := hframe
  rw [hn] at h
  have hbuffers : (prepareUrbOnSubmit (o.modUrb u (fun r => { r with startFrame := n })) u
      buf setup).2
      = (o.urb u).buffersOk buf setup := by
    rw [prepareUrbOnSubmit_snd, Ohci.modUrb_urb_self]
    rfl
  refine .inr ⟨hlive.1, Bool.eq_false_iff.mpr hlive.2, n, _, rfl, ?_⟩
  generalize prepareUrbOnSubmit (o.modUrb u (fun r => { r with startFrame := n })) u buf setup
    = prepared
    at h hbuffers ⊢
  obtain ⟨o₁, ok⟩ := prepared
  cases ok with
  | false =>
    cases h
    exact .inl ⟨rfl, hbuffers.symm, rfl⟩
  | true =>
    obtain ⟨o₂, h₂, h⟩ := Option.bind_eq_some_iff.mp h
    cases h
    exact .inr ⟨rfl, hbuffers.symm, h₂⟩

/-- **The ED that the second phase of `sohci_submit_urb` links**, if it does
link one. -/
def linksEd (o : Ohci) (u : UrbPtr) (buf setup : ℕ) : Option EdPtr :=
  match (o.urb u).hcpriv with
  | none => none
  | some p =>
    let st := (o.ed p.ed).state
    if st = .edNew ∨ st.del ∨ st = .edOper ∨ !(o.urb u).buffersOk buf setup then none
      else some p.ed

/-- **The second phase of `sohci_submit_urb`**: nothing the lists see, or an
ED is linked. -/
theorem submitSecond_cases {buf setup : ℕ} {b : Bool}
    (h : submitSecond fuel o u buf setup = some (o', b)) :
    Quiet o o' ∨ ∃ e o₁ o₂, linksEd o u buf setup = some e ∧ o.privEd u = some e ∧
      (o.skel.state e).del = false ∧ Quiet o o₁ ∧ epLink fuel o₁ e = some o₂ ∧ Quiet o₂ o' := by
  obtain ⟨p, hp, ⟨rfl, -, rfl⟩ | ⟨hnew, hdel, n, o₁, ho₁, hend⟩⟩ := submitSecond_outcome h
  · exact .inl (quiet_urbRmPriv.trans quiet_decDevUse)
  have hprep : Quiet o o₁ := by
    rw [ho₁]
    exact ((Quiet.refl o).modUrb (by intro; rfl)).trans quiet_prepareUrbOnSubmit
  obtain ⟨rfl, -, rfl⟩ | ⟨rfl, hbuf, h₁⟩ := hend
  · exact .inl (hprep.trans (quiet_decDevUse.trans quiet_urbRmPriv))
  obtain ⟨o₂, h₂, hsub⟩ := submitLink_steps h₁
  have hpend : Quiet o (o₁.modUrb u (fun r =>
      { r with status := .einprogress, actualLength := 0 })) := hprep.modUrb (by intro; rfl)
  have hsubmit : Quiet o₂ o' :=
    ((Quiet.refl o₂).modUrb (by intro; rfl)).trans (quiet_tdSubmitUrb hsub)
  have hstate : (o₁.ed p.ed).state = (o.ed p.ed).state :=
    congrFun (congrArg Skel.state hprep.skel) p.ed
  rw [hstate] at h₂
  obtain ⟨-, rfl⟩ | ⟨hoper, h₂⟩ := h₂
  · exact .inl (hpend.trans hsubmit)
  refine .inr ⟨p.ed, _, o₂, ?_, by rw [Ohci.privEd, hp]; rfl, hdel, hpend, h₂, hsubmit⟩
  unfold linksEd
  rw [hp]
  dsimp only
  rw [if_neg]
  rw [hbuf, hdel]
  push Not
  exact ⟨hnew, by decide, hoper, by decide⟩

end Steps
