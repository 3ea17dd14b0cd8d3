import SideDumper.TdLists

/-!
# The queue of an ED that is to be removed

`dl_del_list` goes along the queue of an ED with a pointer to the link that
leads to the TD it is at. A TD of a request that has been unlinked is taken
out by a write to that link, and counted; the last one of its request takes
the private part with it. What is left of the queue is what was there without
those TDs, in the same order: `delEd_exact`. A completion callback may do
anything that does not concern the ED.
-/

/-- **The inner loop of `dl_del_list`, with what happens in between**: `cb` is
what a completion callback does behind the pass for a TD. The answer has the
URBs whose private parts were freed. -/
def delTdsCalling (cb : TdPtr → Ohci → Ohci) (e : EdPtr) (tail : TdPtr) :
    ℕ → Ohci → TdPtr → TdLink → Option (Ohci × List UrbPtr)
  | 0, _, _, _ => none
  | fuel + 1, o, t, tdP =>
    if t = tail then some (o, [])
    else do
      let u := (o.td t).urb
      let next := o.nextTD t
      let (o, tdP) ← delTd o e t tdP
      let freed := if (o.urb u).hcpriv.isNone then [u] else []
      let (o, more) ← delTdsCalling cb e tail fuel (cb t o) next tdP
      some (o, freed ++ more)

/-- **The body of the outer loop of `dl_del_list`**, for one ED. -/
def delEdCalling (cb : TdPtr → Ohci → Ohci) (fuel : ℕ) (o : Ohci) (e : EdPtr) :
    Option (Ohci × List UrbPtr) := do
  let tail := (o.ed e).hwTailP
  let fa := (o.ed e).hwINFO.fa
  let (o, freed) ← delTdsCalling cb e tail fuel o (o.ed e).hwHeadP (.head e)
  some (delEdEnd o e tail fa, freed)

/-- With callbacks that do nothing this is the loop of `dl_del_list`. -/
theorem delTdsCalling_id (e : EdPtr) (tail : TdPtr) (fuel : ℕ) (o : Ohci) (t : TdPtr)
    (tdP : TdLink) :
    (delTdsCalling (fun _ o => o) e tail fuel o t tdP).map Prod.fst
      = delTds e tail fuel o t tdP := by
  induction fuel generalizing o t tdP with
  | zero => rfl
  | succ fuel ih =>
    unfold delTdsCalling delTds
    split
    · rfl
    · dsimp only
      cases delTd o e t tdP with
      | none => rfl
      | some r =>
        dsimp only [Option.bind_eq_bind, Option.bind_some]
        rw [← ih]
        cases delTdsCalling (fun _ o => o) e tail fuel r.1 (o.nextTD t) r.2 <;> rfl

/-- The outer loop of `dl_del_list`. -/
theorem delEds_succ (fuel : ℕ) (o : Ohci) (e : EdPtr) : delEds (fuel + 1) o e
    = if e = 0 then some o
      else ((delEdCalling (fun _ o => o) fuel o e).map Prod.fst).bind
        (fun o => delEds fuel o (o.ed e).edRmList) := by
  rw [delEds, delEdCalling]
  split
  · rfl
  · dsimp only
    rw [← delTdsCalling_id]
    cases delTdsCalling (fun _ o => o) e (o.ed e).hwTailP fuel o (o.ed e).hwHeadP (.head e)
      <;> rfl

namespace Ohci

/-- The request of a TD has been unlinked. -/
def unlinked (o : Ohci) (t : TdPtr) : Bool := (o.urb (o.td t).urb).hcpriv.any UrbPriv.urbDel

/-- **Whether `dl_del_list` removes a TD**: its request has been unlinked, or all of
the ED is to go. -/
def removes (o : Ohci) (e : EdPtr) (t : TdPtr) : Bool := (o.ed e).state.del || o.unlinked t

/-- **What does not concern an ED**: it leaves the ED, the TDs on its queue and the
private parts of its requests. -/
structure KeepsEd (o o' : Ohci) (e : EdPtr) : Prop where
  ed : o'.ed e = o.ed e
  td : ∀ ts, Walk o.tdLinks.next (o.ed e).hwTailP (o.ed e).hwHeadP ts → ∀ t ∈ ts, o'.td t = o.td t
  priv : ∀ u p, (o.urb u).hcpriv = some p → p.ed = e → (o'.urb u).hcpriv = some p

/-- **A queue**, its first TDs `kept` having been passed over: it ends, the others are
TDs of requests of the ED, and the TDs of a request that are to be removed and
those that have been counted are not more than it has. -/
structure QueueAt (o : Ohci) (e : EdPtr) (kept rest : List TdPtr) : Prop where
  walk : Walk o.tdLinks.next (o.ed e).hwTailP (o.ed e).hwHeadP (kept ++ rest)
  part : ∀ t ∈ rest, ∃ p, (o.urb (o.td t).urb).hcpriv = some p ∧ p.ed = e ∧
    (o.removes e t = true → p.tdCnt + TdList.of o.tdLinks.urb (o.td t).urb rest ≤ p.length ∧
      p.length < 65536)

/-- **What becomes of the rest of the memory** when the TDs `gone` are taken off a queue:
of the ED only the pointer of `hwHeadP` changes, and each of its requests has its
TDs counted, or its private part is freed with the last of all its TDs. -/
structure Counted (o : Ohci) (e : EdPtr) (gone : List TdPtr) (freed : List UrbPtr) (o' : Ohci) :
    Prop where
  ed : ∃ v, o'.ed e = { o.ed e with hwHeadP := v }
  cnt : ∀ u p, (o.urb u).hcpriv = some p → p.ed = e →
    (TdList.of o.tdLinks.urb u gone = 0 ∨ p.tdCnt + TdList.of o.tdLinks.urb u gone < p.length →
      (o'.urb u).hcpriv = some { p with tdCnt := p.tdCnt + TdList.of o.tdLinks.urb u gone }) ∧
    (u ∈ freed ↔ 0 < TdList.of o.tdLinks.urb u gone ∧
      p.tdCnt + TdList.of o.tdLinks.urb u gone = p.length)

/-- **The queue is filtered exactly.** If the ED stays, its queue is what it was without
the TDs whose requests have been unlinked, with the same end and the same flags in
`hwHeadP`; if it goes, the queue is empty. Each request of the ED has the TDs that were
removed counted, or its private part was freed with the last of all its TDs. -/
structure DelExact (o : Ohci) (e : EdPtr) (ts : List TdPtr) (o' : Ohci) (freed : List UrbPtr) :
    Prop where
  stays : (o.ed e).state.del = false →
    Walk (fun t => (o'.td t).hwNextTD) (o'.ed e).hwTailP (o'.ed e).hwHeadP
      (ts.filter (fun t => !o.unlinked t)) ∧
      (o'.ed e).hwTailP = (o.ed e).hwTailP ∧ (o'.ed e).headHalted = (o.ed e).headHalted ∧
      (o'.ed e).headCarry = (o.ed e).headCarry
  goes : (o.ed e).state.del = true → (o'.ed e).hwHeadP = (o'.ed e).hwTailP
  cnt : ∀ u p, (o.urb u).hcpriv = some p → p.ed = e →
    let k := (ts.filter (o.removes e)).countP (fun t => (o.td t).urb = u)
    (k = 0 ∨ p.tdCnt + k < p.length → (o'.urb u).hcpriv = some { p with tdCnt := p.tdCnt + k }) ∧
      (u ∈ freed ↔ 0 < k ∧ p.tdCnt + k = p.length)

end Ohci

/-! ## One TD -/

section Pass

variable {o o' o'' : Ohci} {e : EdPtr} {t : TdPtr} {u z : UrbPtr} {tdP tdP' : TdLink}
    {p : UrbPriv}
  {kept rest gone gone' : List TdPtr} {freed freed' : List UrbPtr}

/-- A pass comes to its end as long as the request has its private part. -/
theorem exists_delTd (e : EdPtr) (tdP : TdLink) (hp : (o.urb (o.td t).urb).hcpriv = some p) :
    ∃ r, delTd o e t tdP = some r := by
  have hcount : ∀ o₁ : Ohci, (o₁.urb (o.td t).urb).hcpriv = some p →
      ((countTd (o₁.setTdLink tdP (o₁.nextTD t)) (o.td t).urb).urb (o.td t).urb).hcpriv
        = some { p with tdCnt := (p.tdCnt + 1) % 65536 } := fun o₁ hp₁ => by
    rw [countTd_urb_self (by rw [setTdLink_urb, hp₁])]
  unfold delTd
  dsimp only
  rw [hp, Option.bind_eq_bind, Option.bind_some]
  split
  · split
    · have hsome : ∃ o₁, dlTransferLength o t = some o₁ := by
        unfold dlTransferLength
        dsimp only
        rw [hp]
        split <;> exact ⟨_, rfl⟩
      obtain ⟨o₁, h₁⟩ := hsome
      rw [h₁, Option.bind_eq_bind, Option.bind_some,
        hcount o₁ ((dlTransferLength_hcpriv h₁ _).trans hp)]
      exact ⟨_, rfl⟩
    · rw [Option.bind_eq_bind, Option.bind_some, hcount o hp]
      exact ⟨_, rfl⟩
  · exact ⟨_, rfl⟩

theorem reportDel_hcpriv : ((reportDel o u).urb z).hcpriv = (o.urb z).hcpriv := by
  unfold reportDel
  split
  · unfold callComplete
    rw [Ohci.log_urb, Ohci.modUrb_urb]
    split
    · rename_i hz
      rw [hz]
      rfl
    · rfl
  · rfl

/-- **What a pass does to the private parts.** -/
theorem delTd_hcpriv (hp : (o.urb (o.td t).urb).hcpriv = some p) (hdel : o.removes e t = true)
    (h : delTd o e t tdP = some (o', tdP')) : tdP' = tdP ∧
      (o'.urb (o.td t).urb).hcpriv
        = (if (p.tdCnt + 1) % 65536 = p.length then none
          else some { p with tdCnt := (p.tdCnt + 1) % 65536 }) ∧
      ∀ z, z ≠ (o.td t).urb → (o'.urb z).hcpriv = (o.urb z).hcpriv := by
  obtain ⟨p', hp', ⟨hkeep, -⟩ | ⟨-, rfl, o₁, o₂, ho₁, hp₁, rfl, rfl⟩⟩ := delTd_outcome h
  · refine absurd ?_ hkeep
    rw [Ohci.removes, Ohci.unlinked, hp', Option.any_some, Bool.or_eq_true] at hdel
    exact hdel.symm
  · rw [hp] at hp'
    cases hp'
    have hcount :=
      countTd_urb_self (o := o₁.setTdLink tdP' (o₁.nextTD t)) (by rw [setTdLink_urb, hp₁])
    refine ⟨rfl, ?_, fun z hz => ?_⟩
    · rw [reportDel_hcpriv]
      split
      · rw [urbRmPriv_urb_self]
      · rw [hcount]
    · have hsame : ((countTd (o₁.setTdLink tdP' (o₁.nextTD t)) (o.td t).urb).urb z).hcpriv
          = (o.urb z).hcpriv := by
        rw [countTd, Ohci.modPriv, Ohci.modUrb_urb, if_neg hz, setTdLink_urb]
        obtain rfl | h₁ := ho₁
        · rfl
        · exact dlTransferLength_hcpriv h₁ z
      rw [reportDel_hcpriv]
      split
      · rw [urbRmPriv_urb, Function.update_of_ne hz, hsame]
      · exact hsame

/-- A pass writes nothing of an ED but the pointer of `hwHeadP`. -/
theorem delTd_ed (h : delTd o e t tdP = some (o', tdP')) (x : EdPtr) :
    ∃ v, o'.ed x = { o.ed x with hwHeadP := v } := by
  obtain ⟨p, -, ⟨-, rfl, -⟩ | ⟨-, rfl, o₁, o₂, ho₁, -, rfl, rfl⟩⟩ := delTd_outcome h
  · exact ⟨_, rfl⟩
  have hlen : o₁.ed = o.ed := by
    obtain rfl | h₁ := ho₁
    · rfl
    · unfold dlTransferLength at h₁
      dsimp only at h₁
      split at h₁
      · cases h₁
        rfl
      · obtain ⟨p, -, h₁⟩ := Option.bind_eq_some_iff.mp h₁
        cases h₁
        rfl
  have hreport : ∀ (o₂ : Ohci) (u : UrbPtr), (reportDel o₂ u).ed = o₂.ed := by
    intro o₂ u
    unfold reportDel
    split
    · rw [callComplete, decDevUse, Ohci.log_ed, Ohci.modUrb_ed, Ohci.log_ed, Ohci.modDev_ed]
    · rfl
  have hcount : ∀ (o₂ : Ohci) (u : UrbPtr), (countTd o₂ u).ed = o₂.ed := fun _ _ => rfl
  have hset : ∃ v, (o₁.setTdLink tdP' (o₁.nextTD t)).ed x = { o.ed x with hwHeadP := v } := by
    cases tdP' with
    | head y =>
      rw [Ohci.setTdLink, Ohci.modEd_ed, hlen]
      split
      · rename_i hy
        rw [hy]
        exact ⟨_, rfl⟩
      · exact ⟨_, rfl⟩
    | next y => exact ⟨_, congrFun hlen x⟩
  rw [hreport]
  split
  · rw [urbRmPriv_ed, hcount]
    exact hset
  · rw [hcount]
    exact hset

/-- **A TD is taken out of a walk** by the write to the link that leads to it. -/
theorem TdLinks.walk_setLink {n : TdLinks} {stop : TdPtr}
    (h : Walk n.next stop (n.head e) (kept ++ t :: rest)) :
    Walk (n.setLink (.after e kept) (n.next t)).next stop
      ((n.setLink (.after e kept) (n.next t)).head e)
      (kept ++ rest) := by
  obtain rfl | ⟨ks, y, rfl⟩ := List.eq_nil_or_concat' kept
  · show Walk n.next stop (Function.update n.head e (n.next t) e) rest
    rw [Function.update_self]
    exact h.2.2
  · rw [List.append_assoc] at h
    rw [TdLink.after_concat, List.append_assoc]
    exact Walk.removeAfter h

namespace Ohci

/-- What a removal does to the links. -/
theorem tdLinks_removed (hdel : o.removes e t = true)
    (h : delTd o e t tdP = some (o', tdP')) :
    (o'.tdLinks.next = (o.tdLinks.setLink tdP (o.nextTD t)).next ∧
      o'.tdLinks.head = (o.tdLinks.setLink tdP (o.nextTD t)).head) ∧
        o'.tdLinks.urb = o.tdLinks.urb := by
  obtain ⟨p', hp', ⟨hkeep, -⟩ | ⟨-, rfl, hl⟩⟩ := tdLinks_delTd h
  · refine absurd ?_ hkeep
    rw [removes, unlinked, hp', Option.any_some, Bool.or_eq_true] at hdel
    exact hdel.symm
  · rw [hl, tdLinks_setTdLink]
    exact ⟨⟨rfl, rfl⟩, (o.tdLinks.setLink_rest tdP' _).2.1⟩

theorem QueueAt.pos (h : o.QueueAt e kept (t :: rest)) : t ≠ (o.ed e).hwTailP :=
  h.walk.ne_stop t (List.mem_append_right _ List.mem_cons_self)

/-- **A TD that is passed over.** -/
theorem QueueAt.keep (h : o.QueueAt e kept (t :: rest)) (hdel : o.removes e t = false)
    (tdP : TdLink) :
    delTd o e t tdP = some (o, .next t) ∧ o.QueueAt e (kept ++ [t]) rest := by
  obtain ⟨p, hp, -⟩ := h.part t List.mem_cons_self
  rw [removes, unlinked, hp, Option.any_some, Bool.or_eq_false_iff] at hdel
  refine ⟨?_, ?_, fun x hx => ?_⟩
  · unfold delTd
    dsimp only
    rw [hp, Option.bind_eq_bind, Option.bind_some, if_neg (by rw [hdel.1, hdel.2]; simp)]
  · rw [List.append_assoc]
    exact h.walk
  · obtain ⟨p', hp', he, hcnt⟩ := h.part x (List.mem_cons_of_mem _ hx)
    refine ⟨p', hp', he, fun hrem => ?_⟩
    have hle := hcnt hrem
    rw [TdList.of_cons] at hle
    omega

/-- The request of a TD that is removed: it has one more TD counted, or loses its
private part. -/
theorem QueueAt.hcpriv_removed (h : o.QueueAt e kept (t :: rest)) (hdel : o.removes e t = true)
    (hpass : delTd o e t tdP = some (o', tdP')) (hp : (o.urb (o.td t).urb).hcpriv = some p) :
    (o'.urb (o.td t).urb).hcpriv =
      if p.tdCnt + 1 = p.length then none else some { p with tdCnt := p.tdCnt + 1 } := by
  obtain ⟨p', hp', -, hcnt⟩ := h.part t List.mem_cons_self
  obtain rfl : p = p' := Option.some.inj (hp.symm.trans hp')
  have hbound := hcnt hdel
  have hpos := TdList.of_pos o.tdLinks.urb (List.mem_cons_self (a := t) (l := rest))
  rw [show o.tdLinks.urb t = (o.td t).urb from rfl] at hpos
  obtain ⟨-, hself, -⟩ := delTd_hcpriv hp hdel hpass
  rw [Nat.mod_eq_of_lt (by omega)] at hself
  exact hself

/-- **The requests of the TDs that are left** keep their private parts. -/
theorem QueueAt.part_removed (h : o.QueueAt e kept (t :: rest)) (hdel : o.removes e t = true)
    (hpass : delTd o e t tdP = some (o', tdP')) : ∀ x ∈ rest, ∃ p, (o.urb (o.td x).urb).hcpriv
    = some p ∧ p.ed = e ∧
      (o.removes e x = true →
        p.tdCnt + TdList.of o.tdLinks.urb (o.td x).urb (t :: rest) ≤ p.length ∧
          p.length < 65536) ∧
      (o'.urb (o.td x).urb).hcpriv
        = some { p with tdCnt := p.tdCnt + if o.tdLinks.urb t = (o.td x).urb then 1 else 0 } := by
  intro x hx
  have hurbt : o.tdLinks.urb t = (o.td t).urb := rfl
  obtain ⟨pt, hpt, -, hcnt⟩ := h.part t List.mem_cons_self
  obtain ⟨p, hp, he, hcntx⟩ := h.part x (List.mem_cons_of_mem _ hx)
  refine ⟨p, hp, he, hcntx, ?_⟩
  by_cases hxu : (o.td x).urb = (o.td t).urb
  · -- Another TD of the request is left, so the one that goes is not the last.
    rw [hxu] at hp
    obtain rfl : pt = p := Option.some.inj (hpt.symm.trans hp)
    have hbound := hcnt hdel
    have hpos := TdList.of_pos o.tdLinks.urb hx
    rw [TdList.of_cons, if_pos hurbt] at hbound
    rw [show o.tdLinks.urb x = (o.td t).urb from hxu] at hpos
    rw [hxu, if_pos hurbt, h.hcpriv_removed hdel hpass hp, if_neg (by omega)]
  · obtain ⟨-, -, hother⟩ := delTd_hcpriv hpt hdel hpass
    rw [if_neg (fun hne => hxu hne.symm), hother _ hxu]
    exact hp

/-- **A TD that is removed is counted.** -/
theorem QueueAt.counted_removed (h : o.QueueAt e kept (t :: rest)) (hdel : o.removes e t = true)
    (hpass : delTd o e t tdP = some (o', tdP')) :
    o.Counted e [t] (if (o'.urb (o.td t).urb).hcpriv.isNone then [(o.td t).urb] else []) o' := by
  refine ⟨delTd_ed hpass e, fun u p hu hue => ?_⟩
  have hone : TdList.of o.tdLinks.urb u [t] = if (o.td t).urb = u then 1 else 0 := by
    rw [TdList.of_cons]
    exact Nat.zero_add _
  rw [hone]
  by_cases hut : (o.td t).urb = u
  · rw [← hut] at hu
    rw [if_pos hut, ← hut, h.hcpriv_removed hdel hpass hu]
    by_cases hlast : p.tdCnt + 1 = p.length
    · rw [if_pos hlast]
      exact ⟨fun hor => by omega, by simp [hlast]⟩
    · rw [if_neg hlast]
      exact ⟨fun _ => rfl, by simp [hlast]⟩
  · obtain ⟨pt, hpt, -⟩ := h.part t List.mem_cons_self
    obtain ⟨-, -, hother⟩ := delTd_hcpriv hpt hdel hpass
    rw [if_neg hut, hother u (fun heq => hut heq.symm)]
    refine ⟨fun _ => hu, iff_of_false (fun hmem => hut ?_) (fun hpos => Nat.lt_irrefl 0 hpos.1)⟩
    split at hmem
    · exact (List.mem_singleton.mp hmem).symm
    · cases hmem

/-- **A TD that is removed.** -/
theorem QueueAt.remove (h : o.QueueAt e kept (t :: rest)) (hdel : o.removes e t = true) :
    ∃ o', delTd o e t (.after e kept) = some (o', .after e kept) ∧ o'.QueueAt e kept rest ∧
      (∀ x ∈ rest, (o'.td x).urb = (o.td x).urb ∧ o'.removes e x = o.removes e x) ∧
      o.Counted e [t]
        (if (o'.urb (o.td t).urb).hcpriv.isNone then [(o.td t).urb] else []) o' := by
  obtain ⟨p, hp, -⟩ := h.part t List.mem_cons_self
  obtain ⟨⟨o', tdP'⟩, hpass⟩ := exists_delTd e (.after e kept) hp
  obtain ⟨rfl, -, -⟩ := delTd_hcpriv hp hdel hpass
  obtain ⟨v, hed⟩ := delTd_ed hpass e
  obtain ⟨hlinks, hurb⟩ := tdLinks_removed hdel hpass
  have hurbx : ∀ x, (o'.td x).urb = (o.td x).urb := congrFun hurb
  have hremoves : ∀ x ∈ rest, o'.removes e x = o.removes e x := by
    intro x hx
    obtain ⟨px, hpx, -, -, hpx'⟩ := h.part_removed hdel hpass x hx
    rw [removes, removes, unlinked, unlinked, hed, hurbx, hpx, hpx']
    rfl
  refine ⟨o', hpass, ⟨?_, fun x hx => ?_⟩, fun x hx => ⟨hurbx x, hremoves x hx⟩,
    h.counted_removed hdel hpass⟩
  · have hhead : (o'.ed e).hwHeadP = o'.tdLinks.head e := rfl
    rw [hhead, hlinks.1, hlinks.2, hed]
    exact TdLinks.walk_setLink h.walk
  · obtain ⟨px, hpx, hex, hcntx, hpx'⟩ := h.part_removed hdel hpass x hx
    rw [hurbx, hurb]
    refine ⟨_, hpx', hex, fun hrem => ?_⟩
    have hle := hcntx (hremoves x hx ▸ hrem)
    rw [TdList.of_cons] at hle
    dsimp only
    omega

theorem Counted.refl (o : Ohci) (e : EdPtr) : o.Counted e [] [] o where
  ed := ⟨_, rfl⟩
  cnt := fun _ _ hu _ => ⟨fun _ => hu, by simp [TdList.of]⟩

/-- **One TD**, whether it is removed or not. -/
theorem QueueAt.pass (h : o.QueueAt e kept (t :: rest)) : ∃ o',
    delTd o e t (.after e kept)
      = some (o', .after e (kept ++ [t].filter (fun x => !o.removes e x))) ∧
      o'.QueueAt e (kept ++ [t].filter (fun x => !o.removes e x)) rest ∧
      (∀ x ∈ rest, (o'.td x).urb = (o.td x).urb ∧ o'.removes e x = o.removes e x) ∧
      o.Counted e ([t].filter (o.removes e))
        (if (o'.urb (o.td t).urb).hcpriv.isNone then [(o.td t).urb] else []) o' := by
  cases hdel : o.removes e t with
  | true =>
    obtain ⟨o', hpass, hq, hsame, hc⟩ := h.remove hdel
    refine ⟨o', ?_⟩
    rw [List.filter_cons_of_neg (by rw [hdel]; decide), List.filter_cons_of_pos hdel,
      List.filter_nil, List.filter_nil, List.append_nil]
    exact ⟨hpass, hq, hsame, hc⟩
  | false =>
    obtain ⟨hpass, hq⟩ := h.keep hdel (.after e kept)
    obtain ⟨p, hp, -⟩ := h.part t List.mem_cons_self
    refine ⟨o, ?_⟩
    rw [List.filter_cons_of_pos (by rw [hdel]; rfl),
      List.filter_cons_of_neg (by rw [hdel]; decide),
      List.filter_nil, List.filter_nil, TdLink.after_concat, hp]
    exact ⟨hpass, hq, fun x _ => ⟨rfl, rfl⟩, .refl o e⟩

/-- What comes behind a pass. -/
theorem Counted.trans (h : o.Counted e gone freed o') (h' : o'.Counted e gone' freed' o'')
    (hurb : ∀ x ∈ gone', (o'.td x).urb = (o.td x).urb)
    (hbound : ∀ u p, (o.urb u).hcpriv = some p → p.ed = e →
      TdList.of o.tdLinks.urb u (gone ++ gone') = 0 ∨
      p.tdCnt + TdList.of o.tdLinks.urb u (gone ++ gone') ≤ p.length) :
    o.Counted e (gone ++ gone') (freed ++ freed') o'' := by
  refine ⟨?_, fun u p hu hue => ?_⟩
  · obtain ⟨v, hv⟩ := h.ed
    obtain ⟨v', hv'⟩ := h'.ed
    exact ⟨v', by rw [hv', hv]⟩
  have hle := hbound u p hu hue
  have hof : TdList.of o'.tdLinks.urb u gone' = TdList.of o.tdLinks.urb u gone' :=
    TdList.of_congr hurb
  obtain ⟨hcnt, hfreed⟩ := h.cnt u p hu hue
  rw [TdList.of_append] at hle ⊢
  rw [List.mem_append, hfreed]
  generalize TdList.of o.tdLinks.urb u gone = k at *
  by_cases hlast : 0 < k ∧ p.tdCnt + k = p.length
  · have hnone : TdList.of o.tdLinks.urb u gone' = 0 := by omega
    rw [hnone]
    exact ⟨fun hor => by omega, by simp only [hlast, true_or, Nat.add_zero, and_self]⟩
  · obtain ⟨hcnt', hfreed'⟩ := h'.cnt u _ (hcnt (by omega)) hue
    rw [hof] at hcnt' hfreed'
    dsimp only at hcnt' hfreed'
    generalize TdList.of o.tdLinks.urb u gone' = k' at *
    refine ⟨fun hor => ?_, ?_⟩
    · rw [hcnt' (by omega), Nat.add_assoc]
    · rw [hfreed']
      omega

/-- **A callback that does not concern the ED.** -/
theorem QueueAt.call (h : o.QueueAt e kept rest) (hk : o.KeepsEd o' e) : o'.QueueAt e kept rest ∧
    (∀ x ∈ rest, (o'.td x).urb = (o.td x).urb ∧ o'.removes e x = o.removes e x) ∧
      o.Counted e [] [] o' := by
  have htd : ∀ x ∈ kept ++ rest, o'.td x = o.td x := hk.td _ h.walk
  have hrest : ∀ x ∈ rest, o'.td x = o.td x := fun x hx => htd x (List.mem_append_right _ hx)
  have hurb : ∀ x ∈ rest, o'.tdLinks.urb x = o.tdLinks.urb x :=
    fun x hx => congrArg Td.urb (hrest x hx)
  have hremoves : ∀ x ∈ rest, o'.removes e x = o.removes e x := by
    intro x hx
    obtain ⟨p, hp, he, -⟩ := h.part x hx
    rw [removes, removes, unlinked, unlinked, hk.ed, hrest x hx, hp, hk.priv _ p hp he]
  refine ⟨⟨?_, fun x hx => ?_⟩, fun x hx => ⟨congrArg Td.urb (hrest x hx), hremoves x hx⟩,
    ⟨⟨_, hk.ed⟩, ?_⟩⟩
  · rw [hk.ed]
    exact h.walk.congr fun x hx => congrArg Td.hwNextTD (htd x hx)
  · obtain ⟨p, hp, he, hcnt⟩ := h.part x hx
    rw [hrest x hx, hremoves x hx, TdList.of_congr hurb]
    exact ⟨p, hk.priv _ p hp he, he, hcnt⟩
  · exact fun u p hu hue => ⟨fun _ => hk.priv u p hu hue, by simp [TdList.of]⟩

/-- The counts stay within what the requests have. -/
theorem QueueAt.bound (h : o.QueueAt e kept rest) {u : UrbPtr} (hu : (o.urb u).hcpriv = some p) :
    TdList.of o.tdLinks.urb u (rest.filter (o.removes e)) = 0 ∨
      p.tdCnt + TdList.of o.tdLinks.urb u (rest.filter (o.removes e)) ≤ p.length := by
  refine Nat.eq_zero_or_pos _ |>.imp id fun hpos => ?_
  obtain ⟨x, hx, hxu⟩ := List.countP_pos_iff.mp hpos
  obtain ⟨hx, hrem⟩ := List.mem_filter.mp hx
  obtain ⟨p', hp', -, hcnt⟩ := h.part x hx
  obtain rfl : (o.td x).urb = u := of_decide_eq_true hxu
  obtain rfl : p = p' := Option.some.inj (hu.symm.trans hp')
  have hle := hcnt hrem
  have hsub : TdList.of o.tdLinks.urb (o.td x).urb (rest.filter (o.removes e))
      ≤ TdList.of o.tdLinks.urb (o.td x).urb rest := List.filter_sublist.countP_le
  omega

/-- **The inner loop of `dl_del_list`.** -/
theorem QueueAt.delTds {cb : TdPtr → Ohci → Ohci}
    (hcb : ∀ (x : TdPtr) (o : Ohci), o.KeepsEd (cb x o) e)
    (h : o.QueueAt e kept rest) : ∃ o' freed,
      delTdsCalling cb e (o.ed e).hwTailP (rest.length + 1) o (rest.headD (o.ed e).hwTailP)
        (.after e kept)
        = some (o', freed) ∧
      Walk o'.tdLinks.next (o.ed e).hwTailP (o'.ed e).hwHeadP
        (kept ++ rest.filter (fun x => !o.removes e x)) ∧
      o.Counted e (rest.filter (o.removes e)) freed o' := by
  induction rest generalizing o kept with
  | nil =>
    refine ⟨o, [], ?_, h.walk, .refl o e⟩
    rw [delTdsCalling, List.headD_nil, if_pos rfl]
  | cons t rest ih =>
    obtain ⟨o₁, hpass, hq₁, hsame₁, hc₁⟩ := h.pass
    obtain ⟨hq₂, hsame₂, hc₂⟩ := hq₁.call (hcb t o₁)
    obtain ⟨o', freed, hloop, hwalk, hc⟩ := ih hq₂
    obtain ⟨v₁, hed₁⟩ := hc₁.ed
    have htail : ((cb t o₁).ed e).hwTailP = (o.ed e).hwTailP := by
      rw [(hcb t o₁).ed, hed₁]
    have hsame : ∀ x ∈ rest, ((cb t o₁).td x).urb = (o.td x).urb ∧
        (cb t o₁).removes e x = o.removes e x :=
      fun x hx => ⟨(hsame₂ x hx).1.trans (hsame₁ x hx).1, (hsame₂ x hx).2.trans (hsame₁ x hx).2⟩
    have hgone : rest.filter ((cb t o₁).removes e) = rest.filter (o.removes e) :=
      List.filter_congr fun x hx => (hsame x hx).2
    have hkept : rest.filter (fun x => !(cb t o₁).removes e x)
        = rest.filter (fun x => !o.removes e x) :=
      List.filter_congr fun x hx => congrArg not (hsame x hx).2
    have hnext : o.nextTD t = rest.headD (o.ed e).hwTailP := (h.walk.drop).2.2.start_eq
    rw [htail] at hloop hwalk
    rw [hgone] at hc
    rw [hkept, List.append_assoc, ← List.filter_append, List.singleton_append] at hwalk
    have hpart : o₁.Counted e (rest.filter (o.removes e)) freed o' := by
      have hfilter : rest.filter (o₁.removes e) = rest.filter (o.removes e) :=
        List.filter_congr fun x hx => (hsame₁ x hx).2
      refine hc₂.trans hc (fun x hx => (hsame₂ x (List.mem_of_mem_filter hx)).1)
        (fun u p hu hue => ?_)
      rw [List.nil_append, ← hfilter]
      exact hq₁.bound hu
    have hall : (t :: rest).filter (o.removes e)
        = [t].filter (o.removes e) ++ rest.filter (o.removes e) :=
      List.filter_append [t] rest
    refine ⟨o', (if (o₁.urb (o.td t).urb).hcpriv.isNone then [(o.td t).urb] else []) ++ freed,
      ?_, hwalk, ?_⟩
    · rw [List.length_cons, delTdsCalling, List.headD_cons, if_neg h.pos]
      dsimp only
      rw [hpass, Option.bind_eq_bind, Option.bind_some, hnext, hloop]
      rfl
    · rw [hall]
      refine hc₁.trans hpart (fun x hx => (hsame₁ x (List.mem_of_mem_filter hx)).1)
        (fun u p hu hue => ?_)
      rw [← hall]
      exact h.bound hu

end Ohci

end Pass

/-! ## The ED -/

section End

variable {o o' : Ohci} {e : EdPtr} {ts : List TdPtr}

/-- What is done with the ED behind its TDs does not change its queue. -/
theorem delEdEnd_ed (o : Ohci) (e : EdPtr) (tail : TdPtr) (fa : ℕ) :
    ((delEdEnd o e tail fa).ed e).hwHeadP = (o.ed e).hwHeadP ∧
      ((delEdEnd o e tail fa).ed e).hwTailP = (o.ed e).hwTailP ∧
      ((delEdEnd o e tail fa).ed e).headHalted = (o.ed e).headHalted ∧
      ((delEdEnd o e tail fa).ed e).headCarry = (o.ed e).headCarry := by
  unfold delEdEnd
  split
  · dsimp only
    split
    · rw [Ohci.log_ed, Ohci.modDev_ed, Ohci.modEd_ed_self]
      exact ⟨rfl, rfl, rfl, rfl⟩
    · rw [Ohci.modDev_ed, Ohci.modEd_ed_self]
      exact ⟨rfl, rfl, rfl, rfl⟩
  · rw [Ohci.modEd_ed_self]
    exact ⟨rfl, rfl, rfl, rfl⟩

theorem delEdEnd_urb (o : Ohci) (e : EdPtr) (tail : TdPtr) (fa : ℕ) :
    (delEdEnd o e tail fa).urb = o.urb := by
  unfold delEdEnd
  split
  · dsimp only
    split <;> rfl
  · rfl

/-- The body of the outer loop, from the first TD of the queue. -/
theorem Ohci.QueueAt.delEd {cb : TdPtr → Ohci → Ohci}
    (hcb : ∀ (t : TdPtr) (o : Ohci), o.KeepsEd (cb t o) e)
    (h : o.QueueAt e [] ts) :
    ∃ o' freed, delEdCalling cb (ts.length + 1) o e = some (o', freed) ∧
      o.DelExact e ts o' freed := by
  obtain ⟨o₁, freed, hloop, hwalk, ⟨v, hed⟩, hcnt⟩ := h.delTds hcb
  have hhead : (o.ed e).hwHeadP = ts.headD (o.ed e).hwTailP := h.walk.start_eq
  obtain ⟨hhead', htail', hhalted', hcarry'⟩ :=
    delEdEnd_ed o₁ e (o.ed e).hwTailP (o.ed e).hwINFO.fa
  refine ⟨delEdEnd o₁ e (o.ed e).hwTailP (o.ed e).hwINFO.fa, freed, ?_,
    fun hdel => ⟨?_, ?_, ?_, ?_⟩, fun hdel => ?_, fun u p hu hue => ?_⟩
  · unfold delEdCalling
    dsimp only
    rw [hhead]
    rw [TdLink.after_nil] at hloop
    rw [hloop]
    rfl
  · have hnext : (delEdEnd o₁ e (o.ed e).hwTailP (o.ed e).hwINFO.fa).tdLinks.next
        = o₁.tdLinks.next :=
      congrArg TdLinks.next tdLinks_delEdEnd
    have hfilter : ts.filter (fun t => !o.removes e t) = ts.filter (fun t => !o.unlinked t) :=
      List.filter_congr fun t _ => by rw [Ohci.removes, hdel, Bool.false_or]
    rw [List.nil_append, hfilter, ← hnext] at hwalk
    have htail₁ : (o₁.ed e).hwTailP = (o.ed e).hwTailP := by rw [hed]
    rw [hhead', htail', htail₁]
    exact hwalk
  · rw [htail', hed]
  · rw [hhalted', hed]
  · rw [hcarry', hed]
  · have hnone : ts.filter (fun t => !o.removes e t) = [] :=
      List.filter_eq_nil_iff.mpr fun t _ => by rw [Ohci.removes, hdel, Bool.true_or]; decide
    rw [hnone] at hwalk
    have htail₁ : (o₁.ed e).hwTailP = (o.ed e).hwTailP := by rw [hed]
    rw [hhead', htail', htail₁]
    exact hwalk
  · rw [delEdEnd_urb]
    exact hcnt u p hu hue

/-- **`dl_del_list` filters a queue exactly.** -/
theorem delEd_exact {cb : TdPtr → Ohci → Ohci}
    (hcb : ∀ (t : TdPtr) (o : Ohci), o.KeepsEd (cb t o) e)
    (h : o.QueueAt e [] ts) :
    ∃ o' freed, delEdCalling cb (ts.length + 1) o e = some (o', freed) ∧
      o.DelExact e ts o' freed :=
  h.delEd hcb

/-- The lists of TDs that are kept in a run are such queues. -/
theorem Listed.queueAt {todo rev : TdPtr} {fill : UrbPtr → ℕ} {q : TdList → List TdPtr}
    (hl : Listed o.ledger o.tdLinks todo rev fill q) (e : EdPtr) :
    o.QueueAt e [] (q (.queue e)) where
  walk := hl.threads.walk (.queue e)
  part := fun t ht => by
    obtain ⟨h, hh, hed, -⟩ := hl.part (.queue e) t ht
    obtain ⟨hsum, hle, hlt⟩ := hl.count _ h hh
    obtain ⟨p, hp, rfl⟩ := Option.map_eq_some_iff.mp hh
    have he : p.ed = e := hed.symm.trans (hl.queue e t ht)
    have hcnt : o.tdLinks.cnt (o.td t).urb = p.tdCnt := tdLinks_cnt hp
    have hof : TdList.of o.tdLinks.urb (o.td t).urb (q (.queue e))
        ≤ TdList.outstanding o.tdLinks.urb q p.holding.ed (o.td t).urb := by
      show _ ≤ TdList.outstanding o.tdLinks.urb q p.ed _
      rw [he]
      exact Nat.le_add_right _ _
    refine ⟨p, hp, he, fun _ => ⟨?_, hlt⟩⟩
    have hle' : fill (o.td t).urb ≤ p.length := hle
    have hsum' : o.tdLinks.cnt (o.td t).urb
        + TdList.outstanding o.tdLinks.urb q p.holding.ed (o.td t).urb = fill (o.td t).urb := hsum
    omega

end End

/-- A queue of two TDs, the first of a request that has been unlinked. -/
def halfUnlinked : Ohci :=
  { (default : Ohci) with
    ed := fun _ => { (default : Ed) with hwHeadP := 101, hwTailP := 100, headCarry := true }
    td := fun t =>
      { (default : Td) with
        hwNextTD := if t = 101 then 102 else 100
        urb := if t = 101 then 1 else 2 }
    urb := fun u => { (default : Urb) with
      hcpriv :=
        some { (default : UrbPriv) with ed := 10, length := 1, urbDel := decide (u = 1) } } }

/-- The callback writes to another request. -/
theorem delEd_exact_two : ∃ o' freed,
    delEdCalling (fun _ o => o.modUrb 3 (fun r => { r with status := .ok })) 3 halfUnlinked 10
      = some (o', freed) ∧
      halfUnlinked.DelExact 10 [101, 102] o' freed := by
  have hcb : ∀ (t : TdPtr) (o : Ohci),
      o.KeepsEd (o.modUrb 3 (fun r => { r with status := .ok })) 10 := by
    refine fun _ o => ⟨rfl, fun _ _ _ _ => rfl, fun u p hu _ => ?_⟩
    rw [Ohci.modUrb_urb]
    split
    · rename_i h3
      exact h3 ▸ hu
    · exact hu
  have hq : halfUnlinked.QueueAt 10 [] [101, 102] := by
    refine ⟨⟨rfl, by decide, rfl, by decide, rfl⟩, fun t ht => ⟨_, rfl, rfl, fun _ => ?_⟩⟩
    rcases List.mem_cons.mp ht with rfl | ht
    · decide
    · rw [List.mem_singleton.mp ht]
      decide
  exact delEd_exact hcb hq
