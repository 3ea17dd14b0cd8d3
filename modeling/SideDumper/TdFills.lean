import SideDumper.TdOwners

/-!
# What `td_submit_urb` leaves in memory

The calls of `td_fill` go round: each writes the transfer into the TD at the
end of the queue and makes the TD that the private part had at this index the
new end. Afterwards the private part has the old end first and the others one
place further, and the last one is the end of the queue. `Fills` says what
the calls have written, for TDs that are different from each other.
-/

/-- **A TD that `td_fill` has filled.** -/
def tdOf (u : UrbPtr) (e : EdPtr) (type : PipeType) (c : TdCall) (index : ℕ) (next : TdPtr) :
    Td where
  hwINFO := c.info
  hwCBP := c.cbp type
  hwNextTD := next
  hwBE := c.be
  hwPSW := c.psw
  index := index % 256
  ed := e
  nextDlTd := 0
  urb := u

/-- **Different TDs**: those of a private part, and the end of the queue. -/
structure Ohci.TdsApart (o : Ohci) (p : UrbPriv) : Prop where
  tail : ∀ i < p.length, p.td i ≠ (o.ed p.ed).hwTailP
  slot : ∀ i < p.length, ∀ j < p.length, p.td i = p.td j → i = j

/-- TDs that have one owner each are different. -/
theorem Ledger.Owners.tdsApart {o : Ohci} {u : UrbPtr} {p : UrbPriv} (ho : o.ledger.Owners)
    (hp : (o.urb u).hcpriv = some p) (hnew : (o.ed p.ed).state ≠ .edNew) : o.TdsApart p := by
  have hslot : ∀ i < p.length, o.ledger.tdAt (.slot u i) = some (p.td i) := by
    intro i hi
    rw [Ledger.tdAt, ledger_priv hp, Option.bind_some]
    exact if_pos hi
  have hdummy : o.ledger.tdAt (.dummy p.ed) = some (o.ed p.ed).hwTailP := if_pos hnew
  refine ⟨fun i hi heq => ?_, fun i hi j hj heq => ?_⟩
  · have hs := hslot i hi
    rw [heq] at hs
    cases ho.owned.single _ _ _ hs hdummy
  · have hs := hslot i hi
    rw [heq] at hs
    exact (TdPlace.slot.inj (ho.owned.single _ _ _ hs (hslot j hj))).2

section FillTd

variable {o o' : Ohci} {u : UrbPtr} {p : UrbPriv} {c : TdCall} {cs : List TdCall} {i : ℕ}

/-- **One call of `td_fill`** writes the TD at the end of the queue. -/
theorem fillTd_td_tail (hne : p.td i ≠ (o.ed p.ed).hwTailP) :
    (fillTd o u p c i).td (o.ed p.ed).hwTailP
    = tdOf u p.ed (o.ed p.ed).type c i (p.td i) := by
  unfold fillTd
  dsimp only
  split
  · rw [Ohci.modTd_td_self, Ohci.modEd_td, Ohci.modTd_td_of_ne _ _ _ _ hne.symm, Ohci.modEd_td,
      Ohci.modTd_td_self]
    rfl
  · rw [Ohci.modTd_td_self, Ohci.modEd_td, Ohci.modTd_td_of_ne _ _ _ _ hne.symm,
      Ohci.modTd_td_self]
    rfl

/-- It leaves the TDs that are neither the end of the queue nor the new end. -/
theorem fillTd_td_of_ne {t : TdPtr} (h₁ : t ≠ (o.ed p.ed).hwTailP) (h₂ : t ≠ p.td i) :
    (fillTd o u p c i).td t = o.td t := by
  unfold fillTd
  dsimp only
  split
  · rw [Ohci.modTd_td_of_ne _ _ _ _ h₁, Ohci.modEd_td, Ohci.modTd_td_of_ne _ _ _ _ h₂,
      Ohci.modEd_td, Ohci.modTd_td_of_ne _ _ _ _ h₁]
    rfl
  · rw [Ohci.modTd_td_of_ne _ _ _ _ h₁, Ohci.modEd_td, Ohci.modTd_td_of_ne _ _ _ _ h₂,
      Ohci.modTd_td_of_ne _ _ _ _ h₁]
    rfl

/-- It moves the end of the queue. -/
theorem fillTd_tail (hne : p.td i ≠ (o.ed p.ed).hwTailP) :
    ((fillTd o u p c i).ed p.ed).hwTailP = p.td i := by
  unfold fillTd
  dsimp only
  split
  · rw [Ohci.modTd_ed, Ohci.modEd_ed_self, Ohci.modTd_td_of_ne _ _ _ _ hne.symm, Ohci.modEd_td,
      Ohci.modTd_td_self]
    rfl
  · rw [Ohci.modTd_ed, Ohci.modEd_ed_self, Ohci.modTd_td_of_ne _ _ _ _ hne.symm,
      Ohci.modTd_td_self]
    rfl

theorem fillTd_type (e : EdPtr) : ((fillTd o u p c i).ed e).type = (o.ed e).type := by
  have hsame : ∀ (o₁ : Ohci) (f : Ed → Ed), (∀ r, (f r).type = r.type) →
      ((o₁.modEd p.ed f).ed e).type = (o₁.ed e).type := by
    intro o₁ f hf
    rw [Ohci.modEd_ed]
    split
    · rw [hf, ‹e = p.ed›]
    · rfl
  unfold fillTd
  dsimp only
  split
  · rw [Ohci.modTd_ed, hsame _ _ (by intro; rfl), Ohci.modTd_ed, hsame _ _ (by intro; rfl)]
    rfl
  · rw [Ohci.modTd_ed, hsame _ _ (by intro; rfl)]
    rfl

/-- `td_fill` leaves the length of the private part. -/
theorem tdFill_length (hp : (o.urb u).hcpriv = some p) :
    ∃ o' p', tdFill o u c i = some o' ∧ (o'.urb u).hcpriv = some p' ∧ p'.length = p.length := by
  by_cases hi : i < p.length
  · refine ⟨_, { p with td := Function.update p.td i (o.ed p.ed).hwTailP }, tdFill_eq hp hi, ?_,
      rfl⟩
    rw [fillTd_urb, Ohci.modPriv_urb_self, hp]
    rfl
  · exact ⟨o, p, tdFill_of_le hp (by omega), hp, rfl⟩

/-- The calls of `td_fill` come to an end. -/
theorem tdFills_total (hp : (o.urb u).hcpriv = some p) : ∃ o', tdFills u cs i o = some o' := by
  induction cs generalizing i o p with
  | nil => exact ⟨o, rfl⟩
  | cons c cs ih =>
    obtain ⟨o₁, p₁, h₁, hp₁, -⟩ := tdFill_length (c := c) (i := i) hp
    rw [tdFills, h₁]
    exact ih hp₁

/-- **What calls of `td_fill` for the indices from `i` on do**, `n` of them
with an index that is not too large. -/
structure Fills (u : UrbPtr) (p : UrbPriv) (cs : List TdCall) (i n : ℕ) (o o' : Ohci)
    (p' : UrbPriv) : Prop where
  priv : (o'.urb u).hcpriv = some p'
  ed : p'.ed = p.ed
  length : p'.length = p.length
  tdCnt : p'.tdCnt = p.tdCnt
  transferBuffer : p'.transferBuffer = p.transferBuffer
  slot : ∀ k, p'.td k =
    if i ≤ k ∧ k < i + n then (if k = i then (o.ed p.ed).hwTailP else p.td (k - 1)) else p.td k
  td : ∀ k < n, ∀ c, cs[k]? = some c →
    o'.td (p'.td (i + k)) = tdOf u p.ed (o.ed p.ed).type c (i + k) (p.td (i + k))
  frame : ∀ t, t ≠ (o.ed p.ed).hwTailP → (∀ k, i ≤ k → k < i + n → t ≠ p.td k) → o'.td t = o.td t
  tail : (o'.ed p.ed).hwTailP = if n = 0 then (o.ed p.ed).hwTailP else p.td (i + n - 1)

/-- The slot that a call has filled takes the place of the end of the queue. -/
theorem Ohci.TdsApart.fillTd (ha : o.TdsApart p) (hi : i < p.length) :
    (fillTd o u p c i).TdsApart { p with td := Function.update p.td i (o.ed p.ed).hwTailP } := by
  have hne := ha.tail i hi
  refine ⟨fun k hk => ?_, fun k hk j hj heq => ?_⟩
  · dsimp only
    rw [fillTd_tail hne, Function.update_apply]
    split
    · exact hne.symm
    · exact fun heq => ‹k ≠ i› (ha.slot k hk i hi heq)
  · dsimp only at heq
    rw [Function.update_apply, Function.update_apply] at heq
    split at heq <;> split at heq
    · rw [‹k = i›, ‹j = i›]
    · exact absurd heq.symm (ha.tail j hj)
    · exact absurd heq (ha.tail k hk)
    · exact ha.slot k hk j hj heq

/-- **One call more**, in front. -/
theorem Fills.cons {p' : UrbPriv} {m : ℕ} (ha : o.TdsApart p) (hm : i + m < p.length)
    (hf : Fills u { p with td := Function.update p.td i (o.ed p.ed).hwTailP } cs (i + 1) m
      (fillTd o u p c i) o' p') :
    Fills u p (c :: cs) i (m + 1) o o' p' := by
  have hne := ha.tail i (by omega)
  have hslot := hf.slot
  have htd := hf.td
  have hframe := hf.frame
  have htail := hf.tail
  dsimp only at hslot htd hframe htail
  rw [fillTd_tail hne] at hslot hframe htail
  rw [fillTd_type] at htd
  -- the slots behind the first one
  have hrest : ∀ k, i < k → Function.update p.td i (o.ed p.ed).hwTailP k = p.td k := fun k hk =>
    Function.update_of_ne (by omega) _ _
  refine ⟨hf.priv, hf.ed, hf.length, hf.tdCnt, hf.transferBuffer, fun k => ?_,
    fun k hk d hd => ?_, fun t h₁ h₂ => ?_, ?_⟩
  · rw [hslot k]
    by_cases hki : k = i
    · subst hki
      rw [if_neg (by omega), if_pos (by omega), if_pos rfl, Function.update_self]
    · by_cases hin : i + 1 ≤ k ∧ k < i + 1 + m
      · have hin' : i ≤ k ∧ k < i + (m + 1) := by omega
        rw [if_pos hin, if_pos hin', if_neg hki]
        by_cases hk1 : k = i + 1
        · rw [if_pos hk1, hk1, Nat.add_sub_cancel]
        · rw [if_neg hk1, hrest _ (by omega)]
      · rw [if_neg hin, if_neg (by omega), Function.update_of_ne hki]
  · cases k with
    | zero =>
      -- the later calls leave the TD that the first one has written
      rw [List.getElem?_cons_zero, Option.some.injEq] at hd
      subst hd
      rw [Nat.add_zero, hslot i, if_neg (by omega), Function.update_self,
        hframe _ hne.symm (fun k hk hlt => ?_), fillTd_td_tail hne]
      rw [hrest k hk]
      exact (ha.tail k (by omega)).symm
    | succ k =>
      rw [List.getElem?_cons_succ] at hd
      have h := htd k (by omega) d hd
      rw [hrest (i + 1 + k) (by omega)] at h
      rw [show i + (k + 1) = i + 1 + k by omega]
      exact h
  · rw [hframe t (h₂ i (Nat.le_refl i) (by omega)) (fun k hk hlt => ?_),
      fillTd_td_of_ne h₁ (h₂ i (Nat.le_refl i) (by omega))]
    rw [hrest k hk]
    exact h₂ k (by omega) (by omega)
  · have hm1 : m + 1 ≠ 0 := Nat.succ_ne_zero m
    rw [htail, if_neg hm1, show i + (m + 1) - 1 = i + m by omega]
    split
    · rw [‹m = 0›, Nat.add_zero]
    · rw [hrest _ (by omega), show i + 1 + m - 1 = i + m by omega]

/-- **The calls of `td_fill`** with an index below the length have an effect. -/
theorem fills_tdFills (hp : (o.urb u).hcpriv = some p) (ha : o.TdsApart p)
    (h : tdFills u cs i o = some o') :
    ∃ p', Fills u p cs i (min cs.length (p.length - i)) o o' p' := by
  induction cs generalizing i o p with
  | nil =>
    cases h
    refine ⟨p, hp, rfl, rfl, rfl, rfl, fun k => ?_, fun k hk => absurd hk (by simp),
      fun _ _ _ => rfl, ?_⟩
    · rw [if_neg (by simp)]
    · rw [if_pos (by simp)]
  | cons c cs ih =>
    obtain ⟨o₁, h₁, h⟩ := Option.bind_eq_some_iff.mp h
    by_cases hi : i < p.length
    · rw [tdFill_eq hp hi, Option.some.injEq] at h₁
      subst h₁
      have hp₁ : ((fillTd o u p c i).urb u).hcpriv
          = some { p with td := Function.update p.td i (o.ed p.ed).hwTailP } := by
        rw [fillTd_urb, Ohci.modPriv_urb_self, hp]
        rfl
      obtain ⟨p', hf⟩ := ih hp₁ (ha.fillTd hi) h
      have hn : min (c :: cs).length (p.length - i) = min cs.length (p.length - (i + 1)) + 1 := by
        rw [List.length_cons]
        omega
      rw [hn]
      exact ⟨p', hf.cons ha (by omega)⟩
    · -- the index is too large, and so are those that follow
      rw [tdFill_of_le hp (by omega), Option.some.injEq] at h₁
      subst h₁
      obtain ⟨p', hf⟩ := ih hp ha h
      refine ⟨p', ?_⟩
      have h0 : min (c :: cs).length (p.length - i) = 0 := by omega
      have h1 : min cs.length (p.length - (i + 1)) = 0 := by omega
      rw [h1] at hf
      rw [h0]
      refine ⟨hf.priv, hf.ed, hf.length, hf.tdCnt, hf.transferBuffer, fun k => ?_,
        fun k hk => absurd hk (by omega),
        fun t h₁ _ => hf.frame t h₁ (fun k hk hlt => by omega), ?_⟩
      · rw [hf.slot k, if_neg (by omega), if_neg (by omega)]
      · rw [hf.tail, if_pos rfl, if_pos rfl]

/-- The request with which `td_submit_urb` begins. -/
theorem submitStart_urb (hp : (o.urb u).hcpriv = some p) :
    ((submitStart o u).log (.submitTds u)).urb u
      = { o.urb u with hcpriv := some { p with tdCnt := 0 } } := by
  unfold submitStart
  dsimp only
  rw [Ohci.log_urb, Ohci.modPriv_urb_self, Ohci.modDev_urb, hp]
  rfl

theorem submitStart_hcpriv (hp : (o.urb u).hcpriv = some p) :
    (((submitStart o u).log (.submitTds u)).urb u).hcpriv = some { p with tdCnt := 0 } := by
  rw [submitStart_urb hp]

theorem submitStart_ed : ((submitStart o u).log (.submitTds u)).ed = o.ed := by
  unfold submitStart
  dsimp only
  rw [Ohci.log_ed, Ohci.modPriv_ed, Ohci.modDev_ed]

/-- `td_submit_urb` comes to an end. -/
theorem tdSubmitUrb_total (hp : (o.urb u).hcpriv = some p) : ∃ o', tdSubmitUrb o u = some o' := by
  rw [tdSubmitUrb, hp]
  exact tdFills_total (submitStart_hcpriv hp)

/-- **`td_submit_urb`**, call by call. -/
theorem fills_tdSubmitUrb (hp : (o.urb u).hcpriv = some p) (ha : o.TdsApart p)
    (h : tdSubmitUrb o u = some o') :
    ∃ p', Fills u { p with tdCnt := 0 } (tdCalls (o.urb u) p (o.toggleOf (o.urb u))) 0
      (min (tdCalls (o.urb u) p (o.toggleOf (o.urb u))).length p.length) o o' p' := by
  obtain ⟨q, hq, h⟩ := Option.bind_eq_some_iff.mp h
  rw [hp] at hq
  cases hq
  obtain ⟨p', hf⟩ :=
    fills_tdFills (submitStart_hcpriv hp) (p := { p with tdCnt := 0 }) ⟨ha.tail, ha.slot⟩ h
  exact ⟨p', hf.priv, hf.ed, hf.length, hf.tdCnt, hf.transferBuffer, hf.slot, hf.td,
    hf.frame, hf.tail⟩

end FillTd
