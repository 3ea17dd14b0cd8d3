import SideDumper.Completions
import SideDumper.DelQueue

/-!
# The passes of `dl_del_list`

In a run `dl_del_list` goes pass by pass, with anything in between. Left alone, its
passes are its loops. In a run of clean steps it always finds a queue as `DelQueue`
asks for, so that they come to an end, with the queue filtered exactly:
`del_filters`.
-/

/-- An interrupt routine goes on by several passes. -/
def IrqTask.passes (fuel : ℕ) : ℕ → Ohci → IrqTask → Option (Ohci × Option IrqTask)
  | 0, o, k => some (o, some k)
  | n + 1, o, k => do
    let (o, k) ← k.step fuel o
    match k with
    | some k => passes fuel n o k
    | none => some (o, none)

section Passes

variable {o o' : Ohci} {e : EdPtr} {f : Bool} {fuel m : ℕ} {freed : List UrbPtr}

/-- The inner loop. -/
theorem IrqTask.passes_delTds {tail t : TdPtr} {tdP : TdLink} (f : Bool) (fuel fa : ℕ)
    (h : delTds e tail m o t tdP = some o') :
    ∃ n, (IrqTask.delQueue f e tail fa t tdP).passes fuel n o
      = some (delEdEnd o' e tail fa, some (.del f ((delEdEnd o' e tail fa).ed e).edRmList)) := by
  induction m generalizing o t tdP with
  | zero => cases h
  | succ m ih =>
    rw [delTds] at h
    split at h
    · cases h
      refine ⟨1, ?_⟩
      rw [IrqTask.passes, IrqTask.step, if_pos ‹_›]
      rfl
    · obtain ⟨⟨o₁, tdP₁⟩, hdel, h⟩ := Option.bind_eq_some_iff.mp h
      obtain ⟨n, hn⟩ := ih h
      refine ⟨n + 1, ?_⟩
      rw [IrqTask.passes, IrqTask.step, if_neg ‹_›, hdel]
      exact hn

/-- **The body of the outer loop.** -/
theorem IrqTask.passes_delEd (he : e ≠ 0)
    (h : delEdCalling (fun _ o => o) m o e = some (o', freed)) :
    ∃ n, (IrqTask.del f e).passes fuel n o = some (o', some (.del f (o'.ed e).edRmList)) := by
  obtain ⟨⟨o₁, freed₁⟩, hloop, h⟩ := Option.bind_eq_some_iff.mp h
  cases h
  have htds : delTds e (o.ed e).hwTailP m o (o.ed e).hwHeadP (.head e) = some o₁ := by
    rw [← delTdsCalling_id, hloop]
    rfl
  obtain ⟨n, hn⟩ := IrqTask.passes_delTds f fuel (o.ed e).hwINFO.fa htds
  refine ⟨n + 1, ?_⟩
  rw [IrqTask.passes, IrqTask.step, if_neg he]
  exact hn

/-- **`dl_del_list` filters every queue it gets to**: in a run of clean steps, at any ED,
its loop and, left alone, its passes come to the end of the queue; what has been
unlinked has been taken out and the rest is as it was, and the loop goes on with the
next ED. -/
theorem del_filters {s : Sys} (ho : o.Idle) (hn : o.NoTds)
    (h : Sys.Moves MoveClean ⟨o, [], [], []⟩ s) (he : e ≠ 0) :
    ∃ ts o' freed, Walk s.mem.nextTD (s.mem.ed e).hwTailP (s.mem.ed e).hwHeadP ts ∧
      s.mem.DelExact e ts o' freed ∧
      delEds (ts.length + 2) s.mem e = delEds (ts.length + 1) o' (o'.ed e).edRmList ∧
      ∀ f fuel, ∃ n, (IrqTask.del f e).passes fuel n s.mem
        = some (o', some (.del f (o'.ed e).edRmList)) := by
  obtain ⟨-, -, q, fill, hc⟩ := h.tdAcc ho hn
  have hnothing : ∀ (_ : TdPtr) (o : Ohci), o.KeepsEd o e := fun _ _ =>
    ⟨rfl, fun _ _ _ _ => rfl, fun _ _ hp _ => hp⟩
  obtain ⟨o', freed, hdel, hexact⟩ := (hc.listed.queueAt e).delEd hnothing
  refine ⟨q (.queue e), o', freed, (hc.listed.queueAt e).walk, hexact, ?_,
    fun f fuel => IrqTask.passes_delEd he hdel⟩
  rw [delEds_succ, if_neg he, hdel]
  rfl

/-- The only request of an ED has been unlinked, and its TD is taken off the queue. -/
theorem del_filters_unlinked : ∃ (s : Sys) (o' : Ohci) (n : ℕ), s.tasks = [.del false 12] ∧
    Walk s.mem.nextTD (s.mem.ed 12).hwTailP (s.mem.ed 12).hwHeadP [100] ∧
    (IrqTask.del false 12).passes 1 n s.mem = some (o', some (.del false (o'.ed 12).edRmList)) ∧
    (o'.ed 12).hwHeadP = (o'.ed 12).hwTailP := by
  obtain ⟨s, hs, hrun, ht⟩ := unlinkedOne_clean
  obtain ⟨s', hs', hobs⟩ :=
    Option.map_eq_some_iff.mp (show (Sys.moves 1 ⟨asyncUrbs .bulk, [], [], []⟩
    (submitOne ++ [.act (.unlink 1), .act (.frame 1)] ++ [.act (.delIrq false)])).map (fun s =>
      ((s.mem.ed 12).state.del, (s.mem.ed 12).hwHeadP, (s.mem.ed 12).hwTailP, s.mem.nextTD 100,
        s.mem.unlinked 100))
      = some (false, 100, 101, 101, true) by decide +kernel)
  obtain rfl : s = s' := Option.some.inj (hs.symm.trans hs')
  simp only [Prod.mk.injEq] at hobs
  obtain ⟨hdel, hhead, htail, hnext, hunlinked⟩ := hobs
  obtain ⟨ts, o', freed, hw, hexact, -, hpasses⟩ :=
    del_filters (e := 12) asyncUrbs_idle asyncUrbs_noTds
    (hrun.mono fun _ _ hok => hok.1) (by decide)
  obtain ⟨n, hn⟩ := hpasses false 1
  have hone : Walk s.mem.nextTD (s.mem.ed 12).hwTailP (s.mem.ed 12).hwHeadP [100] := by
    rw [hhead, htail]
    exact ⟨rfl, by decide, hnext⟩
  obtain rfl := hw.unique hone
  obtain ⟨hleft, -⟩ := hexact.stays hdel
  have hnone : [100].filter (fun t => !s.mem.unlinked t) = [] := by
    rw [List.filter_singleton, hunlinked]
    rfl
  rw [hnone] at hleft
  exact ⟨s, o', n, ht, hone, hn, hleft⟩

end Passes
