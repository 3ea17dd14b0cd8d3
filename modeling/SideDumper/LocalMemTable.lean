import SideDumper.LocalMemTiles
import Mathlib.Data.List.Nodup

/-!
# The table of units

`GrowLocalMem` writes the unit it has fetched to `local_mems[nlocal_mems]`
before it takes the lock under which it raises `nlocal_mems`, and the index may
be older still, as it is read before or after the call of
`ps2sif_allociopheap`, which sleeps. Two executions may write to the same
entry, and `CleanupLocalMem` then finds one of the two units only. `TableClean`
says that a step does not write while a written entry is still uncounted, nor
to another entry than the next one, nor behind the end of the table, and in
runs of such steps the table has each unit once.
-/

namespace LocalMem

/-- **What a step must not do**: write an entry of the table while another
execution of `GrowLocalMem` has written one and not counted it, or one that is
not the next, or one behind the end. `Portable_AllocateOhci` and its clean-up
are not looked at. -/
def TableClean (s : LocalMem) (a : MemAct) : Prop :=
  a ≠ .ohciFail ∧ ReadsBack s a ∧
    ∀ index, a = .growUnit index → ∀ unit p k, .growList unit p k ∉ s.calls

/-- No execution of `GrowLocalMem` is under way. -/
def NotGrowing (s : LocalMem) : Prop := s.growers = 0

/-- **The table of units is right**: the counted entries hold the units in
the order in which they were fetched, and the next one the unit that is about
to be counted. -/
structure Table (s : LocalMem) : Prop where
  counted : (List.range s.nlocalMems).map s.localMems = s.units.reverse
  pending : s.calls.flatMap pendingUnit = [] ∨
    s.calls.flatMap pendingUnit = [s.localMems s.nlocalMems]
  nodup : s.fetched.Nodup

variable {s s' : LocalMem} {c : MemCall} {new : List MemCall} {a : MemAct}

theorem Table.init : init.Table := ⟨rfl, .inl rfl, List.nodup_nil⟩

/-- A call that moves on and writes nothing. -/
theorem Table.move (h : s.Table) (hc : c ∈ s.calls) (hcalls : s'.calls = new ++ s.calls.erase c)
    (hunits : s'.units = s.units) (hpend : new.flatMap pendingUnit = pendingUnit c)
    (hn : s'.nlocalMems = s.nlocalMems) (hmems : s'.localMems = s.localMems) : s'.Table where
  counted := by
    rw [hn, hmems, hunits]
    exact h.counted
  pending := by
    have hperm : (s'.calls.flatMap pendingUnit).Perm (s.calls.flatMap pendingUnit) := by
      rw [hcalls, List.flatMap_append, hpend]
      exact (List.perm_flatMap_erase pendingUnit hc).symm
    rw [hn, hmems]
    exact h.pending.imp (fun h => (h ▸ hperm).eq_nil) (fun h => (h ▸ hperm).eq_singleton)
  nodup := (perm_fetched hc hcalls (by rw [hunits, hpend])).nodup_iff.mpr h.nodup

/-- No unit is waiting to be counted. -/
theorem pending_nil (h : ∀ unit p k, .growList unit p k ∉ s.calls) :
    s.calls.flatMap pendingUnit = [] := by
  rw [List.flatMap_eq_nil_iff]
  intro c hc
  cases c with
  | growList unit p k => exact absurd hc (h unit p k)
  | _ => rfl

/-- A write to the entry that is next. -/
theorem map_setUnit {index : Option ℕ} (hi : index.getD s.nlocalMems = s.nlocalMems) (v : ℕ) :
    (List.range s.nlocalMems).map (s.setUnit index v).localMems
      = (List.range s.nlocalMems).map s.localMems := by
  refine List.map_congr_left fun i hin => ?_
  rw [List.mem_range] at hin
  unfold setUnit
  dsimp only
  rw [hi]
  exact Function.update_of_ne (Nat.ne_of_lt hin) _ _

/-- **One clean step keeps the table right.** -/
theorem Table.step (h : s.Table) (hread : s.Reads) (hok : TableClean s a) (hs : s.Step a s') :
    s'.Table := by
  cases hs with
  | alloc size inInterrupt h0 hmax => exact ⟨h.counted, h.pending, h.nodup⟩
  | skip size doRetry inInterrupt hc hg =>
    exact h.move hc List.singleton_append.symm rfl rfl rfl rfl
  | growStart size doRetry hc hg hcap =>
    exact h.move hc List.singleton_append.symm rfl rfl rfl rfl
  | growRefused size doRetry hc hg hcap =>
    exact h.move hc List.singleton_append.symm rfl rfl rfl rfl
  | growMb index k hc hi => exact h.move hc List.singleton_append.symm rfl rfl rfl rfl
  | growNoMb k hc => exact h.move hc rfl rfl (by cases k <;> rfl) rfl rfl
  | growOverrun index k s' hc hout ho => exact absurd hok.2.1.inTable hout
  | growUnit index unit k hc htab hu =>
    obtain ⟨hi, -⟩ := hok.2.1 index rfl
    have hnil := pending_nil (hok.2.2 index rfl)
    have hperm := List.perm_flatMap_erase pendingUnit hc
    rw [hnil] at hperm
    have hrest : (s.calls.erase (.growHeap index k)).flatMap pendingUnit = [] := hperm.nil_eq.symm
    have hnd := h.nodup
    rw [fetched, hnil, List.append_nil] at hnd
    rw [fetchUnit_eq hi]
    split
    · have hresume : (resume k false ++ s.calls.erase (.growHeap index k)).flatMap pendingUnit
          = [] := by
        rw [List.flatMap_append, hrest]
        cases k <;> rfl
      refine ⟨(map_setUnit hi 0).trans h.counted, .inl hresume, ?_⟩
      rw [fetched, hresume, List.append_nil]
      exact hnd
    · rename_i h0
      have hunit : unitOf unit = [unit] := if_neg h0
      refine ⟨(map_setUnit hi unit).trans h.counted, .inr ?_, ?_⟩
      · rw [List.flatMap_cons, hrest, List.append_nil, pendingUnit, hunit]
        dsimp only [setUnit]
        rw [hi, Function.update_self]
      · rw [fetched, List.flatMap_cons, hrest]
        refine List.nodup_append.mpr ⟨hnd, ?_, fun u hu' v hv heq => ?_⟩
        · rw [pendingUnit, hunit]
          exact List.nodup_singleton _
        · rw [pendingUnit, hunit, List.append_nil, List.mem_singleton] at hv
          have hapart := (hu.resolve_left h0).2 u (List.mem_append_left _ hu')
          have hpos : 0 < localMemUnit := by decide
          omega
  | growList unit p k hc =>
    have hperm := List.perm_flatMap_erase pendingUnit hc
    have hresume : (resume k true ++ s.calls.erase (.growList unit p k)).flatMap pendingUnit
        = (s.calls.erase (.growList unit p k)).flatMap pendingUnit := by
      rw [List.flatMap_append]
      cases k <;> rfl
    obtain ⟨rfl, h0⟩ := hread unit p k hc
    have hunit : unitOf p = [p] := if_neg h0
    rw [pendingUnit, hunit] at hperm
    have hin : p ∈ s.calls.flatMap pendingUnit :=
      hperm.mem_iff.mpr (List.mem_append_left _ (by simp))
    have hpend : s.calls.flatMap pendingUnit = [s.localMems s.nlocalMems] := by
      rcases h.pending with hp | hp
      · rw [hp] at hin
        cases hin
      · exact hp
    rw [hpend, List.mem_singleton] at hin
    rw [hpend, hin, List.singleton_append] at hperm
    have hrest : (s.calls.erase (.growList p p k)).flatMap pendingUnit = [] := by
      rw [← hin] at hperm
      exact (List.Perm.cons_inv hperm).nil_eq.symm
    rw [hrest] at hresume
    rw [hunit]
    refine ⟨?_, .inl hresume, ?_⟩
    · rw [List.range_succ, List.map_append, h.counted, List.singleton_append,
        List.reverse_cons, hin]
      rfl
    · have hnd := h.nodup
      rw [fetched, hpend, ← hin] at hnd
      rw [fetched, hresume, List.append_nil]
      exact (List.perm_append_singleton p s.units).nodup_iff.mp hnd
  | take size doRetry inInterrupt b rest hc hf =>
    exact h.move hc (List.nil_append _).symm rfl rfl rfl rfl
  | split size doRetry inInterrupt b rest hc hf =>
    exact h.move hc List.singleton_append.symm rfl rfl rfl rfl
  | missRetry size inInterrupt hc hf => exact h.move hc List.singleton_append.symm rfl rfl rfl rfl
  | missFail size inInterrupt hc hf => exact h.move hc (List.nil_append _).symm rfl rfl rfl rfl
  | newMb size p hc => exact h.move hc List.singleton_append.symm rfl rfl rfl rfl
  | newNoMb size p hc => exact h.move hc (List.nil_append _).symm rfl rfl rfl rfl
  | list size p hc => exact h.move hc (List.nil_append _).symm rfl rfl rfl rfl
  | free p =>
    obtain ⟨hm, hn, hu, hc, -⟩ := s.freeLocalMem_table p
    refine ⟨?_, ?_, ?_⟩
    · rw [hm, hn, hu]
      exact h.counted
    · rw [hm, hn, hc]
      exact h.pending
    · rw [fetched, hu, hc]
      exact h.nodup
  | ohciStart hcap => exact ⟨h.counted, h.pending, h.nodup⟩
  | ohciRefused hcap => exact h
  | ohciDone hc => exact h.move hc (List.nil_append _).symm rfl rfl rfl rfl
  | ohciFail hc => exact absurd rfl hok.1

/-- **The table has each unit once** in every run of clean steps, when no
execution of `GrowLocalMem` is under way, and `CleanupLocalMem` frees each
unit once. -/
theorem table_of_clean (h : Run TableClean init s) (hidle : s.NotGrowing) :
    s.units.Nodup ∧ ((List.range s.nlocalMems).map s.localMems).Perm s.units ∧
      s.cleanupFrees.Perm s.units := by
  have hinv : s.Table ∧ s.Reads := h.of_step (P := fun s => s.Table ∧ s.Reads)
    ⟨Table.init, fun _ _ _ hin => absurd hin List.not_mem_nil⟩
    fun _ _ _ ⟨ht, hr⟩ hok hs => ⟨ht.step hr hok hs, hr.step hok.2.1 hs⟩
  have ht := hinv.1
  have hnil := pending_nil fun unit p k hin =>
    List.countP_eq_zero.mp hidle (.growList unit p k) hin rfl
  have hnd := ht.nodup
  rw [fetched, hnil, List.append_nil] at hnd
  refine ⟨hnd, ?_, ?_⟩
  · rw [ht.counted]
    exact List.reverse_perm _
  · rw [cleanupFrees, List.map_reverse, ht.counted, List.reverse_reverse]

/-- The local memory when a second unit has been fetched for a second request
of a whole one. -/
def twoUnits : LocalMem :=
  { oneUnit with
    localMems := Function.update oneUnit.localMems 1 0x20000
    nlocalMems := 2
    freeList := []
    allocList := [⟨0x20000, localMemUnit⟩, ⟨0x10000, localMemUnit⟩]
    units := [0x20000, 0x10000] }

/-- The index of the second unit is read before the call that sleeps. -/
theorem table_of_clean_twoUnits : twoUnits.cleanupFrees.Perm twoUnits.units := by
  have hother : ∀ {s : LocalMem} {a : MemAct}, a ≠ .ohciFail ∧ (∀ index, a ≠ .growUnit index) →
      TableClean s a := fun ⟨hfail, hunit⟩ =>
    ⟨hfail, .of_ne hunit, fun index ha => absurd ha (hunit index)⟩
  have h₁ : Run TableClean init _ :=
    .tail (a := .ohciStart) .refl (hother ⟨by simp, by simp⟩) (.ohciStart (by decide))
  have h₂ :=
    h₁.tail (hother ⟨by simp, by simp⟩) (.growMb none .allocateOhci (by decide) (.inl rfl))
  have hgrow : ∀ {s : LocalMem} {index : Option ℕ} {k : GrowFrom}, s.calls = [.growHeap index k] →
      index.getD s.nlocalMems = s.nlocalMems ∧ s.nlocalMems < maxLocalMem / localMemUnit →
      TableClean s (.growUnit index) := fun hcalls hi =>
    ⟨by simp, fun _ ha => by cases ha; exact hi, fun _ _ _ _ _ => by simp [hcalls]⟩
  have h₃ := h₂.tail (hgrow rfl (by decide))
    (.growUnit none 0x10000 .allocateOhci (by decide) (by decide) (.inr ⟨by decide, by decide⟩))
  have h₄ :=
    h₃.tail (hother ⟨by simp, by simp⟩) (.growList 0x10000 0x10000 .allocateOhci (by decide))
  have h₅ := h₄.tail (hother ⟨by simp, by simp⟩) (.ohciDone (by decide))
  have h₆ :=
    h₅.tail (hother ⟨by simp, by simp⟩) (.alloc localMemUnit false (by decide) (by decide))
  have h₇ :=
    h₆.tail (hother ⟨by simp, by simp⟩) (.skip localMemUnit true false (by decide) (.inr rfl))
  have h₈ := h₇.tail (hother ⟨by simp, by simp⟩)
    (.take localMemUnit true false ⟨0x10000, localMemUnit⟩ [] (by decide) (by decide))
  have h₉ :=
    h₈.tail (hother ⟨by simp, by simp⟩) (.alloc localMemUnit false (by decide) (by decide))
  have h₁₀ := h₉.tail (hother ⟨by simp, by simp⟩)
    (.skip localMemUnit true false (by decide) (.inr rfl))
  have h₁₁ := h₁₀.tail (hother ⟨by simp, by simp⟩) (.missRetry localMemUnit false (by decide) rfl)
  have h₁₂ := h₁₁.tail (hother ⟨by simp, by simp⟩)
    (.growStart localMemUnit false (by decide) (by decide) (by decide))
  have h₁₃ := h₁₂.tail (hother ⟨by simp, by simp⟩)
    (.growMb (some 1) (.alloc localMemUnit false) (by decide) (.inr rfl))
  have h₁₄ := h₁₃.tail (hgrow rfl (by decide))
    (.growUnit (some 1) 0x20000 (.alloc localMemUnit false) (by decide) (by decide)
      (.inr ⟨by decide, by decide⟩))
  have h₁₅ := h₁₄.tail (hother ⟨by simp, by simp⟩)
    (.growList 0x20000 0x20000 (.alloc localMemUnit false) (by decide))
  have h₁₆ := h₁₅.tail (hother ⟨by simp, by simp⟩)
    (.take localMemUnit false false ⟨0x20000, localMemUnit⟩ [] (by decide) (by decide))
  exact (table_of_clean h₁₆ rfl).2.2

/-! ## Two executions at once -/

/-- Both write the first entry before either of them counts. -/
theorem table_not_right : ¬ ∀ s : LocalMem, Run (fun _ a => a ≠ .ohciFail) init s → s.NotGrowing →
    s.cleanupFrees.Perm s.units := by
  intro h
  have h₁ : Run (fun _ a => a ≠ .ohciFail) init _ :=
    Run.refl.tail (by decide) (.alloc 256 false (by decide) (by decide))
  have h₂ := h₁.tail (by decide) (.skip 256 true false (by decide) (.inr rfl))
  have h₃ := h₂.tail (by decide) (.missRetry 256 false (by decide) rfl)
  have h₄ := h₃.tail (by decide) (.growStart 256 false (by decide) (by decide) (by decide))
  have h₅ := h₄.tail (by decide) (.growMb none (.alloc 256 false) (by decide) (.inl rfl))
  have h₆ := h₅.tail (by decide) (.alloc 512 false (by decide) (by decide))
  have h₇ := h₆.tail (by decide) (.skip 512 true false (by decide) (.inr rfl))
  have h₈ := h₇.tail (by decide) (.missRetry 512 false (by decide) rfl)
  have h₉ := h₈.tail (by decide) (.growStart 512 false (by decide) (by decide) (by decide))
  have h₁₀ := h₉.tail (by decide) (.growMb none (.alloc 512 false) (by decide) (.inl rfl))
  have h₁₁ :=
    h₁₀.tail (by decide) (.growUnit none 0x10000 (.alloc 256 false) (by decide) (by decide)
    (.inr ⟨by decide, by decide⟩))
  have h₁₂ :=
    h₁₁.tail (by decide) (.growUnit none 0x20000 (.alloc 512 false) (by decide) (by decide)
    (.inr ⟨by decide, by decide⟩))
  have h₁₃ := h₁₂.tail (by decide) (.growList 0x10000 0x10000 (.alloc 256 false) (by decide))
  have h₁₄ := h₁₃.tail (by decide) (.growList 0x20000 0x20000 (.alloc 512 false) (by decide))
  exact absurd (h _ h₁₄ rfl) (by decide)

end LocalMem
