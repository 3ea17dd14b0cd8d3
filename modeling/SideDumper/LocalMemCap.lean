import SideDumper.LocalMemTable
import Mathlib.Algebra.BigOperators.Group.List.Basic
import Mathlib.Algebra.Ring.Nat

/-!
# The cap of the local memory

`MAX_LOCAL_MEM` allows for 16 units. The test of `GrowLocalMem` lets a 17th
one through, and it is made long before the unit is counted, so that several
executions may pass it at once. The count goes back to 0 when
`Portable_AllocateOhci` cleans up, whatever is still allocated then.
`CapClean` says that a step does none of this, and in runs of such steps the
cap is respected.
-/

/-- The size of all blocks of a list. -/
def totalSize (bs : List Mb) : ℕ := (bs.map Mb.size).sum

section TotalSize

variable {n p : ℕ} {b : Mb} {bs cs rest : List Mb}

theorem totalSize_nil : totalSize [] = 0 := by rw [totalSize, List.map_nil, List.sum_nil]

theorem totalSize_cons (b : Mb) (bs : List Mb) : totalSize (b :: bs) = b.size + totalSize bs := by
  rw [totalSize, List.map_cons, List.sum_cons]
  rfl

theorem totalSize_append (bs cs : List Mb) :
    totalSize (bs ++ cs) = totalSize bs + totalSize cs := by
  rw [totalSize, List.map_append, List.sum_append]
  rfl

theorem totalSize_perm (h : bs.Perm cs) : totalSize bs = totalSize cs := (h.map _).sum_eq

theorem totalSize_takeFree {e : Bool} (h : takeFree n bs = some (b, e, rest)) :
    totalSize (b :: rest) = totalSize bs := by
  induction bs generalizing rest with
  | nil => cases h
  | cons c cs ih =>
    unfold takeFree at h
    split at h
    · cases h
      rfl
    · split at h
      · cases h
        simp only [totalSize_cons]
        omega
      · obtain ⟨⟨b', e', bs'⟩, hr, hr'⟩ := Option.map_eq_some_iff.mp h
        cases hr'
        have hih := ih hr
        simp only [totalSize_cons] at hih ⊢
        omega

theorem totalSize_mergeFree (h : mergeFree b bs = some cs) :
    totalSize cs = totalSize (b :: bs) := by
  induction bs generalizing cs with
  | nil => cases h
  | cons c bs ih =>
    unfold mergeFree at h
    split at h
    · cases h
      simp only [totalSize_cons]
      omega
    · obtain ⟨r, hr, hr'⟩ := Option.map_eq_some_iff.mp h
      cases hr'
      have hih := ih hr
      simp only [totalSize_cons] at hih ⊢
      omega

end TotalSize

namespace LocalMem

/-- **The cap is respected**: no write behind the end of the table, no more
units than it has room for, and no more memory than `MAX_LOCAL_MEM`. -/
def Capped (s : LocalMem) : Prop :=
  s.overrun = false ∧ s.nlocalMems ≤ maxLocalMem / localMemUnit ∧ totalSize s.blocks ≤ maxLocalMem

/-- **What a step must not do**: pass the test of `GrowLocalMem` when the
units and the executions that have passed it are 16 already, or clean up
while a block is allocated or split off. -/
def CapClean (s : LocalMem) (a : MemAct) : Prop :=
  (a = .growStart ∨ a = .ohciStart → s.nlocalMems + s.growers < maxLocalMem / localMemUnit) ∧
  (a = .ohciFail → s.allocList = [] ∧ s.calls.flatMap MemCall.splitOff = [])

/-- **The account of the units**: those in the table and those to come fit,
and all blocks come from those in the table. -/
structure Cap (s : LocalMem) : Prop where
  room : s.nlocalMems + s.growers ≤ maxLocalMem / localMemUnit
  size : totalSize s.blocks ≤ s.nlocalMems * localMemUnit
  inside : s.overrun = false
  saved : ∀ i k, .growHeap (some i) k ∈ s.calls → i < maxLocalMem / localMemUnit

variable {s s' : LocalMem} {c : MemCall} {new : List MemCall} {a : MemAct}

theorem totalSize_blocks (s : LocalMem) : totalSize s.blocks
    = totalSize s.freeList + totalSize s.allocList + totalSize
      (s.calls.flatMap MemCall.splitOff) := by
  rw [blocks, totalSize_append, totalSize_append]

/-- `FreeLocalMem` moves blocks between the lists. -/
theorem totalSize_freeLocalMem (s : LocalMem) (p : ℕ) :
    totalSize (s.freeLocalMem p).2.freeList + totalSize (s.freeLocalMem p).2.allocList
      = totalSize s.freeList + totalSize s.allocList := by
  unfold freeLocalMem
  split
  · rfl
  · split
    · rfl
    · rename_i b rest hfind
      obtain ⟨-, hperm⟩ := takeAlloc_some hfind
      have halloc := totalSize_perm hperm
      rw [totalSize_cons] at halloc
      split
      · rename_i fl hmerge
        have hm := totalSize_mergeFree hmerge
        rw [totalSize_cons] at hm
        dsimp only
        omega
      · rw [totalSize_cons]
        dsimp only
        omega

theorem Cap.init : init.Cap := ⟨by decide, by decide, rfl, by simp [LocalMem.init]⟩

/-- A call that moves on. -/
theorem Cap.relist (h : s.Cap) (hc : c ∈ s.calls) (hcalls : s'.calls = new ++ s.calls.erase c)
    (hn : s'.nlocalMems = s.nlocalMems) (ho : s'.overrun = s.overrun)
    (hgrow : new.countP MemCall.growing ≤ (c.growing).toNat)
    (hsize : totalSize s'.freeList + totalSize s'.allocList
        + totalSize (new.flatMap MemCall.splitOff)
      ≤ totalSize s.freeList + totalSize s.allocList + totalSize c.splitOff)
    (hsaved : ∀ i k, .growHeap (some i) k ∈ new → i < maxLocalMem / localMemUnit) : s'.Cap where
  room := by
    have hcount := List.countP_erase_add MemCall.growing hc
    have hroom := h.room
    rw [growers] at hroom ⊢
    rw [hn, hcalls, List.countP_append]
    omega
  size := by
    have hperm := totalSize_perm (List.perm_flatMap_erase MemCall.splitOff hc)
    have hold := h.size
    rw [totalSize_blocks, hperm, totalSize_append] at hold
    rw [totalSize_blocks, hn, hcalls, List.flatMap_append, totalSize_append]
    omega
  inside := ho.trans h.inside
  saved := fun i k hin => by
    rw [hcalls, List.mem_append] at hin
    exact hin.elim (hsaved i k) (fun hin => h.saved i k (List.mem_of_mem_erase hin))

/-- A call that moves on without touching the lists. -/
theorem Cap.move (h : s.Cap) (hc : c ∈ s.calls) (hcalls : s'.calls = new ++ s.calls.erase c)
    (hn : s'.nlocalMems = s.nlocalMems) (ho : s'.overrun = s.overrun)
    (hgrow : new.countP MemCall.growing ≤ (c.growing).toNat)
    (hfree : s'.freeList = s.freeList) (halloc : s'.allocList = s.allocList)
    (hsplit : totalSize (new.flatMap MemCall.splitOff) ≤ totalSize c.splitOff)
    (hsaved : ∀ i k, .growHeap (some i) k ∈ new → i < maxLocalMem / localMemUnit) : s'.Cap :=
  h.relist hc hcalls hn ho hgrow (by rw [hfree, halloc]; omega) hsaved

/-- An execution of `GrowLocalMem` that is under way finds room. -/
theorem Cap.lt_of_growing (h : s.Cap) (hc : c ∈ s.calls) (hg : c.growing = true) :
    s.nlocalMems < maxLocalMem / localMemUnit := by
  have hpos : 0 < s.growers := List.countP_pos_iff.mpr ⟨c, hc, hg⟩
  have hroom := h.room
  omega

/-- **One clean step respects the cap.** -/
theorem Cap.step (h : s.Cap) (hok : CapClean s a) (hs : s.Step a s') : s'.Cap := by
  cases hs with
  | alloc size inInterrupt h0 hmax =>
    exact ⟨h.room, h.size, h.inside, fun i k hin => h.saved i k (by simpa using hin)⟩
  | skip size doRetry inInterrupt hc hg =>
    exact h.move hc List.singleton_append.symm rfl rfl (by simp [MemCall.growing]) rfl rfl
      (Nat.le_refl _)
      (by simp)
  | growRefused size doRetry hc hg hcap =>
    exact h.move hc List.singleton_append.symm rfl rfl (by simp [MemCall.growing]) rfl rfl
      (Nat.le_refl _)
      (by simp)
  | missRetry size inInterrupt hc hf =>
    exact h.move hc List.singleton_append.symm rfl rfl (by simp [MemCall.growing]) rfl rfl
      (Nat.le_refl _)
      (by simp)
  | missFail size inInterrupt hc hf =>
    exact h.move hc (List.nil_append _).symm rfl rfl (by simp) rfl rfl (Nat.le_refl _)
      (by simp)
  | newMb size p hc =>
    exact h.move hc List.singleton_append.symm rfl rfl (by simp [MemCall.growing]) rfl rfl
      (Nat.le_refl _)
      (by simp)
  | newNoMb size p hc =>
    exact h.move hc (List.nil_append _).symm rfl rfl (by simp) rfl rfl (Nat.zero_le _)
      (by simp)
  | ohciDone hc =>
    exact h.move hc (List.nil_append _).symm rfl rfl (by simp) rfl rfl (Nat.le_refl _)
      (by simp)
  | growMb index k hc hi =>
    refine h.move hc List.singleton_append.symm rfl rfl (by simp [MemCall.growing]) rfl rfl
      (Nat.le_refl _) (fun i k' hin => ?_)
    cases List.mem_singleton.mp hin
    obtain hi | hi := hi
    · cases hi
    · cases hi
      exact h.lt_of_growing hc rfl
  | growNoMb k hc =>
    exact h.move hc rfl rfl rfl (by cases k <;> simp [MemCall.growing, resume]) rfl rfl
      (by cases k <;> exact Nat.le_refl _) (by cases k <;> simp [resume])
  | growStart size doRetry hc hg hcap =>
    have hcount := List.countP_cons_erase MemCall.growing (.growKmalloc (.alloc size doRetry)) hc
    have hroom := hok.1 (.inl rfl)
    have hperm := totalSize_perm (List.perm_flatMap_erase MemCall.splitOff hc)
    have hsize := h.size
    refine ⟨?_, ?_, h.inside, fun i k hin => h.saved i k (List.mem_of_mem_erase
      (List.mem_of_ne_of_mem (by simp) hin))⟩
    · simp only [MemCall.growing, Bool.toNat_true, Bool.toNat_false] at hcount
      rw [growers] at hroom ⊢
      dsimp only
      omega
    · rw [totalSize_blocks, hperm] at hsize
      rw [totalSize_blocks]
      exact hsize
  | ohciStart hcap =>
    have hroom := hok.1 (.inr rfl)
    refine ⟨?_, h.size, h.inside, fun i k hin => h.saved i k (by simpa using hin)⟩
    rw [growers, List.countP_cons_of_pos (by rfl)]
    exact hroom
  | growOverrun index k s' hc hout ho =>
    refine absurd ⟨?_, h.lt_of_growing hc rfl⟩ hout
    cases index with
    | none => exact h.lt_of_growing hc rfl
    | some i => exact h.saved i k hc
  | growUnit index unit k hc htab hu =>
    unfold fetchUnit
    dsimp only
    split
    · exact h.move hc rfl rfl rfl (by cases k <;> simp [MemCall.growing, resume]) rfl rfl
        (by cases k <;> exact Nat.le_refl _) (by cases k <;> simp [resume])
    · exact h.move hc List.singleton_append.symm rfl rfl (by simp [MemCall.growing]) rfl rfl
        (Nat.le_refl _) (by simp)
  | growList unit p k hc =>
    have hcount := List.countP_erase_add MemCall.growing hc
    have hresume : (resume k true).countP MemCall.growing = 0 := by cases k <;> rfl
    have hsplit : (resume k true).flatMap MemCall.splitOff = [] := by cases k <;> rfl
    have hperm := totalSize_perm (List.perm_flatMap_erase MemCall.splitOff hc)
    have hroom := h.room
    have hsize := h.size
    refine ⟨?_, ?_, h.inside, fun i k' hin => h.saved i k' (List.mem_of_mem_erase
      (b := MemCall.growList unit p k) ?_)⟩
    · simp only [MemCall.growing, Bool.toNat_true] at hcount
      rw [growers] at hroom ⊢
      rw [List.countP_append, hresume]
      dsimp only
      omega
    · rw [totalSize_blocks, hperm] at hsize
      rw [totalSize_blocks, List.flatMap_append, hsplit, totalSize_cons, Nat.add_one_mul]
      simp only [MemCall.splitOff, List.nil_append] at hsize ⊢
      omega
    · cases k <;> simpa [resume] using hin
  | take size doRetry inInterrupt b rest hc hf =>
    refine h.relist hc (List.nil_append _).symm rfl rfl (by simp) ?_ (by simp)
    have ht := totalSize_takeFree hf
    simp only [totalSize_cons, List.flatMap_nil, totalSize_nil] at ht ⊢
    omega
  | split size doRetry inInterrupt b rest hc hf =>
    refine h.relist hc List.singleton_append.symm rfl rfl (by simp [MemCall.growing]) ?_ (by simp)
    have ht := totalSize_takeFree hf
    have hsize := size_takeFree hf
    rw [List.flatMap_singleton, MemCall.splitOff, ← hsize]
    simp only [totalSize_cons, totalSize_nil] at ht ⊢
    omega
  | list size p hc =>
    refine h.relist hc (List.nil_append _).symm rfl rfl (by simp) ?_ (by simp)
    simp only [totalSize_cons, List.flatMap_nil, MemCall.splitOff, totalSize_nil]
    omega
  | free p =>
    obtain ⟨-, hn, -, hc, ho⟩ := s.freeLocalMem_table p
    refine ⟨?_, ?_, ho.trans h.inside, fun i k hin => h.saved i k (hc ▸ hin)⟩
    · rw [growers, hn, hc]
      exact h.room
    · rw [totalSize_blocks, hn, hc, totalSize_freeLocalMem, ← totalSize_blocks]
      exact h.size
  | ohciRefused hcap => exact h
  | ohciFail hc =>
    obtain ⟨halloc, hsplit⟩ := hok.2 rfl
    have hcount := List.countP_erase_add MemCall.growing hc
    have hperm := List.perm_flatMap_erase MemCall.splitOff hc
    have hroom := h.room
    rw [hsplit] at hperm
    refine ⟨?_, ?_, h.inside, fun i k hin => h.saved i k (List.mem_of_mem_erase hin)⟩
    · rw [growers] at hroom ⊢
      dsimp only [cleanup]
      omega
    · have hrest : (s.calls.erase .allocateOhci).flatMap MemCall.splitOff = [] :=
        hperm.nil_eq.symm
      rw [totalSize_blocks, hrest]
      dsimp only [cleanup]
      rw [halloc]
      exact Nat.zero_le _

/-- **The cap is respected** in every run of clean steps. -/
theorem capped_of_clean (h : Run CapClean init s) : s.Capped := by
  have hcap : s.Cap := h.of_step Cap.init (fun _ _ _ ht hok hs => ht.step hok hs)
  have hroom := hcap.room
  refine ⟨hcap.inside, by omega, Nat.le_trans hcap.size ?_⟩
  have hle : s.nlocalMems ≤ maxLocalMem / localMemUnit := by omega
  exact Nat.le_trans (Nat.mul_le_mul_right localMemUnit hle) (by decide)

/-! ## The 17th unit -/

/-- The cap is not respected in every run. -/
theorem not_capped : ¬ ∀ s : LocalMem, Run (fun _ _ => True) init s → s.Capped := by
  intro h
  obtain ⟨hinside, -, -⟩ := h { init with overrun := true }
    ((exists_overrun _ rfl).mono (fun _ _ _ => trivial))
  cases hinside

/-- One unit. -/
theorem capped_of_clean_first : oneUnit.Capped := by
  have h₁ : Run CapClean init _ :=
    .tail (a := .ohciStart) .refl ⟨fun _ => by decide, by simp⟩ (.ohciStart (by decide))
  have h₂ := h₁.tail ⟨by simp, by simp⟩ (.growMb none .allocateOhci (by decide) (.inl rfl))
  have h₃ := h₂.tail ⟨by simp, by simp⟩
    (.growUnit none 0x10000 .allocateOhci (by decide) (by decide) (.inr ⟨by decide, by decide⟩))
  have h₄ := h₃.tail ⟨by simp, by simp⟩ (.growList 0x10000 0x10000 .allocateOhci (by decide))
  exact capped_of_clean (h₄.tail ⟨by simp, by simp⟩ (.ohciDone (by decide)))

end LocalMem
