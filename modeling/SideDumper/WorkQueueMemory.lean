import SideDumper.WorkQueueFifo

/-!
# What the removal of the dumper frees

Every block has one owner from the `kmalloc` that makes it to the `kfree`
that ends it: a call of `QueueUrb` or `ProcessUrb`, an item on the list, or
the worker. `owned` lists the blocks of all owners. The worker and
`ProcessUrb` end a `Mini` with `CleanMini`, which frees its copy of the
transfer buffer. The clean-up loop of `SideDumper_RemoveDumper` frees the
items alone, and the copies of the items it finds have no owner afterwards.
-/

/-- The block of a transfer buffer copy, none for `NULL`. -/
def copyBlock (b : ℕ) : List ℕ := if b = 0 then [] else [b]

/-! ## Ownership -/

/-- **Exactly the blocks `xs` are allocated**, each of them once, and nothing
else was ever freed. -/
structure Kmem.Owned (m : Kmem) (xs : List ℕ) : Prop where
  perm : m.live.Perm xs
  nodup : m.live.Nodup
  noBadFree : m.badFree = false

namespace Kmem.Owned

variable {m : Kmem} {xs ys : List ℕ} {p b : ℕ}

theorem reorder (h : m.Owned xs) (hp : xs.Perm ys) : m.Owned ys :=
  ⟨h.perm.trans hp, h.nodup, h.noBadFree⟩

theorem kmalloc (h : m.Owned xs) (hp : p = 0 ∨ m.Fresh p) :
    (m.kmalloc p).Owned (copyBlock p ++ xs) := by
  unfold Kmem.kmalloc copyBlock
  split
  · exact h
  · rcases hp with hp | ⟨-, hp⟩
    · exact absurd hp ‹_›
    · exact ⟨h.perm.cons p, List.nodup_cons.mpr ⟨hp, h.nodup⟩, h.noBadFree⟩

/-- Freeing a block that somebody owns. -/
theorem kfree (h : m.Owned (p :: xs)) : (m.kfree p).Owned xs := by
  have hin : p ∈ m.live := h.perm.mem_iff.mpr List.mem_cons_self
  rw [Kmem.kfree, if_pos hin]
  refine ⟨?_, h.nodup.erase p, h.noBadFree⟩
  have hperm := h.perm.erase p
  rwa [List.erase_cons_head] at hperm

theorem cleanMini (h : m.Owned (copyBlock b ++ xs)) : (m.cleanMini b).Owned xs := by
  unfold copyBlock at h
  unfold Kmem.cleanMini
  by_cases hb : b = 0
  · rw [if_neg (not_not.mpr hb)]
    rwa [if_pos hb] at h
  · rw [if_pos hb]
    rw [if_neg hb] at h
    exact h.kfree

end Kmem.Owned

/-- The blocks of an item. -/
def WorkItem.blocks (it : WorkItem) : List ℕ := it.addr :: copyBlock it.transferBuffer

/-- The blocks that a call of `QueueUrb` is to put on the list. -/
def QueueUrb.blocks : QueueUrb → List ℕ
  | .initMini p => [p]
  | .downListAccess it | .listAddTail it => it.blocks
  | _ => []

/-- The blocks that the worker is to free. -/
def Worker.blocks : Worker → List ℕ
  | .upListAccess it | .cleanMini it => it.blocks
  | .kfree it => [it.addr]
  | _ => []

namespace Dumper

/-- **The blocks of all owners**, and the copies that the removal has left. -/
def owned (s : Dumper) : List ℕ :=
  s.worker.blocks ++ s.calls.flatMap QueueUrb.blocks ++ s.syncs.flatMap copyBlock
    ++ s.list.flatMap WorkItem.blocks ++ s.leftover.flatMap
      (fun it => copyBlock it.transferBuffer)

/-- **The account of the memory.** -/
structure Memory (s : Dumper) : Prop where
  owned : s.mem.Owned s.owned
  syncs : s.remover ≠ .idle → s.syncs = []
  done : s.remover = .returned → s.list = []

variable {s s' : Dumper}

theorem Memory.install (pid : ℤ) : (installDumper pid).Memory where
  owned := by
    refine ⟨?_, List.nodup_nil, rfl⟩
    rw [Dumper.owned]
    unfold installDumper
    dsimp only
    split <;> exact .refl _
  syncs := fun _ => rfl
  done := fun _ => rfl

/-- The blocks of all owners, counted. -/
theorem count_owned (s : Dumper) (x : ℕ) : s.owned.count x = s.worker.blocks.count x
    + (s.calls.flatMap QueueUrb.blocks).count x + (s.syncs.flatMap copyBlock).count x
    + (s.list.flatMap WorkItem.blocks).count x
    + (s.leftover.flatMap (fun it => copyBlock it.transferBuffer)).count x := by
  rw [Dumper.owned]
  simp only [List.count_append]

/-- Blocks that are the same when counted. -/
theorem owned_perm {xs : List ℕ} (h : ∀ x, xs.count x = s.worker.blocks.count x
    + (s.calls.flatMap QueueUrb.blocks).count x + (s.syncs.flatMap copyBlock).count x
    + (s.list.flatMap WorkItem.blocks).count x
    + (s.leftover.flatMap (fun it => copyBlock it.transferBuffer)).count x) : xs.Perm s.owned :=
  List.perm_iff_count.mpr fun x => (h x).trans (s.count_owned x).symm

/-- **One step keeps the account.** -/
theorem Memory.step (hf : s.Fifo) (h : s.Memory) (hs : s.Step s') : s'.Memory := by
  obtain ⟨ho, hsync, hdone⟩ := h
  cases hs with
  | queueUrb p hr hp =>
    refine ⟨(ho.kmalloc (.inr hp)).reorder (owned_perm fun x => ?_), hsync, hdone⟩
    rw [List.count_append, count_owned]
    simp only [copyBlock, if_neg hp.1, QueueUrb.blocks, List.flatMap_cons, List.count_append]
    omega
  | queueInit p b hc hb =>
    refine ⟨(ho.kmalloc hb).reorder (owned_perm fun x => ?_), hsync, hdone⟩
    have he := (List.perm_flatMap_erase QueueUrb.blocks hc).count_eq x
    rw [List.count_append, count_owned, he]
    simp only [QueueUrb.blocks, WorkItem.blocks, List.flatMap_cons, List.count_append,
      List.count_cons, List.count_nil]
    omega
  | queueDown it hc hpos =>
    refine ⟨ho.reorder (owned_perm fun x => ?_), hsync, hdone⟩
    have he := (List.perm_flatMap_erase QueueUrb.blocks hc).count_eq x
    rw [count_owned, he]
    simp only [QueueUrb.blocks, List.flatMap_cons, List.count_append]
  | queueAdd it hc =>
    have hi := hf.idle_of_mem hc
    refine ⟨ho.reorder (owned_perm fun x => ?_), hsync, fun hr => ?_⟩
    · have he := (List.perm_flatMap_erase QueueUrb.blocks hc).count_eq x
      rw [count_owned, he]
      simp only [QueueUrb.blocks, List.flatMap_cons, List.flatMap_append, List.flatMap_nil,
        List.count_append, List.count_nil]
      omega
    · have hr' : s.remover = .returned := hr
      rw [hi] at hr'
      cases hr'
  | queueUp hc =>
    refine ⟨ho.reorder (owned_perm fun x => ?_), hsync, hdone⟩
    have he := (List.perm_flatMap_erase QueueUrb.blocks hc).count_eq x
    rw [count_owned, he]
    simp only [QueueUrb.blocks, List.flatMap_cons, List.count_append]
  | queueSignal hc =>
    refine ⟨ho.reorder (owned_perm fun x => ?_), hsync, hdone⟩
    have he := (List.perm_flatMap_erase QueueUrb.blocks hc).count_eq x
    rw [count_owned, he]
    simp only [QueueUrb.blocks, List.count_append, List.count_nil]
    omega
  | processUrb b hr hb =>
    refine ⟨(ho.kmalloc hb).reorder (owned_perm fun x => ?_), fun hne => absurd hr hne, hdone⟩
    rw [List.count_append, count_owned]
    simp only [List.flatMap_cons, List.count_append]
    omega
  | processEnd b hb =>
    have hperm : s.owned.Perm (copyBlock b ++ { s with syncs := s.syncs.erase b }.owned) := by
      rw [List.perm_iff_count]
      intro x
      have he := (List.perm_flatMap_erase copyBlock hb).count_eq x
      rw [List.count_append, count_owned, count_owned, he, List.count_append]
      dsimp only
      omega
    refine ⟨(ho.reorder hperm).cleanMini, fun hne => ?_, hdone⟩
    rw [hsync hne] at hb
    cases hb
  | workerWake hw | workerStop hw | workerGo hw | workerDown hw | workerEmpty hw | workerError hw
  | workerUp _ hw | workerExit hw =>
    rw [Dumper.owned, hw] at ho
    exact ⟨ho, hsync, hdone⟩
  | workerTake it rest hw hl =>
    refine ⟨ho.reorder (owned_perm fun x => ?_), hsync, fun hr => ?_⟩
    · rw [count_owned, hw, hl]
      simp only [Worker.blocks, List.flatMap_cons, List.count_append, List.count_nil]
      omega
    · rw [hdone hr] at hl
      cases hl
  | workerClean it hw =>
    have hperm : s.owned.Perm
        (copyBlock it.transferBuffer ++ { s with worker := .kfree it }.owned) := by
      rw [List.perm_iff_count]
      intro x
      rw [List.count_append, count_owned, count_owned, hw]
      simp only [Worker.blocks, WorkItem.blocks, List.count_cons, List.count_nil]
      omega
    exact ⟨(ho.reorder hperm).cleanMini, hsync, hdone⟩
  | workerFree it hw =>
    have hperm : s.owned.Perm (it.addr :: { s with worker := .downItemsQueued }.owned) := by
      rw [List.perm_iff_count]
      intro x
      rw [List.count_cons, count_owned, count_owned, hw]
      simp only [Worker.blocks, List.count_cons, List.count_nil]
      omega
    exact ⟨(ho.reorder hperm).kfree, hsync, hdone⟩
  | removeDumper hr hc hs => exact ⟨ho, fun _ => hs, by simp⟩
  | removeSignal hr => exact ⟨ho, fun _ => hsync (by rw [hr]; simp), by simp⟩
  | removeWait hr hpos => exact ⟨ho, fun _ => hsync (by rw [hr]; simp), by simp⟩
  | removeItem it rest hr hl =>
    have hperm : s.owned.Perm
        (it.addr :: { s with list := rest, leftover := s.leftover ++ [it] }.owned) := by
      rw [List.perm_iff_count]
      intro x
      rw [List.count_cons, count_owned, count_owned, hl]
      simp only [WorkItem.blocks, List.flatMap_cons, List.flatMap_append, List.flatMap_nil,
        List.count_append, List.count_cons, List.count_nil]
      omega
    refine ⟨(ho.reorder hperm).kfree, hsync, fun hr' => ?_⟩
    have hr'' : s.remover = .returned := hr'
    rw [hr] at hr''
    cases hr''
  | removeEnd hr hl => exact ⟨ho, fun _ => hsync (by rw [hr]; simp), fun _ => hl⟩

/-- The account of the memory holds in every reachable state. -/
theorem Reach.memory (h : s.Reach) : s.Memory :=
  (Reach.of_step (P := fun s => s.Fifo ∧
    s.Memory) (fun pid => ⟨Fifo.install pid, Memory.install pid⟩)
    (fun _ _ hp hs => ⟨hp.1.step hs, hp.2.step hp.1 hs⟩) h).2

/-! ## After the removal -/

/-- **The removal frees everything exactly when no item that it finds on the
list has a copy of a transfer buffer.** -/
theorem removeDumper_frees_iff (h : s.Reach) (hr : s.remover = .returned) :
    (s.mem.live = [] ∧ s.mem.badFree = false) ↔ ∀ it ∈ s.leftover, it.transferBuffer = 0 := by
  have hf := h.fifo
  obtain ⟨ho, hsync, hdone⟩ := h.memory
  have hcalls := hf.quiet (by rw [hr]; simp)
  have hexit := hf.exited_of_joined (by rw [hr]; rfl)
  have howned : s.owned = s.leftover.flatMap (fun it => copyBlock it.transferBuffer) := by
    rw [Dumper.owned, hcalls, hsync (by rw [hr]; simp), hdone hr, hexit]
    rfl
  have hlive : s.mem.live = [] ↔ s.owned = [] := by
    constructor
    · intro hl
      have hp := ho.perm
      rw [hl] at hp
      exact hp.nil_eq.symm
    · intro hl
      have hp := ho.perm
      rw [hl] at hp
      exact hp.eq_nil
  rw [and_iff_left ho.noBadFree, hlive, howned, List.flatMap_eq_nil_iff]
  refine forall₂_congr fun it _ => ?_
  unfold copyBlock
  split
  · exact iff_of_true rfl ‹_›
  · exact iff_of_false (by simp) ‹_›

/-- The worker does not run between the call of `QueueUrb` and the removal. -/
theorem exists_leak : ∃ s : Dumper, s.Reach ∧ s.remover = .returned ∧ s.mem.live = [101] := by
  have h₁ := Run.refl.tail (Step.removeDumper (s := oneItem) rfl rfl rfl)
  have h₂ := h₁.tail (.removeSignal rfl)
  have h₃ := h₂.tail (.workerWake rfl (by decide))
  have h₄ := h₃.tail (.workerStop rfl rfl)
  have h₅ := h₄.tail (.workerExit rfl)
  have h₆ := h₅.tail (.removeWait rfl (by decide))
  have h₇ := h₆.tail (.removeItem ⟨100, 1, 101⟩ [] rfl rfl)
  exact ⟨_, oneItem_reach.run (h₇.tail (.removeEnd rfl rfl)), rfl, by decide⟩

/-- The removal may leave copies of transfer buffers behind. -/
theorem removeDumper_not_frees : ¬ ∀ s : Dumper, s.Reach → s.remover = .returned →
    s.mem.live = [] ∧ s.mem.badFree = false := by
  intro h
  obtain ⟨s, hreach, hr, hlive⟩ := exists_leak
  have hnil := (h s hreach hr).1
  rw [hlive] at hnil
  cases hnil

/-- What the removal of `removalBegun` leaves: nothing. -/
def removed : Dumper :=
  { removalBegun with
    mem := ⟨[], false⟩
    list := []
    semItemsQueued := 1
    worker := .exited
    remover := .returned
    leftover := [⟨102, 2, 0⟩] }

theorem removed_reach : removed.Reach := by
  have h₁ := Run.refl.tail (Step.workerWake (s := removalBegun) rfl (by decide))
  have h₂ := h₁.tail (.workerStop rfl rfl)
  have h₃ := h₂.tail (.workerExit rfl)
  have h₄ := h₃.tail (.removeWait rfl (by decide))
  have h₅ := h₄.tail (.removeItem ⟨102, 2, 0⟩ [] rfl rfl)
  exact removalBegun_reach.run (h₅.tail (.removeEnd rfl rfl))

/-- The worker has freed an item with a copy, and the removal one without
data. -/
theorem removeDumper_frees_oneTaken : removed.mem.live = [] ∧ removed.mem.badFree = false :=
  (removeDumper_frees_iff removed_reach rfl).mpr (by decide)

end Dumper
