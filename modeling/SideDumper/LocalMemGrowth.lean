import SideDumper.LocalMemCall
import SideDumper.LocalMemFragments

/-!
# Allocation while the memory can grow

A search of `AllocLocalMem` that finds nothing counts in
`insufficient_local_mem`, and it is the same call that comes back to the label
`retry` and pays what is owed there: it fetches one unit. `GrowLocalMem` puts
the unit at the front of the free list, where the second search meets it
first, whatever stands behind it. So a call that may sleep fails for a want of
memory only where `GrowLocalMem` fails. It fetches no second unit: when one
was owed already, the first search is the one that finds it.
-/

/-- `kmalloc` has a `struct mb` and `ps2sif_allociopheap` has a unit. -/
def GrowAnswers.Succeed (g : GrowAnswers) : Prop := g.mb = true ∧ g.unit ≠ 0

instance (g : GrowAnswers) : Decidable g.Succeed := inferInstanceAs (Decidable (_ ∧ _))

namespace LocalMem

/-- `GrowLocalMem` does not write behind the end of `local_mems`, nor refuse
to go on: there are fewer units than the table has places. -/
def MayGrow (s : LocalMem) : Prop := s.nlocalMems < maxLocalMem / localMemUnit

instance (s : LocalMem) : Decidable s.MayGrow := inferInstanceAs (Decidable (_ < _))

/-- **`AllocLocalMem` hands out memory**, after it has fetched at most one
unit: the block at the pointer it returns is allocated, and all of the memory
is what there was before and the unit. The pointer is not `NULL`, unless
there was a free block at the address 0. -/
def HandsOut (s : LocalMem) (ans : AllocAnswers) (size : ℕ) : Prop :=
  ∃ p s' k, s.allocLocalMem false ans size = some (some p, s') ∧
    ((∀ b ∈ s.freeList, b.p ≠ 0) → p ≠ 0) ∧
    s'.allocList = ⟨p, size256 size⟩ :: s.allocList ∧
    k ≤ 1 ∧ s'.nlocalMems = s.nlocalMems + k ∧
    totalSize s'.freeList + totalSize s'.allocList
      = totalSize s.freeList + totalSize s.allocList + k * localMemUnit

variable {s s₁ : LocalMem} {g : GrowAnswers} {ans : AllocAnswers} {bs rest : List Mb} {b : Mb}
    {n k size : ℕ}

/-- The block that is handed out starts no earlier than the one it is cut
from. -/
theorem exists_le_of_takeFree {e : Bool} (h : takeFree n bs = some (b, e, rest)) :
    ∃ c ∈ bs, c.p ≤ b.p := by
  induction bs generalizing rest with
  | nil => cases h
  | cons c cs ih =>
    unfold takeFree at h
    split at h
    · cases h
      exact ⟨b, List.mem_cons_self, Nat.le_refl _⟩
    · split at h
      · cases h
        exact ⟨c, List.mem_cons_self, Nat.le_add_right _ _⟩
      · obtain ⟨r, hr, hr'⟩ := Option.map_eq_some_iff.mp h
        cases hr'
        obtain ⟨d, hd, hle⟩ := ih hr
        exact ⟨d, List.mem_cons_of_mem _ hd, hle⟩

/-- **A search that finds a block** and the `struct mb` that it may need. -/
theorem exists_searchFreeList (miss : LocalMem → Option (Option ℕ × LocalMem))
    (h : (takeFree n s.freeList).isSome = true) :
    ∃ p s', searchFreeList true n miss s = some (some p, s') ∧ (∃ c ∈ s.freeList, c.p ≤ p) ∧
      s'.allocList = ⟨p, n⟩ :: s.allocList ∧
      s'.nlocalMems = s.nlocalMems ∧ totalSize s'.freeList + n = totalSize s.freeList := by
  obtain ⟨⟨b, e, rest⟩, htake⟩ := Option.isSome_iff_exists.mp h
  obtain rfl : b.size = n := size_takeFree htake
  have hle := exists_le_of_takeFree htake
  have htotal := totalSize_takeFree htake
  rw [totalSize_cons, Nat.add_comm] at htotal
  unfold searchFreeList
  rw [htake]
  cases e with
  | true => exact ⟨b.p, _, rfl, hle, rfl, rfl, htotal⟩
  | false => exact ⟨b.p, _, rfl, hle, rfl, rfl, htotal⟩

/-- **The memory has grown** by `k` units and nothing else was done to the
lists. -/
structure GrownBy (s s₁ : LocalMem) (k : ℕ) : Prop where
  count : s₁.nlocalMems = s.nlocalMems + k
  alloc : s₁.allocList = s.allocList
  total : totalSize s₁.freeList = totalSize s.freeList + k * localMemUnit
  ne_zero : (∀ b ∈ s.freeList, b.p ≠ 0) → ∀ b ∈ s₁.freeList, b.p ≠ 0

/-- **What is owed is fetched**: the unit is at the front of the free list
when the search starts. -/
theorem atRetry_owed (hgrow : s.MayGrow) (howed : s.insufficientLocalMem ≠ 0) (hg : g.Succeed) :
    ∃ s₁, s.atRetry false g = some s₁ ∧ GrownBy s s₁ 1 ∧
      s₁.freeList = ⟨g.unit, localMemUnit⟩ :: s.freeList := by
  have hin : ¬ s.OverrunsAtRetry false g := fun h => Nat.ne_of_lt hgrow h.2.2
  have hunits : s.unitsAtRetry false g = [⟨g.unit, localMemUnit⟩] := by
    have hcap : ¬ s.capReached := Nat.lt_asymm hgrow
    simp [unitsAtRetry, unitGrown, howed, hcap, hg.1, hg.2]
  obtain ⟨s₁, hs₁, hfree, halloc, hcount, -⟩ := exists_atRetry hin
  rw [hunits] at hfree hcount
  refine ⟨s₁, hs₁, ⟨hcount, halloc, ?_, fun hne => ?_⟩, hfree⟩
  · rw [hfree, Nat.one_mul, Nat.add_comm (totalSize s.freeList)]
    exact totalSize_cons _ _
  · rw [hfree]
    exact List.forall_mem_cons.mpr ⟨hg.2, hne⟩

/-- The first search, when nothing is owed. -/
theorem atRetry_not_owed (h : s.insufficientLocalMem = 0) : s.atRetry false g = some s :=
  if_neg fun howed => howed.2 h

/-- A unit is large enough for every request of at most its size. -/
theorem size256_le_unit (h : size ≤ localMemUnit) : size256 size ≤ localMemUnit := by
  unfold size256 localMemUnit at *
  omega

/-- A free list with a unit at its front has a block for the request. -/
theorem takeFree_unit (u : ℕ) (bs : List Mb) (h : size ≤ localMemUnit) :
    (takeFree (size256 size) (⟨u, localMemUnit⟩ :: bs)).isSome = true :=
  takeFree_isSome_iff.mpr ⟨_, List.mem_cons_self, size256_le_unit h⟩

/-- The last search, after the memory has grown. -/
theorem GrownBy.handsOut {miss : LocalMem → Option (Option ℕ × LocalMem)} (h : GrownBy s s₁ k)
    (hk : k ≤ 1)
    (hcall : s.allocLocalMem false ans size = searchFreeList true (size256 size) miss s₁)
    (hsome : (takeFree (size256 size) s₁.freeList).isSome = true) : s.HandsOut ans size := by
  obtain ⟨p, s', hsearch, ⟨c, hc, hle⟩, hlist, hcount, htotal⟩ := exists_searchFreeList miss hsome
  rw [hsearch] at hcall
  rw [h.alloc] at hlist
  rw [h.total] at htotal
  refine ⟨p, s', k, hcall, fun hne => ?_, hlist, hk, hcount.trans h.count, ?_⟩
  · exact Nat.ne_of_gt (Nat.lt_of_lt_of_le (Nat.pos_of_ne_zero (h.ne_zero hne c hc)) hle)
  · rw [hlist, totalSize_cons]
    dsimp only
    omega

/-- **Allocation succeeds while the memory can grow**, whatever is on the
free list and whatever is owed. -/
theorem allocLocalMem_handsOut (s : LocalMem) (hgrow : s.MayGrow) (ans : AllocAnswers)
    (hfirst : ans.first.Succeed) (hsecond : ans.second.Succeed) (hnew : ans.newMb = true)
    (size : ℕ)
    (hsize : 1 ≤ size ∧ size ≤ localMemUnit) : s.HandsOut ans size := by
  have hint : size + 255 < 0x80000000 := by
    have hle := hsize.2
    unfold localMemUnit at hle
    omega
  by_cases howed : s.insufficientLocalMem = 0
  · have hcall := allocLocalMem_first ans hint (atRetry_not_owed (g := ans.first) howed)
    rw [hnew] at hcall
    cases htake : takeFree (size256 size) s.freeList with
    | some r =>
      have hsame : GrownBy s s 0 := ⟨rfl, rfl, by rw [Nat.zero_mul, Nat.add_zero], id⟩
      exact hsame.handsOut (Nat.zero_le 1) hcall (htake ▸ rfl)
    | none =>
      -- The failure that counts here is the one that the retry pays for.
      obtain ⟨s₁, hs₁, hgrown, hfree⟩ := atRetry_owed
        (s := { s with insufficientLocalMem := s.insufficientLocalMem + 1 }) hgrow
          (Nat.succ_ne_zero _)
        hsecond
      rw [searchFreeList_none htake, hs₁, Option.bind_eq_bind, Option.bind_some] at hcall
      have hgrown' : GrownBy s s₁ 1 := ⟨hgrown.count, hgrown.alloc, hgrown.total, hgrown.ne_zero⟩
      exact hgrown'.handsOut (Nat.le_refl 1) hcall (hfree ▸ takeFree_unit _ _ hsize.2)
  · obtain ⟨s₁, hs₁, hgrown, hfree⟩ := atRetry_owed hgrow howed hfirst
    have hcall := allocLocalMem_first ans hint hs₁
    rw [hnew] at hcall
    exact hgrown.handsOut (Nat.le_refl 1) hcall (hfree ▸ takeFree_unit _ _ hsize.2)

/-- A whole unit, when a block of the only unit is in use: a second unit is
fetched. -/
theorem allocLocalMem_handsOut_unit :
    HandsOut { oneUnit with freeList := [⟨0x10000, 0xff00⟩], allocList := [⟨0x1ff00, 0x100⟩] }
      ⟨⟨true, 0x20000⟩, ⟨true, 0x20000⟩, true⟩ localMemUnit :=
  allocLocalMem_handsOut _ (by decide) _ (by decide) (by decide) rfl _ (by decide)

end LocalMem
