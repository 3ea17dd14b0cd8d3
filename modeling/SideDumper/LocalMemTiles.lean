import SideDumper.LocalMem
import SideDumper.CallList
import Mathlib.Data.List.Pairwise

/-!
# The allocator neither loses nor shares memory

`coverAt` counts the blocks of a list that an address lies in. Cutting a block
off another and merging two blocks that meet leave the count at each address,
so that the count over all blocks is the one over the units throughout. As
the units lie apart from each other, no address is in two blocks.
-/

/-- The addresses of a block. -/
def Mb.Has (b : Mb) (a : ℕ) : Prop := b.p ≤ a ∧ a < b.p + b.size

instance (b : Mb) (a : ℕ) : Decidable (b.Has a) := inferInstanceAs (Decidable (_ ∧ _))

/-- Two blocks without a common address. -/
def Mb.Apart (b c : Mb) : Prop := ∀ a, b.Has a → ¬ c.Has a

/-- In how many blocks of a list an address lies. -/
def coverAt (a : ℕ) (bs : List Mb) : ℕ := bs.countP (fun b => decide (b.Has a))

/-- The units as blocks. -/
def unitBlocks (us : List ℕ) : List Mb := us.map (fun u => ⟨u, localMemUnit⟩)

section Cover

variable {a n p : ℕ} {b : Mb} {bs cs rest : List Mb}

theorem cover_nil (a : ℕ) : coverAt a [] = 0 := by rw [coverAt, List.countP_nil]

theorem cover_cons (a : ℕ) (b : Mb) (bs : List Mb) :
    coverAt a (b :: bs) = coverAt a bs + if b.Has a then 1 else 0 := by
  rw [coverAt, List.countP_cons]
  simp only [decide_eq_true_eq]
  rfl

theorem cover_append (a : ℕ) (bs cs : List Mb) :
    coverAt a (bs ++ cs) = coverAt a bs + coverAt a cs :=
  List.countP_append

theorem cover_perm (a : ℕ) (h : bs.Perm cs) : coverAt a bs = coverAt a cs := h.countP_eq _

theorem cover_pos_iff : 0 < coverAt a bs ↔ ∃ b ∈ bs, b.Has a := by
  rw [coverAt, List.countP_pos_iff]
  simp only [decide_eq_true_eq]

/-- Blocks lie apart when no address is in two of them. -/
theorem pairwise_apart_of_cover (h : ∀ a, coverAt a bs ≤ 1) : bs.Pairwise Mb.Apart := by
  induction bs with
  | nil => exact .nil
  | cons b bs ih =>
    refine List.pairwise_cons.mpr ⟨fun c hc a hb hca => ?_, ih fun a => ?_⟩
    · have hpos := cover_pos_iff.mpr ⟨c, hc, hca⟩
      have hle := h a
      rw [cover_cons, if_pos hb] at hle
      omega
    · have hle := h a
      rw [cover_cons] at hle
      omega

/-- Cutting a block in two. -/
theorem cover_cut (a p m n : ℕ) :
    coverAt a [⟨p + m, n⟩, ⟨p, m⟩] = coverAt a [⟨p, m + n⟩] := by
  have hor : (⟨p, m + n⟩ : Mb).Has a ↔ (⟨p + m, n⟩ : Mb).Has a ∨ (⟨p, m⟩ : Mb).Has a := by
    simp only [Mb.Has]
    omega
  have hnot : (⟨p + m, n⟩ : Mb).Has a → ¬ (⟨p, m⟩ : Mb).Has a := by
    simp only [Mb.Has]
    omega
  simp only [cover_cons, cover_nil]
  by_cases hx : (⟨p + m, n⟩ : Mb).Has a
  · rw [if_pos hx, if_neg (hnot hx), if_pos (hor.mpr (.inl hx))]
  · by_cases hy : (⟨p, m⟩ : Mb).Has a
    · rw [if_neg hx, if_pos hy, if_pos (hor.mpr (.inr hy))]
    · rw [if_neg hx, if_neg hy, if_neg (fun h => (hor.mp h).elim hx hy)]

/-- Taking a block from the free list leaves the count at each address. -/
theorem cover_takeFree {e : Bool} (h : takeFree n bs = some (b, e, rest)) (a : ℕ) :
    coverAt a (b :: rest) = coverAt a bs := by
  induction bs generalizing rest with
  | nil => cases h
  | cons c cs ih =>
    unfold takeFree at h
    split at h
    · cases h
      rfl
    · split at h
      · cases h
        have hcut : coverAt a [⟨c.p + (c.size - n), n⟩, ⟨c.p, c.size - n⟩] = coverAt a [c] := by
          have h := cover_cut a c.p (c.size - n) n
          rwa [Nat.sub_add_cancel (Nat.le_of_lt ‹_›)] at h
        simp only [cover_cons, cover_nil] at hcut ⊢
        omega
      · obtain ⟨⟨b', e', bs'⟩, hr, hr'⟩ := Option.map_eq_some_iff.mp h
        cases hr'
        have hih := ih hr
        simp only [cover_cons] at hih ⊢
        omega

/-- The block that is handed out has the size, and an exact one was on the
list. -/
theorem size_takeFree {e : Bool} (h : takeFree n bs = some (b, e, rest)) : b.size = n := by
  induction bs generalizing rest with
  | nil => cases h
  | cons c cs ih =>
    unfold takeFree at h
    split at h
    · cases h
      assumption
    · split at h
      · cases h
        rfl
      · obtain ⟨r, hr, hr'⟩ := Option.map_eq_some_iff.mp h
        cases hr'
        exact ih hr

/-- Merging a block into another leaves the count at each address. -/
theorem cover_mergeFree (h : mergeFree b bs = some cs) (a : ℕ) :
    coverAt a cs = coverAt a (b :: bs) := by
  induction bs generalizing cs with
  | nil => cases h
  | cons c bs ih =>
    unfold mergeFree at h
    split at h
    · cases h
      have hcut : coverAt a [b, c] = coverAt a [⟨c.p, c.size + b.size⟩] := by
        have h := cover_cut a c.p c.size b.size
        rwa [‹c.p + c.size = b.p›] at h
      simp only [cover_cons, cover_nil] at hcut ⊢
      omega
    · obtain ⟨r, hr, hr'⟩ := Option.map_eq_some_iff.mp h
      cases hr'
      have hih := ih hr
      simp only [cover_cons] at hih ⊢
      omega

/-- The block that `FreeLocalMem` finds. -/
theorem takeAlloc_some (h : takeAlloc p bs = some (b, rest)) : b.p = p ∧ bs.Perm (b :: rest) := by
  induction bs generalizing rest with
  | nil => cases h
  | cons c cs ih =>
    unfold takeAlloc at h
    split at h
    · cases h
      exact ⟨‹_›, .refl _⟩
    · obtain ⟨r, hr, hr'⟩ := Option.map_eq_some_iff.mp h
      cases hr'
      obtain ⟨hp, hperm⟩ := ih hr
      exact ⟨hp, (hperm.cons c).trans (.swap _ _ _)⟩

/-- `FreeLocalMem` finds nothing when no block starts there. -/
theorem takeAlloc_none_iff : takeAlloc p bs = none ↔ ∀ b ∈ bs, b.p ≠ p := by
  induction bs with
  | nil => simp [takeAlloc]
  | cons c cs ih =>
    unfold takeAlloc
    split
    · simpa using fun h => absurd ‹c.p = p› h
    · rw [Option.map_eq_none_iff, ih, List.forall_mem_cons, and_iff_right ‹_›]

end Cover

/-! ## Sizes -/

/-- A block of some, and of whole, 256 bytes. -/
def Mb.Whole (b : Mb) : Prop := 0 < b.size ∧ 256 ∣ b.size

theorem size256_dvd (n : ℕ) : 256 ∣ size256 n := Dvd.intro_left _ rfl

theorem le_size256 (n : ℕ) : n ≤ size256 n := by
  unfold size256
  omega

section Whole

/-- A block of the size that `AllocLocalMem` rounds a request up to. -/
theorem whole_of_size {b : Mb} {size : ℕ} (h : b.size = size256 size) (h0 : 0 < size) :
    b.Whole := by
  rw [Mb.Whole, h]
  exact ⟨Nat.lt_of_lt_of_le h0 (le_size256 size), size256_dvd size⟩

variable {n : ℕ} {b : Mb} {bs cs rest : List Mb}

theorem whole_takeFree {e : Bool} (h : takeFree n bs = some (b, e, rest)) (hn : 256 ∣ n)
    (hbs : ∀ c ∈ bs, c.Whole) : ∀ c ∈ rest, c.Whole := by
  induction bs generalizing rest with
  | nil => cases h
  | cons c cs ih =>
    rw [List.forall_mem_cons] at hbs
    unfold takeFree at h
    split at h
    · cases h
      exact hbs.2
    · split at h
      · cases h
        rw [List.forall_mem_cons]
        exact ⟨⟨by dsimp only; omega, Nat.dvd_sub hbs.1.2 hn⟩, hbs.2⟩
      · obtain ⟨r, hr, hr'⟩ := Option.map_eq_some_iff.mp h
        cases hr'
        rw [List.forall_mem_cons]
        exact ⟨hbs.1, ih hr hbs.2⟩

theorem whole_mergeFree (h : mergeFree b bs = some cs) (hb : b.Whole) (hbs : ∀ c ∈ bs, c.Whole) :
    ∀ c ∈ cs, c.Whole := by
  induction bs generalizing cs with
  | nil => cases h
  | cons c bs ih =>
    rw [List.forall_mem_cons] at hbs
    unfold mergeFree at h
    split at h
    · cases h
      rw [List.forall_mem_cons]
      exact ⟨⟨Nat.add_pos_left hbs.1.1 _, Nat.dvd_add hbs.1.2 hb.2⟩, hbs.2⟩
    · obtain ⟨r, hr, hr'⟩ := Option.map_eq_some_iff.mp h
      cases hr'
      rw [List.forall_mem_cons]
      exact ⟨hbs.1, ih hr hbs.2⟩

end Whole

/-! ## The invariant -/

/-- The block that a call has cut off and not yet put on `AllocList`. -/
def MemCall.splitOff : MemCall → List Mb
  | .kmallocNew size p | .listNew size p => [⟨p, size256 size⟩]
  | _ => []

/-- The execution of `GrowLocalMem` that a call is in. -/
def MemCall.growing : MemCall → Bool
  | .growKmalloc _ | .growHeap _ _ | .growList _ _ _ => true
  | _ => false

/-- The request that a call of `AllocLocalMem` is about. -/
def MemCall.request : MemCall → List ℕ
  | .retry size _ _ | .search size _ _ | .kmallocNew size _ | .listNew size _ => [size]
  | .growKmalloc (.alloc size _) | .growHeap _ (.alloc size _) | .growList _ _ (.alloc size _) =>
    [size]
  | _ => []

namespace LocalMem

/-- **The blocks**: free, allocated, and split off but not yet listed. -/
def blocks (s : LocalMem) : List Mb :=
  s.freeList ++ s.allocList ++ s.calls.flatMap MemCall.splitOff

/-- The units, with those that a call of `GrowLocalMem` has fetched and not
yet put on the free list. -/
def fetched (s : LocalMem) : List ℕ := s.units ++ s.calls.flatMap pendingUnit

/-- **The blocks tile the units.** -/
structure Tiles (s : LocalMem) : Prop where
  cover : ∀ a, coverAt a s.blocks = coverAt a (unitBlocks s.units)
  apart : ∀ a, coverAt a (unitBlocks s.fetched) ≤ 1
  pos : ∀ u ∈ s.fetched, 0 < u
  whole : ∀ b ∈ s.blocks, b.Whole
  request : ∀ c ∈ s.calls, ∀ n ∈ c.request, 0 < n

/-- **A unit that is about to be listed is the one fetched.** -/
def Reads (s : LocalMem) : Prop :=
  ∀ unit p k, .growList unit p k ∈ s.calls → p = unit ∧ unit ≠ 0

variable {s s' : LocalMem} {c : MemCall} {new : List MemCall}

/-- Where the entry is read back that was written, a unit that is listed is
one that was fetched. -/
theorem Reads.step {a : MemAct} (h : s.Reads) (hok : ReadsBack s a) (hs : s.Step a s') :
    s'.Reads := by
  intro unit p k hin
  cases hs with
  | alloc | ohciStart => exact h unit p k (by simpa using hin)
  | ohciRefused => exact h unit p k hin
  | free q =>
    refine h unit p k ?_
    unfold freeLocalMem at hin
    split at hin
    · exact hin
    · split at hin
      · exact hin
      · split at hin <;> exact hin
  | growNoMb k' hc =>
    refine h unit p k (List.mem_of_mem_erase (b := MemCall.growKmalloc k') ?_)
    cases k' <;> simpa [resume] using hin
  | growUnit index u k' hc htab hu =>
    obtain ⟨hi, -⟩ := hok index rfl
    rw [fetchUnit_eq hi] at hin
    split at hin
    · refine h unit p k (List.mem_of_mem_erase (b := MemCall.growHeap index k') ?_)
      cases k' <;> simpa [resume] using hin
    · rename_i h0
      obtain heq | hin := List.mem_cons.mp hin
      · cases heq
        exact ⟨rfl, h0⟩
      · exact h unit p k (List.mem_of_mem_erase hin)
  | growOverrun index k' s' hc hout ho => exact absurd hok.inTable hout
  | growList u q k' hc =>
    refine h unit p k (List.mem_of_mem_erase (b := MemCall.growList u q k') ?_)
    cases k' <;> simpa [resume] using hin
  | take | missFail | newNoMb | list | ohciDone | ohciFail =>
    exact h unit p k (List.mem_of_mem_erase hin)
  | skip | growStart | growRefused | growMb | split | missRetry | newMb =>
    exact h unit p k (List.mem_of_mem_erase (List.mem_of_ne_of_mem (by simp) hin))

theorem cover_blocks (s : LocalMem) (a : ℕ) : coverAt a s.blocks
    = coverAt a s.freeList + coverAt a s.allocList + coverAt a
      (s.calls.flatMap MemCall.splitOff) := by
  rw [blocks, cover_append, cover_append]

theorem cover_units (us vs : List ℕ) (a : ℕ) :
    coverAt a (unitBlocks (us ++ vs))
      = coverAt a (unitBlocks us) + coverAt a (unitBlocks vs) := by
  rw [unitBlocks, List.map_append]
  exact cover_append _ _ _

theorem mem_blocks {b : Mb} : b ∈ s.blocks ↔
    b ∈ s.freeList ∨ b ∈ s.allocList ∨ ∃ c ∈ s.calls, b ∈ c.splitOff := by
  rw [blocks, List.mem_append, List.mem_append, List.mem_flatMap, or_assoc]

/-- The blocks of a state in which a call has moved on. -/
theorem cover_calls (hc : c ∈ s.calls) (hcalls : s'.calls = new ++ s.calls.erase c) (a : ℕ) :
    coverAt a (s'.calls.flatMap MemCall.splitOff) + coverAt a c.splitOff
      = coverAt a (s.calls.flatMap MemCall.splitOff) + coverAt a
        (new.flatMap MemCall.splitOff) := by
  rw [hcalls, List.flatMap_append, cover_append,
    cover_perm a (List.perm_flatMap_erase MemCall.splitOff hc), cover_append]
  omega

/-- The pending units of a state in which a call has moved on. -/
theorem perm_fetched (hc : c ∈ s.calls) (hcalls : s'.calls = new ++ s.calls.erase c)
    (hu : s'.units ++ new.flatMap pendingUnit = s.units ++ pendingUnit c) :
    s'.fetched.Perm s.fetched := by
  rw [fetched, fetched, hcalls, List.flatMap_append, ← List.append_assoc, hu, List.append_assoc]
  exact (List.perm_flatMap_erase pendingUnit hc).symm.append_left _

/-- What remains true of the requests when a call has moved on. -/
theorem request_calls (h : ∀ c ∈ s.calls, ∀ n ∈ c.request, 0 < n)
    (hcalls : s'.calls = new ++ s.calls.erase c)
    (hnew : ∀ c' ∈ new, ∀ n ∈ c'.request, 0 < n) : ∀ c' ∈ s'.calls, ∀ n ∈ c'.request, 0 < n := by
  intro c' hc'
  rw [hcalls, List.mem_append] at hc'
  rcases hc' with hc' | hc'
  · exact hnew c' hc'
  · exact h c' (List.mem_of_mem_erase hc')

/-- **A call that moves on**, with lists that hold the same memory. -/
theorem Tiles.relist (h : s.Tiles) (hc : c ∈ s.calls) (hcalls : s'.calls = new ++ s.calls.erase c)
    (hunits : s'.units = s.units) (hpend : new.flatMap pendingUnit = pendingUnit c)
    (hcover : ∀ a, coverAt a s'.freeList + coverAt a s'.allocList
        + coverAt a (new.flatMap MemCall.splitOff)
      = coverAt a s.freeList + coverAt a s.allocList + coverAt a c.splitOff)
    (hfree : ∀ b ∈ s'.freeList, b.Whole) (halloc : ∀ b ∈ s'.allocList, b.Whole)
    (hnew : ∀ b ∈ new.flatMap MemCall.splitOff, b.Whole)
    (hreq : ∀ c' ∈ new, ∀ n ∈ c'.request, 0 < n) : s'.Tiles where
  cover := fun a => by
    have hcount := cover_calls hc hcalls a
    have hcov := h.cover a
    have hsame := hcover a
    rw [cover_blocks] at hcov
    rw [cover_blocks, hunits]
    omega
  apart := fun a => by
    have hperm := perm_fetched hc hcalls (by rw [hunits, hpend])
    rw [unitBlocks, cover_perm a (hperm.map _)]
    exact h.apart a
  pos := fun u hu => h.pos u ((perm_fetched hc hcalls (by rw [hunits, hpend])).mem_iff.mp hu)
  whole := fun b hb => by
    rcases mem_blocks.mp hb with hb | hb | ⟨c', hc', hb⟩
    · exact hfree b hb
    · exact halloc b hb
    · rw [hcalls, List.mem_append] at hc'
      rcases hc' with hc' | hc'
      · exact hnew b (List.mem_flatMap.mpr ⟨c', hc', hb⟩)
      · exact h.whole b (mem_blocks.mpr (.inr (.inr ⟨c', List.mem_of_mem_erase hc', hb⟩)))
  request := fun c' hc' => by
    rw [hcalls, List.mem_append] at hc'
    rcases hc' with hc' | hc'
    · exact hreq c' hc'
    · exact h.request c' (List.mem_of_mem_erase hc')

/-- A call that moves on without touching the lists. -/
theorem Tiles.move (h : s.Tiles) (hc : c ∈ s.calls) (hcalls : s'.calls = new ++ s.calls.erase c)
    (hfree : s'.freeList = s.freeList) (halloc : s'.allocList = s.allocList)
    (hunits : s'.units = s.units) (hsplit : new.flatMap MemCall.splitOff = c.splitOff)
    (hpend : new.flatMap pendingUnit = pendingUnit c)
    (hreq : ∀ c' ∈ new, c'.request = c.request) : s'.Tiles := by
  refine h.relist hc hcalls hunits hpend (fun a => by rw [hfree, halloc, hsplit])
    (fun b hb => ?_) (fun b hb => ?_) (fun b hb => ?_)
    (fun c' hc' n hn => h.request c hc n (hreq c' hc' ▸ hn))
  · exact h.whole b (mem_blocks.mpr (.inl (hfree ▸ hb)))
  · exact h.whole b (mem_blocks.mpr (.inr (.inl (halloc ▸ hb))))
  · exact h.whole b (mem_blocks.mpr (.inr (.inr ⟨c, hc, hsplit ▸ hb⟩)))

theorem Tiles.init : init.Tiles where
  cover := fun _ => rfl
  apart := fun _ => Nat.zero_le _
  pos := fun _ hu => absurd hu List.not_mem_nil
  whole := fun _ hb => absurd hb List.not_mem_nil
  request := fun _ hc => absurd hc List.not_mem_nil

/-- A new call. -/
theorem Tiles.start (h : s.Tiles) (hsplit : c.splitOff = []) (hpend : pendingUnit c = [])
    (hreq : ∀ n ∈ c.request, 0 < n) : { s with calls := c :: s.calls }.Tiles where
  cover := fun a => by
    have hcov := h.cover a
    rw [cover_blocks] at hcov ⊢
    rw [List.flatMap_cons, hsplit]
    exact hcov
  apart := fun a => by
    have hap := h.apart a
    rw [fetched] at hap ⊢
    rw [List.flatMap_cons, hpend]
    exact hap
  pos := fun u hu => by
    rw [fetched, List.flatMap_cons, hpend] at hu
    exact h.pos u hu
  whole := fun b hb => by
    rw [blocks, List.flatMap_cons, hsplit] at hb
    exact h.whole b hb
  request := List.forall_mem_cons.mpr ⟨hreq, h.request⟩

/-- **`FreeLocalMem`.** -/
theorem Tiles.free (h : s.Tiles) (p : ℕ) : (s.freeLocalMem p).2.Tiles := by
  unfold freeLocalMem
  split
  · exact h
  · split
    · exact h
    · rename_i b rest hfind
      obtain ⟨-, hperm⟩ := takeAlloc_some hfind
      have hb : b.Whole :=
        h.whole b (mem_blocks.mpr (.inr (.inl (hperm.mem_iff.mpr List.mem_cons_self))))
      have hcov := h.cover
      have hwhole := h.whole
      simp only [cover_blocks, cover_perm _ hperm] at hcov
      split
      · rename_i fl hmerge
        refine ⟨fun a => ?_, h.apart, h.pos, fun c hc => ?_, h.request⟩
        · have hm := cover_mergeFree hmerge a
          have hcov := hcov a
          rw [cover_blocks]
          rw [cover_cons] at hm hcov
          dsimp only
          omega
        · rw [mem_blocks] at hc
          rcases hc with hc | hc | hc
          · exact whole_mergeFree hmerge hb (fun c hc => hwhole c (mem_blocks.mpr (.inl hc))) c hc
          · exact hwhole c
              (mem_blocks.mpr (.inr (.inl (hperm.mem_iff.mpr (List.mem_cons_of_mem _ hc)))))
          · exact hwhole c (mem_blocks.mpr (.inr (.inr hc)))
      · refine ⟨fun a => ?_, h.apart, h.pos, fun c hc => ?_, h.request⟩
        · have hcov := hcov a
          rw [cover_blocks]
          rw [cover_cons] at hcov
          rw [cover_cons]
          dsimp only
          omega
        · rw [mem_blocks] at hc
          rcases hc with hc | hc | hc
          · rcases List.mem_cons.mp hc with rfl | hc
            · exact hb
            · exact hwhole c (mem_blocks.mpr (.inl hc))
          · exact hwhole c
              (mem_blocks.mpr (.inr (.inl (hperm.mem_iff.mpr (List.mem_cons_of_mem _ hc)))))
          · exact hwhole c (mem_blocks.mpr (.inr (.inr hc)))

/-- **`GrowLocalMem` behind the call of `ps2sif_allociopheap`**, when it reads
back what it has written. -/
theorem Tiles.fetchUnit {index : Option ℕ} {unit : ℕ} {k : GrowFrom} (h : s.Tiles)
    (hc : .growHeap index k ∈ s.calls) (hi : index.getD s.nlocalMems = s.nlocalMems)
    (hu : unit = 0 ∨ s.HeapFree unit) :
    (s.fetchUnit index unit k (s.calls.erase (.growHeap index k))).Tiles := by
  rw [fetchUnit_eq hi]
  split
  · exact h.move hc rfl rfl rfl rfl (by cases k <;> rfl) (by cases k <;> rfl)
      (by cases k <;> simp [MemCall.request, resume])
  rename_i h0
  replace hu := hu.resolve_left h0
  have hunit : unitOf unit = [unit] := if_neg h0
  have hcalls : { s.setUnit index unit with
      calls := .growList unit unit k :: s.calls.erase (.growHeap index k) }.calls
        = [.growList unit unit k] ++ s.calls.erase (.growHeap index k) := rfl
  have hperm := List.perm_flatMap_erase pendingUnit hc
  have hfetched : (unit :: s.fetched).Perm { s.setUnit index unit with
      calls := .growList unit unit k :: s.calls.erase (.growHeap index k) }.fetched := by
    rw [fetched, fetched, List.flatMap_cons, pendingUnit, hunit]
    exact (List.perm_middle.symm).trans ((hperm.cons unit).append_left _)
  refine ⟨fun a => ?_, fun a => ?_, fun u hu' => ?_, fun b hb => ?_,
    request_calls h.request hcalls ?_⟩
  · have hcount := cover_calls hc hcalls a
    have hcov := h.cover a
    rw [cover_blocks] at hcov ⊢
    simp only [List.flatMap_singleton, MemCall.splitOff, coverAt, List.countP_nil] at hcount
    dsimp only [setUnit] at hcount ⊢
    simp only [coverAt] at hcov ⊢
    omega
  · rw [unitBlocks, cover_perm a (hfetched.symm.map _), List.map_cons, cover_cons]
    have hap := h.apart a
    rw [unitBlocks] at hap
    split_ifs with hin
    · have hzero : ¬ 0 < coverAt a (unitBlocks s.fetched) := by
        rw [cover_pos_iff]
        rintro ⟨b, hb, hba⟩
        obtain ⟨u, hu', rfl⟩ := List.mem_map.mp hb
        have := hu.2 u hu'
        simp only [Mb.Has] at hin hba
        omega
      rw [unitBlocks] at hzero
      omega
    · omega
  · rcases List.mem_cons.mp (hfetched.mem_iff.mpr hu') with rfl | hu'
    · exact hu.1
    · exact h.pos u hu'
  · refine h.whole b ?_
    rw [mem_blocks] at hb ⊢
    refine hb.imp_right (Or.imp_right ?_)
    rintro ⟨c', hc', hb⟩
    rcases List.mem_cons.mp hc' with rfl | hc'
    · cases hb
    · exact ⟨c', List.mem_of_mem_erase hc', hb⟩
  · intro c' hc'
    rw [List.mem_singleton.mp hc']
    have hreq := h.request _ hc
    cases k with
    | alloc size doRetry => exact hreq
    | allocateOhci => exact hreq

/-- The steps that the account is about: bookkeeping blocks are there, and
`Portable_AllocateOhci` does not clean up. -/
def Sound (_ : LocalMem) (a : MemAct) : Prop := a ≠ .newNoMb ∧ a ≠ .ohciFail

/-- **One step keeps the tiling.** -/
theorem Tiles.step {a : MemAct} (h : s.Tiles) (hread : s.Reads) (hok : Sound s a)
    (hback : ReadsBack s a)
    (hs : s.Step a s') : s'.Tiles := by
  cases hs with
  | alloc size inInterrupt h0 hmax => exact h.start rfl rfl (by simpa [MemCall.request] using h0)
  | skip size doRetry inInterrupt hc hg =>
    exact h.move hc (List.singleton_append).symm rfl rfl rfl rfl rfl (by simp [MemCall.request])
  | growStart size doRetry hc hg hcap =>
    exact h.move hc (List.singleton_append).symm rfl rfl rfl rfl rfl (by simp [MemCall.request])
  | growRefused size doRetry hc hg hcap =>
    exact h.move hc (List.singleton_append).symm rfl rfl rfl rfl rfl (by simp [MemCall.request])
  | growMb index k hc hi =>
    exact h.move hc (List.singleton_append).symm rfl rfl rfl rfl rfl
      (by cases k <;> simp [MemCall.request])
  | growNoMb k hc =>
    exact h.move hc rfl rfl rfl rfl (by cases k <;> rfl) (by cases k <;> rfl)
      (by cases k <;> simp [MemCall.request, resume])
  | growOverrun index k s' hc hout ho => exact absurd hback.inTable hout
  | growUnit index unit k hc htab hu => exact h.fetchUnit hc (hback index rfl).1 hu
  | growList unit p k hc =>
    obtain ⟨rfl, h0⟩ := hread unit p k hc
    have hunit : unitOf p = [p] := if_neg h0
    have hperm := List.perm_flatMap_erase pendingUnit hc
    have hresume : (resume k true).flatMap pendingUnit = [] := by cases k <;> rfl
    have hsplit : (resume k true).flatMap MemCall.splitOff = [] := by cases k <;> rfl
    rw [hunit, List.singleton_append]
    rw [pendingUnit, hunit] at hperm
    have hfetched : s.fetched.Perm (p :: s.units
        ++ (resume k true ++ s.calls.erase (.growList p p k)).flatMap pendingUnit) := by
      rw [fetched, List.flatMap_append, hresume]
      exact (hperm.append_left _).trans List.perm_middle
    refine ⟨fun a => ?_, fun a => ?_, fun u hu => h.pos u (hfetched.mem_iff.mpr hu),
      fun b hb => ?_, request_calls h.request rfl ?_⟩
    · have hcov := h.cover a
      have hp := cover_perm a (List.perm_flatMap_erase MemCall.splitOff hc)
      rw [cover_blocks, hp] at hcov
      rw [cover_blocks, List.flatMap_append, hsplit, unitBlocks, List.map_cons]
      simp only [cover_cons, cover_append, MemCall.splitOff, cover_nil] at hcov ⊢
      rw [unitBlocks] at hcov
      omega
    · rw [fetched, unitBlocks, ← cover_perm a (hfetched.map _)]
      exact h.apart a
    · rw [mem_blocks] at hb
      rcases hb with hb | hb | ⟨c', hc', hb⟩
      · rcases List.mem_cons.mp hb with rfl | hb
        · exact ⟨Nat.succ_pos _, Dvd.intro 256 rfl⟩
        · exact h.whole b (mem_blocks.mpr (.inl hb))
      · exact h.whole b (mem_blocks.mpr (.inr (.inl hb)))
      · refine h.whole b (mem_blocks.mpr (.inr (.inr ?_)))
        rcases List.mem_append.mp hc' with hc' | hc'
        · have hin := List.mem_flatMap.mpr ⟨c', hc', hb⟩
          rw [hsplit] at hin
          cases hin
        · exact ⟨c', List.mem_of_mem_erase hc', hb⟩
    · have hreq := h.request _ hc
      cases k with
      | alloc size doRetry => exact List.forall_mem_singleton.mpr hreq
      | allocateOhci => exact List.forall_mem_singleton.mpr hreq
  | take size doRetry inInterrupt b rest hc hf =>
    have hfree : ∀ c ∈ s.freeList, c.Whole := fun c hin => h.whole c (mem_blocks.mpr (.inl hin))
    refine h.relist hc (List.nil_append _).symm rfl rfl (fun a => ?_)
      (whole_takeFree hf (size256_dvd size) hfree) (List.forall_mem_cons.mpr ⟨?_, fun c hin =>
        h.whole c (mem_blocks.mpr (.inr (.inl hin)))⟩) (by simp) (by simp)
    · have ht := cover_takeFree hf a
      simp only [cover_cons, List.flatMap_nil, cover_nil, MemCall.splitOff] at ht ⊢
      omega
    · exact whole_of_size (size_takeFree hf) (h.request _ hc size List.mem_cons_self)
  | split size doRetry inInterrupt b rest hc hf =>
    have hfree : ∀ c ∈ s.freeList, c.Whole := fun c hin => h.whole c (mem_blocks.mpr (.inl hin))
    have hsize := size_takeFree hf
    have hpos := h.request _ hc size List.mem_cons_self
    have hnew : MemCall.splitOff (.kmallocNew size b.p) = [b] := by
      rw [MemCall.splitOff, ← hsize]
    refine h.relist hc List.singleton_append.symm rfl rfl (fun a => ?_)
      (whole_takeFree hf (size256_dvd size) hfree)
      (fun c hin => h.whole c (mem_blocks.mpr (.inr (.inl hin)))) (fun c hin => ?_)
      (by simpa [MemCall.request] using hpos)
    · have ht := cover_takeFree hf a
      rw [List.flatMap_singleton, hnew]
      simp only [cover_cons, cover_nil, MemCall.splitOff] at ht ⊢
      omega
    · rw [List.flatMap_singleton, hnew, List.mem_singleton] at hin
      rw [hin]
      exact whole_of_size hsize hpos
  | missRetry size inInterrupt hc hf =>
    exact h.move hc (List.singleton_append).symm rfl rfl rfl rfl rfl (by simp [MemCall.request])
  | missFail size inInterrupt hc hf =>
    exact h.move hc (List.nil_append _).symm rfl rfl rfl rfl rfl nofun
  | newMb size p hc =>
    exact h.move hc (List.singleton_append).symm rfl rfl rfl rfl rfl (by simp [MemCall.request])
  | newNoMb size p hc => exact absurd rfl hok.1
  | list size p hc =>
    refine h.relist hc (List.nil_append _).symm rfl rfl (fun a => ?_)
      (fun c hin => h.whole c (mem_blocks.mpr (.inl hin))) (List.forall_mem_cons.mpr ⟨?_,
        fun c hin =>
        h.whole c (mem_blocks.mpr (.inr (.inl hin)))⟩) (by simp) (by simp)
    · simp only [cover_cons, List.flatMap_nil, cover_nil, MemCall.splitOff]
      omega
    · exact whole_of_size rfl (h.request _ hc size List.mem_cons_self)
  | free p => exact h.free p
  | ohciStart hcap => exact h.start rfl rfl (by simp [MemCall.request])
  | ohciRefused hcap => exact h
  | ohciDone hc => exact h.move hc (List.nil_append _).symm rfl rfl rfl rfl rfl nofun
  | ohciFail hc => exact absurd rfl hok.2

/-- The blocks lie apart. -/
theorem Tiles.pairwise (h : s.Tiles) : s.blocks.Pairwise Mb.Apart :=
  pairwise_apart_of_cover fun a => by
    have hap := h.apart a
    rw [fetched, cover_units] at hap
    rw [h.cover a]
    omega

/-- An address is in a block when it is in a unit. -/
theorem Tiles.has_iff (h : s.Tiles) (a : ℕ) : (∃ b ∈ s.blocks, b.Has a) ↔
    ∃ u ∈ s.units, u ≤ a ∧ a < u + localMemUnit := by
  rw [← cover_pos_iff, h.cover a, cover_pos_iff]
  constructor
  · rintro ⟨b, hb, hba⟩
    obtain ⟨u, hu, rfl⟩ := List.mem_map.mp hb
    exact ⟨u, hu, hba⟩
  · rintro ⟨u, hu, hua⟩
    exact ⟨_, List.mem_map.mpr ⟨u, hu, rfl⟩, hua⟩

/-- No block starts at `NULL`. -/
theorem Tiles.ne_null (h : s.Tiles) {b : Mb} (hb : b ∈ s.blocks) : b.p ≠ 0 := by
  have hsize := (h.whole b hb).1
  obtain ⟨u, hu, hle, -⟩ := (h.has_iff b.p).mp ⟨b, hb, Nat.le_refl _, by omega⟩
  have hpos := h.pos u (List.mem_append_left _ hu)
  omega

/-- Allocated blocks that start at the same address are the same. -/
theorem Tiles.alloc_unique (h : s.Tiles) {b c : Mb} (hb : b ∈ s.allocList) (hc : c ∈ s.allocList)
    (hp : b.p = c.p) : b = c := by
  by_contra hne
  have hb' : b ∈ s.blocks := mem_blocks.mpr (.inr (.inl hb))
  have hc' : c ∈ s.blocks := mem_blocks.mpr (.inr (.inl hc))
  have hsb := (h.whole b hb').1
  have hsc := (h.whole c hc').1
  have hsym : Std.Symm Mb.Apart := ⟨fun b c hbc a hc hb => hbc a hb hc⟩
  have hapart := h.pairwise.forall hb' hc' hne
  exact hapart b.p ⟨Nat.le_refl _, by omega⟩ ⟨by omega, by omega⟩

/-- **`FreeLocalMem` of the start of an allocated block** frees this block. -/
theorem Tiles.free_alloc (h : s.Tiles) {b : Mb} (hb : b ∈ s.allocList) :
    (s.freeLocalMem b.p).1 = 1 ∧ s.allocList.Perm (b :: (s.freeLocalMem b.p).2.allocList) ∧
      ∀ a, (∃ c ∈ (s.freeLocalMem b.p).2.freeList, c.Has a) ↔
        b.Has a ∨ ∃ c ∈ s.freeList, c.Has a := by
  have hnull := h.ne_null (mem_blocks.mpr (.inr (.inl hb)))
  unfold freeLocalMem
  rw [if_neg hnull]
  cases hfind : takeAlloc b.p s.allocList with
  | none => exact absurd rfl (takeAlloc_none_iff.mp hfind b hb)
  | some r =>
    obtain ⟨c, rest⟩ := r
    obtain ⟨hp, hperm⟩ := takeAlloc_some hfind
    have hcb := h.alloc_unique (hperm.mem_iff.mpr List.mem_cons_self) hb hp
    subst hcb
    have hcons : ∀ a, (∃ d ∈ c :: s.freeList, d.Has a) ↔ c.Has a ∨ ∃ d ∈ s.freeList, d.Has a :=
      fun a => by simp
    dsimp only
    cases hmerge : mergeFree c s.freeList with
    | none => exact ⟨rfl, hperm, hcons⟩
    | some fl =>
      refine ⟨rfl, hperm, fun a => ?_⟩
      rw [← hcons a, ← cover_pos_iff, ← cover_pos_iff, cover_mergeFree hmerge a]

/-- `FreeLocalMem` of another pointer. -/
theorem freeLocalMem_other {p : ℕ} (h : ∀ b ∈ s.allocList, b.p ≠ p) :
    s.freeLocalMem p = (0, s) := by
  unfold freeLocalMem
  rw [takeAlloc_none_iff.mpr h]
  split <;> rfl

/-- **The allocator neither loses nor shares memory**: the blocks are not
empty, have sizes in multiples of 256, lie apart from each other and make up
the units that were fetched. What `AllocLocalMem` returns is the start of a
block that is large enough, and that no one else holds. `FreeLocalMem` of an
allocated start returns 1 and makes exactly this block free, and of any other
pointer returns 0 and changes nothing. -/
def KeepsAccount (s : LocalMem) : Prop :=
  ((∀ b ∈ s.blocks, 0 < b.size ∧ 256 ∣ b.size) ∧ s.blocks.Pairwise Mb.Apart ∧
    ∀ a, (∃ b ∈ s.blocks, b.Has a) ↔ ∃ u ∈ s.units, u ≤ a ∧ a < u + localMemUnit) ∧
  (∀ size p a s', a = MemAct.take size p ∨ a = MemAct.list size p → s.Step a s' →
    ∃ b, b.p = p ∧ p ≠ 0 ∧ size ≤ b.size ∧ s'.allocList = b :: s.allocList ∧
      ∀ c ∈ s.allocList ++ s'.calls.flatMap MemCall.splitOff, b.Apart c) ∧
  ∀ p, (∀ b ∈ s.allocList, b.p = p → (s.freeLocalMem p).1 = 1 ∧
      s.allocList.Perm (b :: (s.freeLocalMem p).2.allocList) ∧
      ∀ a, (∃ c ∈ (s.freeLocalMem p).2.freeList, c.Has a) ↔
        b.Has a ∨ ∃ c ∈ s.freeList, c.Has a) ∧
    ((∀ b ∈ s.allocList, b.p ≠ p) → s.freeLocalMem p = (0, s))

theorem Tiles.keepsAccount (ht : s.Tiles) (hread : s.Reads) : s.KeepsAccount := by
  refine ⟨⟨ht.whole, ht.pairwise, ht.has_iff⟩, fun size p a s' ha hs => ?_, fun p =>
    ⟨fun b hb hp => ?_, freeLocalMem_other⟩⟩
  · have hsound : Sound s a := by rcases ha with rfl | rfl <;> exact ⟨by simp, by simp⟩
    have hback : ReadsBack s a := by
      rcases ha with rfl | rfl <;> exact .of_ne (fun _ => by simp)
    have ht' := ht.step hread hsound hback hs
    have hgot : ∃ b, b.p = p ∧ size ≤ b.size ∧ s'.allocList = b :: s.allocList := by
      rcases ha with rfl | rfl
      · cases hs with
        | take size doRetry inInterrupt b rest hc hf =>
          exact ⟨b, rfl, (size_takeFree hf).symm ▸ le_size256 size, rfl⟩
      · cases hs with
        | list size p hc => exact ⟨_, rfl, le_size256 size, rfl⟩
    obtain ⟨b, hp, hle, halloc⟩ := hgot
    have hpair := ht'.pairwise
    rw [blocks, halloc, List.append_assoc, List.pairwise_append, List.cons_append,
      List.pairwise_cons] at hpair
    refine ⟨b, hp, ?_, hle, halloc, hpair.2.1.1⟩
    rw [← hp]
    exact ht'.ne_null (mem_blocks.mpr (.inr (.inl (halloc ▸ List.mem_cons_self))))
  · subst hp
    exact ht.free_alloc hb

/-! ## Growth one at a time -/

/-- `FreeLocalMem` does not touch the table. -/
theorem freeLocalMem_table (s : LocalMem) (p : ℕ) :
    (s.freeLocalMem p).2.localMems = s.localMems ∧ (s.freeLocalMem p).2.nlocalMems
      = s.nlocalMems ∧
      (s.freeLocalMem p).2.units = s.units ∧ (s.freeLocalMem p).2.calls = s.calls ∧
      (s.freeLocalMem p).2.overrun = s.overrun := by
  unfold freeLocalMem
  split
  · exact ⟨rfl, rfl, rfl, rfl, rfl⟩
  · split
    · exact ⟨rfl, rfl, rfl, rfl, rfl⟩
    · split <;> exact ⟨rfl, rfl, rfl, rfl, rfl⟩

/-- How many executions of `GrowLocalMem` have passed the test. -/
def growers (s : LocalMem) : ℕ := s.calls.countP MemCall.growing

/-- The steps that the account is about, with no two executions of
`GrowLocalMem` at once. -/
def Accountable (s : LocalMem) (a : MemAct) : Prop :=
  Sound s a ∧ (a = .growStart ∨ a = .ohciStart → s.growers = 0)

/-- **What a step must not do**: pass the test of `GrowLocalMem` when there are
16 units. -/
def TilesClean (s : LocalMem) (a : MemAct) : Prop :=
  Accountable s a ∧
    (a = .growStart ∨ a = .ohciStart → s.nlocalMems < maxLocalMem / localMemUnit)

/-- **At most one execution of `GrowLocalMem` is under way**, it finds room in
the table, and an index it has read is that of the next entry. -/
structure Single (s : LocalMem) : Prop where
  one : s.growers ≤ 1
  room : 0 < s.growers → s.nlocalMems < maxLocalMem / localMemUnit
  saved : ∀ index k, .growHeap index k ∈ s.calls → index.getD s.nlocalMems = s.nlocalMems

theorem Single.init : init.Single :=
  ⟨Nat.zero_le 1, fun h => absurd h (Nat.lt_irrefl 0), fun _ _ h => absurd h List.not_mem_nil⟩

/-- A call that moves on and counts no unit. -/
theorem Single.move (h : s.Single) (hc : c ∈ s.calls) (hcalls : s'.calls = new ++ s.calls.erase c)
    (hn : s'.nlocalMems = s.nlocalMems) (hgrow : new.countP MemCall.growing ≤ c.growing.toNat)
    (hsaved : ∀ index k, .growHeap index k ∈ new → index.getD s.nlocalMems = s.nlocalMems) :
    s'.Single := by
  have hcount := List.countP_erase_add MemCall.growing hc
  have hle : s'.growers ≤ s.growers := by
    rw [growers, growers, hcalls, List.countP_append]
    omega
  refine ⟨Nat.le_trans hle h.one, fun hpos => hn ▸ h.room (Nat.lt_of_lt_of_le hpos hle),
    fun index k hin => ?_⟩
  rw [hcalls, List.mem_append] at hin
  rw [hn]
  exact hin.elim (hsaved index k) (fun hin => h.saved index k (List.mem_of_mem_erase hin))

/-- An execution is under way. -/
theorem growers_pos (hc : c ∈ s.calls) (hg : c.growing = true) : 0 < s.growers :=
  List.countP_pos_iff.mpr ⟨c, hc, hg⟩

/-- Another execution than the one at hand is not under way. -/
theorem Single.rest (h : s.Single) (hc : c ∈ s.calls) (hg : c.growing = true) :
    (s.calls.erase c).countP MemCall.growing = 0 := by
  have hcount := List.countP_erase_add MemCall.growing hc
  have hone := h.one
  rw [hg, Bool.toNat_true] at hcount
  rw [growers] at hone
  omega

theorem Single.readsBack {a : MemAct} (h : s.Single) (hs : s.Step a s') : ReadsBack s a := by
  rintro index rfl
  cases hs with
  | growUnit _ unit k hc htab hu => exact ⟨h.saved index k hc, h.room (growers_pos hc rfl)⟩
  | growOverrun _ k _ hc hout ho => exact ⟨h.saved index k hc, h.room (growers_pos hc rfl)⟩

/-- A new call that is in `GrowLocalMem`. -/
theorem Single.start (h : s.Single) (h0 : s.growers = 0)
    (hroom : s.nlocalMems < maxLocalMem / localMemUnit) {cs : List MemCall} {k : GrowFrom}
    (hcs : cs.countP MemCall.growing ≤ s.growers) (hsub : ∀ x ∈ cs, x ∈ s.calls) {n : ℕ} :
    Single { s with insufficientLocalMem := n, calls := .growKmalloc k :: cs } := by
  refine ⟨?_, fun _ => hroom, fun index k' hin => ?_⟩
  · rw [growers, List.countP_cons_of_pos rfl]
    omega
  · exact h.saved index k' (hsub _ (List.mem_of_ne_of_mem (by simp) hin))

theorem Single.step {a : MemAct} (h : s.Single) (hok : TilesClean s a) (hs : s.Step a s') :
    s'.Single := by
  have hback := h.readsBack hs
  cases hs with
  | alloc size inInterrupt h0 hmax =>
    refine ⟨?_, fun hpos => ?_, fun index k hin => h.saved index k (by simpa using hin)⟩
    · rw [growers, List.countP_cons_of_neg (by simp [MemCall.growing])]
      exact h.one
    · rw [growers, List.countP_cons_of_neg (by simp [MemCall.growing])] at hpos
      exact h.room hpos
  | skip size doRetry inInterrupt hc hg =>
    exact h.move hc List.singleton_append.symm rfl (by simp [MemCall.growing]) (by simp)
  | growStart size doRetry hc hg hcap =>
    exact h.start (hok.1.2 (.inl rfl)) (hok.2 (.inl rfl))
      (Nat.le.intro (List.countP_erase_add MemCall.growing hc))
        (fun _ hx => List.mem_of_mem_erase hx)
  | growRefused size doRetry hc hg hcap =>
    exact h.move hc List.singleton_append.symm rfl (by simp [MemCall.growing]) (by simp)
  | growMb index k hc hi =>
    refine h.move hc List.singleton_append.symm rfl (by simp [MemCall.growing])
      (fun index' k' hin => ?_)
    cases List.mem_singleton.mp hin
    rcases hi with rfl | rfl <;> rfl
  | growNoMb k hc =>
    exact h.move hc rfl rfl (by cases k <;> simp [MemCall.growing, resume])
      (by cases k <;> simp [resume])
  | growUnit index unit k hc htab hu =>
    rw [fetchUnit_eq (hback index rfl).1]
    split
    · exact h.move hc rfl rfl (by cases k <;> simp [MemCall.growing, resume])
        (by cases k <;> simp [resume])
    · exact h.move hc List.singleton_append.symm rfl (by simp [MemCall.growing]) (by simp)
  | growOverrun index k s' hc hout ho => exact absurd hback.inTable hout
  | growList unit p k hc =>
    have hrest := h.rest hc rfl
    have hresume : (resume k true).countP MemCall.growing = 0 := by cases k <;> rfl
    have hnone : (resume k true ++ s.calls.erase (.growList unit p k)).countP MemCall.growing
        = 0 := by
      rw [List.countP_append, hresume, hrest]
    refine ⟨?_, fun hpos => ?_, fun index k' hin => ?_⟩
    · rw [growers, hnone]
      exact Nat.zero_le 1
    · rw [growers, hnone] at hpos
      exact absurd hpos (Nat.lt_irrefl 0)
    · have hpos : 0 < (resume k true ++ s.calls.erase (.growList unit p k)).countP
          MemCall.growing :=
        List.countP_pos_iff.mpr ⟨_, hin, rfl⟩
      rw [hnone] at hpos
      exact absurd hpos (Nat.lt_irrefl 0)
  | take size doRetry inInterrupt b rest hc hf =>
    exact h.move hc (List.nil_append _).symm rfl (by simp) (by simp)
  | split size doRetry inInterrupt b rest hc hf =>
    exact h.move hc List.singleton_append.symm rfl (by simp [MemCall.growing]) (by simp)
  | missRetry size inInterrupt hc hf =>
    exact h.move hc List.singleton_append.symm rfl (by simp [MemCall.growing]) (by simp)
  | missFail size inInterrupt hc hf =>
    exact h.move hc (List.nil_append _).symm rfl (by simp) (by simp)
  | newMb size p hc =>
    exact h.move hc List.singleton_append.symm rfl (by simp [MemCall.growing]) (by simp)
  | newNoMb size p hc => exact h.move hc (List.nil_append _).symm rfl (by simp) (by simp)
  | list size p hc => exact h.move hc (List.nil_append _).symm rfl (by simp) (by simp)
  | free p =>
    obtain ⟨-, hn, -, hcalls, -⟩ := s.freeLocalMem_table p
    refine ⟨?_, fun hpos => ?_, fun index k hin => ?_⟩
    · rw [growers, hcalls]
      exact h.one
    · rw [growers, hcalls] at hpos
      rw [hn]
      exact h.room hpos
    · rw [hcalls] at hin
      rw [hn]
      exact h.saved index k hin
  | ohciStart hcap =>
    exact h.start (hok.1.2 (.inr rfl)) (hok.2 (.inr rfl)) (Nat.le_refl _) (fun _ hx => hx)
  | ohciRefused hcap => exact h
  | ohciDone hc => exact h.move hc (List.nil_append _).symm rfl (by simp) (by simp)
  | ohciFail hc => exact absurd rfl hok.1.1.2

/-- **The allocator neither loses nor shares memory** in every run in which
`GrowLocalMem` is not executed with 16 units. -/
theorem localMem_tiles (h : Run TilesClean init s) : s.KeepsAccount := by
  have hinv : s.Tiles ∧ s.Reads ∧ s.Single :=
    h.of_step (P := fun s => s.Tiles ∧ s.Reads ∧ s.Single)
      ⟨Tiles.init, fun _ _ _ hin => absurd hin List.not_mem_nil, Single.init⟩
      fun s a s' ⟨ht, hr, h1⟩ hok hs =>
        ⟨ht.step hr hok.1.1 (h1.readsBack hs) hs, hr.step (h1.readsBack hs) hs, h1.step hok hs⟩
  exact hinv.1.keepsAccount hinv.2.1

/-- Two blocks handed out, and the first of them freed. -/
theorem localMem_tiles_freed : KeepsAccount { oneUnit with
    freeList := [⟨0x1fe00, 512⟩, ⟨0x10000, 0xfd00⟩], allocList := [⟨0x1fd00, 256⟩] } := by
  have h₁ : Run TilesClean init _ :=
    .tail (a := .ohciStart) .refl ⟨⟨by simp [Sound], fun _ => rfl⟩, fun _ => by decide⟩
      (.ohciStart (by decide))
  have hother : ∀ {s : LocalMem} {a : MemAct},
      a ≠ .newNoMb ∧ a ≠ .ohciFail ∧ a ≠ .growStart ∧ a ≠ .ohciStart → TilesClean s a :=
    fun ⟨hmb, hfail, hg, ho⟩ =>
      ⟨⟨⟨hmb, hfail⟩, fun ha => (ha.elim hg ho).elim⟩, fun ha => (ha.elim hg ho).elim⟩
  have h₂ := h₁.tail (hother (by decide))
    (.growMb none .allocateOhci (by decide) (.inl rfl))
  have h₃ := h₂.tail (hother (by decide))
    (.growUnit none 0x10000 .allocateOhci (by decide) (by decide) (.inr ⟨by decide, by decide⟩))
  have h₄ := h₃.tail (hother (by decide))
    (.growList 0x10000 0x10000 .allocateOhci (by decide))
  have h₅ := h₄.tail (hother (by decide)) (.ohciDone (by decide))
  have h₆ := h₅.tail (hother (by decide))
    (.alloc 300 false (by decide) (by decide))
  have h₇ := h₆.tail (hother (by decide))
    (.skip 300 true false (by decide) (.inr rfl))
  have h₈ := h₇.tail (hother (by decide))
    (.split 300 true false ⟨0x1fe00, 512⟩ [⟨0x10000, 0xfe00⟩] (by decide) (by decide))
  have h₉ := h₈.tail (hother (by decide)) (.newMb 300 0x1fe00 (by decide))
  have h₁₀ := h₉.tail (hother (by decide)) (.list 300 0x1fe00 (by decide))
  have h₁₁ := h₁₀.tail (hother (by decide))
    (.alloc 200 false (by decide) (by decide))
  have h₁₂ := h₁₁.tail (hother (by decide))
    (.skip 200 true false (by decide) (.inr rfl))
  have h₁₃ := h₁₂.tail (hother (by decide))
    (.split 200 true false ⟨0x1fd00, 256⟩ [⟨0x10000, 0xfd00⟩] (by decide) (by decide))
  have h₁₄ := h₁₃.tail (hother (by decide))
    (.newMb 200 0x1fd00 (by decide))
  have h₁₅ := h₁₄.tail (hother (by decide))
    (.list 200 0x1fd00 (by decide))
  exact localMem_tiles (h₁₅.tail (hother (by decide)) (.free 0x1fe00))

/-! ## The 17th unit -/

/-- The memory when `n` units were fetched and all of it is allocated. -/
structure UsedUp (s : LocalMem) (n : ℕ) : Prop where
  count : s.nlocalMems = n
  quiet : s.insufficientLocalMem = 0 ∧ s.freeList = [] ∧ s.calls = []
  below : ∀ u ∈ s.units, u + localMemUnit ≤ (n + 1) * localMemUnit

/-- A step that does not begin to grow. -/
theorem Accountable.of_ne {a : MemAct}
    (h : a ≠ .newNoMb ∧ a ≠ .ohciFail ∧ a ≠ .growStart ∧ a ≠ .ohciStart) : Accountable s a :=
  ⟨⟨h.1, h.2.1⟩, fun ha => (ha.elim h.2.2.1 h.2.2.2).elim⟩

/-- A request for a whole unit, up to the call of `ps2sif_allociopheap`. -/
theorem UsedUp.ask {n : ℕ} (hrun : Run Accountable init s) (h : s.UsedUp n)
    (hn : n ≤ maxLocalMem / localMemUnit) : Run Accountable init
      { s with calls := [.growHeap none (.alloc localMemUnit false)] } := by
  obtain ⟨hcount, ⟨hins, hfree, hcalls⟩, -⟩ := h
  have hcap : ¬ maxLocalMem / localMemUnit < s.nlocalMems := by
    rw [hcount]
    exact Nat.not_lt.mpr hn
  have h₁ := hrun.tail (.of_ne (by decide)) (.alloc localMemUnit false (by decide) (by decide))
  have h₂ := h₁.tail (.of_ne (by decide))
    (.skip localMemUnit true false List.mem_cons_self (.inr hins))
  have h₃ := h₂.tail (.of_ne (by decide))
    (.missRetry localMemUnit false List.mem_cons_self (by rw [hfree]; rfl))
  have h₄ := h₃.tail ⟨⟨by simp, by simp⟩, fun _ => by simp [growers, hcalls, MemCall.growing]⟩
    (.growStart localMemUnit false List.mem_cons_self (Nat.succ_ne_zero _) hcap)
  have h₅ := h₄.tail (.of_ne (by decide))
    (.growMb none (.alloc localMemUnit false) List.mem_cons_self (.inl rfl))
  simp only [hcalls, List.erase_cons_head] at h₅
  rw [← hins] at h₅
  exact h₅

/-- One more request for a whole unit fetches one more. -/
theorem UsedUp.grow {n : ℕ} (hrun : Run Accountable init s) (h : s.UsedUp n)
    (hn : n < maxLocalMem / localMemUnit) :
    ∃ s', Run Accountable init s' ∧ s'.UsedUp (n + 1) := by
  have hask := h.ask hrun (Nat.le_of_lt hn)
  obtain ⟨hcount, ⟨hins, hfree, hcalls⟩, hbelow⟩ := h
  have hsize : localMemUnit = size256 localMemUnit := by decide
  have hunit : (n + 1) * localMemUnit ≠ 0 := Nat.mul_ne_zero (Nat.succ_ne_zero n) (by decide)
  have h₁ := hask.tail (.of_ne (by decide)) (.growUnit none ((n + 1) * localMemUnit)
    (.alloc localMemUnit false) (List.mem_singleton.mpr rfl) ⟨hcount ▸ hn, hcount ▸ hn⟩
    (.inr ⟨Nat.pos_of_ne_zero hunit, fun u hu => .inl (hbelow u ?_)⟩))
  · rw [fetchUnit_eq rfl, if_neg hunit, List.erase_cons_head] at h₁
    have h₂ := h₁.tail (.of_ne (by decide)) (.growList ((n + 1) * localMemUnit)
      ((n + 1) * localMemUnit) (.alloc localMemUnit false) (List.mem_singleton.mpr rfl))
    have h₃ := h₂.tail (.of_ne (by simp)) (.take localMemUnit false false
      ⟨(n + 1) * localMemUnit, localMemUnit⟩ s.freeList (List.mem_append_left _
        (List.mem_singleton.mpr rfl)) (by rw [← hsize, takeFree, if_pos rfl]; rfl))
    refine ⟨_, h₃, congrArg (· + 1) hcount, ⟨hins, hfree, ?_⟩, fun u hu => ?_⟩
    · simp [resume]
    · rw [Nat.add_one_mul (n + 1)]
      have hu : u ∈ (n + 1) * localMemUnit :: s.units := by
        rwa [unitOf, if_neg hunit] at hu
      rcases List.mem_cons.mp hu with rfl | hu
      · exact Nat.le_refl _
      · exact Nat.le_trans (hbelow u hu) (Nat.le_add_right _ _)
  · rcases List.mem_append.mp hu with hu | hu
    · exact hu
    · simp [pendingUnit] at hu

theorem exists_usedUp {n : ℕ} (hn : n ≤ maxLocalMem / localMemUnit) :
    ∃ s, Run Accountable init s ∧ s.UsedUp n := by
  induction n with
  | zero => exact ⟨init, .refl, rfl, ⟨rfl, rfl, rfl⟩, fun u hu => absurd hu List.not_mem_nil⟩
  | succ n ih =>
    obtain ⟨s, hrun, h⟩ := ih (Nat.le_of_succ_le hn)
    exact h.grow hrun hn

/-- **A 17th unit** is written behind the end of the table, and any state may
follow. -/
theorem exists_overrun (s' : LocalMem) (ho : s'.overrun = true) : Run Accountable init s' := by
  obtain ⟨s, hrun, h⟩ := exists_usedUp (Nat.le_refl _)
  exact (h.ask hrun (Nat.le_refl _)).tail (.of_ne (by decide))
    (.growOverrun none _ s' (List.mem_singleton.mpr rfl)
      (fun hin => Nat.lt_irrefl _ (h.count ▸ hin.2)) ho)

/-- When it is `AllocList` that stands behind the table, the list begins in the
unit, where nothing has been written. -/
theorem not_keepsAccount : ¬ ∀ s : LocalMem, Run Accountable init s → s.KeepsAccount := by
  intro h
  have haccount := h { init with allocList := [⟨0, 0⟩], overrun := true } (exists_overrun _ rfl)
  exact absurd (haccount.1.1 ⟨0, 0⟩ (by decide)).1 (Nat.lt_irrefl 0)

end LocalMem
