import SideDumper.LocalMemCap

/-!
# Fragments of the local memory

`FreeLocalMem` joins a block to a free one that ends where it starts, and to
no other: a free block behind it stays a block of its own. Blocks that are
cut off are cut off at the end of a free one, so the block that was cut off
last meets the free one it comes from, and the others do not. `Served` counts
how often a block was freed without being joined and how often one was handed
out as it is. The second makes up for the first, and when it does there are no
more pieces than units.
-/

namespace LocalMem

/-- `FreeLocalMem` puts the block that starts at `p` on the free list as a
block of its own. -/
def keeps (s : LocalMem) (p : ℕ) : Bool :=
  decide (p ≠ 0) && match takeAlloc p s.allocList with
    | some (b, _) => (mergeFree b s.freeList).isNone
    | none => false

/-- A free block was handed out as it is. -/
def tookWhole : MemAct → ℕ
  | .take _ _ => 1
  | _ => 0

/-- A block was freed without being joined to another. -/
def keptOwn (s : LocalMem) : MemAct → ℕ
  | .free p => (s.keeps p).toNat
  | _ => 0

/-- The steps of calls of `AllocLocalMem` and `FreeLocalMem`, without those
in which an allocation fails. -/
def servedAct : MemAct → Bool
  | .missFail | .newNoMb | .ohciStart | .ohciRefused | .ohciDone | .ohciFail => false
  | _ => true

/-- **A run in which no allocation fails**, from one free unit at `u`, with
the number of blocks handed out as they are and the number of blocks freed
without being joined. When it grows, `GrowLocalMem` reads back the entry of the
table that it has written. -/
inductive Served (u : ℕ) : LocalMem → ℕ → ℕ → Prop
  | start (s : LocalMem) (h0 : 0 < u) (hfree : s.freeList = [⟨u, localMemUnit⟩])
      (halloc : s.allocList = []) (hcalls : s.calls = []) (hunits : s.units = [u]) :
        Served u s 0 0
  | step {s s' : LocalMem} {a : MemAct} {whole kept : ℕ} (h : Served u s whole kept)
      (ha : servedAct a = true) (hback : ReadsBack s a) (hs : s.Step a s') :
      Served u s' (whole + tookWhole a) (kept + s.keptOwn a)

section Lengths

variable {n : ℕ} {b : Mb} {bs cs rest : List Mb}

/-- A block handed out as it is leaves the list, and one that is cut off does
not. -/
theorem length_takeFree {e : Bool} (h : takeFree n bs = some (b, e, rest)) :
    rest.length + e.toNat = bs.length := by
  induction bs generalizing rest with
  | nil => cases h
  | cons c cs ih =>
    unfold takeFree at h
    split at h
    · cases h
      rfl
    · split at h
      · cases h
        rfl
      · obtain ⟨⟨b', e', bs'⟩, hr, hr'⟩ := Option.map_eq_some_iff.mp h
        cases hr'
        have hih := ih hr
        rw [List.length_cons, List.length_cons, ← hih]
        exact Nat.add_right_comm _ _ _

theorem length_mergeFree (h : mergeFree b bs = some cs) : cs.length = bs.length := by
  induction bs generalizing cs with
  | nil => cases h
  | cons c bs ih =>
    unfold mergeFree at h
    split at h
    · cases h
      rfl
    · obtain ⟨r, hr, hr'⟩ := Option.map_eq_some_iff.mp h
      cases hr'
      exact congrArg (· + 1) (ih hr)

/-- A request finds a block when there is one that is large enough. -/
theorem takeFree_isSome_iff : (takeFree n bs).isSome = true ↔ ∃ b ∈ bs, n ≤ b.size := by
  induction bs with
  | nil => simp [takeFree]
  | cons c cs ih =>
    unfold takeFree
    rw [List.exists_mem_cons_iff]
    split
    · exact iff_of_true rfl (.inl (Nat.le_of_eq ‹c.size = n›.symm))
    · split
      · exact iff_of_true rfl (.inl (Nat.le_of_lt ‹_›))
      · rw [Option.isSome_map, ih, or_iff_right (by omega)]

/-- Blocks that are not empty have no size together when there are none. -/
theorem eq_nil_of_totalSize (hpos : ∀ b ∈ bs, 0 < b.size) (h : totalSize bs = 0) : bs = [] := by
  cases bs with
  | nil => rfl
  | cons b bs =>
    have hb := hpos b List.mem_cons_self
    rw [totalSize_cons] at h
    omega

/-- **A list of blocks has one as large as all together when it has no
other.** -/
theorem exists_whole_iff (hpos : ∀ b ∈ bs, 0 < b.size) (hsize : totalSize bs = n) :
    (∃ b ∈ bs, n ≤ b.size) ↔ bs.length = 1 := by
  constructor
  · rintro ⟨b, hb, hle⟩
    have hperm := List.perm_cons_erase hb
    have htotal := totalSize_perm hperm
    rw [totalSize_cons, hsize] at htotal
    have hnil : bs.erase b = [] :=
      eq_nil_of_totalSize (fun c hc => hpos c (List.mem_of_mem_erase hc)) (by omega)
    rw [hperm.length_eq, hnil]
    rfl
  · intro hlen
    obtain ⟨b, rfl⟩ := List.length_eq_one_iff.mp hlen
    refine ⟨b, List.mem_singleton_self b, ?_⟩
    rw [← hsize, totalSize_cons]
    exact Nat.le_refl _

/-- A list with no more blocks than units has one of the size of a unit. -/
theorem exists_unit_of_length {k : ℕ} (hlen : bs.length ≤ k) (hsize : totalSize bs = k * n)
    (hk : 0 < k) (hn : 0 < n) : ∃ b ∈ bs, n ≤ b.size := by
  by_contra hno
  have hlt : ∀ b ∈ bs, b.size + 1 ≤ n := fun b hb => Nat.lt_of_not_le fun hle => hno ⟨b, hb, hle⟩
  have hsum : totalSize bs + bs.length ≤ bs.length * n := by
    clear hlen hsize hno
    induction bs with
    | nil => exact Nat.zero_le _
    | cons b bs ih =>
      rw [List.forall_mem_cons] at hlt
      have hih := ih hlt.2
      rw [totalSize_cons, List.length_cons, Nat.add_one_mul]
      omega
  have hmul := Nat.mul_le_mul_right n hlen
  have hnil : bs = [] := List.eq_nil_of_length_eq_zero (by omega)
  rw [hnil] at hsize
  exact absurd hsize.symm (Nat.ne_of_gt (Nat.mul_pos hk hn))

end Lengths

/-- **The account of the pieces.** -/
structure Pieces (s : LocalMem) (whole kept : ℕ) : Prop where
  tiles : s.Tiles
  reads : s.Reads
  total : totalSize s.blocks = s.units.length * localMemUnit
  length : s.freeList.length + whole = s.units.length + kept
  unit : 0 < s.units.length

variable {s s' : LocalMem} {u whole kept : ℕ} {a : MemAct} {c : MemCall} {new : List MemCall}

/-- The size of all blocks when a call has moved on. -/
theorem totalSize_calls (hc : c ∈ s.calls) (hcalls : s'.calls = new ++ s.calls.erase c)
    (hsize : totalSize s'.freeList + totalSize s'.allocList
        + totalSize (new.flatMap MemCall.splitOff)
      = totalSize s.freeList + totalSize s.allocList + totalSize c.splitOff) :
    totalSize s'.blocks = totalSize s.blocks := by
  have hperm := totalSize_perm (List.perm_flatMap_erase MemCall.splitOff hc)
  rw [totalSize_blocks, totalSize_blocks, hperm, hcalls, List.flatMap_append, totalSize_append,
    totalSize_append]
  omega

/-- `FreeLocalMem` adds a piece when it keeps the block as its own. -/
theorem length_freeLocalMem (s : LocalMem) (p : ℕ) :
    (s.freeLocalMem p).2.freeList.length = s.freeList.length + (s.keeps p).toNat := by
  unfold freeLocalMem keeps
  by_cases hp : p = 0
  · rw [if_pos hp, decide_eq_false (not_not.mpr hp)]
    rfl
  · rw [if_neg hp, decide_eq_true hp, Bool.true_and]
    cases takeAlloc p s.allocList with
    | none => rfl
    | some r =>
      dsimp only
      cases hmerge : mergeFree r.1 s.freeList with
      | none => rfl
      | some fl => exact length_mergeFree hmerge

/-- The pieces when nothing was fetched. -/
theorem Pieces.of_same (h : s.Pieces whole kept) (ht : s'.Tiles) (hr : s'.Reads)
    (hunits : s'.units = s.units)
    (htotal : totalSize s'.blocks = totalSize s.blocks) {w k : ℕ}
    (hlen : s'.freeList.length + w = s.freeList.length + k) :
    s'.Pieces (whole + w) (kept + k) where
  tiles := ht
  reads := hr
  total := by
    rw [htotal, hunits]
    exact h.total
  length := by
    have hold := h.length
    rw [hunits]
    omega
  unit := by
    rw [hunits]
    exact h.unit

theorem Pieces.step (h : s.Pieces whole kept) (ha : servedAct a = true) (hback : ReadsBack s a)
    (hs : s.Step a s') : s'.Pieces (whole + tookWhole a) (kept + s.keptOwn a) := by
  have hsound : Sound s a := by
    constructor
    · rintro rfl
      cases ha
    · rintro rfl
      cases ha
  have ht := h.tiles.step h.reads hsound hback hs
  have hr := h.reads.step hback hs
  cases hs with
  | alloc size inInterrupt h0 hmax => exact h.of_same ht hr rfl rfl rfl
  | skip size doRetry inInterrupt hc hg =>
    exact h.of_same ht hr rfl (totalSize_calls hc List.singleton_append.symm rfl) rfl
  | growStart size doRetry hc hg hcap =>
    exact h.of_same ht hr rfl (totalSize_calls hc List.singleton_append.symm rfl) rfl
  | growRefused size doRetry hc hg hcap =>
    exact h.of_same ht hr rfl (totalSize_calls hc List.singleton_append.symm rfl) rfl
  | growMb index k hc hi =>
    exact h.of_same ht hr rfl (totalSize_calls hc List.singleton_append.symm rfl) rfl
  | growNoMb k hc => exact h.of_same ht hr rfl (totalSize_calls hc rfl (by cases k <;> rfl)) rfl
  | growOverrun index k s' hc hout ho => exact absurd hback.inTable hout
  | growUnit index unit k hc htab hu =>
    rw [fetchUnit_eq (hback index rfl).1] at ht hr ⊢
    split at ht
    · rename_i h0
      rw [if_pos h0] at hr ⊢
      exact h.of_same ht hr rfl (totalSize_calls hc rfl (by cases k <;> rfl)) rfl
    · rename_i h0
      rw [if_neg h0] at hr ⊢
      exact h.of_same ht hr rfl (totalSize_calls hc List.singleton_append.symm rfl) rfl
  | missRetry size inInterrupt hc hf =>
    exact h.of_same ht hr rfl (totalSize_calls hc List.singleton_append.symm rfl) rfl
  | newMb size p hc =>
    exact h.of_same ht hr rfl (totalSize_calls hc List.singleton_append.symm rfl) rfl
  | growList unit p k hc =>
    obtain ⟨rfl, h0⟩ := h.reads unit p k hc
    have hunit : unitOf p = [p] := if_neg h0
    have hperm := totalSize_perm (List.perm_flatMap_erase MemCall.splitOff hc)
    have hsplit : (resume k true).flatMap MemCall.splitOff = [] := by cases k <;> rfl
    have htotal := h.total
    have hlen := h.length
    rw [hunit, List.singleton_append] at ht hr ⊢
    refine ⟨ht, hr, ?_, ?_, Nat.succ_pos _⟩
    · rw [totalSize_blocks, hperm] at htotal
      rw [totalSize_blocks, List.flatMap_append, hsplit, totalSize_cons, List.length_cons,
        Nat.add_one_mul]
      simp only [MemCall.splitOff, List.nil_append] at htotal ⊢
      omega
    · simp only [List.length_cons, tookWhole, keptOwn]
      omega
  | take size doRetry inInterrupt b rest hc hf =>
    have hsize := totalSize_takeFree hf
    refine h.of_same ht hr rfl (totalSize_calls hc (List.nil_append _).symm ?_)
      (length_takeFree hf)
    simp only [totalSize_cons, List.flatMap_nil, totalSize_nil, MemCall.splitOff] at hsize ⊢
    omega
  | split size doRetry inInterrupt b rest hc hf =>
    have htotal := totalSize_takeFree hf
    have hsize := size_takeFree hf
    refine h.of_same ht hr rfl (totalSize_calls hc List.singleton_append.symm ?_)
      (length_takeFree hf)
    rw [List.flatMap_singleton, MemCall.splitOff, ← hsize]
    simp only [totalSize_cons, totalSize_nil, MemCall.splitOff] at htotal ⊢
    omega
  | list size p hc =>
    refine h.of_same ht hr rfl (totalSize_calls hc (List.nil_append _).symm ?_) rfl
    simp only [totalSize_cons, List.flatMap_nil, MemCall.splitOff, totalSize_nil]
    omega
  | free p =>
    obtain ⟨-, -, hu, hc, -⟩ := s.freeLocalMem_table p
    refine h.of_same ht hr hu ?_ (s.length_freeLocalMem p)
    rw [totalSize_blocks, totalSize_blocks, hc, totalSize_freeLocalMem]
  | missFail | newNoMb | ohciStart | ohciRefused | ohciDone | ohciFail => cases ha

theorem Served.pieces (h : Served u s whole kept) : s.Pieces whole kept := by
  induction h with
  | start s h0 hfree halloc hcalls hunits =>
    refine ⟨⟨fun a => ?_, fun a => ?_, fun v hv => ?_, fun b hb => ?_, fun c hc => ?_⟩,
      fun _ _ _ hin => ?_, ?_, ?_, ?_⟩
    · rw [blocks, hfree, halloc, hcalls, hunits]
      rfl
    · rw [fetched, hunits, hcalls]
      exact Nat.le_trans (List.countP_le_length) (Nat.le_refl 1)
    · rw [fetched, hunits, hcalls] at hv
      rw [List.mem_singleton.mp hv]
      exact h0
    · rw [blocks, hfree, halloc, hcalls] at hb
      rw [List.mem_singleton.mp hb]
      exact ⟨Nat.succ_pos _, Dvd.intro 256 rfl⟩
    · rw [hcalls] at hc
      cases hc
    · rw [hcalls] at hin
      cases hin
    · rw [blocks, hfree, halloc, hcalls, hunits]
      exact (Nat.one_mul localMemUnit).symm
    · rw [hfree, hunits]
      rfl
    · rw [hunits]
      exact Nat.one_pos
  | step _ ha hback hs ih => exact ih.step ha hback hs

/-- **Freed memory is fully reusable when no more blocks were freed without
being joined than were handed out as they are**, and in a run that fetches
no other unit only then. -/
theorem served_unit_iff (h : Served u s whole kept) (halloc : s.allocList = [])
    (hcalls : s.calls = []) :
    (kept ≤ whole → (takeFree (size256 localMemUnit) s.freeList).isSome = true) ∧
      (s.units = [u] → ((takeFree (size256 localMemUnit) s.freeList).isSome = true ↔
        kept ≤ whole)) := by
  obtain ⟨ht, -, htotal, hlen, hunit⟩ := h.pieces
  have hsize : totalSize s.freeList = s.units.length * localMemUnit := by
    rw [totalSize_blocks, halloc, hcalls] at htotal
    exact htotal
  have hround : size256 localMemUnit = localMemUnit := by decide
  have hpos : ∀ b ∈ s.freeList, 0 < b.size :=
    fun b hb => (ht.whole b (mem_blocks.mpr (.inl hb))).1
  rw [takeFree_isSome_iff, hround]
  refine ⟨fun hle => exists_unit_of_length (by omega) hsize hunit (by decide), fun hu => ?_⟩
  rw [hu] at hsize hlen
  rw [exists_whole_iff hpos (hsize.trans (Nat.one_mul _))]
  have hne : s.freeList ≠ [] := by
    intro hnil
    rw [hnil, List.length_singleton] at hsize
    exact absurd hsize (by decide)
  have := List.length_pos_iff.mpr hne
  rw [List.length_singleton] at hlen
  omega

/-! ## Two blocks freed in the order of their allocation -/

/-- Two blocks of 256 bytes are handed out. -/
theorem served_two : Served 0x10000 { oneUnit with
    freeList := [⟨0x10000, 0xfe00⟩]
    allocList := [⟨0x1fe00, 0x100⟩, ⟨0x1ff00, 0x100⟩] } 0 0 := by
  have h₀ : Served 0x10000 oneUnit 0 0 := .start _ (by decide) rfl rfl rfl rfl
  have h₁ := h₀.step rfl (.of_ne (by simp)) (.alloc 256 false (by decide) (by decide))
  have h₂ := h₁.step rfl (.of_ne (by simp)) (.skip 256 true false (by decide) (.inr rfl))
  have h₃ := h₂.step rfl (.of_ne (by simp)) (.split 256 true false ⟨0x1ff00, 256⟩
    [⟨0x10000, 0xff00⟩] (by decide) (by decide))
  have h₄ := h₃.step rfl (.of_ne (by simp)) (.newMb 256 0x1ff00 (by decide))
  have h₅ := h₄.step rfl (.of_ne (by simp)) (.list 256 0x1ff00 (by decide))
  have h₆ := h₅.step rfl (.of_ne (by simp)) (.alloc 256 false (by decide) (by decide))
  have h₇ := h₆.step rfl (.of_ne (by simp)) (.skip 256 true false (by decide) (.inr rfl))
  have h₈ := h₇.step rfl (.of_ne (by simp)) (.split 256 true false ⟨0x1fe00, 256⟩
    [⟨0x10000, 0xfe00⟩] (by decide) (by decide))
  have h₉ := h₈.step rfl (.of_ne (by simp)) (.newMb 256 0x1fe00 (by decide))
  exact h₉.step rfl (.of_ne (by simp)) (.list 256 0x1fe00 (by decide))

/-- The first one is freed and stays on its own. -/
theorem served_kept : Served 0x10000 { oneUnit with
    freeList := [⟨0x1ff00, 0x100⟩, ⟨0x10000, 0xfe00⟩], allocList := [⟨0x1fe00, 0x100⟩] } 0 1 :=
  served_two.step rfl (.of_ne (by simp)) (.free 0x1ff00)

/-- Freed memory may stay in pieces. -/
theorem served_not_reusable : ¬ ∀ u s whole kept, Served u s whole kept → s.allocList = [] →
    s.calls = [] → (takeFree (size256 localMemUnit) s.freeList).isSome = true := by
  intro h
  have hsome := h _ _ _ _ (served_kept.step rfl (.of_ne (by simp)) (.free 0x1fe00))
    (by decide) (by decide)
  exact absurd hsome (by decide)

/-- The block that stays on its own is handed out once more, as it is; then the
blocks are freed in the other order, and both are joined. -/
theorem served_unit_iff_joined : Served 0x10000 oneUnit 1 1 ∧
    (takeFree (size256 localMemUnit) oneUnit.freeList).isSome = true := by
  have h₁ := served_kept.step rfl (.of_ne (by simp)) (.alloc 256 false (by decide) (by decide))
  have h₂ := h₁.step rfl (.of_ne (by simp)) (.skip 256 true false (by decide) (.inr rfl))
  have h₃ := h₂.step rfl (.of_ne (by simp)) (.take 256 true false ⟨0x1ff00, 0x100⟩
    [⟨0x10000, 0xfe00⟩] (by decide) (by decide))
  have h₄ := h₃.step rfl (.of_ne (by simp)) (.free 0x1fe00)
  have h₅ : Served 0x10000 oneUnit 1 1 := h₄.step rfl (.of_ne (by simp)) (.free 0x1ff00)
  exact ⟨h₅, (served_unit_iff h₅ rfl rfl).1 (by decide)⟩

end LocalMem
