import SideDumper.LocalMemCap

/-!
# A call of AllocLocalMem

Here a call of `AllocLocalMem` is looked at on its own, with the answers that
`kmalloc` and `ps2sif_allociopheap` give it. A free block that is too large
is made smaller first, and only then is a `struct mb` allocated for the part
that was cut off. When that fails, `NULL` is returned and the part is on
neither list. `keepsMemory_iff` says when the free memory is not less after
such a call. A call that accesses `local_mems` behind its end has no outcome.
-/

/-- The answers to one execution of `GrowLocalMem`: whether `kmalloc` has a
`struct mb`, and the unit of `ps2sif_allociopheap`, 0 when there is none. -/
structure GrowAnswers where
  mb : Bool
  unit : ℕ
deriving DecidableEq, Repr

/-- The answers to one call of `AllocLocalMem`: those to `GrowLocalMem` with
the retry still to come and after it, and whether `kmalloc` has a
`struct mb` for the part that is cut off. -/
structure AllocAnswers where
  first : GrowAnswers
  second : GrowAnswers
  newMb : Bool
deriving DecidableEq, Repr

namespace LocalMem

/-- `GrowLocalMem`, with its return value. No other execution is under way, so
that the entry which is read back is the one that has been written; there is
no outcome when it is behind the end of `local_mems`. -/
def growLocalMem (s : LocalMem) (g : GrowAnswers) : Option (ℤ × LocalMem) :=
  if s.capReached then some (-12, s)
  else if g.mb = false then some (-12, s)
  else if ¬ s.InTable none then none
  else
    let s := s.setUnit none g.unit
    if s.localMems s.nlocalMems = 0 then some (-12, s)
    else some (0, { s with
      nlocalMems := s.nlocalMems + 1
      freeList := ⟨s.localMems s.nlocalMems, localMemUnit⟩ :: s.freeList
      units := unitOf g.unit ++ s.units })

/-- What stands behind the label `retry` and in front of the lock. -/
def atRetry (s : LocalMem) (inInterrupt : Bool) (g : GrowAnswers) : Option LocalMem :=
  if inInterrupt = false ∧ s.insufficientLocalMem ≠ 0 then
    (growLocalMem { s with insufficientLocalMem := 0 } g).map Prod.snd
  else some s

/-- The loop of `AllocLocalMem` over the free list and what it returns when
it finds a block, the pointer `none` standing for `NULL`; `miss` is what
happens when it finds none. -/
def searchFreeList (newMb : Bool) (n : ℕ) (miss : LocalMem → Option (Option ℕ × LocalMem))
    (s : LocalMem) : Option (Option ℕ × LocalMem) :=
  match takeFree n s.freeList with
  | some (b, true, rest) =>
    some (some b.p, { s with freeList := rest, allocList := b :: s.allocList })
  | some (b, false, rest) =>
    -- The block is shorter already when `kmalloc` is asked.
    if newMb then some (some b.p,
      { s with freeList := rest, allocList := ⟨b.p, n⟩ :: s.allocList })
    else some (none, { s with freeList := rest })
  | none => miss { s with insufficientLocalMem := s.insufficientLocalMem + 1 }

/-- **`AllocLocalMem`.** There is no outcome where `size + 255` does not fit
into an `int` either: the C program has no meaning there. -/
def allocLocalMem (s : LocalMem) (inInterrupt : Bool) (ans : AllocAnswers) (size : ℕ) :
    Option (Option ℕ × LocalMem) := do
  if size + 255 < 0x80000000 then
    let s ← s.atRetry inInterrupt ans.first
    searchFreeList ans.newMb (size256 size) (fun s => do
      let s ← s.atRetry inInterrupt ans.second
      searchFreeList ans.newMb (size256 size) (fun s => some (none, s)) s) s
  else none

/-- **A failed allocation keeps the memory**: the call has an outcome, and if
`NULL` is returned, no less is free than before and the same blocks are
allocated. -/
def KeepsMemory (s : LocalMem) (inInterrupt : Bool) (ans : AllocAnswers) (size : ℕ) : Prop :=
  ∃ r s', s.allocLocalMem inInterrupt ans size = some (r, s') ∧
    (r = none → totalSize s.freeList ≤ totalSize s'.freeList ∧ s'.allocList = s.allocList)

/-! ## The units that a call fetches -/

/-- The unit that `GrowLocalMem` puts on the free list, if it does not fail. -/
def unitGrown (s : LocalMem) (g : GrowAnswers) : List Mb :=
  if s.capReached ∨ g.mb = false ∨ g.unit = 0 then [] else [⟨g.unit, localMemUnit⟩]

/-- The units that are fetched at the label `retry`: one or none. -/
def unitsAtRetry (s : LocalMem) (inInterrupt : Bool) (g : GrowAnswers) : List Mb :=
  if inInterrupt = false ∧ s.insufficientLocalMem ≠ 0 then s.unitGrown g else []

/-- What is owed behind the label `retry`. -/
def owedAfter (s : LocalMem) (inInterrupt : Bool) : ℕ :=
  if inInterrupt = false ∧ s.insufficientLocalMem ≠ 0 then 0 else s.insufficientLocalMem

/-- The two counts when the call comes to the label `retry` again. -/
def missed (s : LocalMem) (inInterrupt : Bool) (g : GrowAnswers) : LocalMem :=
  { s with
    nlocalMems := s.nlocalMems + (s.unitsAtRetry inInterrupt g).length
    insufficientLocalMem := s.owedAfter inInterrupt + 1 }

/-- **The units that a call for `n` bytes fetches** before its last search:
those of the retry only if the first search finds nothing. -/
def unitsFetched (s : LocalMem) (inInterrupt : Bool) (ans : AllocAnswers) (n : ℕ) : List Mb :=
  if takeFree n (s.unitsAtRetry inInterrupt ans.first ++ s.freeList) = none then
    (s.missed inInterrupt ans.first).unitsAtRetry inInterrupt ans.second ++
      s.unitsAtRetry inInterrupt ans.first
  else s.unitsAtRetry inInterrupt ans.first

/-- **The last search cuts a block in two**, with the units fetched before it
in front of the free list. -/
def Splits (s : LocalMem) (inInterrupt : Bool) (ans : AllocAnswers) (n : ℕ) : Prop :=
  (takeFree n (s.unitsFetched inInterrupt ans n ++ s.freeList)).any (fun r => !r.2.1) = true

instance (s : LocalMem) (inInterrupt : Bool) (ans : AllocAnswers) (n : ℕ) :
    Decidable (s.Splits inInterrupt ans n) := inferInstanceAs (Decidable (_ = true))

/-- A unit is owed at the label `retry`, and `GrowLocalMem` goes on to the
entry behind the end of `local_mems`. -/
def OverrunsAtRetry (s : LocalMem) (inInterrupt : Bool) (g : GrowAnswers) : Prop :=
  (inInterrupt = false ∧ s.insufficientLocalMem ≠ 0) ∧ g.mb = true ∧
    s.nlocalMems = maxLocalMem / localMemUnit

instance (s : LocalMem) (inInterrupt : Bool) (g : GrowAnswers) :
    Decidable (s.OverrunsAtRetry inInterrupt g) := inferInstanceAs (Decidable (_ ∧ _))

/-- **A call for `n` bytes accesses `local_mems` behind its end**, the first
time it is at the label `retry` or the second. -/
def Overruns (s : LocalMem) (inInterrupt : Bool) (ans : AllocAnswers) (n : ℕ) : Prop :=
  s.OverrunsAtRetry inInterrupt ans.first ∨
    takeFree n (s.unitsAtRetry inInterrupt ans.first ++ s.freeList) = none ∧
      (s.missed inInterrupt ans.first).OverrunsAtRetry inInterrupt ans.second

variable {s t : LocalMem} {inInterrupt newMb : Bool} {g : GrowAnswers} {ans : AllocAnswers}
    {n : ℕ}

/-- What a call of `GrowLocalMem` does, when it stays within `local_mems`. -/
theorem exists_growLocalMem (h : ¬ (g.mb = true ∧ s.nlocalMems = maxLocalMem / localMemUnit)) :
    ∃ r s', s.growLocalMem g = some (r, s') ∧ s'.freeList = s.unitGrown g ++ s.freeList ∧
      s'.allocList = s.allocList ∧ s'.nlocalMems = s.nlocalMems + (s.unitGrown g).length ∧
      s'.insufficientLocalMem = s.insufficientLocalMem := by
  unfold growLocalMem unitGrown
  by_cases hcap : s.capReached
  · rw [if_pos hcap, if_pos (.inl hcap)]
    exact ⟨_, s, rfl, rfl, rfl, rfl, rfl⟩
  by_cases hmb : g.mb = false
  · rw [if_neg hcap, if_pos hmb, if_pos (.inr (.inl hmb))]
    exact ⟨_, s, rfl, rfl, rfl, rfl, rfl⟩
  have hlt : s.nlocalMems < maxLocalMem / localMemUnit :=
    Nat.lt_of_le_of_ne (Nat.le_of_not_lt hcap) fun heq => h ⟨Bool.of_not_eq_false hmb, heq⟩
  have hread : (s.setUnit none g.unit).localMems (s.setUnit none g.unit).nlocalMems = g.unit :=
    Function.update_self _ _ _
  rw [if_neg hcap, if_neg hmb, if_neg (not_not_intro (show s.InTable none from ⟨hlt, hlt⟩))]
  dsimp only
  rw [hread]
  by_cases hunit : g.unit = 0
  · rw [if_pos hunit, if_pos (.inr (.inr hunit))]
    exact ⟨_, _, rfl, rfl, rfl, rfl, rfl⟩
  · rw [if_neg hunit, if_neg (by tauto)]
    exact ⟨_, _, rfl, rfl, rfl, rfl, rfl⟩

/-- Behind the end there is no outcome. -/
theorem growLocalMem_eq_none (hmb : g.mb = true)
    (hn : s.nlocalMems = maxLocalMem / localMemUnit) :
    s.growLocalMem g = none := by
  have hcap : ¬ s.capReached := Nat.not_lt.mpr (Nat.le_of_eq hn)
  have hout : ¬ s.InTable none := fun hin => Nat.ne_of_lt hin.2 hn
  unfold growLocalMem
  rw [if_neg hcap, if_neg (by simp [hmb]), if_pos hout]

/-- What is done at the label `retry`. -/
theorem exists_atRetry (h : ¬ s.OverrunsAtRetry inInterrupt g) :
    ∃ s', s.atRetry inInterrupt g = some s' ∧
      s'.freeList = s.unitsAtRetry inInterrupt g ++ s.freeList ∧ s'.allocList = s.allocList ∧
      s'.nlocalMems = s.nlocalMems + (s.unitsAtRetry inInterrupt g).length ∧
      s'.insufficientLocalMem = s.owedAfter inInterrupt := by
  unfold atRetry unitsAtRetry owedAfter
  by_cases hgo : inInterrupt = false ∧ s.insufficientLocalMem ≠ 0
  · obtain ⟨r, s', hgrow, hlists⟩ :=
      exists_growLocalMem (s := { s with insufficientLocalMem := 0 })
      (fun hn => h ⟨hgo, hn⟩)
    rw [if_pos hgo, if_pos hgo, if_pos hgo, hgrow]
    exact ⟨s', rfl, hlists⟩
  · rw [if_neg hgo, if_neg hgo, if_neg hgo]
    exact ⟨s, rfl, rfl, rfl, rfl, rfl⟩

theorem atRetry_eq_none (h : s.OverrunsAtRetry inInterrupt g) :
    s.atRetry inInterrupt g = none := by
  have hgrow := growLocalMem_eq_none (s := { s with insufficientLocalMem := 0 }) h.2.1 h.2.2
  unfold atRetry
  rw [if_pos h.1, hgrow]
  rfl

/-- **One search**, when it does not end in `miss`: `NULL` is returned only
where a block was cut and no `struct mb` was found. -/
theorem searchFreeList_some (newMb : Bool) (miss : LocalMem → Option (Option ℕ × LocalMem))
    {r : Mb × Bool × List Mb} (h : takeFree n s.freeList = some r) :
    ∃ out, searchFreeList newMb n miss s = some out ∧
      (out.1 = none ↔ r.2.1 = false ∧ newMb = false) ∧
      (r.2.1 = false → newMb = false →
        totalSize out.2.freeList + n = totalSize s.freeList ∧ out.2.allocList = s.allocList) := by
  obtain ⟨b, e, rest⟩ := r
  have hsize := size_takeFree h
  have htotal := totalSize_takeFree h
  rw [totalSize_cons, hsize] at htotal
  unfold searchFreeList
  rw [h]
  cases e with
  | true => exact ⟨_, rfl, by simp, fun he => absurd he Bool.false_ne_true.symm⟩
  | false =>
    cases newMb with
    | true => exact ⟨_, rfl, by simp, fun _ hn => absurd hn Bool.false_ne_true.symm⟩
    | false =>
      refine ⟨_, rfl, by simp, fun _ _ => ⟨?_, rfl⟩⟩
      rw [← htotal, Nat.add_comm]

theorem searchFreeList_none {miss : LocalMem → Option (Option ℕ × LocalMem)}
    (h : takeFree n s.freeList = none) : searchFreeList newMb n miss s
      = miss { s with insufficientLocalMem := s.insufficientLocalMem + 1 } := by
  unfold searchFreeList
  rw [h]

/-- A search that finds a block does not come to `miss`. -/
theorem searchFreeList_miss {miss miss' : LocalMem → Option (Option ℕ × LocalMem)}
    {r : Mb × Bool × List Mb} (h : takeFree n s.freeList = some r) :
    searchFreeList newMb n miss s = searchFreeList newMb n miss' s := by
  unfold searchFreeList
  rw [h]
  obtain ⟨b, e, rest⟩ := r
  cases e <;> rfl

/-- What is fetched depends on the two counts alone. -/
theorem unitsAtRetry_congr (hn : s.nlocalMems = t.nlocalMems)
    (hi : s.insufficientLocalMem = t.insufficientLocalMem) :
    s.unitsAtRetry inInterrupt g = t.unitsAtRetry inInterrupt g := by
  have hcap : s.capReached ↔ t.capReached := by
    unfold capReached
    rw [hn]
  simp only [unitsAtRetry, unitGrown, hcap, hi]

theorem overrunsAtRetry_congr (hn : s.nlocalMems = t.nlocalMems)
    (hi : s.insufficientLocalMem = t.insufficientLocalMem) :
    s.OverrunsAtRetry inInterrupt g ↔ t.OverrunsAtRetry inInterrupt g := by
  unfold OverrunsAtRetry
  rw [hn, hi]

/-- **The call up to the retry**, when it stays within `local_mems` there. -/
theorem allocLocalMem_first (ans : AllocAnswers) {size : ℕ} (hsize : size + 255 < 0x80000000)
    (h : s.atRetry inInterrupt ans.first = some t) : s.allocLocalMem inInterrupt ans size
      = searchFreeList ans.newMb (size256 size) (fun s => do
          let s ← s.atRetry inInterrupt ans.second
          searchFreeList ans.newMb (size256 size) (fun s => some (none, s)) s) t := by
  unfold allocLocalMem
  rw [if_pos hsize, h]
  rfl

/-- **The call**, with the last search alone: what is on the free list then
is what was there before and the units fetched. -/
theorem allocLocalMem_eq {size : ℕ} (hsize : size + 255 < 0x80000000)
    (hin : ¬ s.Overruns inInterrupt ans (size256 size)) :
    ∃ s', s.allocLocalMem inInterrupt ans size
        = searchFreeList ans.newMb (size256 size) (fun s => some (none, s)) s' ∧
      s'.freeList = s.unitsFetched inInterrupt ans (size256 size) ++ s.freeList ∧
      s'.allocList = s.allocList := by
  obtain ⟨t, ht, hfree, halloc, hcount, howed⟩ := exists_atRetry (fun h => hin (.inl h))
  rw [allocLocalMem_first ans hsize ht]
  unfold unitsFetched
  cases htake : takeFree (size256 size) (s.unitsAtRetry inInterrupt ans.first ++ s.freeList) with
  | some r =>
    refine ⟨t, searchFreeList_miss (hfree ▸ htake), ?_, halloc⟩
    rw [if_neg (Option.some_ne_none r)]
    exact hfree
  | none =>
    -- What the first search counts is what is owed now.
    have hsame : ({ t with insufficientLocalMem := t.insufficientLocalMem + 1 } :
        LocalMem).nlocalMems
        = (s.missed inInterrupt ans.first).nlocalMems := hcount
    have hsame' : ({ t with insufficientLocalMem := t.insufficientLocalMem + 1 } :
        LocalMem).insufficientLocalMem
        = (s.missed inInterrupt ans.first).insufficientLocalMem := congrArg (· + 1) howed
    obtain ⟨t', ht', hfree', halloc', -⟩ := exists_atRetry (fun h => hin (.inr ⟨htake,
      (overrunsAtRetry_congr (g := ans.second) hsame hsame').mp h⟩))
    refine ⟨t', ?_, ?_, halloc'.trans halloc⟩
    · rw [searchFreeList_none (hfree ▸ htake), ht']
      rfl
    · rw [if_pos rfl, hfree', unitsAtRetry_congr hsame hsame', List.append_assoc]
      exact congrArg _ hfree

/-- **There is no outcome** when the call accesses `local_mems` behind its
end. -/
theorem allocLocalMem_eq_none {size : ℕ} (hout : s.Overruns inInterrupt ans (size256 size)) :
    s.allocLocalMem inInterrupt ans size = none := by
  by_cases hsize : size + 255 < 0x80000000
  · by_cases hfirst : s.OverrunsAtRetry inInterrupt ans.first
    · unfold allocLocalMem
      rw [if_pos hsize, atRetry_eq_none hfirst]
      rfl
    · obtain ⟨htake, hsecond⟩ := hout.resolve_left hfirst
      obtain ⟨t, ht, hfree, -, hcount, howed⟩ := exists_atRetry hfirst
      have hagain : OverrunsAtRetry { t with insufficientLocalMem := t.insufficientLocalMem + 1 }
          inInterrupt ans.second :=
        (overrunsAtRetry_congr hcount (congrArg (· + 1) howed)).mpr hsecond
      rw [allocLocalMem_first ans hsize ht, searchFreeList_none (hfree ▸ htake),
        atRetry_eq_none hagain]
      rfl
  · rw [allocLocalMem, if_neg hsize]

theorem keepsMemory_of_eq {size : ℕ} {out : Option ℕ × LocalMem}
    (h : s.allocLocalMem inInterrupt ans size = some out) :
    s.KeepsMemory inInterrupt ans size ↔ (out.1 = none →
      totalSize s.freeList ≤ totalSize out.2.freeList ∧ out.2.allocList = s.allocList) := by
  refine ⟨?_, fun hout => ⟨out.1, out.2, h, hout⟩⟩
  rintro ⟨r, s', heq, hout⟩
  obtain rfl : out = (r, s') := Option.some.inj (h.symm.trans heq)
  exact hout

theorem not_keepsMemory_of_eq {size : ℕ} (h : s.allocLocalMem inInterrupt ans size = none) :
    ¬ s.KeepsMemory inInterrupt ans size := by
  rintro ⟨r, s', heq, -⟩
  rw [h] at heq
  cases heq

/-- **A failed call keeps the memory if and only if** the sum that is
computed first fits into an `int`, `GrowLocalMem` stays within `local_mems`
and the `struct mb` for a part that is cut off is found, no block is cut, or
the units fetched in the call are no smaller than the part. -/
theorem keepsMemory_iff (s : LocalMem) (inInterrupt : Bool) (ans : AllocAnswers) (size : ℕ) :
    s.KeepsMemory inInterrupt ans size ↔
      (size + 255 < 0x80000000 ∧ ¬ s.Overruns inInterrupt ans (size256 size)) ∧
      (ans.newMb = true ∨ ¬ s.Splits inInterrupt ans (size256 size) ∨
        size256 size ≤ totalSize (s.unitsFetched inInterrupt ans (size256 size))) := by
  by_cases hsize : size + 255 < 0x80000000
  · by_cases hin : s.Overruns inInterrupt ans (size256 size)
    · exact iff_of_false (not_keepsMemory_of_eq (allocLocalMem_eq_none hin)) (fun h => h.1.2 hin)
    obtain ⟨s', hcall, hfree, halloc⟩ := allocLocalMem_eq hsize hin
    have htotal : totalSize s'.freeList
        = totalSize (s.unitsFetched inInterrupt ans (size256 size)) + totalSize s.freeList := by
      rw [hfree, totalSize_append]
    rw [and_iff_right ⟨hsize, hin⟩]
    unfold Splits
    rw [← hfree]
    cases htake : takeFree (size256 size) s'.freeList with
    | none =>
      rw [searchFreeList_none htake] at hcall
      rw [keepsMemory_of_eq hcall]
      refine iff_of_true (fun _ => ⟨?_, halloc⟩) (.inr (.inl Bool.false_ne_true))
      dsimp only
      omega
    | some r =>
      obtain ⟨out, hsearch, hnull, hlists⟩ :=
        searchFreeList_some ans.newMb (fun s => some (none, s)) htake
      rw [keepsMemory_of_eq (hcall.trans hsearch), hnull, Option.any_some, Bool.not_eq_true',
        Bool.not_eq_false]
      cases he : r.2.1 with
      | true => exact iff_of_true (fun h => absurd h.1 Bool.false_ne_true.symm) (.inr (.inl rfl))
      | false =>
        cases hnew : ans.newMb with
        | true => exact iff_of_true (fun h => absurd h.2 Bool.false_ne_true.symm) (.inl rfl)
        | false =>
          obtain ⟨hcut, hsame⟩ := hlists he hnew
          refine ⟨fun h => .inr (.inr ?_), fun h _ => ⟨?_, hsame.trans halloc⟩⟩
          · have hle := (h ⟨rfl, rfl⟩).1
            omega
          · have hle : size256 size
                ≤ totalSize (s.unitsFetched inInterrupt ans (size256 size)) := by
              simpa using h
            omega
  · refine iff_of_false (not_keepsMemory_of_eq ?_) (fun h => hsize h.1.1)
    rw [allocLocalMem, if_neg hsize]

/-- One byte of the first unit, and no `struct mb`: 256 bytes are lost. -/
theorem not_keepsMemory :
    (oneUnit.allocLocalMem false ⟨⟨false, 0⟩, ⟨false, 0⟩, false⟩ 1).map
        (fun out => (out.1, out.2.freeList, out.2.allocList))
      = some (none, [⟨0x10000, localMemUnit - 256⟩], []) ∧
    ¬ ∀ (s : LocalMem) (inInterrupt : Bool) (ans : AllocAnswers) (size : ℕ), 0 < size →
      s.KeepsMemory inInterrupt ans size := by
  refine ⟨by decide, fun h => ?_⟩
  have hkeeps := h oneUnit false ⟨⟨false, 0⟩, ⟨false, 0⟩, false⟩ 1 Nat.one_pos
  rw [keepsMemory_of_eq rfl] at hkeeps
  exact absurd (hkeeps (by decide)).1 (by decide)

end LocalMem

/-! ## What holds of all blocks -/

/-- **A property of blocks that lasts**: it holds of the two parts when a block is cut
in two, and of the whole when two blocks are joined. -/
structure BlockRule (P : Mb → Prop) : Prop where
  cut : ∀ b n, P b → 256 ∣ n → n < b.size → P ⟨b.p, b.size - n⟩ ∧ P ⟨b.p + (b.size - n), n⟩
  join : ∀ b c, P c → P b → c.p + c.size = b.p → P ⟨c.p, c.size + b.size⟩

namespace BlockRule

variable {P : Mb → Prop} {n : ℕ} {b : Mb} {bs cs rest : List Mb} {s s' : LocalMem}

theorem of_takeFree {e : Bool} (hP : BlockRule P) (hn : 256 ∣ n)
    (h : takeFree n bs = some (b, e, rest))
    (hbs : ∀ c ∈ bs, P c) : P b ∧ ∀ c ∈ rest, P c := by
  induction bs generalizing rest with
  | nil => cases h
  | cons c cs ih =>
    rw [List.forall_mem_cons] at hbs
    unfold takeFree at h
    split at h
    · cases h
      exact hbs
    · split at h
      · obtain ⟨hleft, hright⟩ := hP.cut c n hbs.1 hn ‹_›
        cases h
        exact ⟨hright, List.forall_mem_cons.mpr ⟨hleft, hbs.2⟩⟩
      · obtain ⟨r, hr, hr'⟩ := Option.map_eq_some_iff.mp h
        cases hr'
        obtain ⟨hb, hrest⟩ := ih hr hbs.2
        exact ⟨hb, List.forall_mem_cons.mpr ⟨hbs.1, hrest⟩⟩

theorem of_mergeFree (hP : BlockRule P) (h : mergeFree b bs = some cs) (hb : P b)
    (hbs : ∀ c ∈ bs, P c) :
    ∀ c ∈ cs, P c := by
  induction bs generalizing cs with
  | nil => cases h
  | cons c bs ih =>
    rw [List.forall_mem_cons] at hbs
    unfold mergeFree at h
    split at h
    · cases h
      exact List.forall_mem_cons.mpr ⟨hP.join b c hbs.1 hb ‹_›, hbs.2⟩
    · obtain ⟨r, hr, hr'⟩ := Option.map_eq_some_iff.mp h
      cases hr'
      exact List.forall_mem_cons.mpr ⟨hbs.1, ih hr hbs.2⟩

/-- A call has moved on. -/
theorem relist {c : MemCall} {new : List MemCall} (h : ∀ b ∈ s.blocks, P b)
    (hcalls : s'.calls = new ++ s.calls.erase c) (hfree : ∀ b ∈ s'.freeList, P b)
    (halloc : ∀ b ∈ s'.allocList, P b) (hnew : ∀ b ∈ new.flatMap MemCall.splitOff, P b) :
    ∀ b ∈ s'.blocks, P b := by
  intro b hb
  rcases LocalMem.mem_blocks.mp hb with hb | hb | ⟨c', hc', hb⟩
  · exact hfree b hb
  · exact halloc b hb
  · rw [hcalls, List.mem_append] at hc'
    rcases hc' with hc' | hc'
    · exact hnew b (List.mem_flatMap.mpr ⟨c', hc', hb⟩)
    · exact h b (LocalMem.mem_blocks.mpr (.inr (.inr ⟨c', List.mem_of_mem_erase hc', hb⟩)))

/-- A call has moved on and left the lists. -/
theorem move {c : MemCall} {new : List MemCall} (h : ∀ b ∈ s.blocks, P b) (hc : c ∈ s.calls)
    (hcalls : s'.calls = new ++ s.calls.erase c) (hfree : s'.freeList = s.freeList)
    (halloc : s'.allocList = s.allocList) (hsplit : ∀ b ∈ new.flatMap MemCall.splitOff,
      b ∈ c.splitOff) :
    ∀ b ∈ s'.blocks, P b := by
  refine relist h hcalls (fun b hb => ?_) (fun b hb => ?_) (fun b hb => ?_)
  · exact h b (LocalMem.mem_blocks.mpr (.inl (hfree ▸ hb)))
  · exact h b (LocalMem.mem_blocks.mpr (.inr (.inl (halloc ▸ hb))))
  · exact h b (LocalMem.mem_blocks.mpr (.inr (.inr ⟨c, hc, hsplit b hb⟩)))

/-- `FreeLocalMem` joins blocks. -/
theorem of_freeLocalMem (hP : BlockRule P) (h : ∀ b ∈ s.blocks, P b) (p : ℕ) :
    ∀ b ∈ (s.freeLocalMem p).2.blocks, P b := by
  have hfree : ∀ b ∈ s.freeList, P b := fun b hb => h b (LocalMem.mem_blocks.mpr (.inl hb))
  have halloc : ∀ b ∈ s.allocList, P b :=
    fun b hb => h b (LocalMem.mem_blocks.mpr (.inr (.inl hb)))
  have hlists : (∀ b ∈ (s.freeLocalMem p).2.freeList, P b) ∧
      ∀ b ∈ (s.freeLocalMem p).2.allocList, P b := by
    unfold LocalMem.freeLocalMem
    split
    · exact ⟨hfree, halloc⟩
    · split
      · exact ⟨hfree, halloc⟩
      · rename_i b rest hfind
        have hperm := (takeAlloc_some hfind).2
        have hb : P b := halloc b (hperm.mem_iff.mpr List.mem_cons_self)
        have hrest : ∀ c ∈ rest, P c :=
          fun c hc => halloc c (hperm.mem_iff.mpr (List.mem_cons_of_mem _ hc))
        split
        · rename_i fl hmerge
          exact ⟨hP.of_mergeFree hmerge hb hfree, hrest⟩
        · exact ⟨List.forall_mem_cons.mpr ⟨hb, hfree⟩, hrest⟩
  obtain ⟨-, -, -, hcalls, -⟩ := s.freeLocalMem_table p
  intro b hb
  rcases LocalMem.mem_blocks.mp hb with hb | hb | hb
  · exact hlists.1 b hb
  · exact hlists.2 b hb
  · rw [hcalls] at hb
    exact h b (LocalMem.mem_blocks.mpr (.inr (.inr hb)))

/-- **One step**, when the pointers that are waiting to be listed have the
property, and no access is behind the end of `local_mems`. -/
theorem step (hP : BlockRule P) (h : ∀ b ∈ s.blocks, P b) {a : MemAct}
    (hunits : ∀ unit p k, .growList unit p k ∈ s.calls → P ⟨p, localMemUnit⟩)
    (hin : ∀ index, a = .growUnit index → s.InTable index) (hs : s.Step a s') :
    ∀ b ∈ s'.blocks, P b := by
  have hfree : ∀ b ∈ s.freeList, P b := fun b hb => h b (LocalMem.mem_blocks.mpr (.inl hb))
  have halloc : ∀ b ∈ s.allocList, P b :=
    fun b hb => h b (LocalMem.mem_blocks.mpr (.inr (.inl hb)))
  cases hs with
  | alloc size inInterrupt h0 hmax => exact h
  | skip size doRetry inInterrupt hc hg =>
    exact move h hc List.singleton_append.symm rfl rfl (by simp [MemCall.splitOff])
  | growStart size doRetry hc hg hcap =>
    exact move h hc List.singleton_append.symm rfl rfl (by simp [MemCall.splitOff])
  | growRefused size doRetry hc hg hcap =>
    exact move h hc List.singleton_append.symm rfl rfl (by simp [MemCall.splitOff])
  | growMb index k hc hi =>
    exact move h hc List.singleton_append.symm rfl rfl (by simp [MemCall.splitOff])
  | growNoMb k hc =>
    exact move h hc rfl rfl rfl (by cases k <;> simp [MemCall.splitOff, LocalMem.resume])
  | growUnit index unit k hc hin' hu =>
    unfold LocalMem.fetchUnit
    dsimp only
    split
    · exact move h hc rfl rfl rfl (by cases k <;> simp [MemCall.splitOff, LocalMem.resume])
    · exact move h hc List.singleton_append.symm rfl rfl (by simp [MemCall.splitOff])
  | growOverrun index k s' hc hout ho => exact absurd (hin index rfl) hout
  | missRetry size inInterrupt hc hf =>
    exact move h hc List.singleton_append.symm rfl rfl (by simp [MemCall.splitOff])
  | missFail size inInterrupt hc hf => exact move h hc (List.nil_append _).symm rfl rfl (by simp)
  | newMb size p hc =>
    exact move h hc List.singleton_append.symm rfl rfl (by simp [MemCall.splitOff])
  | newNoMb size p hc => exact move h hc (List.nil_append _).symm rfl rfl (by simp)
  | growList unit p k hc =>
    refine relist h rfl (List.forall_mem_cons.mpr ⟨hunits unit p k hc, hfree⟩) halloc ?_
    cases k <;> simp [MemCall.splitOff, LocalMem.resume]
  | take size doRetry inInterrupt b rest hc hf =>
    obtain ⟨hb, hrest⟩ := hP.of_takeFree (size256_dvd size) hf hfree
    exact relist h (List.nil_append _).symm hrest
      (List.forall_mem_cons.mpr ⟨hb, halloc⟩) (by simp)
  | split size doRetry inInterrupt b rest hc hf =>
    obtain ⟨hb, hrest⟩ := hP.of_takeFree (size256_dvd size) hf hfree
    refine relist h List.singleton_append.symm hrest halloc ?_
    rw [List.flatMap_singleton, MemCall.splitOff, ← size_takeFree hf]
    exact fun c hc => (List.mem_singleton.mp hc) ▸ hb
  | list size p hc =>
    refine relist h (List.nil_append _).symm hfree
      (List.forall_mem_cons.mpr ⟨h _ ?_, halloc⟩) (by simp)
    exact LocalMem.mem_blocks.mpr (.inr (.inr ⟨_, hc, List.mem_singleton_self _⟩))
  | free p => exact hP.of_freeLocalMem h p
  | ohciStart hcap => exact h
  | ohciRefused hcap => exact h
  | ohciDone hc => exact move h hc (List.nil_append _).symm rfl rfl (by simp)
  | ohciFail hc =>
    refine relist h (List.nil_append _).symm (fun b hb => ?_) halloc (by simp)
    exact absurd hb List.not_mem_nil

/-- **It holds of all blocks in every run** in which it holds of what the
heap has answered. -/
theorem run (hP : BlockRule P) (h : LocalMem.Run (fun s a =>
      (∀ unit p k, .growList unit p k ∈ s.calls → P ⟨p, localMemUnit⟩) ∧
        ∀ index, a = .growUnit index → s.InTable index) LocalMem.init s) : ∀ b ∈ s.blocks, P b :=
  h.of_step (fun _ hb => absurd hb List.not_mem_nil) fun _ _ _ hall hc hs =>
    hP.step hall hc.1 hc.2 hs

end BlockRule
