import SideDumper.DumpReads
import SideDumper.LengthWalk

/-!
# The walk over the descriptors behind a configuration

`DumpCD` goes from a descriptor to the next by the `bLength` the descriptor
has, the config descriptor included. The device chooses these bytes, and
nothing tests them: at a descriptor whose `bLength` is 0 the loop stays for
good, and the config descriptor itself may be that one.
-/

/-- `bLength` of the descriptor at an offset. -/
def bLengthAt (buf : Bytes) (off : ℕ) : ℕ := (buf off).toNat

/-- `pEnd`, as an offset. -/
def cdEnd (buf : Bytes) (uDescLen : ℕ) : ℕ := min uDescLen (fieldValue buf 2 2)

/-- Whether `DumpCD` has left its loop after at most so many passes. -/
def cdEnded (passes : ℕ) (buf : Bytes) (uDescLen : ℕ) : Bool :=
  if 9 < uDescLen then
    LengthWalk.ended (bLengthAt buf) (cdEnd buf uDescLen) passes (bLengthAt buf 0)
  else true

theorem dumpCdLoop_at_end {buf : Bytes} {pEnd off : ℕ} (hoff : ¬ off < pEnd) (passes : ℕ) :
    dumpCdLoop buf pEnd passes off = [] := by
  cases passes with
  | zero => rfl
  | succ passes => exact if_neg hoff

/-- Passes after the loop was left write nothing. -/
theorem dumpCdLoop_of_ended {buf : Bytes} {pEnd passes off : ℕ}
    (h : LengthWalk.ended (bLengthAt buf) pEnd passes off = true) (more : ℕ) :
    dumpCdLoop buf pEnd (passes + more) off = dumpCdLoop buf pEnd passes off := by
  induction passes generalizing off with
  | zero =>
    have hoff : ¬ off < pEnd := Nat.not_lt.mpr (of_decide_eq_true h)
    rw [dumpCdLoop_at_end hoff, dumpCdLoop_at_end hoff]
  | succ passes ih =>
    rw [Nat.add_right_comm, dumpCdLoop, dumpCdLoop]
    split
    · rename_i hoff
      rw [LengthWalk.ended, if_pos hoff] at h
      exact congrArg (dumpCdPass buf off pEnd ++ ·) (ih h)
    · rfl

/-- A dump is complete when the loop was left. -/
theorem dumpCD_of_cdEnded {buf : Bytes} {uDescLen passes : ℕ}
    (h : cdEnded passes buf uDescLen = true)
    (more : ℕ) : dumpCD (passes + more) buf uDescLen = dumpCD passes buf uDescLen := by
  unfold dumpCD
  split
  · rename_i hlen
    rw [cdEnded, if_pos hlen] at h
    exact congrArg (fun loop => _ ++ ([Item.test 0, Item.test 2, Item.test 3] ++ loop))
      (dumpCdLoop_of_ended h more)
  · rfl

/-- **When the walk ends**: no descriptor that the descriptors lead to in
front of the end has a `bLength` of 0. -/
theorem cd_walk_ends_iff (buf : Bytes) (uDescLen : ℕ) :
    (∃ passes, cdEnded passes buf uDescLen = true) ↔
      (9 < uDescLen → ∀ off, LengthWalk.LeadsTo (bLengthAt buf) (bLengthAt buf 0) off →
        off < min uDescLen (fieldValue buf 2 2) → buf off ≠ 0) := by
  have hzero : ∀ off, buf off ≠ 0 ↔ bLengthAt buf off ≠ 0 :=
    fun off => not_congr (UInt8.toNat_inj (b := 0)).symm
  unfold cdEnded
  by_cases hlen : 9 < uDescLen
  · simp only [hlen, true_imp_iff, hzero]
    exact LengthWalk.exists_ended_iff
  · simp [hlen]

/-- A config descriptor that is followed by a descriptor of length 0. -/
def zeroLengthConfig : Bytes := fun i => [9, 2, 11, 0, 1, 1, 0, 0x80, 50, 0, 4].getD i 0

theorem cd_walk_stays :
    ¬ ∀ (buf : Bytes) (uDescLen : ℕ), ∃ passes, cdEnded passes buf uDescLen = true := by
  intro hends
  obtain ⟨passes, hended⟩ := hends zeroLengthConfig 11
  have hstays : LengthWalk.ended (bLengthAt zeroLengthConfig) (cdEnd zeroLengthConfig 11) passes 9
      = false :=
    LengthWalk.ended_of_len_zero (by decide) (by decide) passes
  exact absurd (hstays.symm.trans hended) (by decide)
