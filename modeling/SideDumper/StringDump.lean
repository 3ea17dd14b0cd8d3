import SideDumper.DumpSize

/-!
# The characters of a string descriptor

`DumpSD` walks over the code units with two pointers of 32 bits. The end is
computed from `min(bLength, uDescLen) - 2`, and the test in front of it asks
whether two bytes were captured and not whether `bLength` is two. For a
`bLength` of 0 or 1 the subtraction wraps around; then the sum does so too,
and the end is the descriptor itself, which lies before the first unit. So
what is printed is right for these as well, by two wrong steps.
-/

/-- `a - b` of `unsigned int`. -/
def subU32 (a b : ℕ) : ℕ := (a + 0x100000000 - b) % 0x100000000

/-- `pEnd`, for a descriptor at `pDesc`. -/
def sdEnd (pDesc : ℕ) (buf : Bytes) (uDescLen : ℕ) : ℕ :=
  (pDesc + 2 + 2 * (subU32 (min (buf 0).toNat uDescLen) 2 / 2)) % 0x100000000

/-- The loop of `DumpSD`, as far as its first `passes` passes. -/
def sdLoop (pDesc pEnd : ℕ) : ℕ → ℕ → List Item
  | 0, _ => []
  | passes + 1, pc =>
    if pc < pEnd then
      .printable (pc - pDesc) :: sdLoop pDesc pEnd passes ((pc + 2) % 0x100000000)
    else []

/-- `DumpSD` of a descriptor at `pDesc`, as far as the first `passes` passes
of its loop. -/
def dumpSDAt (passes pDesc : ℕ) (buf : Bytes) (uDescLen uIndex : ℕ) : List Item :=
  line "    -- string descriptor -----" []
    ++ (if uDescLen < 2 then shortTransfer uDescLen 0
      else [Item.test 0]
        ++ (if uDescLen < (buf 0).toNat then shortTransfer uDescLen 0
          else [Item.test 0] ++ hexDecByte "    bLength         = " 0
            ++ hexByte "    bDescriptorType = " 1
            ++ (if uIndex = 0 then line "    wData           = [tbd]" []
              else [Item.lit pszHeader, Item.lit "    wData[]         = '"]
                ++ sdLoop pDesc (sdEnd pDesc buf uDescLen) passes ((pDesc + 2) % 0x100000000)
                ++ [Item.lit "'\n"])))
    ++ endOfDescriptor

/-- The low bytes of the first code units, with a dot for each that is not
printable. -/
def lowBytes (buf : Bytes) (units : ℕ) : List Char :=
  (List.range units).map fun i =>
    if isprint (buf (2 + 2 * i)) then Char.ofNat (buf (2 + 2 * i)).toNat else '.'

/-- **A string is decoded exactly**: a descriptor that is complete is printed
with as many code units as it has behind its header, and the subtraction for
it is one of numbers; another is reported as short. -/
def SdExact (pDesc : ℕ) (buf : Bytes) (uDescLen uIndex : ℕ) : Prop :=
  if (buf 0).toNat ≤ uDescLen then
    (∀ passes, 127 ≤ passes → dumpText buf (dumpSDAt passes pDesc buf uDescLen uIndex)
      = dumpText buf (line "    -- string descriptor -----" [] ++ hexDecByte
        "    bLength         = " 0
          ++ hexByte "    bDescriptorType = " 1 ++ [Item.lit pszHeader,
            Item.lit "    wData[]         = '"])
        ++ lowBytes buf (if 2 ≤ (buf 0).toNat then ((buf 0).toNat - 2) / 2 else 0)
        ++ dumpText buf ([Item.lit "'\n"] ++ endOfDescriptor)) ∧
    (subU32 (min (buf 0).toNat uDescLen) 2 : ℤ) = (min (buf 0).toNat uDescLen : ℤ) - 2
  else
    ∀ passes, 127 ≤ passes → dumpText buf (dumpSDAt passes pDesc buf uDescLen uIndex)
      = dumpText buf (line "    -- string descriptor -----" [] ++ shortTransfer uDescLen 0
          ++ endOfDescriptor)

variable {pDesc n uIndex : ℕ} {buf : Bytes}

theorem subU32_of_le {a b : ℕ} (ha : a < 0x100000000) (hb : b ≤ a) : subU32 a b = a - b := by
  unfold subU32
  omega

/-- The end lies behind the units that are there, or is the descriptor. -/
theorem sdEnd_eq (hfits : pDesc + n < 0x100000000) (htwo : 2 ≤ n) :
    sdEnd pDesc buf n = if 2 ≤ (buf 0).toNat then pDesc + 2 + 2 * sdChars buf n else pDesc := by
  unfold sdEnd sdChars
  split
  · rw [subU32_of_le (by omega) (by omega), Nat.mod_eq_of_lt (by omega)]
  · rename_i hshort
    have hmin : min (buf 0).toNat n = (buf 0).toNat := by omega
    have hdiv : subU32 (buf 0).toNat 2 / 2 = 0x7fffffff := by
      unfold subU32
      omega
    rw [hmin, hdiv]
    omega

/-- The loop prints the units between the two pointers. -/
theorem sdLoop_eq {pEnd k passes i : ℕ} (hend : pEnd = pDesc + 2 + 2 * (i + k))
    (hfits : pEnd < 0x100000000) (hpasses : k ≤ passes) :
    sdLoop pDesc pEnd passes (pDesc + 2 + 2 * i)
      = (List.range' i k).map (fun i => Item.printable (2 + 2 * i)) := by
  induction k generalizing passes i with
  | zero =>
    have hat : ¬ pDesc + 2 + 2 * i < pEnd := by omega
    cases passes with
    | zero => rfl
    | succ passes => exact if_neg hat
  | succ k ih =>
    obtain ⟨passes, rfl⟩ := Nat.exists_eq_succ_of_ne_zero (show passes ≠ 0 by omega)
    have hnext : (pDesc + 2 + 2 * i + 2) % 0x100000000 = pDesc + 2 + 2 * (i + 1) := by omega
    have hoff : pDesc + 2 + 2 * i - pDesc = 2 + 2 * i := by omega
    rw [sdLoop, if_pos (by omega), hnext, hoff, ih (by omega) (by omega), List.range'_succ,
      List.map_cons]

/-- **The pointers print what the dump says**, also when the subtraction
wraps around. -/
theorem dumpSDAt_eq_dumpSD (hfits : pDesc + n < 0x100000000) {passes : ℕ}
    (hpasses : 127 ≤ passes) :
    dumpSDAt passes pDesc buf n uIndex = dumpSD buf n uIndex := by
  unfold dumpSDAt dumpSD
  by_cases htwo : n < 2
  · rw [if_pos htwo, if_pos htwo]
  · have hbyte : (buf 0).toNat < 256 := (buf 0).toNat_lt_size
    have hpc : (pDesc + 2) % 0x100000000 = pDesc + 2 := Nat.mod_eq_of_lt (by omega)
    have hloop : sdLoop pDesc (sdEnd pDesc buf n) passes (pDesc + 2)
        = (List.range (sdChars buf n)).map (fun i => Item.printable (2 + 2 * i)) := by
      rw [sdEnd_eq hfits (Nat.not_lt.mp htwo), List.range_eq_range']
      split
      · exact sdLoop_eq (i := 0) (by rw [Nat.zero_add]) (by unfold sdChars; omega)
          (by unfold sdChars; omega)
      · have hchars : sdChars buf n = 0 := by
          unfold sdChars
          omega
        rw [hchars]
        obtain ⟨passes, rfl⟩ := Nat.exists_eq_succ_of_ne_zero (show passes ≠ 0 by omega)
        exact if_neg (by omega)
    rw [if_neg htwo, if_neg htwo, hpc, hloop]

theorem dumpText_printable (units : ℕ) :
    dumpText buf ((List.range units).map (fun i => Item.printable (2 + 2 * i)))
      = lowBytes buf units := by
  unfold dumpText lowBytes
  rw [List.flatMap_map]
  exact List.map_eq_flatMap.symm

/-- What is printed for a descriptor that is complete. -/
theorem dumpSD_complete (hlen : (buf 0).toNat ≤ n) (htwo : 2 ≤ n) (hindex : uIndex ≠ 0) :
    dumpText buf (dumpSD buf n uIndex)
      = dumpText buf (line "    -- string descriptor -----" [] ++ hexDecByte
        "    bLength         = " 0
          ++ hexByte "    bDescriptorType = " 1 ++ [Item.lit pszHeader,
            Item.lit "    wData[]         = '"])
        ++ lowBytes buf (if 2 ≤ (buf 0).toNat then ((buf 0).toNat - 2) / 2 else 0)
        ++ dumpText buf ([Item.lit "'\n"] ++ endOfDescriptor) := by
  have hunits : sdChars buf n = if 2 ≤ (buf 0).toNat then ((buf 0).toNat - 2) / 2 else 0 := by
    unfold sdChars
    rw [Nat.min_eq_left hlen]
    split
    · rfl
    · omega
  have htest : dumpText buf [Item.test 0] = [] := rfl
  rw [dumpSD, if_neg (Nat.not_lt.mpr htwo), if_neg (Nat.not_lt.mpr hlen), if_neg hindex, hunits]
  simp only [dumpText_append, dumpText_printable, htest, List.nil_append, List.append_assoc]

/-- What is printed for a descriptor that is not. -/
theorem dumpSD_short (hlen : n < (buf 0).toNat) (htwo : 2 ≤ n) :
    dumpText buf (dumpSD buf n uIndex)
      = dumpText buf (line "    -- string descriptor -----" [] ++ shortTransfer n 0
          ++ endOfDescriptor) := by
  have htest : dumpText buf [Item.test 0] = [] := rfl
  rw [dumpSD, if_neg (Nat.not_lt.mpr htwo), if_pos hlen]
  simp only [dumpText_append, htest, List.nil_append]

/-- **When a string is decoded exactly**: the descriptor says that it has
room for its header. -/
theorem sd_exact_iff (pDesc : ℕ) (buf : Bytes) (n uIndex : ℕ) (hfits : pDesc + n < 0x100000000)
    (htwo : 2 ≤ n) (hindex : uIndex ≠ 0) :
    SdExact pDesc buf n uIndex ↔ 2 ≤ (buf 0).toNat := by
  unfold SdExact
  by_cases hlen : (buf 0).toNat ≤ n
  · rw [if_pos hlen]
    have hmin : (min ((buf 0).toNat : ℤ) n) = (buf 0).toNat :=
      min_eq_left (by exact_mod_cast hlen)
    rw [hmin, Nat.min_eq_left hlen]
    constructor
    · intro ⟨_, hsub⟩
      unfold subU32 at hsub
      omega
    · intro hroom
      refine ⟨fun passes hpasses => ?_, ?_⟩
      · rw [dumpSDAt_eq_dumpSD hfits hpasses, dumpSD_complete hlen htwo hindex]
      · rw [subU32_of_le (by omega) hroom]
        omega
  · rw [if_neg hlen]
    refine ⟨fun _ => by omega, fun _ passes hpasses => ?_⟩
    rw [dumpSDAt_eq_dumpSD hfits hpasses, dumpSD_short (Nat.not_le.mp hlen) htwo]

theorem sd_exact_iff_ok : SdExact 0x80400000 (fun i => [4, 3, 0x4f, 0].getD i 0) 4 1 ↔
    2 ≤ ((fun i => [4, 3, 0x4f, 0].getD i 0 : Bytes) 0).toNat :=
  sd_exact_iff _ _ _ _ (by decide) (by decide) (by decide)

theorem sd_not_exact : ¬ ∀ (pDesc : ℕ) (buf : Bytes) (n uIndex : ℕ), pDesc + n < 0x100000000 →
    2 ≤ n → uIndex ≠ 0 → SdExact pDesc buf n uIndex := by
  intro hall
  have hexact :=
    hall 0x80400000 (fun i => [0, 3].getD i 0) 2 1 (by decide) (by decide) (by decide)
  unfold SdExact at hexact
  rw [if_pos (by decide)] at hexact
  exact absurd hexact.2 (by decide)
