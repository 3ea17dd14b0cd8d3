import SideDumper.LocalMemCall
import SideDumper.BulkTds
import SideDumper.DoUntil

/-!
# The copy into the bounce buffer

`Portable_PrepareUrbOnSubmit` copies the caller's data into local memory. For
a caller's buffer at a multiple of 32 it does so with `QuadCopy`, 64 bytes a
pass, and rounds the length up; otherwise with `memcpy`. The rounding adds 64
before it cuts off, so a length that is a multiple of 64 already becomes one
pass longer, and that pass reads 64 bytes behind the caller's data.
-/

/-- The memory as the processor sees it, with the addresses of the bytes read
and written. -/
structure CpuMem where
  mem : ℕ → UInt8
  reads : List ℕ
  writes : List ℕ

/-- A register of 128 bits, as its bytes. -/
abbrev Quad := Fin 16 → UInt8

/-- The address that `lq` and `sq` use: the four low bits are taken off. -/
def quadAddr (a : ℕ) : ℕ := a % 0x100000000 / 16 * 16

/-- The addresses of a quadword. -/
def quadRange (a : ℕ) : List ℕ := (List.range 16).map (quadAddr a + ·)

namespace CpuMem

/-- `lq`. -/
def lq (c : CpuMem) (a : ℕ) : Quad × CpuMem :=
  (fun i => c.mem (quadAddr a + i), { c with reads := c.reads ++ quadRange a })

/-- `sq`. -/
def sq (c : CpuMem) (v : Quad) (a : ℕ) : CpuMem :=
  { c with
    mem := fun x =>
      if h : quadAddr a ≤ x ∧ x - quadAddr a < 16 then v ⟨x - quadAddr a, h.2⟩ else c.mem x
    writes := c.writes ++ quadRange a }

/-- `memcpy`. -/
def memcpy (c : CpuMem) (pDest pSrc n : ℕ) : CpuMem where
  mem := fun x => if pDest ≤ x ∧ x - pDest < n then c.mem (pSrc + (x - pDest)) else c.mem x
  reads := c.reads ++ (List.range n).map (pSrc + ·)
  writes := c.writes ++ (List.range n).map (pDest + ·)

end CpuMem

/-- The registers that `QuadCopy` runs on, and the memory. -/
structure QuadRegs where
  pDest : ℕ
  pSrc : ℕ
  cpu : CpuMem

/-- One pass of `QuadCopy`: four loads, four stores, and both pointers move
on by 64, the second in the delay slot of the branch. -/
def quadPass (r : QuadRegs) : QuadRegs :=
  let (r9, c) := r.cpu.lq r.pSrc
  let (r10, c) := c.lq (r.pSrc + 16)
  let (r11, c) := c.lq (r.pSrc + 32)
  let (r12, c) := c.lq (r.pSrc + 48)
  let c := c.sq r9 r.pDest
  let c := c.sq r10 (r.pDest + 16)
  let c := c.sq r11 (r.pDest + 32)
  let c := c.sq r12 (r.pDest + 48)
  ⟨(r.pDest + 64) % 0x100000000, (r.pSrc + 64) % 0x100000000, c⟩

/-- **`QuadCopy`**, which goes on until `pSrc` is the end of the source. -/
def quadCopy (fuel pDest pSrc uBytes : ℕ) (c : CpuMem) : Option CpuMem :=
  (doUntil quadPass (fun r => decide (r.pSrc = (pSrc + uBytes) % 0x100000000)) fuel ⟨pDest,
    pSrc, c⟩).map
    QuadRegs.cpu

/-- **The first half of `Portable_PrepareUrbOnSubmit`**, up to the copy of the
setup packet: the error code if it ends there, otherwise 0,
`portable.transfer_buffer`, the local memory and the memory. The caller's
buffer is `len` bytes at `addr`. -/
def prepareTransferBuffer (fuel : ℕ) (s : LocalMem) (inInterrupt : Bool) (ans : AllocAnswers)
    (addr len : ℕ) (c : CpuMem) : Option (ℤ × Option ℕ × LocalMem × CpuMem) :=
  if len = 0 then some (0, none, s, c)
  else do
    let (p, s) ← s.allocLocalMem inInterrupt ans (bounceSize addr len)
    match p with
    | none => some (-12, none, s, c)
    | some p =>
      if addr % 32 = 0 then do
        let c ← quadCopy fuel p addr (bounceSize addr len) c
        some (0, some p, s, c)
      else some (0, some p, s, c.memcpy p addr len)

/-- How far behind the start of the source an address is. -/
def sourceOffset (addr a : ℕ) : ℕ := (a + 0x100000000 - addr) % 0x100000000

/-- **The fast copy agrees with the plain one**: the code comes to its end
with a block that is allocated; the block begins with the caller's data; all
that was written lies inside it; and the fast path has read nothing behind
the last group of 64 bytes that has data. -/
def CopyAgrees (s : LocalMem) (inInterrupt : Bool) (ans : AllocAnswers) (addr len : ℕ)
    (mem : ℕ → UInt8) : Prop :=
  ∃ fuel p s' c, prepareTransferBuffer fuel s inInterrupt ans addr len ⟨mem, [], []⟩
      = some (0, some p, s', c) ∧
    ∃ b ∈ s'.allocList, b.p = p ∧ (∀ i < len, c.mem (p + i) = mem (addr + i)) ∧
      (∀ a ∈ c.writes, b.Has a) ∧
      (addr % 32 = 0 → ∀ a ∈ c.reads, sourceOffset addr a < 64 * ((len + 63) / 64))

/-! ## One pass -/

section Pass

variable {r : QuadRegs} {a p : ℕ}

theorem quadAddr_eq (h16 : 16 ∣ a) (ha : a < 0x100000000) : quadAddr a = a := by
  unfold quadAddr
  omega

theorem mem_quadRange {x : ℕ} : x ∈ quadRange a ↔ quadAddr a ≤ x ∧ x < quadAddr a + 16 := by
  simp only [quadRange, List.mem_map, List.mem_range]
  refine ⟨?_, fun h => ⟨x - quadAddr a, by omega, by omega⟩⟩
  rintro ⟨i, hi, rfl⟩
  omega

/-- The quadwords that start in a group of 64 bytes. -/
theorem mem_quads {as : List ℕ} {x : ℕ} :
    x ∈ as ++ quadRange a ++ quadRange (a + 16) ++ quadRange (a + 32) ++ quadRange (a + 48) →
      x ∈ as ∨ ∃ q, 16 ∣ q ∧ q < 64 ∧ x ∈ quadRange (a + q) := by
  intro hx
  simp only [List.mem_append] at hx
  rcases hx with (((hx | hx) | hx) | hx) | hx
  · exact .inl hx
  · exact .inr ⟨0, by decide, by decide, hx⟩
  · exact .inr ⟨16, by decide, by decide, hx⟩
  · exact .inr ⟨32, by decide, by decide, hx⟩
  · exact .inr ⟨48, by decide, by decide, hx⟩

theorem quadPass_writes (r : QuadRegs) {x : ℕ} (hx : x ∈ (quadPass r).cpu.writes) :
    x ∈ r.cpu.writes ∨ ∃ q, 16 ∣ q ∧ q < 64 ∧ x ∈ quadRange (r.pDest + q) := mem_quads hx

theorem quadPass_reads (r : QuadRegs) {x : ℕ} (hx : x ∈ (quadPass r).cpu.reads) :
    x ∈ r.cpu.reads ∨ ∃ q, 16 ∣ q ∧ q < 64 ∧ x ∈ quadRange (r.pSrc + q) := mem_quads hx

/-- A pass begins to read where `pSrc` is. -/
theorem quadPass_begun (r : QuadRegs) {x : ℕ} (hx : x ∈ r.cpu.reads ∨ x ∈ quadRange r.pSrc) :
    x ∈ (quadPass r).cpu.reads :=
  List.mem_append_left _ (List.mem_append_left _
    (List.mem_append_left _ (List.mem_append.mpr hx)))

/-- **What a pass does to the memory**, when it does not go beyond the end of
the address space: all loads are before the stores. -/
theorem quadPass_mem (h16 : 16 ∣ r.pDest) (hend : r.pDest + 64 ≤ 0x100000000) (x : ℕ) :
    (quadPass r).cpu.mem x = if r.pDest ≤ x ∧ x - r.pDest < 64 then
      r.cpu.mem (quadAddr (r.pSrc + (x - r.pDest) / 16 * 16) + (x - r.pDest) % 16)
    else r.cpu.mem x := by
  have h0 := quadAddr_eq h16 (by omega)
  have h1 := quadAddr_eq (a := r.pDest + 16) (by omega) (by omega)
  have h2 := quadAddr_eq (a := r.pDest + 32) (by omega) (by omega)
  have h3 := quadAddr_eq (a := r.pDest + 48) (by omega) (by omega)
  unfold quadPass CpuMem.sq CpuMem.lq
  dsimp only
  simp only [h0, h1, h2, h3]
  -- Each store covers one group of 16 bytes.
  by_cases hin : r.pDest ≤ x ∧ x - r.pDest < 64
  · have hmem : ∀ q i, q = (x - r.pDest) / 16 * 16 → i = (x - r.pDest) % 16 →
        r.cpu.mem (quadAddr (r.pSrc + q) + i)
          = r.cpu.mem (quadAddr (r.pSrc + (x - r.pDest) / 16 * 16) + (x - r.pDest) % 16) := by
      rintro q i rfl rfl
      rfl
    rw [if_pos hin]
    obtain hq | hq | hq | hq : (x - r.pDest) / 16 = 3 ∨ (x - r.pDest) / 16 = 2 ∨
        (x - r.pDest) / 16 = 1 ∨ (x - r.pDest) / 16 = 0 := by omega
    · rw [dif_pos (by omega)]
      exact hmem 48 _ (by omega) (by omega)
    · rw [dif_neg (by omega), dif_pos (by omega)]
      exact hmem 32 _ (by omega) (by omega)
    · rw [dif_neg (by omega), dif_neg (by omega), dif_pos (by omega)]
      exact hmem 16 _ (by omega) (by omega)
    · rw [dif_neg (by omega), dif_neg (by omega), dif_neg (by omega), dif_pos (by omega)]
      exact hmem 0 _ (by omega) (by omega)
  · rw [if_neg hin, dif_neg (by omega), dif_neg (by omega), dif_neg (by omega),
      dif_neg (by omega)]

end Pass

/-! ## The loop -/

/-- **What holds after `k` passes** of a copy of `len` bytes from `addr` to
`p`; what follows the caller's bytes may have changed in the meantime. -/
structure QuadInv (p addr len : ℕ) (mem : ℕ → UInt8) (k : ℕ) (r : QuadRegs) : Prop where
  pDest : r.pDest = (p + 64 * k) % 0x100000000
  pSrc : r.pSrc = (addr + 64 * k) % 0x100000000
  copied : ∀ i < 64 * k, i < len → r.cpu.mem (p + i) = mem (addr + i)
  kept : ∀ x, x < p ∨ p + 64 * k ≤ x → r.cpu.mem x = mem x
  writes : ∀ a ∈ r.cpu.writes, p ≤ a ∧ a < p + 64 * k
  reads : ∀ a ∈ r.cpu.reads, sourceOffset addr a < 64 * k
  begun : ∀ j < k, (addr + 64 * j) % 0x100000000 ∈ r.cpu.reads

section Loop

variable {p addr len n k : ℕ} {mem : ℕ → UInt8} {r : QuadRegs}

/-- The addresses at which a pass reads, for a source at a multiple of 16. -/
theorem sourceOffset_of_quad {q a : ℕ} (haddr : 16 ∣ addr) (hlt : addr < 0x100000000)
    (hq : 16 ∣ q)
    (ha : a ∈ quadRange ((addr + 64 * k) % 0x100000000 + q)) :
    sourceOffset addr a < 64 * k + q + 16 := by
  rw [mem_quadRange] at ha
  unfold quadAddr at ha
  unfold sourceOffset
  omega

/-- **One more pass.** -/
theorem QuadInv.pass (hp : 16 ∣ p) (haddr : 16 ∣ addr) (hend : p + 64 * n ≤ 0x100000000)
    (hsrc : addr + len ≤ 0x100000000) (hlt : addr < 0x100000000)
    (hapart : addr + len ≤ p ∨ p + 64 * n ≤ addr) (hk : k < n)
    (h : QuadInv p addr len mem k r) : QuadInv p addr len mem (k + 1) (quadPass r) := by
  have hdest : r.pDest = p + 64 * k := by
    rw [h.pDest]
    omega
  have hpass := quadPass_mem (r := r) (by omega) (by omega)
  rw [hdest] at hpass
  refine ⟨?_, ?_, ?_, ?_, ?_, ?_, ?_⟩
  · show (r.pDest + 64) % 0x100000000 = _
    omega
  · show (r.pSrc + 64) % 0x100000000 = _
    rw [h.pSrc]
    omega
  · intro i hi hlen
    rw [hpass]
    by_cases hold : i < 64 * k
    · rw [if_neg (by omega)]
      exact h.copied i hold hlen
    · have hread :
          quadAddr (r.pSrc + (p + i - (p + 64 * k)) / 16 * 16) + (p + i - (p + 64 * k)) % 16
          = addr + i := by
        rw [h.pSrc]
        unfold quadAddr
        omega
      rw [if_pos (by omega), hread]
      exact h.kept _ (by omega)
  · intro x hx
    rw [hpass, if_neg (by omega)]
    exact h.kept x (by omega)
  · intro a ha
    rcases quadPass_writes r ha with hold | ⟨q, hq, hq64, hmem⟩
    · have hin := h.writes a hold
      omega
    · rw [mem_quadRange, quadAddr_eq (by omega) (by omega)] at hmem
      omega
  · intro a ha
    rcases quadPass_reads r ha with hold | ⟨q, hq, hq64, hmem⟩
    · have hlow := h.reads a hold
      omega
    · rw [h.pSrc] at hmem
      have hlow := sourceOffset_of_quad haddr hlt hq hmem
      omega
  · intro j hj
    refine quadPass_begun r ?_
    rcases Nat.lt_succ_iff_lt_or_eq.mp hj with hold | rfl
    · exact .inl (h.begun j hold)
    · refine .inr ?_
      rw [mem_quadRange, h.pSrc]
      unfold quadAddr
      omega

/-- **`QuadCopy` ends** after `uBytes / 64` passes, and what holds then. -/
theorem exists_quadCopy (mem : ℕ → UInt8) (hp : 16 ∣ p) (haddr : 16 ∣ addr)
    (hend : p + 64 * n ≤ 0x100000000)
    (hsrc : addr + len ≤ 0x100000000) (hlt : addr < 0x100000000) (hplt : p < 0x100000000)
    (hapart : addr + len ≤ p ∨ p + 64 * n ≤ addr) (hn : 0 < n) (hsmall : 64 * n < 0x100000000) :
    ∃ r, quadCopy n p addr (64 * n) ⟨mem, [], []⟩ = some r.cpu ∧ QuadInv p addr len mem n r := by
  have hinit : QuadInv p addr len mem 0 ⟨p, addr, ⟨mem, [], []⟩⟩ :=
    ⟨by dsimp only; omega, by dsimp only; omega, by omega,
      fun _ _ => rfl, by simp, by simp, by omega⟩
  have hstop : ∀ k r, 0 < k → k ≤ n → QuadInv p addr len mem k r →
      (decide (r.pSrc = (addr + 64 * n) % 0x100000000) = true ↔ k = n) := by
    intro k r hpos hk h
    rw [decide_eq_true_iff, h.pSrc]
    omega
  obtain ⟨r, hr, hinv⟩ := exists_doUntil hinit hn
    (fun k r hk h => h.pass hp haddr hend hsrc hlt hapart hk) hstop
  exact ⟨r, by rw [quadCopy, hr]; rfl, hinv⟩

end Loop

/-! ## The block -/

/-- **A block that a copy may go to**: at a multiple of 16, inside the address
space, and apart from the caller's `len` bytes at `addr`. -/
structure Mb.Usable (b : Mb) (addr len : ℕ) : Prop where
  aligned : 16 ∣ b.p
  whole : 256 ∣ b.size
  inside : b.p + b.size ≤ 0x100000000
  apart : addr + len ≤ b.p ∨ b.p + b.size ≤ addr

/-- The free blocks are usable, and so are the units that
`ps2sif_allociopheap` answers with. -/
structure LocalMem.Usable (s : LocalMem) (ans : AllocAnswers) (addr len : ℕ) : Prop where
  free : ∀ b ∈ s.freeList, b.Usable addr len
  first : ans.first.unit ≠ 0 → Mb.Usable ⟨ans.first.unit, localMemUnit⟩ addr len
  second : ans.second.unit ≠ 0 → Mb.Usable ⟨ans.second.unit, localMemUnit⟩ addr len

section Block

variable {s s' : LocalMem} {inInterrupt : Bool} {ans : AllocAnswers} {addr len n p size : ℕ}

/-- Parts of a usable block are usable, and so are two that are joined. -/
theorem usable_blockRule (addr : ℕ) (hlen : 1 ≤ len) :
    BlockRule (fun b => b.Usable addr len) where
  cut := by
    rintro b n ⟨haligned, hwhole, hinside, hapart⟩ hn hlt
    constructor <;> constructor <;> dsimp only <;> omega
  join := by
    rintro b c ⟨haligned, hwhole, hinside, hapart⟩ ⟨-, hwhole', hinside', hapart'⟩ hjoin
    constructor <;> dsimp only <;> omega

/-- The units that wait to be listed are usable, and no access is behind the
end of `local_mems`. -/
def LocalMem.UnitsUsable (addr len : ℕ) (s : LocalMem) (a : MemAct) : Prop :=
  (∀ unit p k, .growList unit p k ∈ s.calls → Mb.Usable ⟨p, localMemUnit⟩ addr len) ∧
    ∀ index, a = .growUnit index → s.InTable index

/-- **The free blocks are usable in every run** in which the units of
`ps2sif_allociopheap` are. -/
theorem LocalMem.Run.usable (hlen : 1 ≤ len) (h : Run (UnitsUsable addr len) init s)
    (hfirst : ans.first.unit ≠ 0 → Mb.Usable ⟨ans.first.unit, localMemUnit⟩ addr len)
    (hsecond : ans.second.unit ≠ 0 → Mb.Usable ⟨ans.second.unit, localMemUnit⟩ addr len) :
    s.Usable ans addr len :=
  ⟨fun b hb => (usable_blockRule addr hlen).run h b (mem_blocks.mpr (.inl hb)), hfirst, hsecond⟩

theorem LocalMem.usable_unitsAtRetry {g : GrowAnswers}
    (h : g.unit ≠ 0 → Mb.Usable ⟨g.unit, localMemUnit⟩ addr len) {b : Mb}
    (hb : b ∈ s.unitsAtRetry inInterrupt g) : b.Usable addr len := by
  unfold unitsAtRetry unitGrown at hb
  split at hb
  · split at hb
    · cases hb
    · rename_i hgot
      rw [List.mem_singleton.mp hb]
      exact h fun h0 => hgot (.inr (.inr h0))
  · cases hb

theorem LocalMem.Usable.units (h : s.Usable ans addr len) {b : Mb}
    (hb : b ∈ s.unitsFetched inInterrupt ans n) : b.Usable addr len := by
  unfold unitsFetched at hb
  split at hb
  · rcases List.mem_append.mp hb with hb | hb
    · exact usable_unitsAtRetry h.second hb
    · exact usable_unitsAtRetry h.first hb
  · exact usable_unitsAtRetry h.first hb

/-- **The block that `AllocLocalMem` returns** is on `AllocList`, and usable. -/
theorem LocalMem.Usable.alloc (h : s.Usable ans addr len) (hlen : 1 ≤ len)
    (hcall : s.allocLocalMem inInterrupt ans size = some (some p, s')) :
    ∃ b ∈ s'.allocList, b.p = p ∧ b.size = size256 size ∧ b.Usable addr len := by
  have hmax : size + 255 < 0x80000000 := by
    by_contra hmax
    rw [allocLocalMem, if_neg hmax] at hcall
    cases hcall
  have hin : ¬ s.Overruns inInterrupt ans (size256 size) := by
    intro hout
    rw [allocLocalMem_eq_none hout] at hcall
    cases hcall
  obtain ⟨t, hlast, hfree, -⟩ := allocLocalMem_eq hmax hin
  have heq := hlast.symm.trans hcall
  have husable : ∀ b ∈ t.freeList, b.Usable addr len := by
    intro b hb
    rw [hfree] at hb
    exact (List.mem_append.mp hb).elim h.units (h.free b)
  have hblock : ∀ b e rest, takeFree (size256 size) t.freeList = some (b, e, rest) →
      b.size = size256 size ∧ b.Usable addr len := fun b e rest htake =>
    ⟨size_takeFree htake,
      ((usable_blockRule addr hlen).of_takeFree (size256_dvd size) htake husable).1⟩
  unfold searchFreeList at heq
  split at heq
  · rename_i b rest htake
    cases heq
    exact ⟨b, List.mem_cons_self, rfl, hblock b true rest htake⟩
  · rename_i b rest htake
    split at heq
    · cases heq
      have hb := hblock b false rest htake
      exact ⟨⟨b.p, size256 size⟩, List.mem_cons_self, rfl, rfl, hb.1 ▸ hb.2⟩
    · cases heq
  · cases heq

end Block

/-! ## The copy -/

section Copy

variable {s s' : LocalMem} {inInterrupt : Bool} {ans : AllocAnswers} {addr len p : ℕ}
    {mem : ℕ → UInt8}

theorem quadCopy_fuelled (pDest pSrc uBytes : ℕ) (c : CpuMem) :
    Fuelled (fun fuel => quadCopy fuel pDest pSrc uBytes c) := by
  intro fuel c' h
  obtain ⟨r, hr, hc⟩ := Option.map_eq_some_iff.mp h
  exact Option.map_eq_some_iff.mpr ⟨r, doUntil_fuelled _ _ _ fuel r hr, hc⟩

/-- What is done once there is a block. -/
theorem prepareTransferBuffer_eq (fuel : ℕ) (c : CpuMem) (hlen : len ≠ 0)
    (hcall : s.allocLocalMem inInterrupt ans (bounceSize addr len) = some (some p, s')) :
    prepareTransferBuffer fuel s inInterrupt ans addr len c
      = if addr % 32 = 0 then (quadCopy fuel p addr (bounceSize addr len) c).map (0,
        some p, s', ·)
        else some (0, some p, s', c.memcpy p addr len) := by
  unfold prepareTransferBuffer
  rw [if_neg hlen, hcall]
  dsimp only [Option.bind_eq_bind, Option.bind_some]
  split
  · rw [Option.map_eq_bind]
    rfl
  · rfl

/-- **The plain copy.** -/
theorem copyAgrees_memcpy (hlen : 1 ≤ len) (haddr : ¬ addr % 32 = 0) (h : s.Usable ans addr len)
    (hcall : s.allocLocalMem inInterrupt ans (bounceSize addr len) = some (some p, s')) :
    CopyAgrees s inInterrupt ans addr len mem := by
  obtain ⟨b, hb, rfl, hsize, -⟩ := h.alloc hlen hcall
  have hfit := le_size256 (bounceSize addr len)
  rw [bounceSize, if_neg haddr] at hfit hsize
  refine ⟨0, b.p, s', (CpuMem.mk mem [] []).memcpy b.p addr len, ?_, b, hb, rfl, ?_, ?_,
    fun h0 => absurd h0 haddr⟩
  · rw [prepareTransferBuffer_eq 0 _ (Nat.ne_of_gt hlen) hcall, if_neg haddr]
  · intro i hi
    show (if _ then _ else _) = _
    rw [if_pos (by omega), Nat.add_sub_cancel_left]
  · intro a ha
    obtain ⟨i, hi, rfl⟩ := List.mem_map.mp ha
    rw [List.mem_range] at hi
    exact ⟨Nat.le_add_right _ _, by omega⟩

/-- **The fast copy**: how it ends. -/
theorem exists_fastCopy (hmax : len + 64 < 0x80000000) (hsrc : addr + len ≤ 0x100000000)
    (hlen : 1 ≤ len) (haddr : addr % 32 = 0) (h : s.Usable ans addr len)
    (hcall : s.allocLocalMem inInterrupt ans (bounceSize addr len) = some (some p, s'))
    (mem : ℕ → UInt8) :
    ∃ r, quadCopy ((len + 64) / 64) p addr (bounceSize addr len) ⟨mem, [], []⟩ = some r.cpu ∧
      QuadInv p addr len mem ((len + 64) / 64) r ∧
      ∃ b ∈ s'.allocList, b.p = p ∧ 64 * ((len + 64) / 64) ≤ b.size := by
  obtain ⟨b, hb, rfl, hsize, haligned, -, hinside, hapart⟩ := h.alloc hlen hcall
  have hfit := le_size256 (bounceSize addr len)
  have hbytes : bounceSize addr len = 64 * ((len + 64) / 64) := by
    rw [bounceSize, if_pos haddr, Nat.mul_comm]
  rw [← hsize, hbytes] at hfit
  rw [hbytes]
  obtain ⟨r, hr, hinv⟩ := exists_quadCopy mem haligned (by omega) (n := (len + 64) / 64)
    (by omega) hsrc (by omega) (by omega) (by omega) (by omega) (by omega)
  exact ⟨r, hr, hinv, b, hb, rfl, hfit⟩

/-- **The fast copy of a length that is not a multiple of 64.** -/
theorem copyAgrees_quadCopy (hlen : 1 ≤ len) (hmax : len + 64 < 0x80000000)
    (hsrc : addr + len ≤ 0x100000000) (haddr : addr % 32 = 0) (hdvd : ¬ 64 ∣ len)
    (h : s.Usable ans addr len)
    (hcall : s.allocLocalMem inInterrupt ans (bounceSize addr len) = some (some p, s')) :
    CopyAgrees s inInterrupt ans addr len mem := by
  obtain ⟨r, hr, hinv, b, hb, rfl, hfit⟩ := exists_fastCopy hmax hsrc hlen haddr h hcall mem
  refine ⟨(len + 64) / 64, b.p, s', r.cpu, ?_, b, hb, rfl, ?_, ?_, ?_⟩
  · rw [prepareTransferBuffer_eq _ _ (Nat.ne_of_gt hlen) hcall, if_pos haddr, hr]
    rfl
  · exact fun i hi => hinv.copied i (by omega) hi
  · intro a ha
    have hin := hinv.writes a ha
    exact ⟨hin.1, by omega⟩
  · intro _ a ha
    have hlow := hinv.reads a ha
    omega

/-- **The fast copy of a multiple of 64** reads at the offset of its length. -/
theorem not_copyAgrees_of_dvd (hlen : 1 ≤ len) (hmax : len + 64 < 0x80000000)
    (hsrc : addr + len ≤ 0x100000000) (haddr : addr % 32 = 0) (hdvd : 64 ∣ len)
    (h : s.Usable ans addr len)
    (hcall : s.allocLocalMem inInterrupt ans (bounceSize addr len) = some (some p, s')) :
    ¬ CopyAgrees s inInterrupt ans addr len mem := by
  rintro ⟨fuel, p', s'', c, hprep, -, -, -, -, -, hreads⟩
  obtain ⟨r, hr, hinv, -⟩ := exists_fastCopy hmax hsrc hlen haddr h hcall mem
  rw [prepareTransferBuffer_eq fuel _ (Nat.ne_of_gt hlen) hcall, if_pos haddr] at hprep
  obtain ⟨c', hc', heq⟩ := Option.map_eq_some_iff.mp hprep
  obtain rfl : c' = c := congrArg (fun out => out.2.2.2) heq
  obtain rfl : c' = r.cpu := (quadCopy_fuelled _ _ _ _).unique hc' hr
  have hread := hreads haddr _ (hinv.begun (len / 64) (by omega))
  unfold sourceOffset at hread
  omega

/-- **The copy into the bounce buffer agrees with the plain one if and only if**
it is the plain one or the length is not a multiple of 64. -/
theorem copyAgrees_iff (hlen : 1 ≤ len) (hmax : len + 64 < 0x80000000)
    (hsrc : addr + len ≤ 0x100000000) (h : s.Usable ans addr len)
    (hcall : s.allocLocalMem inInterrupt ans (bounceSize addr len) = some (some p, s')) :
    CopyAgrees s inInterrupt ans addr len mem ↔ addr % 32 ≠ 0 ∨ ¬ 64 ∣ len := by
  by_cases haddr : addr % 32 = 0
  · by_cases hdvd : 64 ∣ len
    · exact iff_of_false (not_copyAgrees_of_dvd hlen hmax hsrc haddr hdvd h hcall)
        (fun hor => hor.elim (fun hne => hne haddr) (fun hnot => hnot hdvd))
    · exact iff_of_true (copyAgrees_quadCopy hlen hmax hsrc haddr hdvd h hcall) (.inr hdvd)
  · exact iff_of_true (copyAgrees_memcpy hlen haddr h hcall) (.inl haddr)

end Copy

/-- The first `Portable_AllocateOhci`, with a unit apart from main memory. -/
theorem LocalMem.oneUnit_run (len : ℕ) : Run (UnitsUsable 0x80001000 len) init oneUnit := by
  have hunit : Mb.Usable ⟨0x10000, localMemUnit⟩ 0x80001000 len :=
    ⟨by decide, by decide, by decide, .inr (by decide)⟩
  have hother : ∀ {s : LocalMem} {a : MemAct} {c : MemCall}, s.calls = [c] →
      (∀ unit p k, c = .growList unit p k → p = 0x10000) →
        (∀ index, a = .growUnit index → s.InTable index) →
      UnitsUsable 0x80001000 len s a := by
    intro s a c hcalls hp hin
    refine ⟨fun unit p k hc => ?_, hin⟩
    rw [hcalls, List.mem_singleton] at hc
    rw [hp unit p k hc.symm]
    exact hunit
  have h₁ : Run (UnitsUsable 0x80001000 len) init _ :=
    Run.refl.tail ⟨fun _ _ _ hc => absurd hc List.not_mem_nil, by simp⟩ (.ohciStart (by decide))
  have h₂ :=
    h₁.tail (hother rfl (by simp) (by simp)) (.growMb none .allocateOhci (by decide) (.inl rfl))
  have h₃ := h₂.tail (hother rfl (by simp) (by rintro _ ⟨⟩; decide))
    (.growUnit none 0x10000 .allocateOhci (by decide) (by decide)
      (.inr ⟨by decide, by simp [init, pendingUnit]⟩))
  have h₄ :=
    h₃.tail (hother (c := .growList 0x10000 0x10000 .allocateOhci) rfl (by rintro _ _ _ ⟨⟩; rfl)
      (by simp))
    (.growList 0x10000 0x10000 .allocateOhci (by decide))
  exact h₄.tail (hother (c := .allocateOhci) rfl (by simp) (by simp)) (.ohciDone (by decide))

/-- The first unit is usable for a copy from main memory. -/
theorem oneUnit_usable (ans : AllocAnswers) {len : ℕ} (hlen : 1 ≤ len)
    (hfirst : ans.first.unit = 0)
    (hsecond : ans.second.unit = 0) : LocalMem.oneUnit.Usable ans 0x80001000 len :=
  (LocalMem.oneUnit_run len).usable hlen (fun h => absurd hfirst h) (fun h => absurd hsecond h)

/-- A copy of 65 bytes. -/
theorem copyAgrees_sixtyFive :
    CopyAgrees LocalMem.oneUnit false ⟨⟨false, 0⟩, ⟨false, 0⟩, true⟩ 0x80001000 65 (fun _ => 7) :=
  (copyAgrees_iff (p := 0x10000 + (localMemUnit - 256)) (by decide) (by decide) (by decide)
    (oneUnit_usable _ (by decide) rfl rfl) rfl).mpr (.inr (by decide))

/-- A copy of 64 bytes is one of 128. -/
theorem not_copyAgrees :
    ¬ ∀ (s s' : LocalMem) (inInterrupt : Bool) (ans : AllocAnswers) (addr len p : ℕ)
    (mem : ℕ → UInt8), 1 ≤ len → len + 64 < 0x80000000 → addr + len ≤ 0x100000000 →
    s.Usable ans addr len →
    s.allocLocalMem inInterrupt ans (bounceSize addr len) = some (some p, s') →
    CopyAgrees s inInterrupt ans addr len mem := by
  intro h
  have hcall : LocalMem.oneUnit.allocLocalMem false ⟨⟨false, 0⟩, ⟨false, 0⟩,
      true⟩ (bounceSize 0x80001000 64)
      = some (some (0x10000 + (localMemUnit - 256)), _) := rfl
  have husable : LocalMem.oneUnit.Usable ⟨⟨false, 0⟩, ⟨false, 0⟩, true⟩ 0x80001000 64 :=
    oneUnit_usable _ (by decide) rfl rfl
  exact not_copyAgrees_of_dvd (by decide) (by decide) (by decide) (by decide) (by decide)
    husable hcall
    (h _ _ _ _ _ _ _ (fun _ => 0) (by decide) (by decide) (by decide) husable hcall)
