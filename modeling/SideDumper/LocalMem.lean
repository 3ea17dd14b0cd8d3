import Mathlib.Data.List.Count
import Mathlib.Algebra.BigOperators.Group.List.Basic
import Mathlib.Logic.Function.Basic

/-!
# The local memory

The controller of the console reads only the memory of its I/O processor.
The driver takes units of 64K from the heap there and hands out pieces of
them: `FreeList` and `AllocList` hold the pieces that are free and those
that are handed out. A request for which no piece is large enough notes that
in `insufficient_local_mem`, and the next call that may sleep lets
`GrowLocalMem` fetch a unit first.

Calls are interleaved at the lock `local_mem_lock` and where they sleep. What
a call does between two such places is one step, and `Call` says which of
them comes next. The C compiler may read the index in
`local_mems[nlocal_mems] = ps2sif_allociopheap(..)` before or after the
call, which sleeps; an index read before it is part of the call. Behind the
assignment the entry is read back at what `nlocal_mems` is by then. Nothing is
known of the state once an access is behind the end of `local_mems`. An
address of the heap stands for what `ps2sif_bustovirt` makes of it, the same
address at another place.
-/

/-- `LOCAL_MEM_UNIT`. -/
def localMemUnit : ℕ := 64 * 1024

/-- `MAX_LOCAL_MEM`. -/
def maxLocalMem : ℕ := 1024 * 1024

/-- `struct mb`, a piece of memory. -/
structure Mb where
  p : ℕ
  size : ℕ
deriving DecidableEq, Repr

/-- What `GrowLocalMem` returns to: `AllocLocalMem`, which is to search the
free list with so many bytes to find and a retry left or not, or
`Portable_AllocateOhci`. -/
inductive GrowFrom
  | alloc (size : ℕ) (doRetry : Bool)
  | allocateOhci
deriving DecidableEq, Repr

/-- **Where a call is**, named by what comes next. `growHeap` has the index of
the assignment if it has been read, and `growList` the answer of the heap and
the pointer that the `struct mb` has got. -/
inductive MemCall
  | retry (size : ℕ) (doRetry inInterrupt : Bool)
  | search (size : ℕ) (doRetry inInterrupt : Bool)
  | kmallocNew (size p : ℕ)
  | listNew (size p : ℕ)
  | growKmalloc (k : GrowFrom)
  | growHeap (index : Option ℕ) (k : GrowFrom)
  | growList (unit p : ℕ) (k : GrowFrom)
  | allocateOhci
deriving DecidableEq, Repr

/-- **The local memory.** `overrun` is set by an access behind the end of
`local_mems`; `units` are the units that `GrowLocalMem` has fetched, once it
is done, and the driver has not given back. -/
structure LocalMem where
  localMems : ℕ → ℕ
  nlocalMems : ℕ
  insufficientLocalMem : ℕ
  freeList : List Mb
  allocList : List Mb
  calls : List MemCall
  overrun : Bool
  units : List ℕ

/-- `((size + 255)/256)*256`. -/
def size256 (size : ℕ) : ℕ := (size + 255) / 256 * 256

/-! ## The loops over the lists -/

/-- The loop of `AllocLocalMem` over the free list: the first block that is
large enough, whole if it has the right size and otherwise cut off at the
end, with `true` in the first case, and the free list that is left. -/
def takeFree (n : ℕ) : List Mb → Option (Mb × Bool × List Mb)
  | [] => none
  | b :: bs =>
    if b.size = n then some (b, true, bs)
    else if n < b.size then some (⟨b.p + (b.size - n), n⟩, false, ⟨b.p, b.size - n⟩ :: bs)
    else (takeFree n bs).map fun r => (r.1, r.2.1, b :: r.2.2)

/-- The outer loop of `FreeLocalMem`: the block that starts at `p`, taken
off the list. -/
def takeAlloc (p : ℕ) : List Mb → Option (Mb × List Mb)
  | [] => none
  | b :: bs => if b.p = p then some (b, bs) else (takeAlloc p bs).map fun r => (r.1, b :: r.2)

/-- The inner loop of `FreeLocalMem`: the first free block that ends where
the freed one starts grows by it. -/
def mergeFree (b : Mb) : List Mb → Option (List Mb)
  | [] => none
  | c :: cs =>
    if c.p + c.size = b.p then some (⟨c.p, c.size + b.size⟩ :: cs)
    else (mergeFree b cs).map (c :: ·)

/-- `FreeLocalMem`, with its return value. -/
def LocalMem.freeLocalMem (s : LocalMem) (p : ℕ) : ℤ × LocalMem :=
  if p = 0 then (0, s)
  else match takeAlloc p s.allocList with
    | none => (0, s)
    | some (b, rest) => match mergeFree b s.freeList with
      | some fl => (1, { s with allocList := rest, freeList := fl })
      | none => (1, { s with allocList := rest, freeList := b :: s.freeList })

namespace LocalMem

/-- The start, with nothing in the table or on the lists. -/
def init : LocalMem := ⟨fun _ => 0, 0, 0, [], [], [], false, []⟩

/-- The test of `GrowLocalMem` that makes it fail. -/
def capReached (s : LocalMem) : Prop := maxLocalMem / localMemUnit < s.nlocalMems

instance (s : LocalMem) : Decidable s.capReached := inferInstanceAs (Decidable (_ < _))

/-- The accesses to `local_mems` behind the call of `ps2sif_allociopheap` are
within the array. -/
def InTable (s : LocalMem) (index : Option ℕ) : Prop :=
  index.getD s.nlocalMems < maxLocalMem / localMemUnit ∧ s.nlocalMems < maxLocalMem / localMemUnit

instance (s : LocalMem) (index : Option ℕ) : Decidable (s.InTable index) :=
  inferInstanceAs (Decidable (_ ∧ _))

/-- `local_mems[nlocal_mems] = v`, with the index if it was read before. -/
def setUnit (s : LocalMem) (index : Option ℕ) (v : ℕ) : LocalMem :=
  { s with localMems := Function.update s.localMems (index.getD s.nlocalMems) v }

/-- The units in the table, in the order in which `CleanupLocalMem` frees
them. -/
def cleanupFrees (s : LocalMem) : List ℕ := (List.range s.nlocalMems).reverse.map s.localMems

/-- What `Portable_AllocateOhci` does when the heap has no room for the
`struct ohci`: `CleanupLocalMem`, and an empty `FreeList`. -/
def cleanup (s : LocalMem) : LocalMem :=
  { s with nlocalMems := 0, freeList := [], units := s.units.diff s.cleanupFrees }

/-- `GrowLocalMem` has returned, with success or not. -/
def resume : GrowFrom → Bool → List MemCall
  | .alloc size doRetry, _ => [.search size doRetry false]
  | .allocateOhci, true => [.allocateOhci]
  | .allocateOhci, false => []

/-- The unit that `ps2sif_allociopheap` has returned, if any. -/
def unitOf (unit : ℕ) : List ℕ := if unit = 0 then [] else [unit]

/-- The units that a call has fetched and not yet put on the free list. -/
def pendingUnit : MemCall → List ℕ
  | .growList unit _ _ => unitOf unit
  | _ => []

/-- `GrowLocalMem` from the return of `ps2sif_allociopheap` to the lock. The
entry is read back, and when it is 0 the execution fails. -/
def fetchUnit (s : LocalMem) (index : Option ℕ) (unit : ℕ) (k : GrowFrom) (rest : List MemCall) :
    LocalMem :=
  let s := s.setUnit index unit
  if s.localMems s.nlocalMems = 0 then
    { s with units := unitOf unit ++ s.units, calls := resume k false ++ rest }
  else { s with calls := .growList unit (s.localMems s.nlocalMems) k :: rest }

/-- What `ps2sif_allociopheap` may return: a unit apart from those it has
given out. -/
def HeapFree (s : LocalMem) (unit : ℕ) : Prop :=
  0 < unit ∧ ∀ u ∈ s.units ++ s.calls.flatMap pendingUnit,
    u + localMemUnit ≤ unit ∨ unit + localMemUnit ≤ u

end LocalMem

/-- The labels of the steps; `take` and `list` carry the size that was asked
for and the pointer that `AllocLocalMem` returns. -/
inductive MemAct
  | alloc
  | skip
  | growStart
  | growRefused
  | growMb
  | growNoMb
  | growUnit (index : Option ℕ)
  | growList
  | take (size p : ℕ)
  | split
  | missRetry
  | missFail
  | newMb
  | newNoMb
  | list (size p : ℕ)
  | free (p : ℕ)
  | ohciStart
  | ohciRefused
  | ohciDone
  | ohciFail
deriving DecidableEq, Repr

/-- **One step.** -/
inductive LocalMem.Step (s : LocalMem) : MemAct → LocalMem → Prop
  | alloc (size : ℕ) (inInterrupt : Bool) (h0 : 0 < size) (hmax : size + 255 < 0x80000000) :
      Step s .alloc { s with calls := .retry size true inInterrupt :: s.calls }
  | skip (size : ℕ) (doRetry inInterrupt : Bool) (h : .retry size doRetry inInterrupt ∈ s.calls)
      (hg : inInterrupt = true ∨ s.insufficientLocalMem = 0) :
      Step s .skip { s with
        calls :=
          .search size doRetry inInterrupt :: s.calls.erase (.retry size doRetry inInterrupt) }
  | growStart (size : ℕ) (doRetry : Bool) (h : .retry size doRetry false ∈ s.calls)
      (hg : s.insufficientLocalMem ≠ 0) (hc : ¬ s.capReached) :
      Step s .growStart { s with
        insufficientLocalMem := 0
        calls := .growKmalloc (.alloc size doRetry) :: s.calls.erase (.retry size doRetry false) }
  | growRefused (size : ℕ) (doRetry : Bool) (h : .retry size doRetry false ∈ s.calls)
      (hg : s.insufficientLocalMem ≠ 0) (hc : s.capReached) :
      Step s .growRefused { s with
        insufficientLocalMem := 0
        calls := .search size doRetry false :: s.calls.erase (.retry size doRetry false) }
  | growMb (index : Option ℕ) (k : GrowFrom) (h : .growKmalloc k ∈ s.calls)
      (hi : index = none ∨ index = some s.nlocalMems) :
      Step s .growMb { s with calls := .growHeap index k :: s.calls.erase (.growKmalloc k) }
  | growNoMb (k : GrowFrom) (h : .growKmalloc k ∈ s.calls) :
      Step s .growNoMb { s with calls := resume k false ++ s.calls.erase (.growKmalloc k) }
  | growUnit (index : Option ℕ) (unit : ℕ) (k : GrowFrom) (h : .growHeap index k ∈ s.calls)
      (hin : s.InTable index) (hu : unit = 0 ∨ s.HeapFree unit) :
      Step s (.growUnit index) (s.fetchUnit index unit k (s.calls.erase (.growHeap index k)))
  | growOverrun (index : Option ℕ) (k : GrowFrom) (s' : LocalMem) (h :
      .growHeap index k ∈ s.calls)
      (hout : ¬ s.InTable index) (ho : s'.overrun = true) : Step s (.growUnit index) s'
  | growList (unit p : ℕ) (k : GrowFrom) (h : .growList unit p k ∈ s.calls) :
      Step s .growList { s with
        nlocalMems := s.nlocalMems + 1
        freeList := ⟨p, localMemUnit⟩ :: s.freeList
        units := unitOf unit ++ s.units
        calls := resume k true ++ s.calls.erase (.growList unit p k) }
  | take (size : ℕ) (doRetry inInterrupt : Bool) (b : Mb) (rest : List Mb)
      (h : .search size doRetry inInterrupt ∈ s.calls)
      (hf : takeFree (size256 size) s.freeList = some (b, true, rest)) :
      Step s (.take size b.p) { s with
        freeList := rest
        allocList := b :: s.allocList
        calls := s.calls.erase (.search size doRetry inInterrupt) }
  | split (size : ℕ) (doRetry inInterrupt : Bool) (b : Mb) (rest : List Mb)
      (h : .search size doRetry inInterrupt ∈ s.calls)
      (hf : takeFree (size256 size) s.freeList = some (b, false, rest)) :
      Step s .split { s with
        freeList := rest
        calls := .kmallocNew size b.p :: s.calls.erase (.search size doRetry inInterrupt) }
  | missRetry (size : ℕ) (inInterrupt : Bool) (h : .search size true inInterrupt ∈ s.calls)
      (hf : takeFree (size256 size) s.freeList = none) :
      Step s .missRetry { s with
        insufficientLocalMem := s.insufficientLocalMem + 1
        calls := .retry size false inInterrupt :: s.calls.erase (.search size true inInterrupt) }
  | missFail (size : ℕ) (inInterrupt : Bool) (h : .search size false inInterrupt ∈ s.calls)
      (hf : takeFree (size256 size) s.freeList = none) :
      Step s .missFail { s with
        insufficientLocalMem := s.insufficientLocalMem + 1
        calls := s.calls.erase (.search size false inInterrupt) }
  | newMb (size p : ℕ) (h : .kmallocNew size p ∈ s.calls) :
      Step s .newMb { s with calls := .listNew size p :: s.calls.erase (.kmallocNew size p) }
  | newNoMb (size p : ℕ) (h : .kmallocNew size p ∈ s.calls) :
      Step s .newNoMb { s with calls := s.calls.erase (.kmallocNew size p) }
  | list (size p : ℕ) (h : .listNew size p ∈ s.calls) :
      Step s (.list size p) { s with
        allocList := ⟨p, size256 size⟩ :: s.allocList
        calls := s.calls.erase (.listNew size p) }
  | free (p : ℕ) : Step s (.free p) (s.freeLocalMem p).2
  | ohciStart (hc : ¬ s.capReached) :
      Step s .ohciStart { s with calls := .growKmalloc .allocateOhci :: s.calls }
  | ohciRefused (hc : s.capReached) : Step s .ohciRefused s
  | ohciDone (h : .allocateOhci ∈ s.calls) :
      Step s .ohciDone { s with calls := s.calls.erase .allocateOhci }
  | ohciFail (h : .allocateOhci ∈ s.calls) :
      Step s .ohciFail { s.cleanup with calls := s.calls.erase .allocateOhci }

namespace LocalMem

/-- **A run** from `s₀` whose steps all meet a condition. -/
inductive Run (C : LocalMem → MemAct → Prop) (s₀ : LocalMem) : LocalMem → Prop
  | refl : Run C s₀ s₀
  | tail {s s' : LocalMem} {a : MemAct} (h : Run C s₀ s) (hc : C s a) (hs : s.Step a s') :
      Run C s₀ s'

variable {C : LocalMem → MemAct → Prop} {s₀ s s' : LocalMem}

/-- What holds at the start and is kept by each step that meets the
condition holds throughout. -/
theorem Run.of_step {P : LocalMem → Prop} (hinit : P s₀)
    (hstep : ∀ s a s', P s → C s a → s.Step a s' → P s') (h : Run C s₀ s) : P s := by
  induction h with
  | refl => exact hinit
  | tail _ hc hs ih => exact hstep _ _ _ ih hc hs

theorem Run.mono {D : LocalMem → MemAct → Prop} (hCD : ∀ s a, C s a → D s a) (h : Run C s₀ s) :
    Run D s₀ s := by
  induction h with
  | refl => exact .refl
  | tail _ hc hs ih => exact .tail ih (hCD _ _ hc) hs

/-- **`GrowLocalMem` reads back the entry that it has written**, and there is
such an entry. -/
def ReadsBack (s : LocalMem) (a : MemAct) : Prop :=
  ∀ index, a = .growUnit index →
    index.getD s.nlocalMems = s.nlocalMems ∧ s.nlocalMems < maxLocalMem / localMemUnit

theorem ReadsBack.of_ne {a : MemAct} (h : ∀ index, a ≠ .growUnit index) : ReadsBack s a :=
  fun index ha => absurd ha (h index)

theorem ReadsBack.inTable {index : Option ℕ} (h : ReadsBack s (.growUnit index)) :
    s.InTable index := by
  obtain ⟨hi, hn⟩ := h index rfl
  exact ⟨hi.trans_lt hn, hn⟩

/-- The answer of the heap is what is read back: a unit is to be put on the
list, and the execution fails when there is none. -/
theorem fetchUnit_eq {index : Option ℕ} (hi : index.getD s.nlocalMems = s.nlocalMems) (unit : ℕ)
    (k : GrowFrom) (rest : List MemCall) : s.fetchUnit index unit k rest
      = if unit = 0 then { s.setUnit index 0 with calls := resume k false ++ rest }
        else { s.setUnit index unit with calls := .growList unit unit k :: rest } := by
  have hread : (s.setUnit index unit).localMems (s.setUnit index unit).nlocalMems = unit := by
    dsimp only [setUnit]
    rw [hi, Function.update_self]
  unfold fetchUnit
  dsimp only
  rw [hread]
  split
  · rename_i h0
    rw [h0]
    rfl
  · rfl

/-- The local memory after the first `Portable_AllocateOhci`. -/
def oneUnit : LocalMem :=
  { init with
    localMems := Function.update (fun _ => 0) 0 0x10000
    nlocalMems := 1
    freeList := [⟨0x10000, localMemUnit⟩]
    units := [0x10000] }

end LocalMem
