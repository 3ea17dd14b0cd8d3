import SideDumper.Fuel
import SideDumper.Ohci

/-!
# Linking and unlinking endpoint descriptors

`ep_link` puts an ED on one of the controller's schedules and `ep_unlink`
takes it off again. Control and bulk EDs form two doubly linked lists, each
with a head register and a tail pointer. Interrupt EDs form 32 lists that
share tails, one list for each entry of `int_table`, and isochronous EDs
come last on all of them.

The C loops walk these lists through `ed_p`, the address of a link: `Cell`
is such an address. A loop that may run forever takes fuel and answers
`none` when it runs out, so "`ep_link` terminates" is something to prove
and not a by-product of how it is written down.
-/

/-! ## Bit reversal and intervals -/

/-- `ep_rev`: the low `numBits` bits of `word`, reversed. -/
def epRev (numBits word : ℕ) : ℕ :=
  (List.range numBits).foldl
    (fun wout i => wout ||| (((word >>> i) &&& 1) <<< (numBits - i - 1))) 0

/-- The loop of `ep_2_n_interval`, with `left` steps to go before the bound
5 on `i` ends it. -/
def ep2nIntervalFrom (inter : ℕ) : ℕ → ℕ
  | 0 => 1 <<< 5
  | left + 1 => if inter >>> (5 - (left + 1)) > 1 then ep2nIntervalFrom inter left
      else 1 <<< (5 - (left + 1))

/-- `ep_2_n_interval`. -/
def ep2nInterval (inter : ℕ) : ℕ := ep2nIntervalFrom inter 5

/-- `for (; i < 32; i += interval) ohci_int_load [i] += load`. -/
def addLoad (interval : ℕ) (load : ℤ) : ℕ → ℕ → (ℕ → ℤ) → Option (ℕ → ℤ)
  | 0, _, _ => none
  | fuel + 1, i, l =>
    if i < 32 then
      addLoad interval load fuel (i + interval) (Function.update l i (l i + load))
    else some l

/-- The least loaded branch, the first of them if there are several. -/
def leastLoaded (l : ℕ → ℤ) : ℕ :=
  (List.range 32).foldl (fun branch i => if l branch > l i then i else branch) 0

/-- `ep_int_ballance`: choose a branch for an interval and book the load. -/
def epIntBallance (fuel : ℕ) (o : Ohci) (interval : ℕ) (load : ℤ) : Option (ℕ × Ohci) := do
  let branch := leastLoaded o.ohciIntLoad % interval
  let l ← addLoad interval load fuel branch o.ohciIntLoad
  some (branch, { o with ohciIntLoad := l })

/-! ## Links by their address -/

/-- **The address of a link**, what `ed_p` points to: an entry of
`int_table`, or the `hwNextED` of an ED. -/
inductive Cell
  | table (i : ℕ)
  | next (e : EdPtr)
deriving DecidableEq, Repr

/-- `*ed_p`. -/
def Ohci.get (o : Ohci) : Cell → EdPtr
  | .table i => o.intTable i
  | .next e => o.nextED e

/-- `*ed_p = v`. -/
def Ohci.set (o : Ohci) (c : Cell) (v : EdPtr) : Ohci :=
  match c with
  | .table i => { o with intTable := Function.update o.intTable i v }
  | .next e => o.modEd e (fun r => { r with hwNextED := v })

/-! ## The control and the bulk list -/

/-- The two lists the controller walks through head registers. -/
inductive HcList
  | control
  | bulk
deriving DecidableEq, Repr

/-- The head register of a list. -/
def Ohci.hcHead (o : Ohci) : HcList → EdPtr
  | .control => o.edControlhead
  | .bulk => o.edBulkhead

/-- The tail pointer of a list. -/
def Ohci.hcTail (o : Ohci) : HcList → EdPtr
  | .control => o.edControltail
  | .bulk => o.edBulktail

/-- Write the head register of a list. -/
def Ohci.setHcHead (o : Ohci) (l : HcList) (v : EdPtr) : Ohci :=
  match l with
  | .control => { o with edControlhead := v }
  | .bulk => { o with edBulkhead := v }

/-- Write the tail pointer of a list. -/
def Ohci.setHcTail (o : Ohci) (l : HcList) (v : EdPtr) : Ohci :=
  match l with
  | .control => { o with edControltail := v }
  | .bulk => { o with edBulktail := v }

/-- The cases `CTRL` and `BULK` of `ep_link`, which differ in the list
alone. -/
def linkHc (l : HcList) (o : Ohci) (e : EdPtr) : Ohci :=
  let tail := o.hcTail l
  let o := if tail = 0 then o.setHcHead l e
    else o.modEd tail (fun r => { r with hwNextED := e })
  let o := o.modEd e (fun r => { r with edPrev := tail })
  o.setHcTail l e

/-- The cases `CTRL` and `BULK` of `ep_unlink`. -/
def unlinkHc (l : HcList) (o : Ohci) (e : EdPtr) : Ohci :=
  let prev := (o.ed e).edPrev
  let o := if prev = 0 then o.setHcHead l (o.nextED e)
    else o.modEd prev (fun r => { r with hwNextED := o.nextED e })
  if o.hcTail l = e then o.setHcTail l (o.ed e).edPrev
  else o.modEd (o.nextED e) (fun r => { r with edPrev := (o.ed e).edPrev })

/-! ## The interrupt tree -/

/-- The inner loop of `ep_link`: advance `edP` while it holds an ED that
`keep` accepts, with `inter` the stride belonging to the last ED passed. -/
def linkWalk (o : Ohci) (keep : EdPtr → Bool) : ℕ → Cell → ℕ → Option (Cell × ℕ)
  | 0, _, _ => none
  | fuel + 1, edP, inter =>
    if o.get edP ≠ 0 ∧ keep (o.get edP) = true then
      linkWalk o keep fuel (.next (o.get edP)) (epRev 6 (o.ed (o.get edP)).intInterval)
    else some (edP, inter)

/-- The outer loop of the case `INT` of `ep_link`. -/
def linkIntLoop (e interval intBranch : ℕ) : ℕ → ℕ → Ohci → Option Ohci
  | 0, _, _ => none
  | fuel + 1, i, o =>
    if i < epRev 6 interval then do
      let (edP, inter) ← linkWalk o (fun x => decide (interval ≤ (o.ed x).intInterval)) fuel
        (.table (epRev 5 i + intBranch)) 1
      let o := (o.modEd e (fun r => { r with hwNextED := o.get edP })).set edP e
      linkIntLoop e interval intBranch fuel (i + inter) o
    else some o

/-- The outer loop of the case `ISO` of `ep_link`, run for the first
isochronous ED. -/
def linkIsoLoop (e : EdPtr) : ℕ → ℕ → Ohci → Option Ohci
  | 0, _, _ => none
  | fuel + 1, i, o =>
    if i < 32 then do
      let (edP, inter) ← linkWalk o (fun _ => true) fuel (.table (epRev 5 i)) 1
      linkIsoLoop e fuel (i + inter) (o.set edP e)
    else some o

/-- The case `INT` of `ep_link`. -/
def linkInt (fuel : ℕ) (o : Ohci) (e : EdPtr) : Option Ohci := do
  let load := (o.ed e).intLoad
  let interval := ep2nInterval (o.ed e).intPeriod
  let o := o.modEd e (fun r => { r with intInterval := interval })
  let (intBranch, o) ← epIntBallance fuel o interval load
  let o := o.modEd e (fun r => { r with intBranch := intBranch })
  linkIntLoop e interval intBranch fuel 0 o

/-- The two branches of the case `ISO` of `ep_link`: behind the last
isochronous ED if there is one, at the end of all lists if there is none. -/
def linkIsoAt (fuel : ℕ) (o : Ohci) (e : EdPtr) : Option Ohci :=
  if o.edIsotail ≠ 0 then
    let tail := o.edIsotail
    let o := o.modEd tail (fun r => { r with hwNextED := e })
    some (o.modEd e (fun r => { r with edPrev := tail }))
  else do
    let o ← linkIsoLoop e fuel 0 o
    some (o.modEd e (fun r => { r with edPrev := 0 }))

/-- The case `ISO` of `ep_link`. -/
def linkIso (fuel : ℕ) (o : Ohci) (e : EdPtr) : Option Ohci := do
  let o := o.modEd e (fun r => { r with intInterval := 1 })
  let o ← linkIsoAt fuel o e
  some { o with edIsotail := e }

/-- **`ep_link`**: put an ED on the schedule of its type. -/
def epLink (fuel : ℕ) (o : Ohci) (e : EdPtr) : Option Ohci :=
  let o := o.modEd e (fun r => { r with state := .edOper, hwNextED := 0 })
  match (o.ed e).type with
  | .ctrl => some (linkHc .control o e)
  | .bulk => some (linkHc .bulk o e)
  | .int => linkInt fuel o e
  | .iso => linkIso fuel o e

/-- The inner loop of the case `INT` of `ep_unlink`. Unlike the one of
`ep_link` it reads the stride off the ED that `edP` has been advanced
*to*. -/
def unlinkWalk (e : EdPtr) (o : Ohci) : ℕ → Cell → ℕ → Option (Ohci × ℕ)
  | 0, _, _ => none
  | fuel + 1, edP, inter =>
    if o.get edP ≠ 0 ∧ o.get edP ≠ o.nextED e then
      if o.get edP = e then some (o.set edP (o.nextED e), inter)
      else
        unlinkWalk e o fuel (.next (o.get edP))
          (epRev 6 (o.ed (o.get (.next (o.get edP)))).intInterval)
    else some (o, inter)

/-- The outer loop of the case `INT` of `ep_unlink`. -/
def unlinkIntLoop (e interval intBranch : ℕ) : ℕ → ℕ → Ohci → Option Ohci
  | 0, _, _ => none
  | fuel + 1, i, o =>
    if i < epRev 6 interval then do
      let (o, inter) ← unlinkWalk e o fuel (.table (epRev 5 i + intBranch)) 1
      unlinkIntLoop e interval intBranch fuel (i + inter) o
    else some o

/-- The case `INT` of `ep_unlink`. -/
def unlinkInt (fuel : ℕ) (o : Ohci) (e : EdPtr) : Option Ohci := do
  let intBranch := (o.ed e).intBranch
  let interval := (o.ed e).intInterval
  let o ← unlinkIntLoop e interval intBranch fuel 0 o
  let l ← addLoad interval (-((o.ed e).intLoad : ℤ)) fuel intBranch o.ohciIntLoad
  some { o with ohciIntLoad := l }

/-- The inner loop of the case `ISO` of `ep_unlink`. -/
def unlinkIsoWalk (e : EdPtr) (o : Ohci) : ℕ → Cell → Option Ohci
  | 0, _ => none
  | fuel + 1, edP =>
    if o.get edP ≠ 0 then
      if o.get edP = e then some (o.set edP (o.nextED e))
      else unlinkIsoWalk e o fuel (.next (o.get edP))
    else some o

/-- The two pointers back to an isochronous ED that `ep_unlink` redirects
first: `ed_isotail` and the `ed_prev` of its successor. -/
def unlinkIsoBack (o : Ohci) (e : EdPtr) : Ohci :=
  let o := if o.edIsotail = e then { o with edIsotail := (o.ed e).edPrev } else o
  if o.nextED e ≠ 0 then
    o.modEd (o.nextED e) (fun r => { r with edPrev := (o.ed e).edPrev })
  else o

/-- The case `ISO` of `ep_unlink`, in the variant compiled under
`CONFIG_PS2`, which visits all 32 entries. -/
def unlinkIso (fuel : ℕ) (o : Ohci) (e : EdPtr) : Option Ohci :=
  let o := unlinkIsoBack o e
  if (o.ed e).edPrev ≠ 0 then
    some (o.modEd (o.ed e).edPrev (fun r => { r with hwNextED := o.nextED e }))
  else
    (List.range 32).foldlM (fun o i => unlinkIsoWalk e o fuel (.table (epRev 5 i))) o

/-- The `switch` of `ep_unlink`. -/
def unlinkType (fuel : ℕ) (o : Ohci) (e : EdPtr) : Option Ohci :=
  match (o.ed e).type with
  | .ctrl => some (unlinkHc .control o e)
  | .bulk => some (unlinkHc .bulk o e)
  | .int => unlinkInt fuel o e
  | .iso => unlinkIso fuel o e

/-- **`ep_unlink`**: take an ED off the schedule of its type. The link from
the ED is left, so that the controller can finish with it. -/
def epUnlink (fuel : ℕ) (o : Ohci) (e : EdPtr) : Option Ohci := do
  let o := o.modEd e (fun r => { r with hwINFO := { r.hwINFO with k := true } })
  let o ← unlinkType fuel o e
  some (o.modEd e (fun r => { r with state := .edUnlink }))

/-! ## The answers do not depend on the fuel -/

section Fuelled

variable {o : Ohci} {e interval intBranch : ℕ}

theorem addLoad_fuelled {load : ℤ} {i : ℕ} {l : ℕ → ℤ} :
    Fuelled (fun n => addLoad interval load n i l) := by
  intro n
  induction n generalizing i l with
  | zero => exact fun _ h => absurd h (by simp [addLoad])
  | succ n ih =>
    intro a h
    dsimp only at h ⊢
    rw [addLoad] at h ⊢
    split
    · rw [if_pos ‹_›] at h
      exact ih a h
    · rwa [if_neg ‹_›] at h

theorem epIntBallance_fuelled {load : ℤ} :
    Fuelled (fun n => epIntBallance n o interval load) := by
  intro n a h
  exact bind_mono h (fun l hl => addLoad_fuelled n l hl) (fun _ hl => hl)

theorem linkWalk_fuelled {keep : EdPtr → Bool} {c : Cell} {inter : ℕ} :
    Fuelled (fun n => linkWalk o keep n c inter) := by
  intro n
  induction n generalizing c inter with
  | zero => exact fun _ h => absurd h (by simp [linkWalk])
  | succ n ih =>
    intro a h
    dsimp only at h ⊢
    rw [linkWalk] at h ⊢
    split
    · rw [if_pos ‹_›] at h
      exact ih a h
    · rwa [if_neg ‹_›] at h

theorem linkIntLoop_fuelled {i : ℕ} :
    Fuelled (fun n => linkIntLoop e interval intBranch n i o) := by
  intro n
  induction n generalizing i o with
  | zero => exact fun _ h => absurd h (by simp [linkIntLoop])
  | succ n ih =>
    intro a h
    dsimp only at h ⊢
    rw [linkIntLoop] at h ⊢
    split
    · rw [if_pos ‹_›] at h
      exact bind_mono h (fun s hs => linkWalk_fuelled n s hs) (fun s hs => ih a hs)
    · rwa [if_neg ‹_›] at h

theorem linkIsoLoop_fuelled {i : ℕ} : Fuelled (fun n => linkIsoLoop e n i o) := by
  intro n
  induction n generalizing i o with
  | zero => exact fun _ h => absurd h (by simp [linkIsoLoop])
  | succ n ih =>
    intro a h
    dsimp only at h ⊢
    rw [linkIsoLoop] at h ⊢
    split
    · rw [if_pos ‹_›] at h
      exact bind_mono h (fun s hs => linkWalk_fuelled n s hs) (fun s hs => ih a hs)
    · rwa [if_neg ‹_›] at h

theorem linkInt_fuelled : Fuelled (fun n => linkInt n o e) := by
  intro n a h
  exact bind_mono h (fun s hs => epIntBallance_fuelled n s hs)
    (fun s hs => linkIntLoop_fuelled n a hs)

theorem linkIsoAt_fuelled : Fuelled (fun n => linkIsoAt n o e) := by
  intro n a h
  dsimp only [linkIsoAt] at h ⊢
  split
  · rwa [if_pos ‹_›] at h
  · rw [if_neg ‹_›] at h
    exact bind_mono h (fun t ht => linkIsoLoop_fuelled n t ht) (fun t ht => ht)

theorem linkIso_fuelled : Fuelled (fun n => linkIso n o e) := by
  intro n a h
  exact bind_mono h (fun s hs => linkIsoAt_fuelled n s hs) (fun s hs => hs)

/-- What `ep_link` does does not depend on the fuel. -/
theorem epLink_fuelled : Fuelled (fun n => epLink n o e) := by
  intro n a h
  simp only [epLink] at h ⊢
  split at h
  · exact h
  · exact h
  · exact linkInt_fuelled n a h
  · exact linkIso_fuelled n a h

theorem unlinkWalk_fuelled {c : Cell} {inter : ℕ} :
    Fuelled (fun n => unlinkWalk e o n c inter) := by
  intro n
  induction n generalizing c inter with
  | zero => exact fun _ h => absurd h (by simp [unlinkWalk])
  | succ n ih =>
    intro a h
    dsimp only at h ⊢
    rw [unlinkWalk] at h ⊢
    split
    · rw [if_pos ‹_›] at h
      split
      · rwa [if_pos ‹_›] at h
      · rw [if_neg ‹_›] at h
        exact ih a h
    · rwa [if_neg ‹_›] at h

theorem unlinkIntLoop_fuelled {i : ℕ} :
    Fuelled (fun n => unlinkIntLoop e interval intBranch n i o) := by
  intro n
  induction n generalizing i o with
  | zero => exact fun _ h => absurd h (by simp [unlinkIntLoop])
  | succ n ih =>
    intro a h
    dsimp only at h ⊢
    rw [unlinkIntLoop] at h ⊢
    split
    · rw [if_pos ‹_›] at h
      exact bind_mono h (fun s hs => unlinkWalk_fuelled n s hs) (fun s hs => ih a hs)
    · rwa [if_neg ‹_›] at h

theorem unlinkInt_fuelled : Fuelled (fun n => unlinkInt n o e) := by
  intro n a h
  refine bind_mono h (fun s hs => unlinkIntLoop_fuelled n s hs) (fun s hs => ?_)
  exact bind_mono hs (fun l hl => addLoad_fuelled n l hl) (fun l hl => hl)

theorem unlinkIsoWalk_fuelled {c : Cell} : Fuelled (fun n => unlinkIsoWalk e o n c) := by
  intro n
  induction n generalizing c with
  | zero => exact fun _ h => absurd h (by simp [unlinkIsoWalk])
  | succ n ih =>
    intro a h
    dsimp only at h ⊢
    rw [unlinkIsoWalk] at h ⊢
    split
    · rw [if_pos ‹_›] at h
      split
      · rwa [if_pos ‹_›] at h
      · rw [if_neg ‹_›] at h
        exact ih a h
    · rwa [if_neg ‹_›] at h

/-- A loop over a list of indices whose body takes fuel. -/
theorem foldlM_fuelled {f : ℕ → Ohci → ℕ → Option Ohci} {is : List ℕ}
    (hb : ∀ o i, Fuelled (fun n => f n o i)) :
    Fuelled (fun n => is.foldlM (f n) o) := by
  intro n
  induction is generalizing o with
  | nil => exact fun _ h => h
  | cons i is ih =>
    intro a h
    dsimp only at h ⊢
    rw [List.foldlM_cons] at h ⊢
    exact bind_mono h (fun s hs => hb o i n s hs) (fun s hs => ih a hs)

theorem unlinkIso_fuelled : Fuelled (fun n => unlinkIso n o e) := by
  intro n a h
  dsimp only [unlinkIso] at h ⊢
  split
  · rwa [if_pos ‹_›] at h
  · rw [if_neg ‹_›] at h
    exact foldlM_fuelled (fun _ _ => unlinkIsoWalk_fuelled) n a h

theorem unlinkType_fuelled : Fuelled (fun n => unlinkType n o e) := by
  intro n a h
  dsimp only [unlinkType] at h ⊢
  split at h
  · exact h
  · exact h
  · exact unlinkInt_fuelled n a h
  · exact unlinkIso_fuelled n a h

/-- What `ep_unlink` does does not depend on the fuel. -/
theorem epUnlink_fuelled : Fuelled (fun n => epUnlink n o e) := by
  intro n a h
  exact bind_mono h (fun s hs => unlinkType_fuelled n s hs) (fun s hs => hs)

end Fuelled

example : (List.range 8).map (epRev 5) = [0, 16, 8, 24, 4, 20, 12, 28] := by decide

example : [0, 1, 2, 3, 31, 32, 255].map ep2nInterval = [1, 1, 2, 2, 16, 32, 32] := by decide
