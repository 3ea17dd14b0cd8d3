import SideDumper.Walk
import SideDumper.BitReversal
import Mathlib.Data.List.TakeWhile

/-!
# The periodic schedule as 32 lists that share tails

The controller serves the list that starts at `int_table [frame & 31]` in
each frame. An ED of interval `N` and branch `br` belongs on the lists
`b ≡ br (mod N)`, and it has one link for all of them: the lists on which it
stands have a common tail from it on. `Schedule` says that the 32 lists are
what they should be, each holding the EDs of its class in order of
decreasing interval; that tails are shared is then a consequence, since a
walk is determined by where it starts.

Inserting an ED visits the branches of its class in bit-reversed order and
writes one link for each group of branches whose lists share the ED to
insert behind. `LinkInv` is the invariant of that loop: the branches visited
have the ED in place, the others are untouched, and no ED to insert behind
is on lists of both kinds – which is what the stride of the loop provides.
-/

/-- The links of the periodic schedule: the entries of `int_table` and the
`hwNextED` of every ED. -/
@[ext]
structure Links where
  table : ℕ → EdPtr
  next : EdPtr → EdPtr

namespace Links

/-- `*ed_p`. -/
def get (k : Links) : Cell → EdPtr
  | .table i => k.table i
  | .next e => k.next e

/-- `*ed_p = v`. -/
def set (k : Links) (c : Cell) (v : EdPtr) : Links :=
  match c with
  | .table i => { k with table := Function.update k.table i v }
  | .next e => { k with next := Function.update k.next e v }

/-- Write the link of an ED. -/
def setNext (k : Links) (e v : EdPtr) : Links :=
  { k with next := Function.update k.next e v }

end Links

/-- The memory with the links of the periodic schedule replaced. -/
def Ohci.withLinks (o : Ohci) (k : Links) : Ohci :=
  { o with intTable := k.table, ed := fun x => { o.ed x with hwNextED := k.next x } }

/-- The links of the periodic schedule in memory. -/
def Ohci.links (o : Ohci) : Links := ⟨o.intTable, o.nextED⟩

section WithLinks

variable (o : Ohci) (k : Links) (c : Cell) (e v x : EdPtr)

@[simp] theorem withLinks_links : o.withLinks o.links = o := rfl

@[simp] theorem links_withLinks : (o.withLinks k).links = k := rfl

@[simp] theorem withLinks_get : (o.withLinks k).get c = k.get c := by
  cases c <;> rfl

@[simp] theorem withLinks_intInterval :
    ((o.withLinks k).ed x).intInterval = (o.ed x).intInterval := rfl

theorem withLinks_modEd_next :
    (o.withLinks k).modEd e (fun r => { r with hwNextED := v })
      = o.withLinks (k.setNext e v) := by
  have hed : ((o.withLinks k).modEd e (fun r => { r with hwNextED := v })).ed
      = (o.withLinks (k.setNext e v)).ed := by
    funext y
    by_cases hy : y = e
    · subst hy
      simp [Ohci.withLinks, Links.setNext]
    · rw [Ohci.modEd_ed_of_ne _ _ _ _ hy]
      simp [Ohci.withLinks, Links.setNext, hy]
  exact congrArg (fun d => { o.withLinks k with ed := d }) hed

theorem withLinks_set : (o.withLinks k).set c v = o.withLinks (k.set c v) := by
  cases c with
  | table i => rfl
  | next e => exact withLinks_modEd_next o k e v

end WithLinks

/-- **The periodic schedule.** `L b` is the list of branch `b`; it is what
the controller meets from `int_table [b]`, it holds the linked EDs whose
class contains `b`, and their intervals do not increase along it. -/
structure Schedule (k : Links) (iv br : EdPtr → ℕ) (linked : List EdPtr)
    (L : ℕ → List EdPtr) : Prop where
  walk : ∀ b < 32, Walk k.next 0 (k.table b) (L b)
  mem : ∀ b < 32, ∀ x, x ∈ L b ↔ x ∈ linked ∧ b % iv x = br x % iv x
  sorted : ∀ b < 32, (L b).Pairwise (fun x y => iv y ≤ iv x)
  interval : ∀ x ∈ linked, ∃ m ≤ 5, iv x = 2 ^ m

/-- The list with an ED of interval `N` inserted: after the EDs of at least
that interval, before the others. -/
def schedInsert (iv : EdPtr → ℕ) (N : ℕ) (e : EdPtr) (l : List EdPtr) : List EdPtr :=
  l.takeWhile (fun x => N ≤ iv x) ++ e :: l.dropWhile (fun x => N ≤ iv x)

section Sorted

variable {iv : EdPtr → ℕ} {N : ℕ} {e x : EdPtr} {l p r : List EdPtr}

theorem le_of_mem_takeWhile (hx : x ∈ l.takeWhile (fun x => N ≤ iv x)) : N ≤ iv x := by
  simpa using List.mem_takeWhile_imp hx

/-- In a sorted list what is not passed over has a smaller interval. -/
theorem lt_of_mem_dropWhile (hs : l.Pairwise (fun x y => iv y ≤ iv x))
    (hx : x ∈ l.dropWhile (fun x => N ≤ iv x)) : iv x < N := by
  induction l with
  | nil => simp at hx
  | cons a l ih =>
    rw [List.pairwise_cons] at hs
    by_cases ha : N ≤ iv a
    · rw [List.dropWhile_cons_of_pos (by simpa using ha)] at hx
      exact ih hs.2 hx
    · rw [List.dropWhile_cons_of_neg (by simpa using ha)] at hx
      rcases List.mem_cons.mp hx with rfl | hx
      · omega
      · have hle := hs.1 x hx
        omega

theorem dropWhile_append_cons (hp : ∀ y ∈ p, N ≤ iv y) (hx : iv x < N) :
    (p ++ x :: r).dropWhile (fun x => N ≤ iv x) = x :: r := by
  rw [List.dropWhile_append_of_pos (by simpa using hp),
    List.dropWhile_cons_of_neg (by simpa using hx)]

theorem takeWhile_append_cons (hp : ∀ y ∈ p, N ≤ iv y) (hx : iv x < N) :
    (p ++ x :: r).takeWhile (fun x => N ≤ iv x) = p := by
  rw [List.takeWhile_append_of_pos (by simpa using hp),
    List.takeWhile_cons_of_neg (by simpa using hx), List.append_nil]

/-- **Where a list is cut**: before the first ED of a smaller interval. -/
theorem cut_eq {q : List EdPtr} (hp : ∀ y ∈ p, N ≤ iv y) (hq : ∀ y ∈ q, iv y < N) :
    (p ++ q).takeWhile (fun x => N ≤ iv x) = p
      ∧ (p ++ q).dropWhile (fun x => N ≤ iv x) = q := by
  cases q with
  | nil =>
    simp only [List.append_nil, List.takeWhile_eq_self_iff, List.dropWhile_eq_nil_iff]
    exact ⟨by simpa using hp, by simpa using hp⟩
  | cons x r =>
    have hx := hq x (by simp)
    exact ⟨takeWhile_append_cons hp hx, dropWhile_append_cons hp hx⟩

theorem schedInsert_eq {q : List EdPtr} (hp : ∀ y ∈ p, N ≤ iv y) (hq : ∀ y ∈ q, iv y < N) :
    schedInsert iv N e (p ++ q) = p ++ e :: q := by
  obtain ⟨h₁, h₂⟩ := cut_eq hp hq
  rw [schedInsert, h₁, h₂]

@[simp] theorem mem_schedInsert : x ∈ schedInsert iv N e l ↔ x = e ∨ x ∈ l := by
  have h : x ∈ l ↔ x ∈ l.takeWhile (fun x => N ≤ iv x) ∨ x ∈ l.dropWhile (fun x => N ≤ iv x) := by
    rw [← List.mem_append, List.takeWhile_append_dropWhile]
  rw [schedInsert, List.mem_append, List.mem_cons, h]
  tauto

end Sorted

namespace Schedule

variable {k : Links} {iv br : EdPtr → ℕ} {linked : List EdPtr} {L : ℕ → List EdPtr}
variable {b b' : ℕ} {x : EdPtr} {p p' r r' : List EdPtr}

/-- **Tails are shared**: two lists agree from any common ED on. -/
theorem tail_eq (h : Schedule k iv br linked L) (hb : b < 32) (hb' : b' < 32)
    (hl : L b = p ++ x :: r) (hl' : L b' = p' ++ x :: r') : r = r' := by
  have hw := h.walk b hb
  have hw' := h.walk b' hb'
  rw [hl] at hw
  rw [hl'] at hw'
  exact hw.drop.2.2.unique hw'.drop.2.2

theorem nodup (h : Schedule k iv br linked L) (hb : b < 32) : (L b).Nodup :=
  (h.walk b hb).nodup

/-- Before an ED stand only EDs of at least its interval. -/
theorem le_of_before (h : Schedule k iv br linked L) (hb : b < 32) (hl : L b = p ++ x :: r) :
    ∀ y ∈ p, iv x ≤ iv y := by
  intro y hy
  have hs := h.sorted b hb
  rw [hl, List.pairwise_append] at hs
  exact hs.2.2 y hy x (by simp)

/-- An ED of an interval that divides `2 ^ m` cannot tell apart branches
that are congruent modulo `2 ^ m`. -/
theorem mem_of_mod_eq (h : Schedule k iv br linked L) {m : ℕ} (hb : b < 32) (hb' : b' < 32)
    (hm : b % 2 ^ m = b' % 2 ^ m) (hx : x ∈ L b) (hiv : iv x ≤ 2 ^ m) : x ∈ L b' := by
  rw [h.mem b hb] at hx
  rw [h.mem b' hb']
  obtain ⟨q, -, hq⟩ := h.interval x hx.1
  have hdvd : 2 ^ q ∣ 2 ^ m :=
    pow_dvd_pow 2 ((Nat.pow_le_pow_iff_right (by norm_num)).mp (hq ▸ hiv))
  refine ⟨hx.1, ?_⟩
  rw [← hx.2, hq, ← Nat.mod_mod_of_dvd b' hdvd, ← hm, Nat.mod_mod_of_dvd b hdvd]

/-- What follows the EDs of interval at least `2 ^ m` is the same on
congruent branches: one half of it, for a branch where something does. -/
theorem dropWhile_eq_of_cons (h : Schedule k iv br linked L) {m : ℕ} (hb : b < 32)
    (hb' : b' < 32) (hm : b % 2 ^ m = b' % 2 ^ m)
    (hd : (L b).dropWhile (fun y => 2 ^ m ≤ iv y) = x :: r) :
    (L b').dropWhile (fun y => 2 ^ m ≤ iv y) = x :: r := by
  have hlt : ∀ y ∈ x :: r, iv y < 2 ^ m := fun y hy =>
    lt_of_mem_dropWhile (h.sorted b hb) (hd ▸ hy)
  have hl : L b = (L b).takeWhile (fun y => 2 ^ m ≤ iv y) ++ x :: r := by
    rw [← hd, List.takeWhile_append_dropWhile]
  have hxb : x ∈ L b := by
    rw [hl]
    simp
  obtain ⟨p', r', hl'⟩ :=
    List.append_of_mem (h.mem_of_mod_eq hb hb' hm hxb (hlt x (by simp)).le)
  have hr : r = r' := h.tail_eq hb hb' hl hl'
  subst hr
  -- an ED passed on `b'` that were small would be on `b` behind `x`, so again behind `x` here
  have hp' : ∀ y ∈ p', 2 ^ m ≤ iv y := by
    intro y hy
    by_contra hcon
    have hyb : y ∈ L b := h.mem_of_mod_eq hb' hb hm.symm (by rw [hl']; simp [hy]) (by omega)
    have hyx : y ∈ x :: r := by
      rw [hl, List.mem_append] at hyb
      exact hyb.resolve_left (fun hyt => hcon (le_of_mem_takeWhile hyt))
    have hnd := h.nodup hb'
    rw [hl', List.nodup_append] at hnd
    exact hnd.2.2 y hy y hyx rfl
  rw [hl']
  exact dropWhile_append_cons hp' (hlt x (by simp))

/-- **Congruent branches have the same tail of smaller intervals.** -/
theorem dropWhile_eq (h : Schedule k iv br linked L) {m : ℕ} (hb : b < 32) (hb' : b' < 32)
    (hm : b % 2 ^ m = b' % 2 ^ m) :
    (L b).dropWhile (fun y => 2 ^ m ≤ iv y) = (L b').dropWhile (fun y => 2 ^ m ≤ iv y) := by
  cases hd : (L b).dropWhile (fun y => 2 ^ m ≤ iv y) with
  | cons x r => exact (h.dropWhile_eq_of_cons hb hb' hm hd).symm
  | nil =>
    cases hd' : (L b').dropWhile (fun y => 2 ^ m ≤ iv y) with
    | nil => rfl
    | cons x r => exact absurd (h.dropWhile_eq_of_cons hb' hb hm.symm hd') (by simp [hd])

end Schedule
