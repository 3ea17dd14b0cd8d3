import Mathlib.Data.List.Basic
import Mathlib.Data.List.Nodup
import Mathlib.Logic.Function.Basic

/-!
# Walks along an intrusive list

A C list threaded through its nodes is a pointer to start from, a function
`next` giving each node's link, and a pointer the traversal stops at: the
loop is `for (x = a; x != stop; x = next (x))`. `Walk next stop a xs` says
that this loop visits exactly `xs`. The stop is part of the notion because
lists differ in it – most end at the null pointer, a transfer queue ends at
its dummy – and because a walk that is described by a finite list is one
that ends.

Editing a list writes one link. What such a write does to a walk is read
off by cutting the walk there: `Trail` is the part up to the cut, `exitLink`
the link that leaves it, and `walk_append` says a walk is a trail followed
by a walk from that link.
-/

variable {α : Type*}

/-- **The nodes a traversal visits**: starting at `a` and following `next`
until `stop`, one meets exactly the nodes of the list, in order. -/
def Walk (next : α → α) (stop : α) : α → List α → Prop
  | a, [] => a = stop
  | a, x :: xs => a = x ∧ x ≠ stop ∧ Walk next stop (next x) xs

/-- An initial part of a traversal: starting at `a` one meets the nodes of
the list in order, none of them being the stop. Where the traversal goes
after the last of them is not said. -/
def Trail (next : α → α) (stop : α) : α → List α → Prop
  | _, [] => True
  | a, x :: xs => a = x ∧ x ≠ stop ∧ Trail next stop (next x) xs

/-- The link that leaves a trail: the pointer one started from when the trail
is empty, the link of its last node otherwise. -/
def exitLink (next : α → α) : α → List α → α
  | a, [] => a
  | _, x :: xs => exitLink next (next x) xs

section Basic

variable {next : α → α} {stop a b x : α} {xs ys : List α}

@[simp] theorem walk_nil : Walk next stop a [] ↔ a = stop := Iff.rfl

@[simp] theorem walk_cons :
    Walk next stop a (x :: xs) ↔ a = x ∧ x ≠ stop ∧ Walk next stop (next x) xs :=
  Iff.rfl

@[simp] theorem trail_nil : Trail next stop a [] := trivial

@[simp] theorem trail_cons :
    Trail next stop a (x :: xs) ↔ a = x ∧ x ≠ stop ∧ Trail next stop (next x) xs :=
  Iff.rfl

@[simp] theorem exitLink_nil : exitLink next a [] = a := rfl

@[simp] theorem exitLink_cons : exitLink next a (x :: xs) = exitLink next (next x) xs := rfl

@[simp] theorem exitLink_append : exitLink next a (xs ++ ys)
    = exitLink next (exitLink next a xs) ys := by
  induction xs generalizing a with
  | nil => rfl
  | cons x xs ih => exact ih

/-- The link that leaves a trail ending in `x` is the link of `x`. -/
theorem exitLink_concat : exitLink next a (xs ++ [x]) = next x := by
  rw [exitLink_append, exitLink_cons, exitLink_nil]

/-- **A walk is cut anywhere**: it is a trail followed by a walk from
the link that leaves it. -/
theorem walk_append :
    Walk next stop a (xs ++ ys)
      ↔ Trail next stop a xs ∧ Walk next stop (exitLink next a xs) ys := by
  induction xs generalizing a with
  | nil => simp
  | cons x xs ih =>
    simp only [List.cons_append, walk_cons, trail_cons, exitLink_cons, ih, and_assoc]

/-- A walk is the trail of its nodes, left at the stop. -/
theorem walk_iff_trail :
    Walk next stop a xs ↔ Trail next stop a xs ∧ exitLink next a xs = stop := by
  have h : Walk next stop a (xs ++ []) ↔ _ := walk_append
  rwa [List.append_nil, walk_nil] at h

theorem Walk.trail (h : Walk next stop a xs) : Trail next stop a xs :=
  (walk_iff_trail.mp h).1

/-- Where a walk starts: at its first node, or at the stop when there is
none. -/
theorem Walk.start_eq (h : Walk next stop a xs) : a = xs.headD stop := by
  cases xs with
  | nil => exact h
  | cons x xs => exact h.1

theorem Walk.start_mem (h : Walk next stop a xs) (ha : a ≠ stop) : a ∈ xs := by
  cases xs with
  | nil => exact absurd h ha
  | cons x xs => exact h.1 ▸ List.mem_cons_self

theorem Walk.cons_of_ne (h : Walk next stop a xs) (ha : a ≠ stop) : ∃ ys, xs = a :: ys := by
  cases xs with
  | nil => exact absurd h ha
  | cons x xs => exact ⟨xs, by rw [h.1]⟩

theorem Trail.ne_stop (h : Trail next stop a xs) : ∀ y ∈ xs, y ≠ stop := by
  induction xs generalizing a with
  | nil => simp
  | cons x xs ih =>
    intro y hy
    rcases List.mem_cons.mp hy with rfl | hy
    · exact h.2.1
    · exact ih h.2.2 y hy

theorem Walk.ne_stop (h : Walk next stop a xs) : ∀ y ∈ xs, y ≠ stop :=
  h.trail.ne_stop

/-- The tail of a walk, from any of its nodes on. -/
theorem Walk.drop (h : Walk next stop a (xs ++ x :: ys)) : Walk next stop x (x :: ys) := by
  have hy := (walk_append.mp h).2
  exact ⟨rfl, hy.2⟩

/-- **A walk is determined by where it starts.** -/
theorem Walk.unique (h : Walk next stop a xs) (h' : Walk next stop a ys) : xs = ys := by
  induction xs generalizing a ys with
  | nil =>
    cases ys with
    | nil => rfl
    | cons y ys => exact absurd (h'.1.symm.trans h) h'.2.1
  | cons x xs ih =>
    cases ys with
    | nil => exact absurd (h.1.symm.trans h') h.2.1
    | cons y ys =>
      have hxy : x = y := h.1.symm.trans h'.1
      subst hxy
      rw [ih h.2.2 h'.2.2]

/-- **A walk that ends meets no node twice**: from a node met again, the
walk would have two different tails. -/
theorem Walk.nodup (h : Walk next stop a xs) : xs.Nodup := by
  induction xs generalizing a with
  | nil => exact List.nodup_nil
  | cons x xs ih =>
    refine List.nodup_cons.mpr ⟨fun hx => ?_, ih h.2.2⟩
    obtain ⟨us, vs, rfl⟩ := List.append_of_mem hx
    have htail : Walk next stop x (x :: vs) := h.2.2.drop
    have hfull : Walk next stop x (x :: (us ++ x :: vs)) := ⟨rfl, h.2⟩
    have hlen := congrArg List.length (htail.unique hfull)
    simp only [List.length_cons, List.length_append] at hlen
    omega

/-- A trail depends on the links of its nodes only, and not on the last
one's. -/
theorem Trail.congr {next' : α → α} (h : Trail next stop a xs)
    (hn : ∀ y ∈ xs.dropLast, next' y = next y) : Trail next' stop a xs := by
  induction xs generalizing a with
  | nil => trivial
  | cons x xs ih =>
    cases xs with
    | nil => exact ⟨h.1, h.2.1, trivial⟩
    | cons y ys =>
      have hx : next' x = next x := hn x (by simp)
      refine ⟨h.1, h.2.1, ?_⟩
      rw [hx]
      exact ih h.2.2 (fun z hz => hn z (by simp [hz]))

theorem exitLink_congr {next' : α → α} (hn : ∀ y ∈ xs, next' y = next y) :
    exitLink next' a xs = exitLink next a xs := by
  induction xs generalizing a with
  | nil => rfl
  | cons x xs ih =>
    rw [exitLink_cons, exitLink_cons, hn x (by simp)]
    exact ih (fun z hz => hn z (by simp [hz]))

/-- A walk depends on the links of its nodes only. -/
theorem Walk.congr {next' : α → α} (h : Walk next stop a xs)
    (hn : ∀ y ∈ xs, next' y = next y) : Walk next' stop a xs := by
  rw [walk_iff_trail] at h ⊢
  exact ⟨h.1.congr (fun y hy => hn y (List.dropLast_subset xs hy)),
    (exitLink_congr hn).trans h.2⟩

/-- **A trail is the beginning of the walk.** -/
theorem Trail.prefix_walk (ht : Trail next stop a ys) (hw : Walk next stop a xs) :
    ∃ zs, xs = ys ++ zs := by
  induction ys generalizing a xs with
  | nil => exact ⟨xs, rfl⟩
  | cons y ys ih =>
    obtain ⟨rfl, hy, ht⟩ := ht
    cases xs with
    | nil => exact absurd hw hy
    | cons x xs =>
      obtain ⟨rfl, -, hw⟩ := hw
      obtain ⟨zs, rfl⟩ := ih ht hw
      exact ⟨zs, rfl⟩

end Basic

section Edit

variable [DecidableEq α] {next : α → α} {stop a b x v : α} {xs ys zs : List α}

/-- Writing the link of a node off the walk does not change it. -/
theorem Walk.update_of_notMem (h : Walk next stop a xs) (hx : x ∉ xs) :
    Walk (Function.update next x v) stop a xs :=
  h.congr (fun _ hy => Function.update_of_ne (ne_of_mem_of_not_mem hy hx) v next)

/-- **Relinking**: a walk whose part after `x` is replaced, by writing the
link of `x`, by another walk that avoids `x`. -/
theorem Walk.relink (h : Walk next stop a (xs ++ x :: ys))
    (hv : Walk (Function.update next x v) stop v zs) :
    Walk (Function.update next x v) stop a (xs ++ x :: zs) := by
  have hnd := h.nodup
  rw [walk_append] at h ⊢
  obtain ⟨hp, hx, hs, -⟩ := h
  have hxs : ∀ y ∈ xs, Function.update next x v y = next y := by
    intro y hy
    refine Function.update_of_ne ?_ v next
    rintro rfl
    exact (List.nodup_append.mp hnd).2.2 y hy y (by simp) rfl
  refine ⟨hp.congr (fun y hy => hxs y (List.dropLast_subset xs hy)), ?_, hs, ?_⟩
  · rw [exitLink_congr hxs, hx]
  · rwa [Function.update_self]

end Edit
