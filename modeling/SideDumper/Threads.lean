import SideDumper.DoublyLinked

/-!
# Lists whose nodes are apart

A program that moves nodes from list to list – a queue, a free list, a list of
what is done – keeps each list intact because no node is on two of them.
`Threads` is such a family of lists; each may run along a link field of its
own. An operation changes one list at a time, and `Threads.change` says what is
to be shown for it.
-/

section Walks

variable {α : Type*} {next next' : α → α} {stop a x y : α} {xs ys : List α}

/-- **A walk is made longer** by the node it has ended at, which gets a link to
the new end. -/
theorem Walk.concat (h : Walk next stop a xs) (hy : y ∉ xs) (hne : stop ≠ y)
    (hnext : next' stop = y)
    (hn : ∀ z ∈ xs, next' z = next z) : Walk next' y a (xs ++ [stop]) := by
  induction xs generalizing a with
  | nil => exact ⟨h, hne, hnext⟩
  | cons x xs ih =>
    refine ⟨h.1, fun hx => hy (hx ▸ List.mem_cons_self), ?_⟩
    rw [hn x List.mem_cons_self]
    exact ih h.2.2 (fun hm => hy (List.mem_cons_of_mem _ hm))
      (fun z hz => hn z (List.mem_cons_of_mem _ hz))

/-- **A node is taken out** behind another one. -/
theorem Walk.removeAfter [DecidableEq α] (h : Walk next stop a (xs ++ y :: x :: ys)) :
    Walk (Function.update next y (next x)) stop a (xs ++ y :: ys) := by
  have hnd := h.nodup
  have htail : Walk next stop y (y :: x :: ys) := h.drop
  refine h.relink (Walk.update_of_notMem htail.2.2.2.2 ?_)
  simp only [List.nodup_append, List.nodup_cons] at hnd
  grind

end Walks

variable {ι α : Type*} [DecidableEq ι] {next next' : ι → α → α} {start start' stop stop' : ι → α}
  {xs : ι → List α} {ys : List α} {i j : ι} {x : α}

/-- **A family of lists**, each running along its link field, no node being on two
of them. -/
structure Threads (next : ι → α → α) (start stop : ι → α) (xs : ι → List α) : Prop where
  walk : ∀ i, Walk (next i) (stop i) (start i) (xs i)
  apart : ∀ i j x, x ∈ xs i → x ∈ xs j → i = j

namespace Threads

/-- **One list changes**: it is a walk still, its nodes are on no other list, and
nothing is written that another list runs through. -/
theorem change (h : Threads next start stop xs) (i : ι)
    (hw : Walk (next' i) (stop' i) (start' i) ys)
    (hnew : ∀ x ∈ ys, ∀ j, j ≠ i → x ∉ xs j)
    (hsame : ∀ j, j ≠ i → start' j = start j ∧ stop' j = stop j ∧
      ∀ x ∈ xs j, next' j x = next j x) :
    Threads next' start' stop' (Function.update xs i ys) where
  walk := fun j => by
    by_cases hj : j = i
    · rw [hj, Function.update_self]
      exact hw
    · obtain ⟨hstart, hstop, hnext⟩ := hsame j hj
      rw [Function.update_of_ne hj, hstart, hstop]
      exact (h.walk j).congr hnext
  apart := fun j k x hj hk => by
    rw [Function.update_apply] at hj hk
    split at hj <;> split at hk
    · exact ‹j = i›.trans ‹k = i›.symm
    · exact absurd hk (hnew x hj k ‹_›)
    · exact absurd hj (hnew x hk j ‹_›)
    · exact h.apart j k x hj hk

omit [DecidableEq ι] in
/-- Nothing that matters changes. -/
theorem congr (h : Threads next start stop xs) (hstart : ∀ i, start' i = start i)
    (hstop : ∀ i, stop' i = stop i) (hnext : ∀ i, ∀ x ∈ xs i, next' i x = next i x) :
    Threads next' start' stop' xs where
  walk := fun i => by
    rw [hstart, hstop]
    exact (h.walk i).congr (hnext i)
  apart := h.apart

omit [DecidableEq ι] in
/-- A node of one list is on no other. -/
theorem notMem (h : Threads next start stop xs) (hx : x ∈ xs i) (hj : j ≠ i) : x ∉ xs j :=
  fun hm => hj (h.apart j i x hm hx)

/-- **The first nodes of a list are taken off.** -/
theorem drop {zs : List α} (h : Threads next start stop xs) (ys : List α) (hx : xs i = ys ++ zs)
    (hstart : start' i = exitLink (next i) (start i) ys) (hother : ∀ j, j ≠ i →
      start' j = start j) :
    Threads next start' stop (Function.update xs i zs) := by
  refine h.change i ?_ (fun x hz j hj => ?_) (fun j hj => ⟨hother j hj, rfl, fun _ _ => rfl⟩)
  · have hw := h.walk i
    rw [hx, walk_append] at hw
    rw [hstart]
    exact hw.2
  · exact h.notMem (by rw [hx]; exact List.mem_append_right _ hz) hj

/-- A node that has been taken off is on no list. -/
theorem drop_notMem (h : Threads next start stop xs) (hx : xs i = x :: ys) (j : ι) :
    x ∉ Function.update xs i ys j := by
  rw [Function.update_apply]
  split
  · exact (List.nodup_cons.mp (hx ▸ (h.walk i).nodup)).1
  · exact h.notMem (by rw [hx]; exact List.mem_cons_self) ‹_›

/-- **A node is put at the front of a list.** -/
theorem push (h : Threads next start stop xs) (hoff : ∀ j, x ∉ xs j) (hx : x ≠ stop i)
    (hstart : start' i = x)
    (hother : ∀ j, j ≠ i → start' j = start j) (hlink : next' i x = start i)
    (hnext : ∀ j y, y ≠ x → next' j y = next j y) :
    Threads next' start' stop (Function.update xs i (x :: xs i)) := by
  have hmem : ∀ j, ∀ y ∈ xs j, next' j y = next j y :=
    fun j y hy => hnext j y (fun he => hoff j (he ▸ hy))
  refine h.change i ⟨hstart, hx, ?_⟩ (fun y hy j hj => ?_)
    (fun j hj => ⟨hother j hj, rfl, hmem j⟩)
  · rw [hlink]
    exact (h.walk i).congr (hmem i)
  · obtain rfl | hy := List.mem_cons.mp hy
    · exact hoff j
    · exact h.notMem hy hj

/-- **A list is made longer** by the node it has ended at. -/
theorem append {y : α} (h : Threads next start stop xs) (i : ι) (hoff : ∀ j, stop i ∉ xs j)
    (hy : y ∉ xs i)
    (hne : stop i ≠ y) (hstop : stop' i = y) (hother : ∀ j, j ≠ i → stop' j = stop j)
    (hlink : next' i (stop i) = y) (hnext : ∀ j, ∀ z ∈ xs j, next' j z = next j z) :
    Threads next' start stop' (Function.update xs i (xs i ++ [stop i])) := by
  refine h.change i ?_ (fun x hx j hj => ?_) (fun j hj => ⟨rfl, hother j hj, hnext j⟩)
  · rw [hstop]
    exact (h.walk i).concat hy hne hlink (hnext i)
  · obtain hx | hx := List.mem_append.mp hx
    · exact h.notMem hx hj
    · rw [List.mem_singleton.mp hx]
      exact hoff j

/-- **One list takes the place of another one**, and is empty then. -/
theorem transfer (h : Threads next start stop xs) (hstop : stop i = stop j)
    (hnext : next i = next j) (hstart : start' j = start i) (hempty : start' i = stop i)
    (hother : ∀ k, k ≠ i → k ≠ j → start' k = start k) :
    Threads next start' stop (Function.update (Function.update xs i []) j (xs i)) where
  walk := fun k => by
    by_cases hkj : k = j
    · rw [hkj, Function.update_self, ← hnext, ← hstop, hstart]
      exact h.walk i
    · rw [Function.update_of_ne hkj]
      by_cases hki : k = i
      · rw [hki, Function.update_self]
        exact hempty
      · rw [Function.update_of_ne hki, hother k hki hkj]
        exact h.walk k
  apart := fun k m x hk hm => by
    -- the nodes are where they were, but for the one list
    have hwhere : ∀ k, x ∈ Function.update (Function.update xs i []) j (xs i) k →
        k = j ∧ x ∈ xs i ∨ k ≠ j ∧ k ≠ i ∧ x ∈ xs k := by
      intro k hk
      rw [Function.update_apply] at hk
      split at hk
      · exact .inl ⟨‹_›, hk⟩
      · rw [Function.update_apply] at hk
        split at hk
        · cases hk
        · exact .inr ⟨‹_›, ‹_›, hk⟩
    obtain ⟨hkj, hx⟩ | ⟨hkj, hki, hx⟩ := hwhere k hk <;> obtain ⟨hmj, hx'⟩ | ⟨hmj, hmi, hx'⟩ :=
      hwhere m hm
    · exact hkj.trans hmj.symm
    · exact absurd (h.apart m i x hx' hx) hmi
    · exact absurd (h.apart k i x hx hx') hki
    · exact h.apart k m x hx hx'

/-- The nodes a list has left. -/
theorem mem_update_of_subset (hsub : ∀ x ∈ ys, x ∈ xs i) (hx : x ∈ Function.update xs i ys j) :
    x ∈ xs j := by
  rw [Function.update_apply] at hx
  split at hx
  · rename_i hj
    exact hj ▸ hsub x hx
  · exact hx

end Threads
