import SideDumper.Walk
import Mathlib.Data.List.Nodup

/-!
# Doubly linked lists

A doubly linked list is two walks that are each other's reverse: along `next`
from the head and along `prev` from the tail. Appending a node and taking one
out write two links and, at an end of the list, the head or the tail; the
operations below write what such code writes, and keep the two walks.
-/

variable {α : Type*}

/-- **A doubly linked list** with the nodes `xs`. -/
structure DoublyLinked (next prev : α → α) (stop head tail : α) (xs : List α) : Prop where
  fwd : Walk next stop head xs
  bwd : Walk prev stop tail xs.reverse

/-- **Taking a node out of a walk**: the link in front of it, the start when
there is nothing in front, is redirected to the node behind it. -/
theorem Walk.remove [DecidableEq α] {next : α → α} {stop a e x : α} {as bs : List α}
    (h : Walk next stop a (as ++ e :: bs)) (hx : as.reverse.headD stop = x) :
    Walk (if x = stop then next else Function.update next x (next e)) stop
      (if x = stop then next e else a) (as ++ bs) := by
  rcases List.eq_nil_or_concat as with rfl | ⟨as', y, rfl⟩
  · have hstop : x = stop := hx.symm
    rw [if_pos hstop, if_pos hstop]
    exact h.2.2
  · have hxy : y = x := by simpa using hx
    subst hxy
    have hne : y ≠ stop := h.ne_stop y (by simp)
    have hnd := h.nodup
    rw [if_neg hne, if_neg hne]
    rw [List.concat_append] at h hnd ⊢
    refine h.relink (Walk.update_of_notMem ?_ ?_)
    · have hdrop : Walk next stop y (y :: e :: bs) := h.drop
      exact hdrop.2.2.2.2
    · simp only [List.nodup_append, List.nodup_cons] at hnd
      grind

namespace DoublyLinked

variable {next prev : α → α} {stop head tail e : α} {xs as bs : List α}

/-- A list without nodes. -/
theorem nil : DoublyLinked next prev stop stop stop [] := ⟨rfl, rfl⟩

theorem nodup (h : DoublyLinked next prev stop head tail xs) : xs.Nodup := h.fwd.nodup

theorem ne_stop (h : DoublyLinked next prev stop head tail xs) (hx : e ∈ xs) : e ≠ stop :=
  h.fwd.ne_stop e hx

/-- The links of the nodes decide. -/
theorem congr {next' prev' : α → α} (h : DoublyLinked next prev stop head tail xs)
    (hn : ∀ x ∈ xs, next' x = next x) (hp : ∀ x ∈ xs, prev' x = prev x) :
    DoublyLinked next' prev' stop head tail xs where
  fwd := h.fwd.congr hn
  bwd := h.bwd.congr (fun x hx => hp x (List.mem_reverse.mp hx))

/-- The tail is the stop exactly when the list is empty. -/
theorem tail_eq_stop_iff (h : DoublyLinked next prev stop head tail xs) :
    tail = stop ↔ xs = [] := by
  constructor
  · intro ht
    by_contra hne
    have hw := h.bwd
    rw [ht] at hw
    cases hr : xs.reverse with
    | nil => exact hne (List.reverse_eq_nil_iff.mp hr)
    | cons y ys =>
      rw [hr] at hw
      exact hw.2.1 hw.1.symm
  · rintro rfl
    exact h.bwd

/-- What a node's links lead to. -/
theorem next_eq (h : DoublyLinked next prev stop head tail (as ++ e :: bs)) :
    next e = bs.headD stop :=
  h.fwd.drop.2.2.start_eq

theorem prev_eq (h : DoublyLinked next prev stop head tail (as ++ e :: bs)) :
    prev e = as.reverse.headD stop := by
  have hw := h.bwd
  rw [List.reverse_append, List.reverse_cons, List.append_assoc, List.singleton_append] at hw
  exact hw.drop.2.2.start_eq

variable [DecidableEq α]

/-- **Appending a node** behind the tail. -/
theorem append (h : DoublyLinked next prev stop head tail xs) (he : e ∉ xs) (hs : e ≠ stop)
    (hn : next e = stop) :
    DoublyLinked (if tail = stop then next else Function.update next tail e)
      (Function.update prev e tail) stop (if tail = stop then e else head) e (xs ++ [e]) where
  fwd := by
    rcases List.eq_nil_or_concat xs with rfl | ⟨ys, y, rfl⟩
    · rw [if_pos (h.tail_eq_stop_iff.mpr rfl), if_pos (h.tail_eq_stop_iff.mpr rfl)]
      exact ⟨rfl, hs, hn⟩
    · have hty : tail = y := by
        have hw := h.bwd
        rw [List.concat_eq_append, List.reverse_append] at hw
        exact hw.1
      subst hty
      have hne : tail ≠ stop := h.ne_stop (by simp)
      rw [if_neg hne, if_neg hne]
      rw [List.concat_eq_append] at h he ⊢
      rw [List.append_assoc, List.singleton_append]
      have het : e ≠ tail := by
        rintro rfl
        exact he (by simp)
      refine h.fwd.relink ⟨rfl, hs, ?_⟩
      rw [Function.update_of_ne het]
      exact hn
  bwd := by
    rw [List.reverse_append, List.reverse_singleton, List.singleton_append]
    refine ⟨rfl, hs, ?_⟩
    rw [Function.update_self]
    exact h.bwd.update_of_notMem (fun hmem => he (List.mem_reverse.mp hmem))

/-- **Taking a node out.** -/
theorem remove (h : DoublyLinked next prev stop head tail (as ++ e :: bs)) :
    DoublyLinked (if prev e = stop then next else Function.update next (prev e) (next e))
      (if tail = e then prev else Function.update prev (next e) (prev e)) stop
      (if prev e = stop then next e else head) (if tail = e then prev e
        else tail) (as ++ bs) where
  fwd := h.fwd.remove h.prev_eq.symm
  bwd := by
    have hw := h.bwd
    rw [List.reverse_append, List.reverse_cons, List.append_assoc, List.singleton_append] at hw
    have hr := hw.remove (x := next e) (by rw [List.reverse_reverse, h.next_eq])
    rw [List.reverse_append]
    -- the node is the last one exactly when its link is the stop
    have hlast : tail = e ↔ next e = stop := by
      rw [h.next_eq]
      cases bs with
      | nil =>
        have ht : tail = e := hw.1
        simp [ht]
      | cons b bs =>
        have hb : b ≠ stop := h.ne_stop (by simp)
        have ht : tail = (bs.reverse ++ b :: e :: as.reverse).headD stop := by
          have := hw.start_eq
          simpa using this
        have hne : tail ≠ e := by
          have hnd := hw.nodup
          cases hbs : bs.reverse with
          | nil => simp_all
          | cons c cs => simp_all
        simp [hb, hne]
    simp only [hlast]
    exact hr

end DoublyLinked
