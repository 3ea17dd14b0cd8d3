import Mathlib.Data.List.Basic

/-!
# A queue that is handed over in batches

A producer collects what it is done with on a list of its own, the last one
first, and now and then hands the list over as a whole. A consumer takes the
whole list, turns it around and works it off. Nothing is numbered, and the
two share one pointer; still the consumer gets everything once and in the order
in which the producer was done with it.
-/

/-- **The lists**: the producer's own, the one that has been handed over, what
is left to turn around, and what has been turned around. -/
structure HandOver (α : Type*) where
  own : List α
  given : List α
  todo : List α
  turned : List α

namespace HandOver

variable {α : Type*}

/-- No one has anything. -/
def empty : HandOver α := ⟨[], [], [], []⟩

/-- **What is on its way**, the oldest first. -/
def inFlight (h : HandOver α) : List α :=
  h.todo.reverse ++ h.turned ++ h.given.reverse ++ h.own.reverse

/-- **One step**, with what is put in and what is got out. -/
inductive Step (h : HandOver α) : List α → List α → HandOver α → Prop
  | rest : Step h [] [] h
  | put (x : α) : Step h [x] [] { h with own := x :: h.own }
  | give : h.given = [] → Step h [] [] { h with own := [], given := h.own }
  | take : h.todo = [] → h.turned = [] → Step h [] [] { h with given := [], todo := h.given }
  | turn (x : α) (xs : List α) : h.todo = x :: xs →
      Step h [] [] { h with todo := xs, turned := x :: h.turned }
  | get (x : α) (xs : List α) : h.todo = [] → h.turned = x :: xs →
      Step h [] [x] { h with turned := xs }

/-- **Some steps in a row**, with all that is put in and all that is got out. -/
inductive Run (h₀ : HandOver α) : List α → List α → HandOver α → Prop
  | start : Run h₀ [] [] h₀
  | step {h h' : HandOver α} {rs ss rs' ss' : List α} (hr : Run h₀ rs ss h) (hs :
      h.Step rs' ss' h') :
      Run h₀ (rs ++ rs') (ss ++ ss') h'

variable {h h₀ h' : HandOver α} {rs ss rs' ss' : List α}

/-- What is put in comes in last, and what is got out was the first. -/
theorem Step.inFlight (hs : h.Step rs ss h') : ss ++ h'.inFlight = h.inFlight ++ rs := by
  cases hs with
  | rest => simp
  | put x => simp [HandOver.inFlight]
  | give hg => simp [HandOver.inFlight, hg]
  | take ht hr => simp [HandOver.inFlight, ht, hr]
  | turn x xs ht => simp [HandOver.inFlight, ht]
  | get x xs ht hr => simp [HandOver.inFlight, ht, hr]

theorem Run.inFlight (hr : Run h₀ rs ss h) : ss ++ h.inFlight = h₀.inFlight ++ rs := by
  induction hr with
  | start => simp
  | step _ hs ih =>
    rw [List.append_assoc, hs.inFlight, ← List.append_assoc, ih, List.append_assoc]

/-- What is got out was the first of what had been turned around. -/
theorem Step.got {x : α} (hs : h.Step rs [x] h') :
    h.todo = [] ∧ h'.todo = [] ∧ h.turned = x :: h'.turned := by
  cases hs with
  | get x xs ht hr => exact ⟨ht, ht, hr⟩

/-- Nothing is turned around when what is left to turn around still begins with what it
did. -/
theorem Step.kept (hs : h.Step rs [] h') (hnd : h.todo.Nodup)
    (hhead : h'.todo.head? = h.todo.head?) :
    h'.todo = h.todo ∧ h'.turned = h.turned := by
  cases hs with
  | rest | put | give => exact ⟨rfl, rfl⟩
  | take ht hr =>
    rw [ht, List.head?_nil, List.head?_eq_none_iff] at hhead
    exact ⟨hhead.trans ht.symm, rfl⟩
  | turn x xs ht =>
    rw [ht, List.head?_cons] at hhead
    rw [ht] at hnd
    exact absurd (List.mem_of_mem_head? hhead) (List.nodup_cons.mp hnd).1

/-- **First in, first out**: what has been put in is what has been got out and then
what is on its way. -/
theorem Run.fifo (hr : Run empty rs ss h) : rs = ss ++ h.inFlight := by
  have heq := hr.inFlight
  rw [show (empty : HandOver α).inFlight = [] from rfl, List.nil_append] at heq
  exact heq.symm

end HandOver
