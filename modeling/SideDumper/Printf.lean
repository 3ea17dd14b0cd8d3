import Mathlib.Data.Nat.Notation
import Mathlib.Tactic.Common

/-!
# Formats without arguments

What `printf` prints for a format when no arguments follow it: a `%%` is a
percent sign, the other characters are themselves, and a conversion takes an
argument that is not there, so that nothing can be said about its text. A
format is printed as it is under every such function exactly when it has no
percent sign.
-/

/-- **The text that a `printf` prints for a format alone.** -/
structure IsPrintf (f : List Char → List Char) : Prop where
  nil : f [] = []
  percent : ∀ s, f ('%' :: '%' :: s) = '%' :: f s
  char : ∀ c s, c ≠ '%' → f (c :: s) = c :: f s

/-- A `printf` that prints nothing for the start of a conversion. -/
def dropConversions : List Char → List Char
  | [] => []
  | [c] => if c = '%' then [] else [c]
  | c :: d :: s =>
    if c = '%' then
      if d = '%' then '%' :: dropConversions s else dropConversions (d :: s)
    else c :: dropConversions (d :: s)

theorem isPrintf_dropConversions : IsPrintf dropConversions where
  nil := rfl
  percent s := by simp [dropConversions]
  char c s hc := by
    cases s with
    | nil => simp [dropConversions, hc]
    | cons d s => simp [dropConversions, hc]

namespace IsPrintf

variable {f : List Char → List Char} {s : List Char} {ss : List (List Char)}

/-- A format without a percent sign is printed as it is. -/
theorem eq_self (hf : IsPrintf f) (hs : '%' ∉ s) : f s = s := by
  induction s with
  | nil => exact hf.nil
  | cons c s ih =>
    rw [List.mem_cons, not_or] at hs
    rw [hf.char c s (Ne.symm hs.1), ih hs.2]

/-- So are formats that are printed one after the other. -/
theorem flatMap_eq_flatten (hf : IsPrintf f) (hs : '%' ∉ ss.flatten) :
    ss.flatMap f = ss.flatten := by
  induction ss with
  | nil => rfl
  | cons s ss ih =>
    rw [List.flatten_cons, List.mem_append, not_or] at hs
    rw [List.flatMap_cons, List.flatten_cons, hf.eq_self hs.1, ih hs.2]

end IsPrintf

/-- Nothing is added when conversions are dropped. -/
theorem dropConversions_length_le (s : List Char) : (dropConversions s).length ≤ s.length := by
  induction s using dropConversions.induct with
  | case1 => exact Nat.le_refl _
  | case2 => simp [dropConversions]
  | case3 c hc => simp [dropConversions, hc]
  | case4 s ih =>
    simp only [dropConversions, if_true, List.length_cons]
    omega
  | case5 d s hd ih =>
    simp only [dropConversions, hd, if_true, if_false, List.length_cons] at ih ⊢
    omega
  | case6 c d s hc ih =>
    simp only [dropConversions, hc, if_false, List.length_cons] at ih ⊢
    omega

/-- Something is lost when there is a percent sign. -/
theorem dropConversions_length_lt {s : List Char} (hs : '%' ∈ s) :
    (dropConversions s).length < s.length := by
  induction s using dropConversions.induct with
  | case1 => exact absurd hs List.not_mem_nil
  | case2 => simp [dropConversions]
  | case3 c hc => exact absurd (List.mem_singleton.mp hs).symm hc
  | case4 s ih =>
    have := dropConversions_length_le s
    simp only [dropConversions, if_true, List.length_cons]
    omega
  | case5 d s hd ih =>
    have := dropConversions_length_le (d :: s)
    simp only [dropConversions, hd, if_true, if_false, List.length_cons] at this ⊢
    omega
  | case6 c d s hc ih =>
    have := ih ((List.mem_cons.mp hs).resolve_left (Ne.symm hc))
    simp only [dropConversions, hc, if_false, List.length_cons] at this ⊢
    omega

theorem dropConversions_flatMap_length_le (ss : List (List Char)) :
    (ss.flatMap dropConversions).length ≤ ss.flatten.length := by
  induction ss with
  | nil => exact Nat.le_refl _
  | cons s ss ih =>
    have := dropConversions_length_le s
    rw [List.flatMap_cons, List.flatten_cons, List.length_append, List.length_append]
    omega

/-- **Formats are printed as they are, by every `printf`, exactly when there
is no percent sign in them.** -/
theorem flatMap_printf_eq_iff (ss : List (List Char)) :
    (∀ f, IsPrintf f → ss.flatMap f = ss.flatten) ↔ '%' ∉ ss.flatten := by
  refine ⟨fun h hmem => ?_, fun h f hf => hf.flatMap_eq_flatten h⟩
  have heq := congrArg List.length (h _ isPrintf_dropConversions)
  clear h
  induction ss with
  | nil => exact List.not_mem_nil hmem
  | cons s ss ih =>
    rw [List.flatMap_cons, List.flatten_cons, List.length_append, List.length_append] at heq
    have hs := dropConversions_length_le s
    have hss := dropConversions_flatMap_length_le ss
    rw [List.flatten_cons, List.mem_append] at hmem
    rcases hmem with hmem | hmem
    · have := dropConversions_length_lt hmem
      omega
    · exact ih hmem (by omega)
