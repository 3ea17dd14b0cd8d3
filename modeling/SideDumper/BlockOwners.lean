import Mathlib.Logic.Equiv.Basic

/-!
# Blocks with one owner

Memory blocks lie at places: a field of a structure, an element of a table. An
allocator knows which blocks it has handed out. Here is the bookkeeping that
says these are the same blocks, and that no block lies at two places, with a
rule for each thing a program does to its blocks: it puts fresh ones somewhere,
exchanges two of them, and gives some back.
-/

variable {P B : Type*}

/-- **The blocks handed out are those at the places, and each lies at one.** -/
structure SingleOwner (place : P → Option B) (alloc : B → Bool) : Prop where
  exact : ∀ b, alloc b = true ↔ ∃ p, place p = some b
  single : ∀ p q b, place p = some b → place q = some b → p = q

namespace SingleOwner

variable {place place' : P → Option B} {alloc alloc' : B → Bool}

/-- At first there are none. -/
theorem none (hplace : ∀ p, place p = .none) (halloc : ∀ b, alloc b = false) :
    SingleOwner place alloc where
  exact := fun b => by simp [halloc b, hplace]
  single := fun p q b hp => by
    rw [hplace p] at hp
    cases hp

theorem congr (h : SingleOwner place alloc) (hplace : place' = place) (halloc : alloc' = alloc) :
    SingleOwner place' alloc' := by
  rw [hplace, halloc]
  exact h

/-- **Two places exchange their blocks.** -/
theorem swap [DecidableEq P] (h : SingleOwner place alloc) (p q : P)
    (hplace : ∀ x, place' x = place (Equiv.swap p q x)) : SingleOwner place' alloc where
  exact := fun b => by
    rw [h.exact b]
    constructor
    · rintro ⟨x, hx⟩
      exact ⟨Equiv.swap p q x, by rw [hplace, Equiv.swap_apply_self, hx]⟩
    · rintro ⟨x, hx⟩
      exact ⟨Equiv.swap p q x, hplace x ▸ hx⟩
  single := fun x y b hx hy => by
    rw [hplace] at hx hy
    exact (Equiv.swap p q).injective (h.single _ _ b hx hy)

/-- **Fresh blocks come to free places.** -/
theorem give (h : SingleOwner place alloc) (new : P → Prop) (hold : ∀ p, ¬ new p →
    place' p = place p)
    (hfree : ∀ p, new p → place p = .none) (hfresh : ∀ p b, new p → place' p = some b →
      alloc b = false)
    (hdist : ∀ p q b, new p → new q → place' p = some b → place' q = some b → p = q)
    (halloc : ∀ b, alloc' b = true ↔ alloc b = true ∨ ∃ p, new p ∧ place' p = some b) :
    SingleOwner place' alloc' where
  exact := fun b => by
    rw [halloc b, h.exact b]
    constructor
    · rintro (⟨p, hp⟩ | ⟨p, -, hp⟩)
      · have hnew : ¬ new p := by
          intro hn
          rw [hfree p hn] at hp
          cases hp
        exact ⟨p, (hold p hnew).trans hp⟩
      · exact ⟨p, hp⟩
    · rintro ⟨p, hp⟩
      by_cases hn : new p
      · exact .inr ⟨p, hn, hp⟩
      · exact .inl ⟨p, (hold p hn).symm.trans hp⟩
  single := fun p q b hp hq => by
    -- a block that was there is not fresh
    have hclash : ∀ x y, new x → ¬ new y → place' x = some b → place' y = some b → False := by
      intro x y hx hy hxb hyb
      have hfalse := hfresh x b hx hxb
      rw [(h.exact b).mpr ⟨y, (hold y hy).symm.trans hyb⟩] at hfalse
      cases hfalse
    by_cases hnp : new p <;> by_cases hnq : new q
    · exact hdist p q b hnp hnq hp hq
    · exact (hclash p q hnp hnq hp hq).elim
    · exact (hclash q p hnq hnp hq hp).elim
    · exact h.single p q b ((hold p hnp).symm.trans hp) ((hold q hnq).symm.trans hq)

/-- **The blocks at some places are given back.** -/
theorem take (h : SingleOwner place alloc) (gone : P → Prop) (hold : ∀ p, ¬ gone p →
    place' p = place p)
    (hgone : ∀ p, gone p → place' p = .none)
    (halloc : ∀ b, alloc' b = true ↔ alloc b = true ∧ ∀ p, gone p → place p ≠ some b) :
    SingleOwner place' alloc' where
  exact := fun b => by
    rw [halloc b, h.exact b]
    constructor
    · rintro ⟨⟨p, hp⟩, hb⟩
      have hnot : ¬ gone p := fun hg => hb p hg hp
      exact ⟨p, (hold p hnot).trans hp⟩
    · rintro ⟨p, hp⟩
      have hnot : ¬ gone p := by
        intro hg
        rw [hgone p hg] at hp
        cases hp
      have hpb := (hold p hnot).symm.trans hp
      exact ⟨⟨p, hpb⟩, fun q hq hqb => hnot (h.single p q b hpb hqb ▸ hq)⟩
  single := fun p q b hp hq => by
    have hstay : ∀ x, place' x = some b → place x = some b := by
      intro x hx
      have hnot : ¬ gone x := by
        intro hg
        rw [hgone x hg] at hx
        cases hx
      exact (hold x hnot).symm.trans hx
    exact h.single p q b (hstay p hp) (hstay q hq)

end SingleOwner
