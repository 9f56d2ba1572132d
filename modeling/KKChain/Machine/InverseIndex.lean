import Mathlib.Logic.Basic

/-! # A lookup that inverts a placement

Items have positions, and a lookup gives the position of an item. When part of the placement is replaced, the lookup is
right again if every item met one of three fates: it was entered at a new position, it was erased and has no position
outside the part that was kept, or it was left alone and has only positions in that part.
-/

namespace InverseIndex

variable {τ π : Type*}

/-- The lookup finds an item exactly where it is. -/
def Inverts (located : τ → π → Prop) (lookup : τ → Option π) : Prop := ∀ t p, lookup t = some p ↔ located t p

/-- What became of an item when the positions that are not `kept` were replaced. -/
inductive Fate (kept : π → Prop) (located located' : τ → π → Prop) (lookup lookup' : τ → Option π) (t : τ) : Prop
  | entered (p : π) : lookup' t = some p → located' t p → Fate kept located located' lookup lookup' t
  | erased (p : π) : lookup' t = none → located t p → ¬ kept p → (∀ q, located' t q → kept q) →
      Fate kept located located' lookup lookup' t
  | left : lookup' t = lookup t → (∀ q, located t q → kept q) → (∀ q, located' t q → kept q) →
      Fate kept located located' lookup lookup' t

theorem Inverts.replace {located located' : τ → π → Prop} {lookup lookup' : τ → Option π}
    (inverts : Inverts located lookup) (kept : π → Prop) (same : ∀ t p, kept p → (located' t p ↔ located t p))
    (unique : ∀ t p q, located' t p → located' t q → p = q)
    (fate : ∀ t, Fate kept located located' lookup lookup' t) : Inverts located' lookup' := by
  intro t p
  cases fate t with
  | entered q found isThere =>
    rw [found, Option.some.injEq]
    constructor
    · rintro rfl
      exact isThere
    · exact unique t q p isThere
  | erased q gone was outside only =>
    rw [gone]
    refine ⟨nofun, fun isThere => ?_⟩
    have before := (inverts t p).mpr ((same t p (only p isThere)).mp isThere)
    cases before.symm.trans ((inverts t q).mpr was)
    exact absurd (only p isThere) outside
  | left untouched before after =>
    rw [untouched, inverts t p]
    constructor
    · exact fun was => (same t p (before p was)).mpr was
    · exact fun isThere => (same t p (after p isThere)).mp isThere

end InverseIndex
