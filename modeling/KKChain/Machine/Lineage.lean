import Mathlib.Data.Set.Basic

/-! # Nodes that name a parent

Nodes have a height, and a node may have a parent, one below it. The ancestors of a node form a chain: of one height
there is at most one. So the common ancestors of two nodes do not change when the higher one is replaced by its parent,
nor when two different nodes of one height are replaced by theirs.
-/

namespace Lineage

variable {α : Type*} {parent : α → Option α} {height : α → ℕ} {S : Set α} {a b p q x y : α} {r : Option α} {k : ℕ}

/-- `x` is reached from a node along parents. Every node is its own ancestor. -/
inductive Ancestor (parent : α → Option α) (x : α) : α → Prop
  | refl : Ancestor parent x x
  | up {a p : α} : parent a = some p → Ancestor parent x p → Ancestor parent x a

/-- The node reached along `k` parents. -/
def nth (parent : α → Option α) : ℕ → α → Option α
  | 0, a => some a
  | k + 1, a => (parent a).bind (nth parent k)

/-- The nodes of a set have their parents in it, one below. -/
structure Graded (parent : α → Option α) (height : α → ℕ) (S : Set α) : Prop where
  closed : ∀ {a p}, a ∈ S → parent a = some p → p ∈ S
  height : ∀ {a p}, a ∈ S → parent a = some p → height a = height p + 1

theorem nth_succ_of_parent (step : parent a = some p) (k : ℕ) : nth parent (k + 1) a = nth parent k p := by
  rw [nth, step, Option.bind_some]

/-- The last parent of a longer way. -/
theorem nth_succ_of_nth (reached : nth parent k a = some x) : nth parent (k + 1) a = parent x := by
  induction k generalizing a with
  | zero =>
    obtain rfl := Option.some.inj reached
    cases step : parent a <;> simp [nth, step]
  | succ k ih =>
    obtain ⟨p, step, reached⟩ := Option.bind_eq_some_iff.mp reached
    rw [nth_succ_of_parent step, ih reached]

/-- A longer way passes through the shorter ones. -/
theorem nth_of_le {m : ℕ} (reached : nth parent m a = some x) (shorter : k ≤ m) : ∃ y, nth parent k a = some y := by
  induction k generalizing a m with
  | zero => exact ⟨a, rfl⟩
  | succ k ih =>
    obtain ⟨m, rfl⟩ := Nat.exists_eq_add_of_le' (Nat.one_le_of_lt shorter)
    obtain ⟨p, step, reached⟩ := Option.bind_eq_some_iff.mp reached
    rw [nth_succ_of_parent step]
    exact ih reached (by omega)

theorem ancestor_of_nth (reached : nth parent k a = some x) : Ancestor parent x a := by
  induction k generalizing a with
  | zero =>
    cases reached
    exact .refl
  | succ k ih =>
    obtain ⟨p, step, reached⟩ := Option.bind_eq_some_iff.mp reached
    exact .up step (ih reached)

namespace Ancestor

theorem trans (upper : Ancestor parent p a) (lower : Ancestor parent x p) : Ancestor parent x a := by
  induction upper with
  | refl => exact lower
  | up step rest ih => exact .up step ih

/-- An ancestor is the node itself or one of its parent. -/
theorem eq_or_parent (ancestor : Ancestor parent x a) : x = a ∨ ∃ p, parent a = some p ∧ Ancestor parent x p := by
  cases ancestor with
  | refl => exact .inl rfl
  | up step rest => exact .inr ⟨_, step, rest⟩

theorem eq_of_orphan (ancestor : Ancestor parent x a) (orphan : parent a = none) : x = a := by
  rcases ancestor.eq_or_parent with same | ⟨p, step, -⟩
  · exact same
  · rw [orphan] at step
    cases step

theorem of_parent (ancestor : Ancestor parent x a) (step : parent a = some p) (other : x ≠ a) :
    Ancestor parent x p := by
  rcases ancestor.eq_or_parent with same | ⟨p', step', rest⟩
  · exact absurd same other
  · cases step.symm.trans step'
    exact rest

theorem height_le (ancestor : Ancestor parent x a) (graded : Graded parent height S) (inside : a ∈ S) :
    height x ≤ height a := by
  induction ancestor with
  | refl => exact le_rfl
  | up step rest ih =>
    have below := graded.height inside step
    have bound := ih (graded.closed inside step)
    omega

theorem eq_of_height_le (ancestor : Ancestor parent x a) (graded : Graded parent height S) (inside : a ∈ S)
    (high : height a ≤ height x) : x = a := by
  rcases ancestor.eq_or_parent with same | ⟨p, step, rest⟩
  · exact same
  · have below := graded.height inside step
    have bound := rest.height_le graded (graded.closed inside step)
    omega

/-- The ancestors of a node form a chain. -/
theorem chain (first : Ancestor parent x a) (second : Ancestor parent y a) (graded : Graded parent height S)
    (inside : a ∈ S) (under : height x ≤ height y) : Ancestor parent x y := by
  induction second with
  | refl => exact first
  | @up a p step rest ih =>
    refine ih (first.of_parent step ?_) (graded.closed inside step)
    rintro rfl
    have below := graded.height inside step
    have bound := rest.height_le graded (graded.closed inside step)
    omega

end Ancestor

/-- The nodes that are ancestors of both. -/
def Common (parent : α → Option α) (a b : α) : Set α := {x | Ancestor parent x a ∧ Ancestor parent x b}

/-- The highest common ancestor, if there is any. -/
def IsMeet (parent : α → Option α) (height : α → ℕ) (a b : α) : Option α → Prop
  | none => Common parent a b = ∅
  | some x => x ∈ Common parent a b ∧ ∀ y ∈ Common parent a b, height y ≤ height x

theorem common_comm (a b : α) : Common parent a b = Common parent b a := Set.ext fun _ => And.comm

theorem isMeet_comm : IsMeet parent height a b r ↔ IsMeet parent height b a r := by
  cases r <;> simp only [IsMeet, common_comm a b]

theorem isMeet_congr (same : Common parent a b = Common parent p q) :
    IsMeet parent height a b r ↔ IsMeet parent height p q r := by
  cases r <;> simp only [IsMeet, same]

theorem isMeet_self (graded : Graded parent height S) (inside : a ∈ S) : IsMeet parent height a a (some a) :=
  ⟨⟨.refl, .refl⟩, fun _ common => common.1.height_le graded inside⟩

section Replace

variable (graded : Graded parent height S) (insideA : a ∈ S) (insideB : b ∈ S)

include graded insideA insideB

/-- A node is no ancestor of another one that is not above it. -/
theorem ne_of_mem_common (apart : a ≠ b) (high : height b ≤ height a) (common : x ∈ Common parent a b) : x ≠ a := by
  rintro rfl
  exact apart (common.2.eq_of_height_le graded insideB high)

theorem common_eq_empty (apart : a ≠ b) (high : height b ≤ height a) (orphan : parent a = none) :
    Common parent a b = ∅ := by
  refine Set.eq_empty_of_forall_notMem fun x common => ?_
  exact ne_of_mem_common graded insideA insideB apart high common (common.1.eq_of_orphan orphan)

/-- The higher of two nodes may be replaced by its parent. -/
theorem common_parent (apart : a ≠ b) (high : height b ≤ height a) (step : parent a = some p) :
    Common parent a b = Common parent p b := by
  ext x
  constructor
  · intro common
    exact ⟨common.1.of_parent step (ne_of_mem_common graded insideA insideB apart high common), common.2⟩
  · rintro ⟨first, second⟩
    exact ⟨.up step first, second⟩

end Replace

end Lineage
