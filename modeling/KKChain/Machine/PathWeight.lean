import Mathlib.Algebra.Group.Defs

/-! # Weights along a path to a root

Every node but the root has one edge, with a weight of its own. The weight of a node is the sum of the weights on
the way to the root, on top of what the root starts with. It does not depend on where and in which order weights are
recorded, so records that are each made from the record of the next node agree.
-/

variable {κ α : Type} [Add α]

/-- The node reaches the root, and these are the weights on the way. -/
inductive PathWeight (edge : κ → κ → α → Prop) (root : κ) (base : α) : κ → α → Prop
  | root : PathWeight edge root base root base
  | step {node parent : κ} {own total : α} :
      edge node parent own → PathWeight edge root base parent total → PathWeight edge root base node (own + total)

namespace PathWeight

variable {edge edge' : κ → κ → α → Prop} {root node : κ} {base total total' : α}

theorem mono (weight : PathWeight edge root base node total)
    (within : ∀ {node parent own}, edge node parent own → edge' node parent own) :
    PathWeight edge' root base node total := by
  induction weight with
  | root => exact .root
  | step link _ ih => exact .step (within link) ih

/-- The last edge of the path. -/
theorem cases_eq (weight : PathWeight edge root base node total) :
    node = root ∧ total = base ∨ ∃ parent own rest,
      edge node parent own ∧ PathWeight edge root base parent rest ∧ total = own + rest := by
  cases weight with
  | root => exact .inl ⟨rfl, rfl⟩
  | step link rest => exact .inr ⟨_, _, _, link, rest, rfl⟩

/-- A node has one weight if edges are determined by the node they leave and none leads from the root to a node with
a weight. -/
theorem unique (determined : ∀ {node parent own parent' own'}, edge node parent own → edge node parent' own' →
      parent = parent' ∧ own = own')
    (rooted : ∀ {parent own total}, edge root parent own → ¬ PathWeight edge root base parent total)
    (first : PathWeight edge root base node total) (second : PathWeight edge root base node total') :
    total = total' := by
  induction first generalizing total' with
  | root =>
    rcases second.cases_eq with ⟨-, total⟩ | ⟨parent, own, rest, link, weight, -⟩
    · exact total.symm
    · exact (rooted link weight).elim
  | step link weight ih =>
    rcases second.cases_eq with ⟨atRoot, -⟩ | ⟨parent, own, rest, link', weight', total⟩
    · exact (rooted (atRoot ▸ link) weight).elim
    · obtain ⟨rfl, rfl⟩ := determined link link'
      rw [total, ih weight']

end PathWeight
