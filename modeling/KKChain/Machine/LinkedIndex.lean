import Mathlib.Logic.Function.Basic
import Mathlib.Order.Nat

/-! # An index by height over nodes that name their parent

`link n k` is the parent that the node `k` of height `n` names, if there is such a node. An index is linked up to
a height if every entry is a node and names the entry below. Entering a node whose parent is the entry below
links the index up to that node, whatever the index held from there on. So a branch can be entered over another
one from the bottom, and only the entries above its end have to be looked at separately.
-/

namespace LinkedIndex

open Function

variable {κ : Type*} {link link' : ℕ → κ → Option κ} {index : ℕ → Option κ} {top n : ℕ} {k p : κ}

/-- Every entry up to `top` is a node that names the entry below. -/
def Linked (link : ℕ → κ → Option κ) (index : ℕ → Option κ) (top : ℕ) : Prop :=
  ∀ n ≤ top, ∃ k p, index n = some k ∧ link n k = some p ∧ ∀ m, n = m + 1 → index m = some p

namespace Linked

theorem lower (linked : Linked link index top) (below : n ≤ top) : Linked link index n :=
  fun m height => linked m (height.trans below)

theorem mono (linked : Linked link index top)
    (kept : ∀ n ≤ top, ∀ k p, index n = some k → link n k = some p → link' n k = some p) :
    Linked link' index top := by
  intro n height
  obtain ⟨k, p, entry, parent, below⟩ := linked n height
  exact ⟨k, p, entry, kept n height k p entry parent, below⟩

/-- The entry below a node of the index is its parent. -/
theorem below (linked : Linked link index top) (height : n + 1 ≤ top) (entry : index (n + 1) = some k)
    (parent : link (n + 1) k = some p) : index n = some p := by
  obtain ⟨k', p', entry', parent', rest⟩ := linked (n + 1) height
  cases entry.symm.trans entry'
  rw [rest n rfl, ← parent', parent]

/-- Two linked indexes with a common entry agree below it. -/
theorem agree {index' : ℕ → Option κ} {top' : ℕ} (linked : Linked link index top) (linked' : Linked link index' top')
    (height : n ≤ top) (height' : n ≤ top') (common : index n = index' n) : ∀ m ≤ n, index m = index' m := by
  induction n with
  | zero =>
    rintro _ ⟨⟩
    exact common
  | succ n ih =>
    obtain ⟨k, p, entry, parent, below⟩ := linked (n + 1) height
    have under := linked'.below height' (common ▸ entry) parent
    intro m bound
    rcases bound.eq_or_lt with rfl | lower
    · exact common
    · exact ih (by omega) (by omega) ((below n rfl).trans under.symm) m (by omega)

theorem insert (linked : Linked link index top) (height : n ≤ top + 1) (node : link n k = some p)
    (parent : ∀ m, n = m + 1 → index m = some p) : Linked link (update index n (some k)) n := by
  intro m bound
  rcases bound.eq_or_lt with rfl | under
  · refine ⟨k, p, update_self .., node, fun m' next => ?_⟩
    rw [update_of_ne (by omega)]
    exact parent m' next
  · obtain ⟨k', p', entry, node', below⟩ := linked m (by omega)
    refine ⟨k', p', ?_, node', fun m' next => ?_⟩
    · rw [update_of_ne under.ne]
      exact entry
    · rw [update_of_ne (by omega)]
      exact below m' next

end Linked

end LinkedIndex
