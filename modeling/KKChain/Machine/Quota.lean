import Mathlib.Data.Multiset.Count
import Mathlib.Data.Multiset.AddSub

/-! # Counters per owner

A map from owners to counts in which an entry that reaches zero is deleted. `Counts` says that it counts the things that
are held, by owner.
-/

namespace Quota

open Function

variable {κ : Type} [DecidableEq κ]

/-- The count of an owner, zero if there is no entry. -/
def count (c : κ → Option ℤ) (k : κ) : ℤ := (c k).getD 0

/-- One less for an owner; an entry that reaches zero is deleted. -/
def decrement (c : κ → Option ℤ) (k : κ) : κ → Option ℤ :=
  let c := Function.update c k (some (count c k - 1))
  if count c k = 0 then Function.update c k none else c

/-- The entries are the numbers of things held, and there is none for an owner of nothing. -/
def Counts (c : κ → Option ℤ) (owners : Multiset κ) : Prop :=
  ∀ k, c k = if owners.count k = 0 then none else some (owners.count k : ℤ)

variable {c : κ → Option ℤ} {k : κ} {owners : Multiset κ}

theorem counts_empty : Counts (fun _ : κ => none) 0 := fun k => by simp

namespace Counts

theorem count_eq (counts : Counts c owners) (k : κ) : count c k = owners.count k := by
  rw [count, counts k]
  split_ifs with zero
  · rw [zero, Option.getD_none]
    rfl
  · rfl

/-- One more is held. -/
theorem increment (counts : Counts c owners) (k : κ) :
    Counts (update c k (some (count c k + 1))) (k ::ₘ owners) := by
  intro k'
  rw [counts.count_eq k, Multiset.count_cons, update_apply]
  by_cases same : k' = k
  · rw [if_pos same, if_pos same, same, if_neg (Nat.succ_ne_zero _), Int.natCast_succ]
  · rw [if_neg same, if_neg same, counts k', Nat.add_zero]

/-- One less is held. -/
theorem decrement (counts : Counts c (k ::ₘ owners)) : Counts (Quota.decrement c k) owners := by
  have before : count c k - 1 = owners.count k := by
    rw [counts.count_eq k, Multiset.count_cons_self]
    omega
  have after : count (update c k (some (count c k - 1))) k = owners.count k := by
    rw [count, update_self, before]
    rfl
  intro k'
  have others : k' ≠ k → c k' = if owners.count k' = 0 then none else some (owners.count k' : ℤ) := by
    intro other
    rw [counts k', Multiset.count_cons_of_ne other]
  rw [Quota.decrement, after]
  by_cases same : k' = k
  · subst same
    by_cases zero : owners.count k' = 0
    · rw [if_pos (by omega), update_self, if_pos zero]
    · rw [if_neg (by omega), update_self, before, if_neg zero]
  · rw [← others same]
    by_cases zero : (owners.count k : ℤ) = 0
    · rw [if_pos zero, update_of_ne same, update_of_ne same]
    · rw [if_neg zero, update_of_ne same]

/-- All of a list are given back. -/
theorem decrementAll {l : List κ} (counts : Counts c ((l : Multiset κ) + owners)) :
    Counts (l.foldl Quota.decrement c) owners := by
  induction l generalizing c with
  | nil => simpa using counts
  | cons k l ih =>
    rw [List.foldl_cons]
    apply ih
    apply decrement
    rwa [← Multiset.cons_coe, Multiset.cons_add] at counts

end Counts

end Quota
