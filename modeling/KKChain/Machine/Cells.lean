import Mathlib.Data.List.Perm.Subperm
import Mathlib.Logic.Function.Basic

/-! # Cells

Cells are allocated one after the other and may be written to. Pointers that are owned are allocated and different from
each other, so that writing through one of them does not change what the others point to.
-/

/-- Cells with values. Those from `next` on are free. -/
structure Cells (α : Type*) where
  next : ℕ
  get : ℕ → α

namespace Cells

variable {α : Type*} (c : Cells α) {p q : ℕ} {v : α} {ps qs : List ℕ}

def set (p : ℕ) (v : α) : Cells α := { c with get := Function.update c.get p v }

/-- The next cell is allocated. -/
def extend (v : α) : Cells α := ⟨c.next + 1, Function.update c.get c.next v⟩

@[simp] theorem get_set_self : (c.set p v).get p = v := Function.update_self ..

@[simp] theorem get_extend_self : (c.extend v).get c.next = v := Function.update_self ..

variable {c}

theorem get_set_of_ne (other : q ≠ p) : (c.set p v).get q = c.get q := Function.update_of_ne other ..

theorem get_extend_of_lt (allocated : q < c.next) : (c.extend v).get q = c.get q :=
  Function.update_of_ne (Nat.ne_of_lt allocated) ..

theorem map_get_set (other : p ∉ ps) : ps.map (c.set p v).get = ps.map c.get :=
  List.map_congr_left fun _ mem => get_set_of_ne fun same => other (same ▸ mem)

theorem map_get_extend (allocated : ∀ q ∈ ps, q < c.next) : ps.map (c.extend v).get = ps.map c.get :=
  List.map_congr_left fun q mem => get_extend_of_lt (allocated q mem)

/-- The pointers are allocated and different. -/
structure Owned (c : Cells α) (ps : List ℕ) : Prop where
  nodup : ps.Nodup
  allocated : ∀ p ∈ ps, p < c.next

namespace Owned

theorem perm (owned : c.Owned ps) (same : ps.Perm qs) : c.Owned qs :=
  ⟨same.nodup_iff.mp owned.nodup, fun p mem => owned.allocated p (same.mem_iff.mpr mem)⟩

theorem sublist (owned : c.Owned ps) (fewer : qs.Sublist ps) : c.Owned qs :=
  ⟨owned.nodup.sublist fewer, fun p mem => owned.allocated p (fewer.subset mem)⟩

theorem set (owned : c.Owned ps) : (c.set p v).Owned ps := ⟨owned.nodup, owned.allocated⟩

theorem extend (owned : c.Owned ps) : (c.extend v).Owned (c.next :: ps) where
  nodup := List.nodup_cons.mpr ⟨fun mem => absurd (owned.allocated _ mem) (Nat.lt_irrefl _), owned.nodup⟩
  allocated := List.forall_mem_cons.mpr ⟨Nat.lt_succ_self _, fun p mem => Nat.lt_succ_of_lt (owned.allocated p mem)⟩

theorem notMem (owned : c.Owned (p :: ps)) : p ∉ ps := (List.nodup_cons.mp owned.nodup).1

end Owned

end Cells
