import Mathlib.Data.List.MinMax
import Mathlib.Data.List.Perm.Subperm
import Mathlib.Order.Basic

/-! # The nearest entries of a list

A search that sorts only a part of the entries finds the `n` nearest ones exactly if each entry outside of that part has
`n` entries before it.
-/

namespace List

variable {α : Type} {d : α → ℕ} {n : ℕ} {stored seen unseen sorted : List α}

/-- The `n` entries with the smallest `d`, or all of them if there are fewer, in ascending order. -/
structure Nearest (d : α → ℕ) (n : ℕ) (stored result : List α) : Prop where
  subperm : result <+~ stored
  length : result.length = min n stored.length
  ascending : result.Pairwise (d · < d ·)
  nearest : ∀ p ∈ stored, p ∉ result → ∀ q ∈ result, d q < d p

/-- Before an entry among the first `n` of a sorted list there are fewer than `n`. -/
theorem countP_lt_of_mem_take (ascending : sorted.Pairwise (d · < d ·)) {q : α} (mem : q ∈ sorted.take n) :
    sorted.countP (d · < d q) < n := by
  have split : (sorted.take n ++ sorted.drop n).Pairwise (d · < d ·) := by rwa [take_append_drop]
  have later : (sorted.drop n).countP (d · < d q) = 0 := by
    rw [countP_eq_zero]
    intro p after
    have := (pairwise_append.mp split).2.2 q mem p after
    simp only [decide_eq_true_eq]
    omega
  have sooner : (sorted.take n).countP (d · < d q) < (sorted.take n).length := by
    refine lt_of_le_of_ne countP_le_length fun all => ?_
    simpa using countP_eq_length.mp all q mem
  have whole : (sorted.take n ++ sorted.drop n).countP (d · < d q) = _ := countP_append
  rw [take_append_drop] at whole
  have := length_take_le n sorted
  omega

/-- The first `n` of the entries seen, sorted, are the nearest of all of them exactly if no entry that was not seen is
among the nearest. -/
theorem nearest_take_iff (split : stored ~ seen ++ unseen) (apart : (stored.map d).Nodup) (perm : sorted ~ seen)
    (ascending : sorted.Pairwise (d · < d ·)) :
    Nearest d n stored (sorted.take n) ↔ ∀ u ∈ unseen, n ≤ stored.countP (d · < d u) := by
  have disjoint : ∀ u ∈ unseen, u ∉ sorted.take n := by
    intro u mem found
    have nodup : ((seen ++ unseen).map d).Nodup := (split.map d).nodup_iff.mp apart
    rw [map_append] at nodup
    exact (nodup_append.mp nodup).2.2 (d u) (mem_map_of_mem (perm.mem_iff.mp (mem_of_mem_take found))) (d u)
      (mem_map_of_mem mem) rfl
  constructor
  · intro found u mem
    have inside : u ∈ stored := split.mem_iff.mpr (mem_append_right _ mem)
    have outside := disjoint u mem
    have all : (sorted.take n).countP (d · < d u) = (sorted.take n).length := by
      rw [countP_eq_length]
      intro q near
      simpa using found.nearest u inside outside q near
    have few : (sorted.take n).length ≠ stored.length := fun same =>
      outside ((found.subperm.perm_of_length_le same.ge).mem_iff.mpr inside)
    have := found.subperm.countP_le (fun x => decide (d x < d u))
    have := found.length
    omega
  · intro enough
    -- what is not seen comes after everything that is taken
    have beyond : ∀ p ∈ unseen, n ≤ seen.length ∧ ∀ q ∈ sorted.take n, d q < d p := by
      intro p mem
      obtain ⟨u, nearest⟩ : ∃ u, u ∈ argmin d unseen := by
        cases none : argmin d unseen with
        | none => simp [argmin_eq_none.mp none] at mem
        | some u => exact ⟨u, rfl⟩
      have first := le_of_mem_argmin mem nearest
      have others : unseen.countP (d · < d u) = 0 := by
        rw [countP_eq_zero]
        intro x other
        simpa using le_of_mem_argmin other nearest
      have count := enough u (argmin_mem nearest)
      rw [split.countP_eq, countP_append, others, Nat.add_zero] at count
      refine ⟨count.trans countP_le_length, fun q taken => lt_of_not_ge fun ge => ?_⟩
      have before := countP_lt_of_mem_take ascending taken
      rw [perm.countP_eq] at before
      have mono : seen.countP (d · < d u) ≤ seen.countP (d · < d q) := by
        apply countP_mono_left
        intro x _ less
        simp only [decide_eq_true_eq] at less ⊢
        omega
      omega
    have lengths := split.length_eq
    rw [length_append] at lengths
    refine ⟨((take_sublist n sorted).subperm.trans perm.subperm).trans ?_, ?_,
      ascending.sublist (take_sublist n sorted), ?_⟩
    · exact (sublist_append_left seen unseen).subperm.trans split.symm.subperm
    · rw [length_take, perm.length_eq]
      rcases unseen.eq_nil_or_concat with rfl | ⟨init, u, rfl⟩
      · simp only [length_nil] at lengths
        omega
      · have := (beyond u (by simp)).1
        omega
    · intro p inside outside q taken
      rcases mem_append.mp (split.mem_iff.mp inside) with mem | mem
      · have whole : (sorted.take n ++ sorted.drop n).Pairwise (d · < d ·) := by rwa [take_append_drop]
        have rest : p ∈ sorted.take n ++ sorted.drop n := by
          rw [take_append_drop]
          exact perm.mem_iff.mpr mem
        exact (pairwise_append.mp whole).2.2 q taken p ((mem_append.mp rest).resolve_left outside)
      · exact (beyond p mem).2 q taken

end List
