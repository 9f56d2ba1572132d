import Mathlib.Data.Nat.Basic

/-! # Undo logs

A state keeps a log of its changes, and `undo` takes back the latest one. What an observer sees is a view of the state
that determines how an entry is taken back, so that states with one view stay together while they are undone.
`Restores s t` says that undoing `t` down to the length of the log of `s` gives a state that looks like `s`. The
relation composes, and it outlasts undoing a part of the log.
-/

/-- A log of changes with the operation that takes back the latest of them. -/
structure UndoLog (σ ν : Type) where
  length : σ → ℕ
  undo : σ → Option σ
  view : σ → ν
  /-- What holds of every state in use. -/
  Inv : σ → Prop
  length_undo : ∀ {s t}, Inv s → undo s = some t → length t + 1 = length s
  inv_undo : ∀ {s t}, Inv s → undo s = some t → Inv t
  length_view : ∀ {s t}, view s = view t → length s = length t
  /-- States that look alike are undone alike. -/
  undo_view : ∀ {s t}, Inv s → Inv t → view s = view t → (undo s).map view = (undo t).map view

namespace UndoLog

open Option

/-- Takes back a number of changes. -/
def undoN {σ : Type} (undo : σ → Option σ) : ℕ → σ → Option σ
  | 0, s => some s
  | k + 1, s => (undo s).bind (undoN undo k)

variable {σ ν : Type} (L : UndoLog σ ν)

/-- Takes back the changes above a length of the log. -/
def undoTo (n : ℕ) (s : σ) : Option σ := undoN L.undo (L.length s - n) s

/-- The second state looks like the first once its changes are taken back. -/
def Restores (s t : σ) : Prop := ∃ u, L.undoTo (L.length s) t = some u ∧ L.Inv u ∧ L.view u = L.view s

variable {L} {s t u : σ} {m n k : ℕ}

theorem undoN_add (undo : σ → Option σ) (j k : ℕ) (s : σ) :
    undoN undo (j + k) s = (undoN undo j s).bind (undoN undo k) := by
  induction j generalizing s with
  | zero => simp [undoN]
  | succ j ih =>
    rw [Nat.succ_add, undoN, undoN, bind_assoc]
    exact congrArg _ (funext ih)

theorem undoN_spec (inv : L.Inv s) (bound : k ≤ L.length s) (ran : undoN L.undo k s = some t) :
    L.Inv t ∧ L.length t + k = L.length s := by
  induction k generalizing s with
  | zero =>
    cases ran
    exact ⟨inv, rfl⟩
  | succ k ih =>
    obtain ⟨s', undone, ran⟩ := bind_eq_some_iff.mp ran
    have length := L.length_undo inv undone
    obtain ⟨inv', length'⟩ := ih (L.inv_undo inv undone) (by omega) ran
    exact ⟨inv', by omega⟩

/-- What taking back one change keeps, taking back several keeps. -/
theorem undoN_keeps {P : σ → Prop} (inv : L.Inv s) (ran : undoN L.undo k s = some t)
    (step : ∀ {s t}, L.Inv s → L.undo s = some t → P s → P t) (start : P s) : P t := by
  induction k generalizing s with
  | zero => exact some.inj ran ▸ start
  | succ k ih =>
    obtain ⟨s', undone, ran⟩ := bind_eq_some_iff.mp ran
    exact ih (L.inv_undo inv undone) ran (step inv undone start)

theorem undoTo_spec (inv : L.Inv s) (bound : n ≤ L.length s) (ran : L.undoTo n s = some t) :
    L.Inv t ∧ L.length t = n := by
  obtain ⟨inv', length⟩ := undoN_spec inv (Nat.sub_le ..) ran
  exact ⟨inv', by omega⟩

/-- Undoing in two parts. -/
theorem undoTo_of_undoTo (inv : L.Inv s) (within : m ≤ n) (bound : n ≤ L.length s) (ran : L.undoTo n s = some t) :
    L.undoTo m s = L.undoTo m t := by
  obtain ⟨-, length⟩ := undoTo_spec inv bound ran
  rw [undoTo, show L.length s - m = (L.length s - n) + (n - m) by omega, undoN_add,
    show undoN L.undo _ s = some t from ran, undoTo, length]
  rfl

theorem undoN_view (invS : L.Inv s) (invT : L.Inv t) (same : L.view s = L.view t) :
    (undoN L.undo k s).map L.view = (undoN L.undo k t).map L.view := by
  induction k generalizing s t with
  | zero => exact congrArg some same
  | succ k ih =>
    have next := L.undo_view invS invT same
    cases undoneS : L.undo s with
    | none =>
      rw [undoneS] at next
      rw [undoN, undoneS, undoN, map_eq_none_iff.mp next.symm]
    | some s' =>
      rw [undoneS] at next
      obtain ⟨t', undoneT, same'⟩ := map_eq_some_iff.mp next.symm
      rw [undoN, undoneS, undoN, undoneT]
      exact ih (L.inv_undo invS undoneS) (L.inv_undo invT undoneT) same'.symm

theorem Restores.refl (inv : L.Inv s) : L.Restores s s :=
  ⟨s, by rw [undoTo, Nat.sub_self]; rfl, inv, rfl⟩

/-- A state that looks like another restores it. -/
theorem Restores.of_view (inv : L.Inv t) (same : L.view t = L.view s) : L.Restores s t :=
  ⟨t, by rw [undoTo, L.length_view same, Nat.sub_self]; rfl, inv, same⟩

/-- One more entry, which takes the state back. -/
theorem Restores.of_undo (length : L.length t = L.length s + 1) (undone : L.undo t = some u) (inv : L.Inv u)
    (same : L.view u = L.view s) : L.Restores s t :=
  ⟨u, by rw [undoTo, length, Nat.add_sub_cancel_left, undoN, undone]; rfl, inv, same⟩

theorem Restores.trans (first : L.Restores s t) (second : L.Restores t u) (invT : L.Inv t) (invU : L.Inv u)
    (lower : L.length s ≤ L.length t) (upper : L.length t ≤ L.length u) : L.Restores s u := by
  obtain ⟨t', undone, inv', same⟩ := second
  obtain ⟨s', undone', -, same'⟩ := first
  obtain ⟨-, length⟩ := undoTo_spec invU upper undone
  have parts := undoN_view (k := L.length t - L.length s) inv' invT same
  rw [show undoN L.undo _ t = some s' from undone'] at parts
  obtain ⟨u', ran, sameView⟩ := map_eq_some_iff.mp parts
  refine ⟨u', ?_, (undoN_spec inv' (by omega) ran).1, sameView.trans same'⟩
  rw [undoTo_of_undoTo invU lower upper undone, undoTo, length]
  exact ran

/-- Taking back a later part of the log leaves the rest to be taken back. -/
theorem Restores.of_undoTo (restores : L.Restores s t) (inv : L.Inv t) (lower : L.length s ≤ n) (upper : n ≤ L.length t)
    (undone : L.undoTo n t = some u) : L.Restores s u := by
  obtain ⟨s', undone', looks⟩ := restores
  exact ⟨s', by rw [← undoTo_of_undoTo inv lower upper undone]; exact undone', looks⟩

end UndoLog
