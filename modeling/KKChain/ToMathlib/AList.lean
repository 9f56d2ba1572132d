import Mathlib.Data.List.AList

/-! # Reads of association lists after a write, by cases on the key -/

namespace AList

open List

variable {α β : Type} [DecidableEq α] {a : α} {b : β}

theorem lookup_insert_eq_ite (m : AList fun _ : α => β) (a a' : α) (b : β) :
    (m.insert a b).lookup a' = if a' = a then some b else m.lookup a' := by
  split_ifs with same
  · rw [same, lookup_insert]
  · exact lookup_insert_ne same

theorem lookup_erase_eq_ite (m : AList fun _ : α => β) (a a' : α) :
    (m.erase a).lookup a' = if a' = a then none else m.lookup a' := by
  split_ifs with same
  · rw [same, lookup_erase]
  · exact lookup_erase_ne same

theorem mem_keys_iff_exists {m : AList fun _ : α => β} : a ∈ m.keys ↔ ∃ b, m.lookup a = some b := by
  rw [← mem_keys, ← lookup_isSome, Option.isSome_iff_exists]

theorem length_keys_erase_le (m : AList fun _ : α => β) (a : α) : (m.erase a).keys.length ≤ m.keys.length := by
  rw [keys_erase]
  exact length_erase_le

theorem length_keys_insert_le (m : AList fun _ : α => β) (a : α) (b : β) :
    (m.insert a b).keys.length ≤ m.keys.length + 1 := by
  rw [keys_insert, length_cons]
  exact Nat.succ_le_succ length_erase_le

/-- What is found under a key is one entry, and erasing it leaves the others. -/
theorem entries_perm_of_lookup {m : AList fun _ : α => β} (found : m.lookup a = some b) :
    m.entries.Perm (⟨a, b⟩ :: (m.erase a).entries) := by
  have general : ∀ l : List (Sigma fun _ : α => β), l.dlookup a = some b → l.Perm (⟨a, b⟩ :: l.kerase a) := by
    intro l found
    induction l with
    | nil => cases found
    | cons e l ih =>
      obtain ⟨a', b'⟩ := e
      by_cases same : a = a'
      · subst same
        rw [dlookup_cons_eq] at found
        have erased : kerase a (⟨a, b'⟩ :: l) = l := kerase_cons_eq rfl
        rw [erased, Option.some.inj found]
      · rw [dlookup_cons_ne _ _ same] at found
        have erased : kerase a (⟨a', b'⟩ :: l) = ⟨a', b'⟩ :: kerase a l := kerase_cons_ne same
        rw [erased]
        exact (Perm.cons _ (ih found)).trans (Perm.swap ..)
  exact general _ found

theorem entries_erase_of_lookup_eq_none {m : AList fun _ : α => β} (absent : m.lookup a = none) :
    (m.erase a).entries = m.entries :=
  kerase_of_notMem_keys (lookup_eq_none.mp absent)

/-- The values, in the order of their entries. -/
def values (m : AList fun _ : α => β) : List β := m.entries.map fun e => e.2

theorem mem_values_iff {m : AList fun _ : α => β} : b ∈ m.values ↔ ∃ a, m.lookup a = some b := by
  simp only [values, mem_map, Sigma.exists, exists_eq_right]
  exact exists_congr fun a => (mem_lookup_iff (β := fun _ => β)).symm

/-- The entries without some keys. -/
def eraseAll (m : AList fun _ : α => β) (l : List α) : AList fun _ : α => β := l.foldl (fun m a => m.erase a) m

theorem lookup_eraseAll (m : AList fun _ : α => β) (l : List α) (a : α) :
    (m.eraseAll l).lookup a = if a ∈ l then none else m.lookup a := by
  induction l generalizing m with
  | nil => simp [eraseAll]
  | cons b l ih =>
    rw [eraseAll, foldl_cons]
    refine (ih (m.erase b)).trans ?_
    rw [lookup_erase_eq_ite]
    by_cases listed : a ∈ l
    · simp [listed]
    · by_cases same : a = b <;> simp [listed, same]

theorem keys_eraseAll_perm {m : AList fun _ : α => β} {l rest : List α} (all : m.keys.Perm (l ++ rest)) :
    (m.eraseAll l).keys.Perm rest := by
  induction l generalizing m with
  | nil => exact all
  | cons b l ih =>
    refine ih (m := m.erase b) ?_
    rw [keys_erase]
    have perm := all.erase b
    rwa [cons_append, erase_cons_head] at perm

section Keyed

variable {key : β → α} {m : AList fun _ : α => β}

/-- Where each value knows its key, the values are listed like the keys. -/
theorem map_values (own : ∀ a b, m.lookup a = some b → key b = a) : m.values.map key = m.keys := by
  rw [values, map_map]
  refine map_congr_left fun e mem => ?_
  exact own e.1 e.2 (mem_lookup_iff.mpr mem)

theorem mem_values_iff_lookup (own : ∀ a b, m.lookup a = some b → key b = a) :
    b ∈ m.values ↔ m.lookup (key b) = some b := by
  rw [mem_values_iff]
  constructor
  · rintro ⟨a, found⟩
    rwa [own a b found]
  · exact fun found => ⟨_, found⟩

end Keyed

/-- The keys after a list of them was inserted. -/
theorem lookup_foldl_insert_ne_none (m : AList fun _ : α => Unit) (l : List α) (a : α) :
    (l.foldl (fun m a => m.insert a ()) m).lookup a ≠ none ↔ m.lookup a ≠ none ∨ a ∈ l := by
  induction l generalizing m with
  | nil => simp
  | cons b l ih =>
    rw [foldl_cons, ih, lookup_insert_eq_ite, mem_cons]
    split_ifs with same
    · simp [same]
    · simp [same]

end AList
