import Mathlib.Data.List.Basic

/-! # A cache that drops the least recently used entries

The entries are listed with the most recent first. A read moves its entry to the front, a write puts one there and drops
what is over the limit. What holds of all entries is kept by reads, and by writes of entries it holds of.
-/

/-- A cache with room for `limit` entries. -/
structure Lru (κ α : Type) where
  limit : ℕ
  entries : List (κ × α)

namespace Lru

open List

variable {κ α : Type} [DecidableEq κ] (c : Lru κ α)

def empty (limit : ℕ) : Lru κ α := ⟨limit, []⟩

/-- The entry of a key, and the cache with it in front. -/
def get (k : κ) : Option α × Lru κ α :=
  match c.entries.find? (·.1 = k) with
  | none => (none, c)
  | some e => (some e.2, { c with entries := e :: c.entries.filter (·.1 ≠ k) })

def add (k : κ) (a : α) : Lru κ α :=
  { c with entries := ((k, a) :: c.entries.filter (·.1 ≠ k)).take c.limit }

def contains (k : κ) : Bool := (c.entries.find? (·.1 = k)).isSome

/-- Reads through the cache: what it does not hold is loaded, and entered under the key it comes with. -/
def fetch (k : κ) (load : Option (κ × α)) : Option α × Lru κ α :=
  match c.get k with
  | (some a, c) => (some a, c)
  | (none, c) =>
    match load with
    | none => (none, c)
    | some (k', a) => (some a, c.add k' a)

def purge : Lru κ α := { c with entries := [] }

def All (P : κ → α → Prop) : Prop := ∀ e ∈ c.entries, P e.1 e.2

variable {c} {P : κ → α → Prop} {k : κ} {a : α} {c' : Lru κ α}

omit [DecidableEq κ] in
theorem all_empty (limit : ℕ) : (empty limit : Lru κ α).All P := by simp [All, empty]

omit [DecidableEq κ] in
theorem all_purge : c.purge.All P := by simp [All, purge]

theorem All.add (all : c.All P) (new : P k a) : (c.add k a).All P := by
  intro e mem
  rcases mem_cons.mp (mem_of_mem_take mem) with rfl | mem
  · exact new
  · exact all e (mem_of_mem_filter mem)

/-- A read that finds nothing leaves the cache, and one that finds something gives what the property holds of. -/
theorem All.get {found : Option α} (all : c.All P) (read : c.get k = (found, c')) :
    c'.All P ∧ ∀ a ∈ found, P k a := by
  unfold Lru.get at read
  cases search : c.entries.find? (·.1 = k) with
  | none =>
    rw [search] at read
    cases read
    exact ⟨all, nofun⟩
  | some e =>
    rw [search] at read
    cases read
    have mem := mem_of_find?_eq_some search
    have isKey := find?_some search
    rw [decide_eq_true_eq] at isKey
    refine ⟨?_, fun a isValue => ?_⟩
    · intro e' member'
      rcases mem_cons.mp member' with rfl | member'
      · exact all _ mem
      · exact all e' (mem_of_mem_filter member')
    · rw [← isKey, ← Option.some.inj isValue]
      exact all e mem

/-- A read through the cache enters at most what it loads. -/
theorem All.fetch {load : Option (κ × α)} (all : c.All P) (loads : ∀ e ∈ load, P e.1 e.2) :
    (c.fetch k load).2.All P := by
  unfold Lru.fetch
  rcases cached : c.get k with ⟨_ | a, c₁⟩
  · rcases load with _ | ⟨k', a⟩
    · exact (all.get cached).1
    · exact (all.get cached).1.add (loads _ rfl)
  · exact (all.get cached).1

/-- A read of something that can be loaded finds an entry or what is loaded. -/
theorem All.fetch_some {k' : κ} (all : c.All P) (loads : P k' a) :
    ∃ b c', c.fetch k (some (k', a)) = (some b, c') ∧ c'.All P ∧ (P k b ∨ b = a) := by
  unfold Lru.fetch
  rcases cached : c.get k with ⟨_ | b, c₁⟩
  · exact ⟨a, c₁.add k' a, rfl, (all.get cached).1.add loads, .inr rfl⟩
  · exact ⟨b, c₁, rfl, (all.get cached).1, .inl ((all.get cached).2 b rfl)⟩

/-- A key that no entry has is read as it is loaded. -/
theorem All.fetch_of_not {K : Set κ} (all : c.All fun k _ => k ∈ K) (absent : k ∉ K) (load : Option (κ × α)) :
    (c.fetch k load).1 = load.map Prod.snd := by
  unfold Lru.fetch
  rcases cached : c.get k with ⟨_ | a, c₁⟩
  · rcases load with _ | ⟨k', a⟩ <;> rfl
  · exact absurd ((all.get cached).2 a rfl) absent

@[simp] theorem fetch_purge (load : Option (κ × α)) :
    c.purge.fetch k load = (load.map Prod.snd, (load.map fun e => c.purge.add e.1 e.2).getD c.purge) := by
  rcases load with _ | ⟨k', a⟩ <;> rfl

/-- Entries that are what would be loaded are not seen by a read. -/
theorem All.fetch_eq {read : κ → Option α} (all : c.All fun k a => read k = some a) (k : κ) :
    (c.fetch k ((read k).map (k, ·))).1 = read k := by
  unfold Lru.fetch
  rcases cached : c.get k with ⟨_ | a, c₁⟩
  · rcases read k with _ | a <;> rfl
  · exact ((all.get cached).2 a rfl).symm

theorem All.contains (all : c.All P) (cached : c.contains k = true) : ∃ a, P k a := by
  obtain ⟨e, search⟩ := Option.isSome_iff_exists.mp cached
  have isKey := find?_some search
  rw [decide_eq_true_eq] at isKey
  exact ⟨e.2, isKey ▸ all e (mem_of_find?_eq_some search)⟩

end Lru
