import KKChain.Trie.Map

/-! # Tries under hashed keys

A `SecureTrie` stores everything under the hash of its key. Writing a list of entries gives a trie that the entries
determine in any order, as long as no two of their keys are the same.
-/

namespace KKChain.Trie

variable {V : Type} [DecidableEq V] {es : List (Bytes × Option V)} {key : Bytes}

/-- `TryUpdate` with a value, `TryDelete` without. -/
def put (t : Trie V) (key : Bytes) : Option V → Trie V
  | some v => t.insert key v
  | none => t.delete key

theorem get_put (t : Trie V) (key key' : Bytes) (v : Option V) :
    (t.put key v).get key' = if key' = key then v else t.get key' := by
  cases v with
  | some v => exact get_insert t key key' v
  | none => exact get_delete t key key'

@[simp] theorem get_put_self (t : Trie V) (key : Bytes) (v : Option V) : (t.put key v).get key = v := by
  rw [get_put, if_pos rfl]

theorem put_put (t : Trie V) (key : Bytes) (v w : Option V) : (t.put key v).put key w = t.put key w := by
  refine ext_get fun key' => ?_
  simp only [get_put]
  split_ifs <;> rfl

theorem put_get (t : Trie V) (key : Bytes) : t.put key (t.get key) = t := by
  refine ext_get fun key' => ?_
  rw [get_put]
  split_ifs with same
  · rw [same]
  · rfl

/-- Entries written one after the other. -/
def putAll (t : Trie V) : List (Bytes × Option V) → Trie V
  | [] => t
  | e :: es => (t.put e.1 e.2).putAll es

theorem get_putAll_of_notMem (t : Trie V) (absent : key ∉ es.map Prod.fst) : (t.putAll es).get key = t.get key := by
  induction es generalizing t with
  | nil => rfl
  | cons e es ih =>
    rw [List.map_cons, List.mem_cons, not_or] at absent
    rw [putAll, ih _ absent.2, get_put, if_neg absent.1]

theorem get_putAll_of_mem (t : Trie V) {v : Option V}
    (distinct : (es.map Prod.fst).Nodup) (mem : (key, v) ∈ es) : (t.putAll es).get key = v := by
  induction es generalizing t with
  | nil => cases mem
  | cons e es ih =>
    obtain ⟨absent, distinct⟩ := List.nodup_cons.mp distinct
    rcases List.mem_cons.mp mem with rfl | mem
    · rw [putAll, get_putAll_of_notMem _ absent, get_put_self]
    · exact ih _ distinct mem

end KKChain.Trie
