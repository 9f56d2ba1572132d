import KKChain.Trie.Hash
import KKChain.Types.Transaction

/-! # The root of a list

`DeriveSha` puts the encoding of every element under the encoding of its index into a fresh trie and
takes the root hash. `GetRlp` drops encoding errors, and updating a trie with an empty value deletes
the key: an element that does not encode leaves no trace. `deriveSha_inj` says what the root
determines, namely the elements that do encode, each at its index.
-/

namespace KKChain

open Rlp Trie Option

/-- `TryUpdate` of a trie of byte strings: an empty value deletes. -/
def Trie.update (t : Trie Bytes) (key value : Bytes) : Trie Bytes :=
  if value.length ≠ 0 then t.insert key value else t.delete key

/-- What a trie holds after an update with `value`. -/
def entry (value : Bytes) : Option Bytes := if value = [] then none else some value

theorem Trie.get_update (t : Trie Bytes) (key value key' : Bytes) :
    (t.update key value).get key' = if key' = key then entry value else t.get key' := by
  unfold Trie.update entry
  by_cases empty : value = []
  · simp [empty, get_delete]
  · simp [empty, get_insert]

/-- The loop of `DeriveSha` from index `i` on. -/
def deriveTrie : ℕ → List Value → Trie Bytes → Option (Trie Bytes)
  | _, [], t => some t
  | i, v :: vs, t => do
    let key ← encodeUnchecked (.uint (UInt64.ofNat i))
    let value ← encodeUnchecked v
    deriveTrie (i + 1) vs (t.update key value)

/-- `DeriveSha`. There is no slice of more than `maxAlloc` elements. -/
def deriveSha (C : Crypto) (vs : List Value) : Option Hash :=
  if vs.length ≤ maxAlloc then (deriveTrie 0 vs .empty).map (hash C id) else none

def indexKey (i : ℕ) : Bytes := (Item.str (BigEndian.minimal i)).encode

variable {i : ℕ}

theorem length_indexKey_le (bound : i < 2 ^ 64) : (indexKey i).length ≤ 17 := by
  have digits := BigEndian.minimal_length_le_iff.mpr (bound.trans_le (by norm_num : 2 ^ 64 ≤ 256 ^ 8))
  have := Item.length_encode_str_le (BigEndian.minimal i)
  unfold indexKey
  omega

theorem encode_index (bound : i < 2 ^ 64) : encodeUnchecked (.uint (UInt64.ofNat i)) = some (indexKey i) := by
  have value : (UInt64.ofNat i).toNat = i := UInt64.toNat_ofNat_of_lt bound
  have fits : (indexKey i).length ≤ maxAlloc := (length_indexKey_le bound).trans (by simp [maxAlloc])
  simp only [encodeUnchecked, encodeToBytes_eq, Value.item_uint, value]
  simp only [indexKey] at fits
  simp [fits, indexKey]

theorem indexKey_inj {j : ℕ} (left : i < 2 ^ 64) (right : j < 2 ^ 64) (same : indexKey i = indexKey j) : i = j := by
  have bound : ∀ {i}, i < 2 ^ 64 → (indexKey i).length < 2 ^ 64 := fun small =>
    (length_indexKey_le small).trans_lt (by norm_num)
  have item := Item.encode_inj (bound left) (bound right) same
  exact BigEndian.minimal_injective (Item.str.inj item)

theorem length_encodeUnchecked {v : Value} {enc : Bytes} (encoded : encodeUnchecked v = some enc) :
    enc.length ≤ maxAlloc := by
  rw [encodeUnchecked, encodeToBytes_eq] at encoded
  cases shape : v.item with
  | error e =>
    obtain rfl : [] = enc := by simpa [shape] using encoded
    simp
  | ok item =>
    simp only [shape] at encoded
    split_ifs at encoded with fits
    · obtain rfl : item.encode = enc := by simpa using encoded
      exact fits
    · simp at encoded

/-- The element at an index as the trie shows it. -/
def shown (vs : List Value) (i : ℕ) : Option Bytes := (vs[i]?.bind encodeUnchecked).bind entry

variable {vs : List Value} {t : Trie Bytes}

/-- What the loop leaves in the trie: the elements from `i` on, each at its index. -/
theorem deriveTrie_get {t' : Trie Bytes} (bound : i + vs.length ≤ 2 ^ 64) (ran : deriveTrie i vs t = some t')
    (key : Bytes) :
    (∃ j, j < vs.length ∧ key = indexKey (i + j) ∧ t'.get key = shown vs j) ∨
      (∀ j, j < vs.length → key ≠ indexKey (i + j)) ∧ t'.get key = t.get key := by
  induction vs generalizing i t with
  | nil =>
    obtain rfl : t = t' := by simpa [deriveTrie] using ran
    exact .inr ⟨by simp, rfl⟩
  | cons v vs ih =>
    simp only [List.length_cons] at bound
    rw [deriveTrie, encode_index (by omega), bind_eq_bind, bind_some] at ran
    obtain ⟨enc, encoded, rest⟩ := bind_eq_some_iff.mp ran
    rcases ih (i := i + 1) (by omega) rest with ⟨j, inside, same, found⟩ | ⟨outside, found⟩
    · exact .inl ⟨j + 1, by simpa using inside, by rw [same]; congr 1; omega, by simpa [shown] using found⟩
    · by_cases here : key = indexKey i
      · refine .inl ⟨0, by simp, by simpa using here, ?_⟩
        rw [found, Trie.get_update, if_pos here]
        simp [shown, encoded]
      · refine .inr ⟨fun j inside => ?_, by rw [found, Trie.get_update, if_neg here]⟩
        obtain - | j := j
        · simpa using here
        · have := outside j (by simpa using inside)
          rwa [show i + (j + 1) = i + 1 + j by omega]

/-- The trie of `DeriveSha` finds the shown elements at their indices. -/
theorem deriveTrie_get_index (bound : vs.length ≤ maxAlloc) (ran : deriveTrie 0 vs .empty = some t)
    (small : i < 2 ^ 64) :
    t.get (indexKey i) = shown vs i := by
  have fits : 0 + vs.length ≤ 2 ^ 64 := by simp only [maxAlloc] at bound; omega
  rcases deriveTrie_get fits ran (indexKey i) with ⟨j, inside, same, found⟩ | ⟨outside, found⟩
  · rw [Nat.zero_add] at same
    rw [found, indexKey_inj small (by omega) same]
  · have beyond : vs.length ≤ i := not_lt.mp fun inside => outside i inside (by rw [Nat.zero_add])
    rw [found, shown, List.getElem?_eq_none beyond]
    rfl

theorem shown_ne_nil {b : Bytes} (held : shown vs i = some b) : b ≠ [] ∧ b.length ≤ maxAlloc := by
  obtain ⟨enc, element, shows⟩ := bind_eq_some_iff.mp held
  obtain ⟨v, -, encoded⟩ := bind_eq_some_iff.mp element
  unfold entry at shows
  split_ifs at shows with empty
  cases shows
  exact ⟨empty, length_encodeUnchecked encoded⟩

theorem deriveTrie_stores (bound : vs.length ≤ maxAlloc) (ran : deriveTrie 0 vs .empty = some t) : Stores id t := by
  intro key b held
  have fits : 0 + vs.length ≤ 2 ^ 64 := by simp only [maxAlloc] at bound; omega
  rcases deriveTrie_get fits ran key with ⟨j, inside, rfl, found⟩ | ⟨-, found⟩
  · obtain ⟨nonempty, length⟩ := shown_ne_nil (found.symm.trans held)
    have := length_indexKey_le (by omega : 0 + j < 2 ^ 64)
    exact ⟨nonempty, length, by simp only [maxAlloc]; omega⟩
  · cases found.symm.trans held

/-- The encodings whose hashes make up the roots of two lists. -/
def rootInputs (C : Crypto) (vs vs' : List Value) : Set Bytes :=
  {b | ∃ t, (deriveTrie 0 vs .empty = some t ∨ deriveTrie 0 vs' .empty = some t) ∧ b ∈ t.encodings C id}

/-- Two lists have the same root exactly if they show the same at every index. -/
theorem deriveSha_eq_iff {C : Crypto} {vs' : List Value} {root root' : Hash}
    (inj : Set.InjOn C.keccak (rootInputs C vs vs')) (first : deriveSha C vs = some root)
    (second : deriveSha C vs' = some root') : root = root' ↔ ∀ i, shown vs i = shown vs' i := by
  unfold deriveSha at first second
  split_ifs at first second with bound bound'
  obtain ⟨t, ran, rfl⟩ := map_eq_some_iff.mp first
  obtain ⟨t', ran', rfl⟩ := map_eq_some_iff.mp second
  have beyond : ∀ {vs : List Value} {i : ℕ}, vs.length ≤ maxAlloc → ¬ i < 2 ^ 64 → shown vs i = none := by
    intro vs i bound large
    rw [shown, List.getElem?_eq_none (by simp only [maxAlloc] at bound; omega)]
    rfl
  constructor
  · intro same i
    by_cases small : i < 2 ^ 64
    · have within : t.encodings C id ∪ t'.encodings C id ⊆ rootInputs C vs vs' := by
        rintro b (mem | mem)
        · exact ⟨t, .inl ran, mem⟩
        · exact ⟨t', .inr ran', mem⟩
      have tries := hash_inj Function.injective_id (deriveTrie_stores bound ran)
        (deriveTrie_stores bound' ran') (inj.mono within) same
      rw [← deriveTrie_get_index bound ran small, tries, deriveTrie_get_index bound' ran' small]
    · rw [beyond bound small, beyond bound' small]
  · intro same
    have fits : 0 + vs.length ≤ 2 ^ 64 := by simp only [maxAlloc] at bound; omega
    have fits' : 0 + vs'.length ≤ 2 ^ 64 := by simp only [maxAlloc] at bound'; omega
    suffices tries : t = t' by rw [tries]
    apply ext_get
    intro key
    rcases deriveTrie_get fits ran key with ⟨j, inside, rfl, found⟩ | ⟨outside, found⟩
    · rw [Nat.zero_add] at found ⊢
      rw [found, deriveTrie_get_index bound' ran' (by omega), same]
    · rcases deriveTrie_get fits' ran' key with ⟨j, inside, rfl, found'⟩ | ⟨-, found'⟩
      · rw [Nat.zero_add] at found' ⊢
        rw [found', deriveTrie_get_index bound ran (by omega), same]
      · rw [found, found']

end KKChain
