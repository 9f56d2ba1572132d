import KKChain.Machine.Heap
import KKChain.ToMathlib.AList
import Mathlib.Data.List.Sort
import Mathlib.Data.List.TakeWhile

/-! # The sorted map of nonces

`txSortedMap` keeps the transactions of an account three times: in a map from nonce to transaction, with a heap of the
nonces as index, and in a cache of the contents in nonce order. The index and the cache cannot disagree with the map.
Each operation is described by what it does to `contents`, the transactions in nonce order.
-/

namespace KKChain

/-- What is read of a transaction, as the accessors of `Transaction` give it. -/
class TxData (τ : Type) where
  nonce : τ → ℕ
  gasPrice : τ → ℤ
  gasLimit : τ → ℕ
  cost : τ → ℤ

open TxData List

variable {τ : Type} [TxData τ]

/-- In strictly increasing order of nonces. -/
def ByNonce (l : List τ) : Prop := l.Pairwise fun a b => nonce a < nonce b

namespace ByNonce

variable {l l' : List τ}

theorem nodup (sorted : ByNonce l) : l.Nodup := sorted.imp fun less same => absurd (congrArg nonce same) less.ne

theorem eq_of_nonce_eq (sorted : ByNonce l) {a b : τ} (first : a ∈ l) (second : b ∈ l)
    (same : nonce a = nonce b) : a = b := by
  have nodup : (l.map nonce).Nodup := pairwise_map.mpr (sorted.imp fun less => less.ne)
  exact inj_on_of_nodup_map nodup first second same

/-- Strictly sorted lists are told apart by their members. -/
theorem ext (first : ByNonce l) (second : ByNonce l') (same : ∀ tx, tx ∈ l ↔ tx ∈ l') : l = l' := by
  have perm := (perm_ext_iff_of_nodup first.nodup second.nodup).mpr same
  exact perm.eq_of_pairwise (fun a b _ _ less less' => absurd less (lt_asymm less')) first second

theorem sublist (sorted : ByNonce l) (sub : l'.Sublist l) : ByNonce l' := Pairwise.sublist sub sorted

end ByNonce

/-- The map and the heap of its nonces. -/
structure NonceTable (τ : Type) [TxData τ] where
  items : AList fun _ : ℕ => τ
  index : Heap (id : ℕ → ℕ)
  own : ∀ n tx, items.lookup n = some tx → nonce tx = n
  indexed : index.entries.Perm items.keys

namespace NonceTable

variable (m : NonceTable τ) {n : ℕ} {tx : τ}

/-- The transactions in nonce order. -/
def contents : List τ := m.items.values.insertionSort fun a b => nonce a ≤ nonce b

def empty : NonceTable τ := ⟨∅, .empty, fun n tx found => by simp at found, .refl _⟩

/-- `Put`, but for the cache. -/
def put (tx : τ) : NonceTable τ where
  items := m.items.insert (nonce tx) tx
  index := if (m.items.lookup (nonce tx)).isSome then m.index else m.index.push (nonce tx)
  own n tx' found := by
    rw [AList.lookup_insert_eq_ite] at found
    split_ifs at found with same
    · exact Option.some.inj found ▸ same.symm
    · exact m.own n tx' found
  indexed := by
    rw [AList.keys_insert]
    split_ifs with known
    · exact m.indexed.trans (List.perm_cons_erase (AList.lookup_isSome.mp known))
    · rw [List.erase_of_not_mem fun member => known (AList.lookup_isSome.mpr member)]
      exact (m.index.entries_push _).trans (m.indexed.cons _)

/-- The map without a nonce that is taken from the index. -/
def without (n : ℕ) (index : Heap (id : ℕ → ℕ)) (taken : m.index.entries.Perm (n :: index.entries)) : NonceTable τ where
  items := m.items.erase n
  index
  own n' tx found := by
    rw [AList.lookup_erase_eq_ite] at found
    split_ifs at found with other
    exact m.own n' tx found
  indexed := by
    have perm := (m.indexed.symm.trans taken).erase n
    rw [List.erase_cons_head] at perm
    rw [AList.keys_erase]
    exact perm.symm

/-- The transaction of the lowest nonce, popped from the heap and deleted from the map. -/
def pop : Option (τ × NonceTable τ) :=
  match popped : m.index.pop with
  | none => none
  | some (n, index) => (m.items.lookup n).map fun tx => (tx, m.without n index (Heap.entries_pop popped))

/-- The loop of `Forward`. -/
def forwardLoop (threshold : ℕ) : ℕ → NonceTable τ → List τ × NonceTable τ
  | 0, m => ([], m)
  | fuel + 1, m =>
    match m.pop with
    | none => ([], m)
    | some (tx, m') =>
      if nonce tx < threshold then
        let (removed, rest) := forwardLoop threshold fuel m'
        (tx :: removed, rest)
      else ([], m)

/-- The loop of `Ready`. -/
def readyLoop : ℕ → ℕ → NonceTable τ → List τ × NonceTable τ
  | 0, _, m => ([], m)
  | fuel + 1, next, m =>
    match m.pop with
    | none => ([], m)
    | some (tx, m') =>
      if nonce tx = next then
        let (ready, rest) := readyLoop fuel (next + 1) m'
        (tx :: ready, rest)
      else ([], m)

/-- The items that a test does not remove, with an index built anew. -/
def sieve (p : τ → Bool) : NonceTable τ where
  items := ⟨m.items.entries.filter fun e => !p e.2, m.items.nodupKeys.sublist List.filter_sublist⟩
  index := .init (m.items.entries.filter fun e => !p e.2).keys
  own n tx found := m.own n tx (AList.mem_lookup_iff.mpr (List.mem_of_mem_filter (AList.mem_lookup_iff.mp found)))
  indexed := Heap.entries_init _

/-- `Filter`, but for the cache. -/
def filter (p : τ → Bool) : List τ × NonceTable τ :=
  if (m.items.values.filter p).isEmpty then ([], m) else (m.items.values.filter p, m.sieve p)

/-- The part of `Cap` that drops, with the index sorted. -/
def dropFrom (threshold : ℕ) : List τ × NonceTable τ :=
  let sorted := m.index.entries.insertionSort (· ≤ ·)
  let dropped := (sorted.drop threshold).reverse
  (dropped.filterMap m.items.lookup, {
    items := m.items.eraseAll dropped
    index := .init (sorted.take threshold)
    own := fun n tx found => by
      rw [AList.lookup_eraseAll] at found
      split_ifs at found with listed
      exact m.own n tx found
    indexed := by
      refine (Heap.entries_init _).trans (AList.keys_eraseAll_perm ?_).symm
      refine m.indexed.symm.trans ((List.perm_insertionSort (· ≤ ·) m.index.entries).symm.trans ?_)
      conv_lhs => rw [← List.take_append_drop threshold (m.index.entries.insertionSort (· ≤ ·))]
      exact List.perm_append_comm.trans ((List.reverse_perm _).symm.append_right _) })

/-- `Remove`, but for the cache. -/
def remove (n : ℕ) : Option (NonceTable τ) :=
  if known : n ∈ m.items then
    some (m.without n (m.index.remove (m.index.entries.idxOf n))
      (Heap.entries_remove (List.getElem?_idxOf (m.indexed.mem_iff.mpr known))))
  else none

section Contents

variable {m} {m' : NonceTable τ}

theorem contents_perm : m.contents.Perm m.items.values := perm_insertionSort ..

theorem mem_contents : tx ∈ m.contents ↔ m.items.lookup (nonce tx) = some tx :=
  contents_perm.mem_iff.trans (AList.mem_values_iff_lookup m.own)

theorem lookup_eq_some : m.items.lookup n = some tx ↔ tx ∈ m.contents ∧ nonce tx = n := by
  rw [mem_contents]
  constructor
  · intro found
    obtain rfl := m.own n tx found
    exact ⟨found, rfl⟩
  · rintro ⟨found, rfl⟩
    exact found

theorem map_nonce_contents : (m.contents.map nonce).Perm m.items.keys := by
  rw [← AList.map_values m.own]
  exact contents_perm.map nonce

theorem contents_sorted : ByNonce m.contents := by
  have : IsTrans τ fun a b => nonce a ≤ nonce b := ⟨fun _ _ _ => le_trans⟩
  have : Std.Total fun a b : τ => nonce a ≤ nonce b := ⟨fun a b => le_total (nonce a) (nonce b)⟩
  have sorted := pairwise_insertionSort (fun a b : τ => nonce a ≤ nonce b) m.items.values
  have nodup : (m.contents.map nonce).Nodup := map_nonce_contents.nodup_iff.mpr m.items.keys_nodup
  exact (sorted.and (pairwise_map.mp nodup)).imp fun both => lt_of_le_of_ne both.1 both.2

/-- The contents are known by their members. -/
theorem contents_eq {l : List τ} (sorted : ByNonce l) (mem : ∀ tx, tx ∈ l ↔ m.items.lookup (nonce tx) = some tx) :
    m.contents = l :=
  contents_sorted.ext sorted fun tx => mem_contents.trans (mem tx).symm

theorem length_contents : m.contents.length = m.items.keys.length := by
  rw [← map_nonce_contents.length_eq, length_map]

theorem contents_without {index : Heap (id : ℕ → ℕ)} (taken : m.index.entries.Perm (n :: index.entries)) :
    (m.without n index taken).contents = m.contents.filter fun tx => nonce tx ≠ n := by
  refine contents_eq (contents_sorted.sublist filter_sublist) fun tx => ?_
  rw [mem_filter, mem_contents, without, AList.lookup_erase_eq_ite]
  split_ifs with same <;> simp [same]

theorem pop_eq_none : m.pop = none ↔ m.contents = [] := by
  unfold pop
  split
  · rename_i empty
    have keys : m.items.keys = [] := (Heap.pop_eq_none.mp empty ▸ m.indexed).nil_eq.symm
    have length := m.length_contents
    rw [keys, length_nil, length_eq_zero_iff] at length
    simp [length]
  · rename_i n index popped
    have member : n ∈ m.items := m.indexed.mem_iff.mp ((Heap.entries_pop popped).mem_iff.mpr (.head _))
    obtain ⟨tx, found⟩ := Option.isSome_iff_exists.mp (AList.lookup_isSome.mpr member)
    simp only [found, Option.map_some, reduceCtorEq, false_iff]
    exact ne_nil_of_mem (lookup_eq_some.mp found).1

/-- Popping takes the transaction of the lowest nonce. -/
theorem contents_of_pop (popped : m.pop = some (tx, m')) : m.contents = tx :: m'.contents := by
  unfold pop at popped
  split at popped
  · cases popped
  · rename_i n index lowest
    obtain ⟨tx', found, rest⟩ := Option.map_eq_some_iff.mp popped
    obtain ⟨rfl, rfl⟩ := Prod.mk.inj rest
    obtain ⟨member, rfl⟩ := lookup_eq_some.mp found
    rw [contents_without]
    have above : ∀ tx ∈ m.contents.filter fun tx => nonce tx ≠ nonce tx', nonce tx' < nonce tx := by
      intro tx kept
      obtain ⟨listed, other⟩ := mem_filter.mp kept
      have key : nonce tx ∈ m.index.entries :=
        m.indexed.mem_iff.mpr (map_nonce_contents.mem_iff.mp (mem_map_of_mem listed))
      have least : id (nonce tx') ≤ id (nonce tx) := Heap.pop_le lowest key
      exact lt_of_le_of_ne least fun same => of_decide_eq_true other same.symm
    refine contents_sorted.ext (pairwise_cons.mpr ⟨above, contents_sorted.sublist filter_sublist⟩) fun tx => ?_
    rw [mem_cons, mem_filter, decide_eq_true_eq]
    constructor
    · intro listed
      by_cases same : nonce tx = nonce tx'
      · exact .inl (contents_sorted.eq_of_nonce_eq listed member same)
      · exact .inr ⟨listed, same⟩
    · rintro (rfl | ⟨listed, -⟩)
      · exact member
      · exact listed

/-- `Forward` removes the first transactions, while their nonces are low. -/
theorem forwardLoop_spec (threshold : ℕ) {fuel : ℕ} (enough : m.contents.length ≤ fuel) :
    (forwardLoop threshold fuel m).1 = m.contents.takeWhile (nonce · < threshold) ∧
      (forwardLoop threshold fuel m).2.contents = m.contents.dropWhile (nonce · < threshold) := by
  induction fuel generalizing m with
  | zero =>
    have empty : m.contents = [] := length_eq_zero_iff.mp (Nat.le_zero.mp enough)
    simp [forwardLoop, empty]
  | succ fuel ih =>
    rw [forwardLoop]
    cases popped : m.pop with
    | none => simp [pop_eq_none.mp popped]
    | some result =>
      obtain ⟨tx, m'⟩ := result
      have shape := contents_of_pop popped
      rw [shape, length_cons] at enough
      by_cases low : nonce tx < threshold
      · simp [shape, low, ih (m := m') (by omega)]
      · simp [shape, low]

theorem sorted_index : m.index.entries.insertionSort (· ≤ ·) = m.contents.map nonce := by
  have perm : (m.index.entries.insertionSort (· ≤ ·)).Perm (m.contents.map nonce) :=
    (perm_insertionSort ..).trans (m.indexed.trans map_nonce_contents.symm)
  refine perm.eq_of_pairwise (fun _ _ _ _ => le_antisymm) (pairwise_insertionSort (· ≤ ·) _) ?_
  exact pairwise_map.mpr (contents_sorted.imp le_of_lt)

theorem dropFrom_spec (threshold : ℕ) :
    (m.dropFrom threshold).1 = (m.contents.drop threshold).reverse ∧
      (m.dropFrom threshold).2.contents = m.contents.take threshold := by
  have found : ∀ tx ∈ m.contents.drop threshold, m.items.lookup (nonce tx) = some tx :=
    fun tx member => mem_contents.mp (mem_of_mem_drop member)
  constructor
  · show ((m.index.entries.insertionSort (· ≤ ·)).drop threshold).reverse.filterMap m.items.lookup = _
    rw [sorted_index, ← map_drop, ← map_reverse, filterMap_map]
    refine (filterMap_congr fun tx member => found tx (mem_reverse.mp member)).trans ?_
    exact filterMap_some
  · refine contents_eq (contents_sorted.sublist (take_sublist ..)) fun tx => ?_
    show _ ↔
      (m.items.eraseAll ((m.index.entries.insertionSort (· ≤ ·)).drop threshold).reverse).lookup (nonce tx) = some tx
    rw [sorted_index, AList.lookup_eraseAll, ← map_drop]
    simp only [mem_reverse]
    have split := take_append_drop threshold m.contents
    have sorted : ByNonce (m.contents.take threshold ++ m.contents.drop threshold) := by
      rw [split]
      exact contents_sorted
    have apart := (pairwise_append.mp sorted).2.2
    constructor
    · intro kept
      rw [if_neg]
      · exact mem_contents.mp (mem_of_mem_take kept)
      · intro listed
        obtain ⟨other, dropped, same⟩ := mem_map.mp listed
        exact absurd same (apart tx kept other dropped).ne'
    · intro stays
      split_ifs at stays with listed
      have member := mem_contents.mpr stays
      rw [← split, mem_append] at member
      exact member.resolve_right fun dropped => listed (mem_map_of_mem dropped)

end Contents

end NonceTable

structure TxSortedMap (τ : Type) [TxData τ] extends NonceTable τ where
  cache : Option (List τ)
  cached : ∀ l ∈ cache, l = toNonceTable.contents

namespace TxSortedMap

variable (m : TxSortedMap τ)

/-- `newTxSortedMap`. -/
def new : TxSortedMap τ := ⟨.empty, none, by simp⟩

def get (n : ℕ) : Option τ := m.items.lookup n

def put (tx : τ) : TxSortedMap τ := ⟨m.toNonceTable.put tx, none, by simp⟩

def len : ℕ := m.items.keys.length

theorem length_contents : m.contents.length = m.len := NonceTable.length_contents

theorem forwardLoop_spec (threshold : ℕ) :
    (NonceTable.forwardLoop threshold m.len m.toNonceTable).1 = m.contents.takeWhile (nonce · < threshold) ∧
      (NonceTable.forwardLoop threshold m.len m.toNonceTable).2.contents = m.contents.dropWhile (nonce · < threshold) :=
  NonceTable.forwardLoop_spec threshold m.length_contents.le

/-- `Forward`. The front of the cache is cut off. -/
def forward (threshold : ℕ) : List τ × TxSortedMap τ :=
  let r := NonceTable.forwardLoop threshold m.len m.toNonceTable
  (r.1, {
    toNonceTable := r.2
    cache := m.cache.map (·.drop r.1.length)
    cached := by
      intro l member
      obtain ⟨l', present, rfl⟩ := Option.map_eq_some_iff.mp member
      obtain rfl := m.cached l' present
      obtain ⟨removed, rest⟩ := m.forwardLoop_spec threshold
      rw [removed, rest]
      nth_rewrite 2 [← List.takeWhile_append_dropWhile (p := (nonce · < threshold)) (l := m.contents)]
      exact List.drop_left })

def filter (p : τ → Bool) : List τ × TxSortedMap τ :=
  let r := m.toNonceTable.filter p
  if r.1.isEmpty then ([], m) else (r.1, ⟨r.2, none, by simp⟩)

/-- `Cap`. The back of the cache is cut off. A negative limit ends with an index out of range. -/
def cap (threshold : ℤ) : Option (List τ × TxSortedMap τ) :=
  if (m.len : ℤ) ≤ threshold then some ([], m)
  else if threshold < 0 then none
  else
    let r := m.dropFrom threshold.toNat
    some (r.1, {
      toNonceTable := r.2
      cache := m.cache.map fun l => l.take (l.length - r.1.length)
      cached := by
        intro l member
        obtain ⟨l', present, rfl⟩ := Option.map_eq_some_iff.mp member
        obtain rfl := m.cached l' present
        obtain ⟨dropped, rest⟩ := NonceTable.dropFrom_spec (m := m.toNonceTable) threshold.toNat
        rw [dropped, rest, List.length_reverse, List.length_drop]
        by_cases short : m.contents.length ≤ threshold.toNat
        · rw [List.take_of_length_le short, List.take_of_length_le (by omega)]
        · congr 1
          omega })

def remove (n : ℕ) : Option (TxSortedMap τ) := (m.toNonceTable.remove n).map fun table => ⟨table, none, by simp⟩

def ready (start : ℕ) : List τ × TxSortedMap τ :=
  match m.index.root with
  | none => ([], m)
  | some lowest =>
    if start < lowest then ([], m)
    else
      let r := NonceTable.readyLoop m.len lowest m.toNonceTable
      (r.1, ⟨r.2, none, by simp⟩)

/-- `Flatten`, with the cache that it leaves. -/
def flatten : List τ × TxSortedMap τ :=
  match m.cache with
  | some l => (l, m)
  | none => (m.contents, { m with cache := some m.contents, cached := by simp })

theorem flatten_fst : m.flatten.1 = m.contents := by
  unfold flatten
  split
  · exact m.cached _ ‹_›
  · rfl

/-- Map, index and cache act as one sorted list, of which `Forward` takes the front and `Cap` the back. -/
theorem acts_as_sorted_list (low k : ℕ) :
    ByNonce m.flatten.1 ∧ (∀ n tx, m.get n = some tx ↔ tx ∈ m.flatten.1 ∧ nonce tx = n) ∧
      (m.forward low).1 = m.flatten.1.takeWhile (nonce · < low) ∧
      (m.forward low).2.flatten.1 = m.flatten.1.dropWhile (nonce · < low) ∧
      ∃ m', m.cap k = some ((m.flatten.1.drop k).reverse, m') ∧ m'.flatten.1 = m.flatten.1.take k := by
  simp only [flatten_fst]
  obtain ⟨removed, rest⟩ := m.forwardLoop_spec low
  refine ⟨NonceTable.contents_sorted, fun _ _ => NonceTable.lookup_eq_some, removed, rest, ?_⟩
  unfold cap
  split_ifs with short negative
  · have all := m.length_contents.trans_le (Int.ofNat_le.mp short)
    rw [drop_of_length_le all, take_of_length_le all]
    exact ⟨m, rfl, rfl⟩
  · omega
  · obtain ⟨dropped, kept⟩ := NonceTable.dropFrom_spec (m := m.toNonceTable) k
    exact ⟨_, congrArg some (Prod.ext dropped rfl), kept⟩

end TxSortedMap

end KKChain
