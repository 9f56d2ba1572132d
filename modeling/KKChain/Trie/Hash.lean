import KKChain.Trie.Map

/-! # Trie hashing

A node is collapsed by replacing each child whose encoding has 32 bytes or more by its hash; smaller
children stay inside their parent. A freshly built trie has no cached hashes, and no database is
written. The root hash determines the trie as far as Keccak tells the encodings of its nodes apart.
-/

namespace KKChain.Trie

open Rlp Item List Set

namespace Node

variable {V : Type} (C : Crypto) (enc : V → Bytes) {n : Node V}

def isValue : Node V → Bool
  | value _ => true
  | _ => false

/-- `store` without `force`: what stands for a collapsed node in its parent. -/
def store (item : Item) : Item :=
  if item.encode.length < 32 then item else .str (C.keccak item.encode).bytes

/-- The item of a collapsed node. A missing child is written as an empty string. -/
def collapse : Node V → Item
  | nil => .str []
  | value v => .str (enc v)
  | short key val =>
    .list [.str (hexToCompact key), if val.isValue then val.collapse else store C val.collapse]
  | full children =>
    .list (List.ofFn fun i : Nibble =>
      if i = 16 then (children i).collapse else store C (children i).collapse)

/-- The encodings of the nodes of a trie, of which hashes are taken. -/
def encodings : Node V → Set Bytes
  | nil => {(collapse C enc nil).encode}
  | value _ => ∅
  | short key val => {(collapse C enc (short key val)).encode} ∪ val.encodings
  | full children => {(collapse C enc (full children)).encode} ∪ ⋃ i, (children i).encodings

def hashRoot : Node V → Hash
  | nil => emptyRoot
  | n => C.keccak (n.collapse C enc).encode

theorem hashRoot_eq (n : Node V) : n.hashRoot C enc = C.keccak (n.collapse C enc).encode := by
  cases n with
  | nil => exact C.keccak_emptyString.symm
  | _ => rfl

/-- Only missing nodes collapse to a string. -/
theorem Canonical.collapse_shape (canon : Canonical n) :
    n.collapse C enc = .str [] ∨ ∃ items, n.collapse C enc = .list items := by
  cases canon with
  | nil => exact .inl rfl
  | _ => exact .inr ⟨_, rfl⟩

theorem Canonical.encode_mem (canon : Canonical n) : (n.collapse C enc).encode ∈ n.encodings C enc := by
  cases canon with
  | nil => exact rfl
  | _ => exact .inl rfl

/-- The stored values are encoded by nonempty strings that fit a slice, and so do their keys. -/
def Stores (n : Node V) : Prop :=
  ∀ k v, Terminated k → n.get k = some v → enc v ≠ [] ∧ (enc v).length ≤ maxAlloc ∧ k.length ≤ maxAlloc

variable {C enc} {children : Nibble → Node V} {n' : Node V} {key : Key}

theorem Stores.below_short (digits : Digits key) (stores : Stores enc (short key n)) : Stores enc n := by
  intro k v ends found
  obtain ⟨nonempty, fits, length⟩ :=
    stores (key ++ k) v ((terminated_append digits).mpr ends) (by simpa using found)
  exact ⟨nonempty, fits, by simp at length; omega⟩

theorem Stores.below_full {i : Nibble} (digit : i ≠ 16) (stores : Stores enc (full children)) :
    Stores enc (children i) := by
  intro k v ends found
  obtain ⟨nonempty, fits, length⟩ :=
    stores (i :: k) v ((terminated_cons_of_ne digit).mpr ends) found
  exact ⟨nonempty, fits, by simp at length; omega⟩

theorem length_encode_store_le (item : Item) : (store C item).encode.length ≤ 41 := by
  unfold store
  split_ifs
  · omega
  · simpa using length_encode_str_le (C.keccak item.encode).bytes

theorem Stores.length_value (stores : Stores enc (full children))
    (here : children 16 = nil ∨ ∃ v, children 16 = value v) :
    ((children 16).collapse C enc).encode.length ≤ maxAlloc + 9 := by
  rcases here with empty | ⟨v, held⟩
  · rw [empty]
    exact (length_encode_str_le []).trans (by simp [maxAlloc])
  · rw [held]
    obtain ⟨-, fits, -⟩ := stores [16] v (by simp [Terminated]) (by simp [held])
    exact (length_encode_str_le _).trans (by omega)

private theorem length_encode_short {item : Item} (fitsKey : key.length ≤ maxAlloc)
    (fits : item.encode.length ≤ maxAlloc + 9) :
    (Item.list [.str (hexToCompact key), item]).encode.length < 2 ^ 64 := by
  have compact := length_hexToCompact_le key
  have string := length_encode_str_le (hexToCompact key)
  have each : ∀ it ∈ [Item.str (hexToCompact key), item], it.encode.length ≤ maxAlloc + 10 := by
    intro it mem
    simp only [mem_cons, not_mem_nil, or_false] at mem
    rcases mem with rfl | rfl <;> omega
  exact (length_encode_list_le each).trans_lt (by simp [maxAlloc])

/-- The encodings of a trie of such values are within the sizes RLP can express. -/
theorem Canonical.length_lt (canon : Canonical n) (stores : Stores enc n) :
    ∀ b ∈ n.encodings C enc, b.length < 2 ^ 64 := by
  induction canon with
  | nil =>
    rintro b rfl
    exact (length_encode_str_le []).trans_lt (by simp)
  | @leaf key v ends =>
    obtain ⟨-, fits, length⟩ := stores key v ends (by simp [get_short])
    rintro b (rfl | mem)
    · exact length_encode_short length ((length_encode_str_le _).trans (by omega))
    · exact mem.elim
  | @extension key children nonempty digits below ih =>
    obtain ⟨k, v, ends, found⟩ := below.exists_get (by simp)
    obtain ⟨-, -, length⟩ :=
      stores (key ++ k) v ((terminated_append digits).mpr ends) (by simpa using found)
    rintro b (rfl | mem)
    · refine length_encode_short (by simp at length; omega) ?_
      exact (length_encode_store_le _).trans (by simp [maxAlloc])
    · exact ih (stores.below_short digits) b mem
  | @full children below here two ih =>
    rintro b (rfl | mem)
    · have last := stores.length_value (C := C) here
      have each : ∀ item ∈ ofFn (fun i : Nibble =>
          if i = 16 then (children i).collapse C enc else store C ((children i).collapse C enc)),
          item.encode.length ≤ maxAlloc + 9 := by
        intro item mem
        obtain ⟨i, rfl⟩ := mem_ofFn.mp mem
        split_ifs with atEnd
        · rwa [atEnd]
        · exact (length_encode_store_le _).trans (by simp [maxAlloc])
      exact (length_encode_list_le each).trans_lt (by simp [maxAlloc])
    · obtain ⟨i, mem⟩ := mem_iUnion.mp mem
      by_cases atEnd : i = 16
      · subst atEnd
        rcases here with empty | ⟨v, held⟩
        · rw [empty] at mem
          obtain rfl := mem
          exact (length_encode_str_le []).trans_lt (by simp)
        · rw [held] at mem
          exact mem.elim
      · exact ih i atEnd (stores.below_full atEnd) b mem

theorem encodings_child_subset (children : Nibble → Node V) (i : Nibble) :
    (children i).encodings C enc ⊆ (full children).encodings C enc :=
  fun _ mem => .inr (mem_iUnion.mpr ⟨i, mem⟩)

/-- What stands for a child in its parent determines the child's item. -/
theorem store_inj (left : Canonical n) (right : Canonical n') (storesLeft : Stores enc n) (storesRight : Stores enc n')
    (inj : InjOn C.keccak (n.encodings C enc ∪ n'.encodings C enc))
    (same : store C (n.collapse C enc) = store C (n'.collapse C enc)) : n.collapse C enc = n'.collapse C enc := by
  have notHash : ∀ {m : Node V} {h : Hash}, Canonical m → m.collapse C enc ≠ .str h.bytes := by
    intro m h canon equal
    rcases canon.collapse_shape C enc with empty | ⟨items, shape⟩
    · have := congrArg length (Item.str.inj (empty.symm.trans equal))
      simp at this
    · simp [shape] at equal
  unfold store at same
  split_ifs at same
  · exact same
  · exact (notHash left same).elim
  · exact (notHash right same.symm).elim
  · have digests : C.keccak (n.collapse C enc).encode = C.keccak (n'.collapse C enc).encode :=
      Hash.bytes_injective (Item.str.inj same)
    have memLeft := left.encode_mem C enc
    have memRight := right.encode_mem C enc
    exact encode_inj (left.length_lt storesLeft _ memLeft) (right.length_lt storesRight _ memRight)
      (inj (.inl memLeft) (.inr memRight) digests)

/-- Canonical nodes with the same item are equal. -/
theorem Canonical.collapse_inj (encInj : Function.Injective enc) (left : Canonical n)
    (right : Canonical n') (storesLeft : Stores enc n) (storesRight : Stores enc n')
    (inj : InjOn C.keccak (n.encodings C enc ∪ n'.encodings C enc))
    (same : n.collapse C enc = n'.collapse C enc) : n = n' := by
  induction left generalizing n' with
  | nil =>
    cases right with
    | nil => rfl
    | _ => simp [collapse] at same
  | @leaf k v ends =>
    cases right with
    | nil => simp [collapse] at same
    | @leaf k' w terminated' =>
      simp only [collapse, isValue, ↓reduceIte, Item.list.injEq, cons.injEq, Item.str.injEq] at same
      rw [hexToCompact_inj (.inr ends) (.inr terminated') same.1, encInj same.2.1]
    | extension _ digits =>
      simp only [collapse, Item.list.injEq, cons.injEq, Item.str.injEq] at same
      obtain rfl := hexToCompact_inj (.inr ends) (.inl digits) same.1
      exact (ends.not_digits digits).elim
    | full => simp [collapse, ofFn_succ] at same
  | @extension key children nonempty digits below ih =>
    cases right with
    | nil => simp [collapse] at same
    | leaf ends =>
      simp only [collapse, Item.list.injEq, cons.injEq, Item.str.injEq] at same
      obtain rfl := hexToCompact_inj (.inl digits) (.inr ends) same.1
      exact (ends.not_digits digits).elim
    | @extension key' children' _ digits' below' =>
      have free : InjOn C.keccak
          ((Node.full children).encodings C enc ∪ (Node.full children').encodings C enc) :=
        inj.mono (union_subset_union subset_union_right subset_union_right)
      rw [collapse, collapse, Item.list.injEq, cons.injEq, cons.injEq, Item.str.injEq] at same
      obtain ⟨sameKey, sameChild, -⟩ := same
      have storesLeft' := storesLeft.below_short digits
      have storesRight' := storesRight.below_short digits'
      rw [hexToCompact_inj (.inl digits) (.inl digits') sameKey,
        ih below' storesLeft' storesRight' free
          (store_inj below below' storesLeft' storesRight' free sameChild)]
    | full => simp [collapse, ofFn_succ] at same
  | @full children below here two ih =>
    cases right with
    | nil => simp [collapse] at same
    | leaf | extension => simp [collapse, ofFn_succ] at same
    | @full children' below' here' two' =>
      rw [collapse, collapse, Item.list.injEq, ofFn_inj] at same
      congr 1
      funext i
      have child := congrFun same i
      by_cases atEnd : i = 16
      · subst atEnd
        simp only [↓reduceIte] at child
        rcases here with empty | ⟨v, held⟩ <;> rcases here' with empty' | ⟨w, held'⟩
        · rw [empty, empty']
        · rw [empty, held'] at child
          obtain ⟨nonempty, -⟩ := storesRight [16] w (by simp [Terminated]) (by simp [held'])
          exact (nonempty (Item.str.inj child).symm).elim
        · rw [held, empty'] at child
          obtain ⟨nonempty, -⟩ := storesLeft [16] v (by simp [Terminated]) (by simp [held])
          exact (nonempty (Item.str.inj child)).elim
        · rw [held, held'] at child ⊢
          rw [encInj (Item.str.inj child)]
      · simp only [atEnd, ↓reduceIte] at child
        have free : InjOn C.keccak ((children i).encodings C enc ∪ (children' i).encodings C enc) :=
          inj.mono (union_subset_union (encodings_child_subset _ i) (encodings_child_subset _ i))
        have storesLeft' := storesLeft.below_full atEnd
        have storesRight' := storesRight.below_full atEnd
        exact ih i atEnd (below' i atEnd) storesLeft' storesRight' free
          (store_inj (below i atEnd) (below' i atEnd) storesLeft' storesRight' free child)

end Node

variable {V : Type} (C : Crypto) (enc : V → Bytes)

/-- `Hash` of a trie. -/
def hash (t : Trie V) : Hash := t.root.hashRoot C enc

/-- The encodings of the trie's nodes. -/
def encodings (t : Trie V) : Set Bytes := t.root.encodings C enc

variable {C enc}

theorem length_keybytesToHex (key : Bytes) : (keybytesToHex key).length = 2 * key.length + 1 := by
  induction key with
  | nil => rfl
  | cons b key ih => simp [keybytesToHex, ih]; omega

/-- The values of the trie are nonempty strings, and they and their keys are not too long. -/
def Stores (enc : V → Bytes) (t : Trie V) : Prop :=
  ∀ key v, t.get key = some v → enc v ≠ [] ∧ (enc v).length ≤ maxAlloc ∧ 2 * key.length + 1 ≤ maxAlloc

theorem Stores.root {t : Trie V} (stores : Stores enc t) : Node.Stores enc t.root := by
  intro k v ends found
  obtain ⟨key, rfl⟩ := t.wholeKeys k ends (by simp [found])
  rw [length_keybytesToHex]
  exact stores key v found

/-- The root hash determines the trie. -/
theorem hash_inj {t t' : Trie V} (encInj : Function.Injective enc) (left : Stores enc t)
    (right : Stores enc t') (inj : InjOn C.keccak (t.encodings C enc ∪ t'.encodings C enc))
    (same : t.hash C enc = t'.hash C enc) : t = t' := by
  rw [hash, hash, Node.hashRoot_eq, Node.hashRoot_eq] at same
  have memLeft := t.canonical.encode_mem C enc
  have memRight := t'.canonical.encode_mem C enc
  have encodings := inj (.inl memLeft) (.inr memRight) same
  have items := encode_inj (t.canonical.length_lt left.root _ memLeft)
    (t'.canonical.length_lt right.root _ memRight) encodings
  apply ext_get
  intro key
  rw [get, get, t.canonical.collapse_inj encInj t'.canonical left.root right.root inj items]

end KKChain.Trie
