import KKChain.Trie.Hash
import KKChain.Trie.Live

/-! # Collapsed nodes and back

What the database keeps of a canonical node: its children by hash, or in place if they are small. Its encoding is the
one that is hashed, and both ways to load it, from the cache and from its bytes, give the same node.
-/

namespace KKChain.Trie

open Rlp Item List

variable (C : Crypto)

/-- What stands for a collapsed node in its parent. -/
def Stored.refer : Stored → Stored
  | nil => nil
  | n => if n.item.encode.length < 32 then n else .hash (C.keccak n.item.encode)

namespace Node

/-- The collapsed node. -/
def stored : Node Bytes → Stored
  | nil => .nil
  | value v => .value v
  | short key val => .short (hexToCompact key) (if val.isValue then val.stored else val.stored.refer C)
  | full children => .full fun i => if i = 16 then (children i).stored else (children i).stored.refer C

def encoding (n : Node Bytes) : Bytes := (n.collapse C id).encode

def digest (n : Node Bytes) : Hash := C.keccak (n.encoding C)

/-- The node is referred to by its hash. -/
def Sized (n : Node Bytes) : Prop := 32 ≤ (n.encoding C).length

end Node

variable {C} {n : Node Bytes} {v : Bytes} {items : List Item}

theorem Stored.isNil_refer (n : Stored) : (n.refer C).isNil = n.isNil := by
  cases n <;> simp only [refer] <;> (try split_ifs) <;> rfl

theorem Stored.refer_eq {n : Stored} (present : n ≠ nil) :
    n.refer C = if n.item.encode.length < 32 then n else .hash (C.keccak n.item.encode) := by
  cases n with
  | nil => exact (present rfl).elim
  | _ => rfl

theorem Stored.item_refer {n : Stored} (present : n ≠ nil) : (n.refer C).item = Node.store C n.item := by
  rw [refer_eq present, Node.store]
  split_ifs <;> rfl

namespace Node

theorem stored_ne_nil (present : n ≠ nil) : n.stored C ≠ .nil := by
  cases n with
  | nil => exact (present rfl).elim
  | _ => simp [stored]

/-- What stands for a child in a full node. -/
theorem item_refer_stored (item : n ≠ nil → (n.stored C).item = n.collapse C id) :
    (if ((n.stored C).refer C).isNil then .str [] else ((n.stored C).refer C).item) = store C (n.collapse C id) := by
  by_cases empty : n = nil
  · subst empty
    simp [stored, Stored.refer, Stored.isNil, collapse, store, Item.encode, encodeStr, puthead]
  · have solid := stored_ne_nil (C := C) empty
    rw [Stored.isNil_refer, if_neg (by simpa using solid), Stored.item_refer solid, item empty]

/-- The collapsed node stands for the item that is hashed. -/
theorem Canonical.item_stored (canon : Canonical n) (present : n ≠ Node.nil) : (n.stored C).item = n.collapse C id := by
  induction canon with
  | nil => exact (present rfl).elim
  | leaf => rfl
  | @extension key children nonempty digits below ih =>
    have below := ih (by simp)
    simp only [stored, isValue, Bool.false_eq_true, ↓reduceIte, Stored.item, collapse]
    rw [Stored.item_refer (by simp), ← stored, below]
    rfl
  | @full children below here two ih =>
    simp only [stored, Stored.item, collapse, Item.list.injEq, ofFn_inj]
    funext i
    by_cases atEnd : i = 16
    · subst atEnd
      rcases here with none | ⟨v, held⟩
      · rw [none]
        rfl
      · rw [held]
        rfl
    · simp only [atEnd, ↓reduceIte]
      exact item_refer_stored (ih i atEnd)

/-- A sized node is referred to by its hash. -/
theorem Canonical.refer_of_sized (canon : Canonical n) (present : n ≠ Node.nil) (sized : n.Sized C) :
    (n.stored C).refer C = .hash (n.digest C) := by
  have item := canon.item_stored (C := C) present
  have solid := stored_ne_nil (C := C) present
  unfold Sized encoding at sized
  rw [Stored.refer_eq solid, item, if_neg (by omega)]
  rfl

theorem Canonical.refer_of_small (canon : Canonical n) (small : ¬ n.Sized C) : (n.stored C).refer C = n.stored C := by
  by_cases present : n = Node.nil
  · rw [present]
    rfl
  have item := canon.item_stored (C := C) present
  unfold Sized encoding at small
  rw [Stored.refer_eq (stored_ne_nil present), item, if_pos (by omega)]

section Decoding

variable {gen : UInt16} {decode : Bytes → Decoded LiveNode} {own : Option Hash} {fuel : ℕ} {key : Key}

theorem decodeRefs_encodeAll {l : List (Item × LiveNode)} {rest : Bytes}
    (each : ∀ p ∈ l, ∀ rest, decodeRef decode (p.1.encode ++ rest) = .ok (p.2, rest)) :
    decodeRefs decode l.length (Item.encodeAll (l.map Prod.fst) ++ rest) = .ok (l.map Prod.snd, rest) := by
  induction l with
  | nil => rfl
  | cons p l ih =>
    have first := each p (.head _) (Item.encodeAll (l.map Prod.fst) ++ rest)
    have others := ih fun p mem => each p (.tail _ mem)
    simp only [List.length_cons, List.map_cons, Item.encodeAll, List.append_assoc, decodeRefs, first, others, bind,
      Except.bind]

/-- Decoding the list of two items. -/
theorem decodeWith_two {a b : Item} (rest : Bytes) (bound : (Item.encodeAll [a, b]).length < 2 ^ 64) :
    decodeWith gen (fuel + 1) own ((Item.list [a, b]).encode ++ rest) =
      decodeShort (decodeWith gen fuel none) own gen (Item.encodeAll [a, b]) := by
  rw [decodeWith, if_neg (by simp [encode_ne_nil]), splitList_encode rest bound]
  simp only [ofRaw, bind, Except.bind, countValues_encodeAll bound]
  rfl

theorem decodeWith_seventeen (rest : Bytes) (length : items.length = 17)
    (bound : (Item.encodeAll items).length < 2 ^ 64) :
    decodeWith gen (fuel + 1) own ((Item.list items).encode ++ rest) =
      decodeFull (decodeWith gen fuel none) own gen (Item.encodeAll items) := by
  rw [decodeWith, if_neg (by simp [encode_ne_nil]), splitList_encode rest bound]
  simp only [ofRaw, bind, Except.bind, countValues_encodeAll bound, length]

/-- `decodeShort` of a leaf. -/
theorem decodeShort_leaf (ends : Terminated key)
    (bound : (Item.encodeAll [.str (hexToCompact key), .str v]).length < 2 ^ 64) :
    decodeShort decode own gen (Item.encodeAll [.str (hexToCompact key), .str v]) =
      .ok (.short key (.value v) (.loaded own gen)) := by
  have first := (length_content_le _).trans (length_encode_le
    (by simp : Item.str (hexToCompact key) ∈ [.str (hexToCompact key), .str v]))
  have second := (length_content_le _).trans (length_encode_le
    (by simp : Item.str v ∈ [.str (hexToCompact key), .str v]))
  simp only [Item.content] at first second
  simp only [decodeShort, Item.encodeAll, splitString_encode _ (first.trans_lt bound), ofRaw, bind, Except.bind,
    hexToCompact_ne_nil, ↓reduceIte, compactToHex_hexToCompact (.inr ends), ends.hasTerm,
    splitString_encode _ (second.trans_lt bound)]

/-- `decodeShort` of an extension. -/
theorem decodeShort_extension {item : Item} {r : LiveNode} (digits : Digits key)
    (bound : (Item.encodeAll [.str (hexToCompact key), item]).length < 2 ^ 64)
    (below : decodeRef decode (item.encode ++ []) = .ok (r, [])) :
    decodeShort decode own gen (Item.encodeAll [.str (hexToCompact key), item]) =
      .ok (.short key r (.loaded own gen)) := by
  have first := (length_content_le _).trans (length_encode_le
    (by simp : Item.str (hexToCompact key) ∈ [.str (hexToCompact key), item]))
  simp only [Item.content] at first
  simp only [decodeShort, Item.encodeAll, splitString_encode _ (first.trans_lt bound), ofRaw, bind, Except.bind,
    hexToCompact_ne_nil, ↓reduceIte, compactToHex_hexToCompact (.inl digits), hasTerm_of_digits digits,
      Bool.false_eq_true, below]

/-- `decodeFull` of sixteen children and a value. -/
theorem decodeFull_encodeAll {items : Fin 16 → Item} {nodes : Fin 16 → LiveNode}
    (each : ∀ i rest, decodeRef decode ((items i).encode ++ rest) = .ok (nodes i, rest)) (bound : v.length < 2 ^ 64) :
    decodeFull decode own gen (Item.encodeAll (ofFn items ++ [.str v])) =
      .ok (.full (fun i => if inner : i.val < 16 then nodes ⟨i.val, inner⟩ else if v.length = 0 then .nil else .value v)
        (.loaded own gen)) := by
  obtain ⟨pairs, rfl, rfl⟩ : ∃ pairs : Fin 16 → Item × LiveNode,
      items = (fun i => (pairs i).1) ∧ nodes = fun i => (pairs i).2 :=
    ⟨fun i => (items i, nodes i), rfl, rfl⟩
  have children := @decodeRefs_encodeAll decode (ofFn pairs) ((Item.str v).encode ++ []) fun p mem => by
    obtain ⟨i, rfl⟩ := mem_ofFn.mp mem
    exact each i
  simp only [length_ofFn, map_ofFn] at children
  simp only [decodeFull, encodeAll_append, Item.encodeAll]
  rw [show List.ofFn (fun i => (pairs i).1) = List.ofFn (Prod.fst ∘ pairs) from rfl, children]
  simp only [bind, Except.bind, splitString_encode _ bound, ofRaw, Except.ok.injEq, LiveNode.full.injEq, and_true]
  funext i
  rw [List.getD_eq_getElem?_getD, List.getElem?_ofFn]
  by_cases inner : i.val < 16
  · rw [dif_pos inner, dif_pos inner]
    rfl
  · rw [dif_neg inner, dif_neg inner]
    rfl

end Decoding

end Node

/-- The item of a child in its parent. -/
def Stored.childItem (c : Stored) : Item := if c.isNil then .str [] else c.item

namespace Stored

theorem childItem_of_ne_nil {c : Stored} (present : c ≠ nil) : c.childItem = c.item := if_neg (by simpa using present)

/-- What the decoder reads: a node that stands on its own, or with `inside` what may stand in its parent, where there is
nothing, a hash or a small node. -/
inductive Readable : Bool → Stored → Prop
  | leaf {key : Key} {v : Bytes} (ends : Terminated key) : Readable false (short (hexToCompact key) (value v))
  | extension {key : Key} {c : Stored} (digits : Digits key) (present : c ≠ nil) (below : Readable true c) :
      Readable false (short (hexToCompact key) c)
  | full {children : Nibble → Stored} (below : ∀ i, i ≠ 16 → Readable true (children i))
      (last : children 16 = nil ∨ ∃ v, v ≠ [] ∧ children 16 = value v) : Readable false (full children)
  | nothing : Readable true nil
  | hashed (h : Hash) : Readable true (hash h)
  | embedded {c : Stored} (below : Readable false c) (small : c.item.encode.length < 32) : Readable true c

namespace Readable

variable {inside : Bool} {c : Stored} {gen : UInt16}

theorem ne_nil (readable : Readable false c) : c ≠ nil := by
  cases readable <;> simp

/-- Only lists stand on their own. -/
theorem item_eq_list (readable : Readable false c) : ∃ items, c.item = .list items := by
  cases readable with
  | _ => exact ⟨_, rfl⟩

/-- Expanding it does not panic. -/
theorem expandable (readable : Readable inside c) (present : c ≠ nil) : c.expandable = true := by
  induction readable with
  | leaf => simp [Stored.expandable, hexToCompact_ne_nil]
  | extension _ inner _ ih => simp [Stored.expandable, hexToCompact_ne_nil, ih inner]
  | @full children below last ih =>
    simp only [Stored.expandable, all_eq_true, Bool.or_eq_true]
    intro i _
    by_cases empty : children i = nil
    · exact .inl (by simp [empty])
    refine .inr ?_
    by_cases atEnd : i = 16
    · subst atEnd
      obtain ⟨v, -, held⟩ := last.resolve_left empty
      rw [held]
      rfl
    · exact ih i atEnd empty
  | nothing => exact absurd rfl present
  | hashed => rfl
  | embedded _ _ ih => exact ih present

/-- Reading back the bytes of a stored node, with anything behind them, gives the same as expanding it. -/
def Reads (gen : UInt16) (fuel : ℕ) (rest : Bytes) : Bool → Stored → Prop
  | false, c => c.item.encode.length < 2 ^ 64 → c.item.encode.length < fuel →
      ∀ own, decodeWith gen fuel own (c.item.encode ++ rest) = .ok (c.expand gen own)
  | true, c => c.childItem.encode.length < fuel →
      decodeRef (decodeWith gen fuel none) (c.childItem.encode ++ rest) = .ok (c.expand gen none, rest)

theorem item_full {children : Nibble → Stored} (last : (children 16).childItem = .str v) :
    (Stored.full children).item = .list (ofFn (fun i : Fin 16 => (children i.castSucc).childItem) ++ [.str v]) := by
  rw [Stored.item, ofFn_succ_last, ← last]
  rfl

/-- An embedded node is read by `decodeNode`. -/
theorem decodeRef_embedded {decode : Bytes → Decoded LiveNode} {rest : Bytes} {n : LiveNode}
    (small : (Item.list items).encode.length < 32) (decoded : decode ((Item.list items).encode ++ rest) = .ok n) :
    decodeRef decode ((Item.list items).encode ++ rest) = .ok (n, rest) := by
  have content := (Item.list items).length_content_le
  rw [decodeRef, split_encode (.list items) rest (by omega)]
  simp [ofRaw, bind, Except.bind, Item.kind, decoded, Except.map, small.le]

theorem reads (readable : Readable inside c) (fuel : ℕ) (rest : Bytes) : Reads gen fuel rest inside c := by
  induction readable generalizing fuel rest with
  | @leaf key v ends =>
    intro bound enough own
    obtain ⟨fuel, rfl⟩ : ∃ k, fuel = k + 1 := ⟨fuel - 1, by omega⟩
    have inner := (length_encodeAll_lt _).trans bound
    refine (Node.decodeWith_two rest inner).trans ((Node.decodeShort_leaf ends inner).trans ?_)
    simp [expand, compactToHex_hexToCompact (.inr ends)]
  | @extension key c digits present below ih =>
    intro bound enough own
    obtain ⟨fuel, rfl⟩ : ∃ k, fuel = k + 1 := ⟨fuel - 1, by omega⟩
    have inner := (length_encodeAll_lt _).trans bound
    have part : c.item.encode.length ≤ (Item.encodeAll [.str (hexToCompact key), c.item]).length :=
      length_encode_le (.tail _ (.head _))
    have shorter := length_encodeAll_lt [.str (hexToCompact key), c.item]
    have whole : (Item.list [.str (hexToCompact key), c.item]).encode.length < fuel + 1 := enough
    have child := ih fuel []
    rw [Reads, childItem_of_ne_nil present] at child
    refine (Node.decodeWith_two rest inner).trans
      ((Node.decodeShort_extension digits inner (child (by omega))).trans ?_)
    rw [expand, compactToHex_hexToCompact (.inl digits)]
  | @full children below last ih =>
    intro bound enough own
    obtain ⟨fuel, rfl⟩ : ∃ k, fuel = k + 1 := ⟨fuel - 1, by omega⟩
    obtain ⟨v, item, node⟩ : ∃ v, (children 16).childItem = .str v ∧
        (children 16).expand gen none = if v.length = 0 then .nil else .value v := by
      rcases last with none | ⟨v, nonempty, held⟩
      · exact ⟨[], by rw [none]; rfl, by rw [none]; rfl⟩
      · exact ⟨v, by rw [held]; rfl, by rw [held, if_neg (by simpa using nonempty)]; rfl⟩
    rw [item_full item] at bound enough ⊢
    have inner := (length_encodeAll_lt _).trans bound
    have shorter := length_encodeAll_lt (List.ofFn (fun i : Fin 16 => (children i.castSucc).childItem) ++ [.str v])
    have fits : v.length < 2 ^ 64 := by
      refine ((length_content_le (.str v)).trans (length_encode_le ?_)).trans_lt inner
      exact List.mem_append_right _ (List.mem_singleton_self _)
    have each : ∀ (i : Fin 16) (rest : Bytes), decodeRef (decodeWith gen fuel none)
        ((children i.castSucc).childItem.encode ++ rest) = .ok ((children i.castSucc).expand gen none, rest) := by
      intro i rest
      have mem : (children i.castSucc).childItem ∈
          List.ofFn (fun i : Fin 16 => (children i.castSucc).childItem) ++ [.str v] :=
        List.mem_append_left _ (List.mem_ofFn.mpr ⟨i, rfl⟩)
      have part := length_encode_le mem
      exact ih i.castSucc (Fin.castSucc_lt_last i).ne fuel rest (by omega)
    refine (Node.decodeWith_seventeen rest (by simp) inner).trans ?_
    rw [Node.decodeFull_encodeAll each fits]
    simp only [expand, Except.ok.injEq, LiveNode.full.injEq, and_true]
    funext i
    by_cases atEnd : i = 16
    · subst atEnd
      exact node.symm
    · have small : i.val < 16 := by
        have : i.val ≠ 16 := fun same => atEnd (Fin.ext same)
        omega
      rw [dif_pos small]
      rfl
  | nothing =>
    intro _
    rw [show nil.childItem = .str [] from rfl, decodeRef, split_encode (.str []) rest (by simp [Item.content])]
    rfl
  | hashed h =>
    intro _
    rw [show (hash h).childItem = .str h.bytes from rfl, decodeRef,
      split_encode (.str h.bytes) rest (by simp [Item.content])]
    simp [ofRaw, bind, Except.bind, Item.kind, Item.content, expand]
  | @embedded c below small ih =>
    rw [Reads, childItem_of_ne_nil below.ne_nil]
    intro enough
    obtain ⟨items, shape⟩ := below.item_eq_list
    have decoded := ih fuel rest (by omega) enough none
    rw [shape] at small decoded ⊢
    exact decodeRef_embedded small decoded

end Readable

end Stored

namespace Node

/-- What the database keeps of a canonical node can be read back. -/
theorem Canonical.readable (canon : Canonical n) (stores : Stores id n) (present : n ≠ Node.nil) :
    (n.stored C).Readable false := by
  have child : ∀ {m : Node Bytes}, (m ≠ Node.nil → (m.stored C).Readable false) →
      ((m.stored C).refer C).Readable true := by
    intro m below
    by_cases empty : m = Node.nil
    · rw [empty]
      exact .nothing
    rw [Stored.refer_eq (stored_ne_nil empty)]
    split_ifs with small
    · exact .embedded (below empty) small
    · exact .hashed _
  induction canon with
  | nil => exact (present rfl).elim
  | leaf ends => exact .leaf ends
  | @extension key children nonempty digits below ih =>
    refine .extension digits (fun empty => ?_) (child (ih (stores.below_short digits)))
    have kept := Stored.isNil_refer (C := C) (stored C (.full children))
    rw [show (stored C (.full children)).refer C = .nil from empty] at kept
    cases kept
  | @full children below here two ih =>
    refine .full (fun i digit => ?_) ?_
    · rw [if_neg digit]
      exact child (ih i digit (stores.below_full digit))
    · refine here.imp (fun empty => ?_) fun ⟨v, held⟩ =>
        ⟨v, (stores [16] v (by simp [Terminated]) (by simp [held])).1, ?_⟩
      · rw [if_pos rfl, empty]
        rfl
      · rw [if_pos rfl, held]
        rfl

/-- Reading back the bytes of a node, with anything behind them, gives the same as expanding it. -/
theorem Canonical.decodes (gen : UInt16) (canon : Canonical n) (stores : Stores id n)
    (present : n ≠ Node.nil) (bound : (n.encoding C).length < 2 ^ 64) (fuel : ℕ) (own : Option Hash) (rest : Bytes)
    (enough : (n.encoding C).length < fuel) :
    decodeWith gen fuel own (n.encoding C ++ rest) = .ok ((n.stored C).expand gen own) := by
  unfold encoding at bound enough ⊢
  rw [← canon.item_stored present] at bound enough ⊢
  exact (canon.readable stores present).reads fuel rest bound enough own

end Node

end KKChain.Trie
