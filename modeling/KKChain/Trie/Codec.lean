import KKChain.Trie.Collapse
import KKChain.Trie.LiveTrie
import KKChain.Trie.FlushList

/-! # The two ways back from a collapsed node

What the hasher makes of a node has its keys in compact form, and its children by hash or in place. `Collapses` relates
it to the same node in hex keys. Its bytes are decoded to that node, and so is its form in the database expanded.
-/

namespace KKChain.Trie

open Rlp List Function

/-- Where a collapsed node stands: on its own, under its hash if that is known, or inside of its parent. -/
inductive Place where
  | own (hash : Option Hash)
  | within

/-- The hash that a node is loaded with. -/
def Place.hash : Place → Option Hash
  | own hash => hash
  | within => none

/-- A node, what is loaded of it again, and its collapsed form. What is loaded has the keys and values of the node; the
nodes below it are there if they are embedded, and otherwise by a hash. -/
inductive Collapses (gen : UInt16) : Place → LiveNode → LiveNode → Stored → Prop
  | leaf {hash : Option Hash} {key : Key} {v : Bytes} {flags : NodeFlag} (ends : Terminated key)
      (keyFits : key.length ≤ maxAlloc) (valueFits : v.length ≤ maxAlloc) :
      Collapses gen (.own hash) (.short key (.value v) flags) (.short key (.value v) (.loaded hash gen))
        (.short (hexToCompact key) (.value v))
  | extension {hash : Option Hash} {key : Key} {val n : LiveNode} {flags : NodeFlag} {c : Stored} (digits : Digits key)
      (keyFits : key.length ≤ maxAlloc) (present : c ≠ .nil) (below : Collapses gen .within val n c) :
      Collapses gen (.own hash) (.short key val flags) (.short key n (.loaded hash gen)) (.short (hexToCompact key) c)
  | full {hash : Option Hash} {nodes loaded : Nibble → LiveNode} {flags : NodeFlag} {children : Nibble → Stored}
      (below : ∀ i, i ≠ 16 → Collapses gen .within (nodes i) (loaded i) (children i))
      (last : nodes 16 = .nil ∧ loaded 16 = .nil ∧ children 16 = .nil ∨
        ∃ v, v ≠ [] ∧ v.length ≤ maxAlloc ∧ nodes 16 = .value v ∧ loaded 16 = .value v ∧ children 16 = .value v) :
      Collapses gen (.own hash) (.full nodes flags) (.full loaded (.loaded hash gen)) (.full children)
  | nothing : Collapses gen .within .nil .nil .nil
  | hashed {n : LiveNode} (present : n ≠ .nil) (h : Hash) : Collapses gen .within n (.hash h) (.hash h)
  | embedded {n l : LiveNode} {c : Stored} (below : Collapses gen (.own none) n l c)
    (small : c.item.encode.length < 32) :
      Collapses gen .within n l c

def Place.inside : Place → Bool
  | own _ => false
  | within => true

namespace Collapses

variable {gen : UInt16} {place : Place} {orig n : LiveNode} {c : Stored} {hash : Option Hash}

theorem ne_nil (collapses : Collapses gen (.own hash) orig n c) : c ≠ .nil := by
  cases collapses <;> simp

/-- The form in the database expands to the node. -/
theorem expand (collapses : Collapses gen place orig n c) : c.expand gen place.hash = n := by
  induction collapses with
  | leaf ends => simp [Stored.expand, Place.hash, compactToHex_hexToCompact (.inr ends)]
  | extension digits _ _ _ ih =>
    simp only [Place.hash] at ih
    simp [Stored.expand, Place.hash, compactToHex_hexToCompact (.inl digits), ih]
  | @full _ nodes loaded flags children below last ih =>
    simp only [Stored.expand, Place.hash, LiveNode.full.injEq, and_true]
    funext i
    by_cases atEnd : i = 16
    · subst atEnd
      rcases last with ⟨-, none, none'⟩ | ⟨v, -, -, -, held, held'⟩
      · rw [none, none']
        rfl
      · rw [held, held']
        rfl
    · exact ih i atEnd
  | nothing | hashed => rfl
  | embedded _ _ ih => exact ih

/-- The form in the database can be read. -/
theorem readable (collapses : Collapses gen place orig n c) : c.Readable place.inside := by
  induction collapses with
  | leaf ends => exact .leaf ends
  | extension digits _ present _ ih => exact .extension digits present ih
  | full below last ih =>
    exact .full ih (last.imp (fun none => none.2.2) fun ⟨v, nonempty, held⟩ => ⟨v, nonempty, held.2.2.2⟩)
  | nothing => exact .nothing
  | hashed _ h => exact .hashed h
  | embedded _ small ih => exact .embedded ih small

/-- What stands inside of a parent is short. -/
theorem length_childItem_le (collapses : Collapses gen .within orig n c) : c.childItem.encode.length ≤ 41 := by
  cases collapses with
  | nothing => exact (Item.length_encode_str_le []).trans (by simp)
  | hashed _ h => exact (Item.length_encode_str_le h.bytes).trans (by simp)
  | embedded below small =>
    rw [Stored.childItem_of_ne_nil below.ne_nil]
    omega

/-- The encoding is within the sizes that RLP can express. -/
theorem length_lt (collapses : Collapses gen (.own hash) orig n c) : c.item.encode.length < 2 ^ 64 := by
  cases collapses with
  | @leaf _ key v flags ends keyFits valueFits =>
    have compact := length_hexToCompact_le key
    have each : ∀ it ∈ [Item.str (hexToCompact key), .str v], it.encode.length ≤ maxAlloc + 10 := by
      simp only [mem_cons, not_mem_nil, or_false, forall_eq_or_imp, forall_eq]
      exact ⟨(Item.length_encode_str_le _).trans (by omega), (Item.length_encode_str_le _).trans (by omega)⟩
    exact (Item.length_encode_list_le each).trans_lt (by simp [maxAlloc])
  | @extension _ key val n' flags c' digits keyFits present below =>
    have compact := length_hexToCompact_le key
    have child := below.length_childItem_le
    rw [Stored.childItem_of_ne_nil present] at child
    have each : ∀ it ∈ [Item.str (hexToCompact key), c'.item], it.encode.length ≤ maxAlloc + 10 := by
      simp only [mem_cons, not_mem_nil, or_false, forall_eq_or_imp, forall_eq]
      exact ⟨(Item.length_encode_str_le _).trans (by omega), child.trans (by simp [maxAlloc])⟩
    exact (Item.length_encode_list_le each).trans_lt (by simp [maxAlloc])
  | @full _ nodes loaded flags children below last =>
    have each : ∀ it ∈ ofFn (fun i => (children i).childItem), it.encode.length ≤ maxAlloc + 9 := by
      intro it mem
      obtain ⟨i, rfl⟩ := mem_ofFn.mp mem
      by_cases atEnd : i = 16
      · subst atEnd
        rcases last with ⟨-, -, none⟩ | ⟨v, -, fits, -, -, held⟩
        · rw [none]
          exact (Item.length_encode_str_le []).trans (by simp [maxAlloc])
        · rw [held]
          exact (Item.length_encode_str_le v).trans (by omega)
      · exact (below i atEnd).length_childItem_le.trans (by simp [maxAlloc])
    exact (Item.length_encode_list_le each).trans_lt (by simp [maxAlloc])

/-- `decodeNode` of the encoding. -/
theorem decodeNode_eq (collapses : Collapses gen (.own hash) orig n c) : decodeNode hash c.item.encode gen = .ok n := by
  have reads : Stored.Readable.Reads gen (c.item.encode.length + 1) [] false c := collapses.readable.reads _ _
  have read := reads collapses.length_lt (Nat.lt_succ_self _) hash
  rwa [append_nil, show c.expand gen hash = n from collapses.expand] at read

end Collapses

/-- A node of a trie in memory, as far as its shape goes. The hashes in it may stand for anything. -/
inductive Shaped : LiveNode → Prop
  | nil : Shaped .nil
  | hash (h : Hash) : Shaped (.hash h)
  | leaf {key : Key} {v : Bytes} {flags : NodeFlag} (ends : Terminated key) (keyFits : key.length ≤ maxAlloc)
      (valueFits : v.length ≤ maxAlloc) : Shaped (.short key (.value v) flags)
  | extension {key : Key} {val : LiveNode} {flags : NodeFlag} (digits : Digits key) (keyFits : key.length ≤ maxAlloc)
      (present : val ≠ .nil) (below : Shaped val) : Shaped (.short key val flags)
  | full {children : Nibble → LiveNode} {flags : NodeFlag} (below : ∀ i, i ≠ 16 → Shaped (children i))
      (last : children 16 = .nil ∨ ∃ v, v ≠ [] ∧ v.length ≤ maxAlloc ∧ children 16 = .value v) :
    Shaped (.full children flags)

section Hashing

variable (C : Crypto) {flags : NodeFlag} {children : Nibble → LiveNode} {force : Bool} {key : Key} {val : LiveNode}

def Hasher.hashChildren (h : Hasher) : LiveNode → Proc Empty Database (Stored × LiveNode)
  | .short key val flags => do
    let (collapsed, cached) ←
      match val with
      | .value b => pure (.value b, .value b)
      | val => h.hash C val false
    pure (.short (hexToCompact key) collapsed, .short key cached flags)
  | .full children flags => do
    let (collapsed, cached) ← hashEach
      (fun i => if (children i).isNil then pure (.nil, .nil) else h.hash C (children i) false)
      ((List.finRange 16).map Fin.castSucc) (fun i => (children i).simplify) children
    pure (.full collapsed, .full cached flags)
  | n => pure (n.simplify, n)

def LiveNode.withFlags (flags : NodeFlag) : LiveNode → LiveNode
  | .short key val _ => .short key val flags
  | .full children _ => .full children flags
  | n => n

/-- `hash` of a node that is not taken from the cache: `hashChildren`, then `store`. -/
theorem Hasher.hash_short {h : Hasher}
    (walk : h.cached (.short key val flags) flags = none) :
    h.hash C (.short key val flags) force = (do
      let (collapsed, cached) ← h.hashChildren C (.short key val flags)
      let hashed ← h.store C flags.hash collapsed force
      pure (hashed, cached.withFlags (h.flagsFor flags hashed))) := by
  rw [Hasher.hash, walk]
  cases val <;> simp only [hashChildren, bind_assoc, pure_bind, LiveNode.withFlags]

theorem Hasher.hash_full {h : Hasher}
    (walk : h.cached (.full children flags) flags = none) :
    h.hash C (.full children flags) force = (do
      let (collapsed, cached) ← h.hashChildren C (.full children flags)
      let hashed ← h.store C flags.hash collapsed force
      pure (hashed, cached.withFlags (h.flagsFor flags hashed))) := by
  rw [Hasher.hash, walk]
  simp only [hashChildren, bind_assoc, pure_bind, LiveNode.withFlags]

variable {C} {h : Hasher} {ln : LiveNode} {c : Stored}

/-- A collapsed form of a node. -/
def Whole (ln : LiveNode) (c : Stored) : Prop := ∀ gen hash, ∃ l, Collapses gen (.own hash) ln l c

/-- What may stand for a node inside of its parent. -/
def Piece (ln : LiveNode) (c : Stored) : Prop := ∀ gen, ∃ l, Collapses gen .within ln l c

theorem Whole.ne_nil (whole : Whole ln c) : c ≠ .nil := by
  obtain ⟨l, collapses⟩ := whole 0 none
  exact collapses.ne_nil

theorem Piece.hash (present : ln ≠ .nil) (x : Hash) : Piece ln (.hash x) := fun _ => ⟨_, .hashed present x⟩

theorem Whole.piece (whole : Whole ln c) (small : c.item.encode.length < 32) : Piece ln c := fun gen => by
  obtain ⟨l, collapses⟩ := whole gen none
  exact ⟨l, .embedded collapses small⟩

/-- `store` returns what may stand for the node. -/
theorem store_piece (whole : Whole ln c) (present : ln ≠ .nil) (known : Option Hash) (force : Bool) :
    Proc.Spec (fun _ => True) (h.store C known c force) (fun out _ => out ≠ .nil ∧ Piece ln out) fun _ _ => True := by
  have digest : ∀ x, (Stored.hash x : Stored) ≠ .nil ∧ Piece ln (.hash x) := fun x => ⟨by simp, .hash present x⟩
  have unfolded : h.store C known c force =
      if c.item.encode.length < 32 ∧ force = false then pure c
      else if h.commit then (do
        let db ← MonadState.get
        let db ← Proc.orFault .panic (db.insert (known.getD (C.keccak c.item.encode)) c.item.encode (.node c))
        set db
        pure (.hash (known.getD (C.keccak c.item.encode))))
      else pure (.hash (known.getD (C.keccak c.item.encode))) := by
    obtain ⟨l, collapses⟩ := whole 0 none
    cases collapses <;> rfl
  rw [unfolded]
  refine .ite (fun small => .pure fun _ _ => ⟨whole.ne_nil, whole.piece small.1⟩) fun _ =>
    .ite (fun _ => ?_) fun _ => ?_
  · refine .get_bind fun db => .bind (Q := fun _ _ => True)
      (.orFault (fun _ _ _ _ => trivial) fun _ _ _ => trivial) fun _ => ?_
    exact .bind (Q := fun _ _ => True) (fun _ _ => trivial) fun _ => .pure fun _ _ => digest _
  · exact .pure fun _ _ => digest _

/-- The loop over the children leaves what may stand for each. -/
theorem hashEach_pieces {hash : Nibble → Proc Empty Database (Stored × LiveNode)} {nodes : Nibble → LiveNode}
    {is : List Nibble}
    (each : ∀ i ∈ is, Proc.Spec (fun _ => True) (hash i) (fun out _ => Piece (nodes i) out.1) fun _ _ => True)
    (collapsed : Nibble → Stored) (cached : Nibble → LiveNode) :
    Proc.Spec (fun _ => True) (hashEach hash is collapsed cached)
      (fun out _ => (∀ i ∈ is, Piece (nodes i) (out.1 i)) ∧ ∀ i ∉ is, out.1 i = collapsed i) fun _ _ => True := by
  induction is generalizing collapsed cached with
  | nil => exact .pure fun _ _ => ⟨by simp, fun _ _ => rfl⟩
  | cons i is ih =>
    obtain ⟨head, tail⟩ := forall_mem_cons.mp each
    refine .bind head fun ⟨c, n⟩ => .of_each fun db piece => ?_
    refine (ih tail _ _).mono (fun _ _ => trivial) (fun out _ post => ⟨fun j mem => ?_, fun j other => ?_⟩)
      fun _ _ => id
    · by_cases later : j ∈ is
      · exact post.1 j later
      · obtain rfl : j = i := (mem_cons.mp mem).resolve_right later
        rw [post.2 j later, update_self]
        exact piece
    · simp only [mem_cons, not_or] at other
      rw [post.2 j other.2, update_of_ne other.1]

/-- A cached hash stands for the node. -/
theorem cached_piece {done : Stored × LiveNode} (present : ln ≠ .nil) (found : h.cached ln flags = some done) :
    done.1 ≠ .nil ∧ Piece ln done.1 := by
  obtain ⟨x, hashed⟩ : ∃ x, done.1 = .hash x := by
    unfold Hasher.cached at found
    split at found
    · cases found
    · split_ifs at found <;> exact ⟨_, congrArg Prod.fst (Option.some.inj found).symm⟩
  rw [hashed]
  exact ⟨by simp, .hash present x⟩

/-- The end of `hash`, once the node is collapsed. -/
theorem store_rest (present : ln ≠ .nil)
    (collapse : Proc.Spec (fun _ => True) (h.hashChildren C ln) (fun out _ => Whole ln out.1) fun _ _ => True) :
    Proc.Spec (fun _ => True) (do
      let (collapsed, cached) ← h.hashChildren C ln
      let hashed ← h.store C flags.hash collapsed force
      pure (hashed, cached.withFlags (h.flagsFor flags hashed)) : Proc Empty Database (Stored × LiveNode))
      (fun out _ => out.1 ≠ .nil ∧ Piece ln out.1) fun _ _ => True := by
  refine .bind collapse fun ⟨collapsed, cached⟩ => .of_each fun db whole => ?_
  have stored := store_piece (C := C) (h := h) whole present flags.hash force
  refine .bind (stored.pre (fun _ _ => trivial)) fun hashed => ?_
  exact .pure fun _ => id

theorem hashChildren_leaf {v : Bytes} (ends : Terminated key) (keyFits : key.length ≤ maxAlloc)
    (valueFits : v.length ≤ maxAlloc) :
    Proc.Spec (fun _ => True) (h.hashChildren C (.short key (.value v) flags))
      (fun out _ => Whole (.short key (.value v) flags) out.1) fun _ _ => True := by
  have collapsed : h.hashChildren C (.short key (.value v) flags) =
      pure (.short (hexToCompact key) (.value v), .short key (.value v) flags) := by
    simp only [Hasher.hashChildren, pure_bind]
  rw [collapsed]
  exact .pure fun _ _ gen hash => ⟨_, .leaf ends keyFits valueFits⟩

theorem hashChildren_extension (digits : Digits key) (keyFits : key.length ≤ maxAlloc)
    (shaped : Shaped val)
    (below : Proc.Spec (fun _ => True) (h.hash C val false)
      (fun out _ => out.1 ≠ .nil ∧ Piece val out.1) fun _ _ => True) :
    Proc.Spec (fun _ => True) (h.hashChildren C (.short key val flags))
      (fun out _ => Whole (.short key val flags) out.1) fun _ _ => True := by
  have unfolded : h.hashChildren C (.short key val flags) = (do
      let (collapsed, cached) ← h.hash C val false
      pure (.short (hexToCompact key) collapsed, .short key cached flags)) := by
    cases shaped <;> rfl
  rw [unfolded]
  refine .bind below fun ⟨collapsed, cached⟩ => .pure fun _ ⟨present, piece⟩ gen hash => ?_
  obtain ⟨l, collapses⟩ := piece gen
  exact ⟨_, .extension digits keyFits present collapses⟩

theorem hashChildren_full
    (last : children 16 = .nil ∨ ∃ v, v ≠ [] ∧ v.length ≤ maxAlloc ∧ children 16 = .value v)
    (below : ∀ i, i ≠ 16 → children i ≠ .nil → Proc.Spec (fun _ => True) (h.hash C (children i) false)
      (fun out _ => out.1 ≠ .nil ∧ Piece (children i) out.1) fun _ _ => True) :
    Proc.Spec (fun _ => True) (h.hashChildren C (.full children flags))
      (fun out _ => Whole (.full children flags) out.1) fun _ _ => True := by
  have digits : ∀ {i : Nibble}, i ∈ (finRange 16).map Fin.castSucc ↔ i ≠ 16 := by decide
  have each : ∀ i ∈ (finRange 16).map Fin.castSucc, Proc.Spec (fun _ => True)
      (if (children i).isNil then pure (.nil, .nil) else h.hash C (children i) false)
      (fun out _ => Piece (children i) out.1) fun _ _ => True := by
    intro i mem
    refine .ite (fun empty => .pure fun _ _ gen => ?_) fun present => ?_
    · rw [LiveNode.isNil_iff] at empty
      rw [empty]
      exact ⟨_, .nothing⟩
    · exact (below i (digits.mp mem) (by simpa using present)).post (fun _ _ => And.right)
  refine .bind (hashEach_pieces each _ _) fun ⟨collapsed, cached⟩ => .pure fun _ ⟨pieces, kept⟩ gen hash => ?_
  have loaded : ∀ i, ∃ l, i ≠ 16 → Collapses gen .within (children i) l (collapsed i) := fun i => by
    by_cases atEnd : i = 16
    · exact ⟨.nil, fun other => absurd atEnd other⟩
    · obtain ⟨l, collapses⟩ := pieces i (digits.mpr atEnd) gen
      exact ⟨l, fun _ => collapses⟩
  choose loaded below using loaded
  have end_ : collapsed 16 = (children 16).simplify := kept 16 (by simp [digits])
  -- the value of a full node is not hashed, it is kept as it is
  refine ⟨.full (update loaded 16 (children 16)) (.loaded hash gen), .full (fun i other => ?_) ?_⟩
  · rw [update_of_ne other]
    exact below i other
  · rw [update_self]
    refine last.imp (fun none => ⟨none, none, ?_⟩) fun ⟨v, nonempty, fits, held⟩ => ⟨v, nonempty, fits, held, held, ?_⟩
    · rw [end_, none]
      rfl
    · rw [end_, held]
      rfl

/-- `hash` of a node returns what may stand for it in its parent. -/
theorem hash_piece (shaped : Shaped ln) (present : ln ≠ .nil) (force : Bool) :
    Proc.Spec (fun _ => True) (h.hash C ln force) (fun out _ => out.1 ≠ .nil ∧ Piece ln out.1) fun _ _ => True := by
  induction shaped generalizing force with
  | nil => exact absurd rfl present
  | hash x => exact .pure fun _ _ => ⟨by simp, .hash present x⟩
  | @leaf key v flags ends keyFits valueFits =>
    cases walk : h.cached (.short key (.value v) flags) flags with
    | some done =>
      rw [Hasher.hash, walk]
      exact .pure fun _ _ => cached_piece present walk
    | none =>
      rw [Hasher.hash_short C walk]
      exact store_rest present (hashChildren_leaf ends keyFits valueFits)
  | @extension key val flags digits keyFits solid below ih =>
    cases walk : h.cached (.short key val flags) flags with
    | some done =>
      rw [Hasher.hash, walk]
      exact .pure fun _ _ => cached_piece present walk
    | none =>
      rw [Hasher.hash_short C walk]
      exact store_rest present (hashChildren_extension digits keyFits below (ih solid false))
  | @full children flags below last ih =>
    cases walk : h.cached (.full children flags) flags with
    | some done =>
      rw [Hasher.hash, walk]
      exact .pure fun _ _ => cached_piece present walk
    | none =>
      rw [Hasher.hash_full C walk]
      exact store_rest present (hashChildren_full last fun i other solid => ih i other solid false)

/-- `hashChildren` of a short or full node returns a collapsed form of it. -/
theorem hashChildren_whole (shaped : Shaped ln) (present : ln ≠ .nil) (unhashed : ∀ x, ln ≠ .hash x) :
    Proc.Spec (fun _ => True) (h.hashChildren C ln) (fun out _ => Whole ln out.1) fun _ _ => True := by
  cases shaped with
  | nil => exact absurd rfl present
  | hash x => exact absurd rfl (unhashed x)
  | leaf ends keyFits valueFits => exact hashChildren_leaf ends keyFits valueFits
  | extension digits keyFits solid below =>
    exact hashChildren_extension digits keyFits below (hash_piece below solid false)
  | full below last => exact hashChildren_full last fun i other solid => hash_piece (below i other) solid false

/-- Whatever `hashChildren` makes of a node of a trie, its encoding is decoded and its form in the database is expanded
to the node in hex keys that it collapses; and compact keys give back the hex keys they were made of. -/
theorem node_codec :
    (∀ (h : Hasher) (ln cached : LiveNode) (c : Stored) (db db' : Database), Shaped ln → ln ≠ .nil →
      (∀ x, ln ≠ .hash x) →
      (h.hashChildren C ln).run db = .ok (c, cached) db' →
      ∀ gen hash, ∃ n, Collapses gen (.own hash) ln n c ∧ decodeNode hash c.item.encode gen = .ok n ∧
        (Content.node c).rlp = some c.item.encode ∧
        ∀ x, hash = some x → (Content.node c).obj x gen = .ok n ∧ (Content.blob c.item.encode).obj x gen = .ok n) ∧
      ∀ key, Digits key ∨ Terminated key → compactToHex (hexToCompact key) = key := by
  refine ⟨fun h ln cached c db db' shaped present unhashed ran gen hash => ?_, fun key => compactToHex_hexToCompact⟩
  obtain ⟨n, collapses⟩ := (hashChildren_whole shaped present unhashed).ok trivial ran gen hash
  refine ⟨n, collapses, collapses.decodeNode_eq, if_neg (by simpa using collapses.ne_nil), ?_⟩
  rintro x rfl
  constructor
  · simp only [Content.obj, collapses.readable.expandable collapses.ne_nil, ↓reduceIte]
    exact congrArg Except.ok collapses.expand
  · simp only [Content.obj, mustDecodeNode, collapses.decodeNode_eq]

/-- A full node over a leaf that is hashed, one that is not, and a value. -/
def mixedBranch : LiveNode :=
  .full (fun i => if i = 0 then .short [3, 16] (.value (List.replicate 32 7)) ⟨none, 0, true⟩
    else if i = 1 then .short [16] (.value [5]) ⟨none, 0, true⟩ else if i = 16 then .value [9]
      else .nil) ⟨none, 0, true⟩

theorem shaped_mixedBranch : Shaped mixedBranch := by
  refine .full (fun i other => ?_) (.inr ⟨[9], by simp, by simp [maxAlloc], rfl⟩)
  rw [if_neg other]
  split_ifs
  · exact .leaf (by simp [Terminated]) (by simp [maxAlloc]) (by simp [maxAlloc])
  · exact .leaf (by simp [Terminated]) (by simp [maxAlloc]) (by simp [maxAlloc])
  · exact .nil

/-- The branch is collapsed to an encoding with a hash of 32 bytes in it, and is read back from that. -/
theorem node_codec_branch : ∃ c n, Collapses 7 (.own none) mixedBranch n c ∧ c.item.encode.length = 52 ∧
    decodeNode none c.item.encode 7 = .ok n ∧ compactToHex (hexToCompact [3, 16]) = [3, 16] := by
  obtain ⟨⟨c, cached⟩, db', ran, length⟩ : ∃ out db', (Hasher.hashChildren .numeral ⟨false, 0, 0⟩ mixedBranch).run
      (.new (fun _ => none) fun _ => none) = .ok out db' ∧ out.1.item.encode.length = 52 := by
    decide +kernel
  obtain ⟨codec, keys⟩ := node_codec (C := .numeral)
  obtain ⟨n, collapses, decoded, -⟩ := codec _ _ _ _ _ _ shaped_mixedBranch (by simp [mixedBranch])
    (by simp [mixedBranch]) ran 7 none
  exact ⟨c, n, collapses, length, decoded, keys _ (.inr (by simp [Terminated]))⟩

end Hashing

end KKChain.Trie
