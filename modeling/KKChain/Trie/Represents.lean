import KKChain.Trie.Collapse
import KKChain.Trie.LiveTrie

/-! # What a trie in memory stands for

A node in memory represents a canonical node: hashes in it are those of nodes that the database holds with all that is
below, cached hashes are right, and a node that is not dirty is in the database. Reading, inserting and deleting then do
what they do on the node itself.
-/

namespace KKChain.Trie

open Node Function

/-- Short and full nodes. -/
def Node.inner {V : Type} : Node V → Bool
  | nil => false
  | value _ => false
  | short _ _ => true
  | full _ => true

/-- A node of a trie whose nodes are encoded by strings of `S`. -/
structure Known (C : Crypto) (S : Set Bytes) (n : Node Bytes) : Prop where
  inner : n.inner = true
  canonical : Canonical n
  stores : Node.Stores id n
  inside : n.encodings C id ⊆ S

/-- What may stand below such a node. -/
def Fine (C : Crypto) (S : Set Bytes) (n : Node Bytes) : Prop := n = .nil ∨ (∃ v, n = .value v) ∨ Known C S n

/-- The database holds the node: in its cache collapsed or as a blob, or on disk. -/
def Database.Holds (C : Crypto) (db : Database) (n : Node Bytes) : Prop :=
  match db.nodes.lookup (n.digest C) with
  | some e => e.content = .node (n.stored C) ∨ e.content = .blob (n.encoding C)
  | none => db.disk (n.digest C) = some (n.encoding C)

/-- The database holds every node that is referred to by its hash, from this one down. -/
def Kept (C : Crypto) (db : Database) : Node Bytes → Prop
  | nil => True
  | value _ => True
  | short key val => (Sized C (short key val) → db.Holds C (short key val)) ∧ Kept C db val
  | full children => (Sized C (full children) → db.Holds C (full children)) ∧ ∀ i, Kept C db (children i)

/-- The flags of a node are right. A node at the root is referred to by its hash whatever its size. -/
structure Flagged (C : Crypto) (db : Database) (root : Bool) (flags : NodeFlag) (n : Node Bytes) : Prop where
  hash : ∀ {h}, flags.hash = some h → h = n.digest C ∧ (root = true ∨ Sized C n)
  clean : flags.dirty = false → Kept C db n ∧ (root = true → db.Holds C n)

/-- The node in memory stands for the node. -/
inductive Represents (C : Crypto) (db : Database) : Bool → LiveNode → Node Bytes → Prop
  | nil {root : Bool} : Represents C db root .nil .nil
  | value {root : Bool} (b : Bytes) : Represents C db root (.value b) (.value b)
  | hash {root : Bool} {n : Node Bytes} (inner : n.inner = true) (held : db.Holds C n) (kept : Kept C db n)
      (referred : root = true ∨ Sized C n) : Represents C db root (.hash (n.digest C)) n
  | short {root : Bool} {key : Key} {val : LiveNode} {n : Node Bytes} {flags : NodeFlag}
    (below : Represents C db false val n)
      (flagged : Flagged C db root flags (.short key n)) : Represents C db root (.short key val flags) (.short key n)
  | full {root : Bool} {children : Nibble → LiveNode} {ns : Nibble → Node Bytes} {flags : NodeFlag}
      (below : ∀ i, Represents C db false (children i) (ns i)) (flagged : Flagged C db root flags (.full ns)) :
      Represents C db root (.full children flags) (.full ns)

variable {C : Crypto} {S : Set Bytes} {db : Database} {root : Bool} {n m : Node Bytes} {ln : LiveNode} {gen : UInt16}
  {out : Bool × Node Bytes} {ns : Nibble → Node Bytes} {fuel : ℕ} {key path k : Key} {children : Nibble → LiveNode}
  {own : Option Hash} {x : Nibble} {v : Bytes}

theorem Kept.holds (kept : Kept C db n) (inner : n.inner = true) (sized : n.Sized C) : db.Holds C n := by
  cases n with
  | nil | value => cases inner
  | short | full => exact kept.1 sized

section Known

theorem Known.present (known : Known C S n) : n ≠ .nil := by
  rintro rfl
  exact absurd known.inner (by simp [Node.inner])

theorem Node.Canonical.inner (canonical : Canonical n) (present : n ≠ .nil) : n.inner = true := by
  cases canonical with
  | nil => exact absurd rfl present
  | _ => rfl

theorem Node.Canonical.fine (canonical : Canonical n) (stores : Node.Stores id n) (inside : n.encodings C id ⊆ S) :
    Fine C S n := by
  by_cases empty : n = .nil
  · exact .inl empty
  · exact .inr (.inr ⟨canonical.inner empty, canonical, stores, inside⟩)

theorem Known.of_short (known : Known C S (.short key n)) : Fine C S n := by
  obtain ⟨-, canonical, stores, inside⟩ := known
  cases canonical with
  | leaf => exact .inr (.inl ⟨_, rfl⟩)
  | extension nonempty digits below =>
    exact below.fine (stores.below_short digits) (Set.subset_union_right.trans inside)

theorem Known.key_ne_nil (known : Known C S (.short key n)) : key ≠ [] := by
  obtain ⟨-, canonical, -, -⟩ := known
  cases canonical with
  | leaf terminated =>
    rintro rfl
    exact terminated
  | extension nonempty => exact nonempty

theorem Known.of_full (known : Known C S (.full ns)) (i : Nibble) : Fine C S (ns i) := by
  obtain ⟨-, canonical, stores, inside⟩ := known
  cases canonical with
  | full below here two =>
    by_cases atEnd : i = 16
    · subst atEnd
      exact here.imp_right .inl
    · exact (below i atEnd).fine (stores.below_full atEnd) ((encodings_child_subset ns i).trans inside)

theorem Known.length_lt (known : Known C S n) : (n.encoding C).length < 2 ^ 64 :=
  known.canonical.length_lt known.stores _ (known.canonical.encode_mem C id)

theorem Known.encoding_mem (known : Known C S n) : n.encoding C ∈ S := known.inside (known.canonical.encode_mem C id)

/-- Nodes with the same hash are the same, if there are no collisions in `S`. -/
theorem Known.eq_of_digest (inj : Set.InjOn C.keccak S) (first : Known C S n) (second : Known C S m)
    (same : n.digest C = m.digest C) : n = m := by
  have encodings : n.encoding C = m.encoding C := inj first.encoding_mem second.encoding_mem same
  have items := Rlp.Item.encode_inj first.length_lt second.length_lt encodings
  exact first.canonical.collapse_inj injective_id second.canonical first.stores second.stores
    (inj.mono (Set.union_subset first.inside second.inside)) items

end Known

section Loading

/-- A node that the database holds is loaded as it was stored. -/
theorem Known.load (known : Known C S n) (held : db.Holds C n) :
    db.load (n.digest C) gen = .ok (some ((n.stored C).expand gen (some (n.digest C)))) := by
  have decoded : mustDecodeNode (n.digest C) (n.encoding C) gen =
      .ok ((n.stored C).expand gen (some (n.digest C))) := by
    have := known.canonical.decodes gen known.stores known.present known.length_lt
      ((n.encoding C).length + 1) (some (n.digest C)) [] (by omega)
    rw [List.append_nil] at this
    rw [mustDecodeNode, decodeNode, this]
  unfold Database.Holds at held
  unfold Database.load
  cases found : db.nodes.lookup (n.digest C) with
  | some e =>
    rw [found] at held
    rcases held with content | content
    · have expands :=
        (known.canonical.readable (C := C) known.stores known.present).expandable (stored_ne_nil known.present)
      simp only [content, Content.obj, expands, ↓reduceIte]
      rfl
    · simp only [content, Content.obj, decoded]
      rfl
  | none =>
    rw [found] at held
    simp only [held, decoded]
    rfl

theorem Flagged.loaded (kept : Kept C db n) (right : ∀ {h}, own = some h → h = n.digest C ∧ (root = true ∨ Sized C n))
    (held : root = true → db.Holds C n) : Flagged C db root (.loaded own gen) n where
  hash same := right same
  clean _ := ⟨kept, held⟩

theorem Flagged.new : Flagged C db root (newFlag gen) n := ⟨nofun, nofun⟩

/-- A node that is expanded stands for the node that was collapsed. -/
theorem Represents.expand (canonical : Canonical n) (kept : Kept C db n)
    (right : ∀ {h}, own = some h → h = n.digest C ∧ (root = true ∨ Sized C n)) (held : root = true → db.Holds C n) :
    Represents C db root ((n.stored C).expand gen own) n := by
  have child : ∀ {m : Node Bytes}, Canonical m → Kept C db m → Represents C db false ((m.stored C).expand gen none) m →
      Represents C db false (((m.stored C).refer C).expand gen none) m := by
    intro m canonical kept inline
    by_cases empty : m = .nil
    · rwa [empty] at inline ⊢
    by_cases sized : m.Sized C
    · have inner := canonical.inner empty
      rw [canonical.refer_of_sized empty sized]
      exact .hash inner (kept.holds inner sized) kept (.inr sized)
    · rwa [canonical.refer_of_small sized]
  induction canonical generalizing root own with
  | nil => exact .nil
  | leaf terminated =>
    simp only [stored, isValue, ↓reduceIte, Stored.expand, compactToHex_hexToCompact (.inr terminated)]
    exact .short (.value _) (.loaded kept right held)
  | extension nonempty digits below ih =>
    simp only [stored, isValue, Bool.false_eq_true, ↓reduceIte, Stored.expand, compactToHex_hexToCompact (.inl digits)]
    exact .short (child below kept.2 (ih kept.2 (by simp) (by simp))) (.loaded kept right held)
  | @full children below here two ih =>
    simp only [stored, Stored.expand]
    refine .full (fun i => ?_) (.loaded kept right held)
    by_cases atEnd : i = 16
    · subst atEnd
      rcases here with empty | ⟨v, held⟩
      · simp only [↓reduceIte, empty, stored, Stored.expand]
        exact .nil
      · simp only [↓reduceIte, held, stored, Stored.expand]
        exact .value v
    · simp only [atEnd, ↓reduceIte]
      exact child (below i atEnd) (kept.2 i) (ih i atEnd (kept.2 i) (by simp) (by simp))

/-- A node that is loaded. -/
def LiveNode.isHash : LiveNode → Bool
  | .hash _ => true
  | _ => false

/-- A hash is resolved to the node it is the hash of. -/
theorem Represents.resolveHash (gen : UInt16) {h : Hash} (known : Known C S n) (rep : Represents C db root (.hash h) n)
    (path : Key) :
    ∃ rn, Trie.resolveHash db gen h path = .ok rn ∧ Represents C db root rn n ∧ rn.isHash = false := by
  cases rep with
  | hash inner held kept referred =>
    refine ⟨_, by rw [Trie.resolveHash, known.load held]; rfl, .expand known.canonical kept ?_ fun _ => held, ?_⟩
    · rintro h same
      cases same
      exact ⟨rfl, referred⟩
    · cases n with
      | nil | value => cases inner
      | short | full => rfl

end Loading

section Operations

/-- Nothing below a full node is longer to walk than the key that is left. -/
theorem steps_drop (k key : Key) (nonempty : k ≠ []) (starts : k.length ≤ key.length)
    (enough : 2 * key.length + 1 ≤ fuel + 1) : stepsFor (key.drop k.length) ≤ fuel := by
  have := List.length_pos_of_ne_nil nonempty
  simp only [stepsFor, List.length_drop]
  omega

theorem steps_tail (x : Nibble) (key : Key) (enough : 2 * (x :: key).length + 1 ≤ fuel + 1) : stepsFor key ≤ fuel :=
  steps_drop [x] (x :: key) (by simp) (by simp) enough

theorem exists_fuel (enough : stepsFor key ≤ fuel) : ∃ k, fuel = k + 1 :=
  ⟨fuel - 1, by unfold stepsFor at enough; omega⟩

/-- Flags that differ in their generation are right for the same nodes. -/
theorem Flagged.touched {flags : NodeFlag} (flagged : Flagged C db root flags n) :
    Flagged C db root { flags with gen := gen } n :=
  ⟨flagged.hash, flagged.clean⟩

/-- The key ends at the node, or goes on to a terminator below it. -/
def Reaches (n : Node Bytes) (key : Key) : Prop := n.inner = false ∨ Terminated key

theorem Known.reaches_short {rest : Key} (known : Known C S (.short k n)) (reaches : Reaches (.short k n) (k ++ rest)) :
    Reaches n rest := by
  have terminated := reaches.resolve_left (by simp [Node.inner])
  obtain ⟨-, canonical, -, -⟩ := known
  cases canonical with
  | leaf => exact .inl rfl
  | extension nonempty digits => exact .inr ((terminated_append digits).mp terminated)

theorem Known.reaches_full (known : Known C S (.full ns))
    (reaches : Reaches (.full ns) (x :: key)) : Reaches (ns x) key := by
  have terminated := reaches.resolve_left (by simp [Node.inner])
  obtain ⟨-, canonical, -, -⟩ := known
  cases canonical with
  | full below here two =>
    rcases terminated_cons.mp terminated with ⟨rfl, -⟩ | ⟨-, tail⟩
    · refine .inl ?_
      rcases here with empty | ⟨v, held⟩
      · rw [empty]
        rfl
      · rw [held]
        rfl
    · exact .inr tail

theorem Fine.known (fine : Fine C S n) (inner : n.inner = true) : Known C S n := by
  rcases fine with rfl | ⟨v, rfl⟩ | known
  · cases inner
  · cases inner
  · exact known

theorem Represents.update (below : ∀ i, Represents C db false (children i) (ns i))
    (rep : Represents C db false ln m) (i : Nibble) :
    Represents C db false (update children x ln i) (update ns x m i) := by
  by_cases here : i = x
  · subst here
    simpa using rep
  · simpa [here] using below i

/-- The outcome of a lookup. -/
def Finds (C : Crypto) (db : Database) (root : Bool) (n : Node Bytes) (key : Key) (outcome : Outcome Found) : Prop :=
  ∃ ln loaded, outcome = .ok (n.get key, ln, loaded) ∧ Represents C db root ln n

/-- It is enough to search nodes that are loaded. -/
theorem Known.finds (known : Known C S n) (rep : Represents C db root ln n)
    (enough : stepsFor key ≤ fuel)
    (loaded : ∀ {ln : LiveNode} (fuel : ℕ), Represents C db root ln n → ln.isHash = false →
      2 * key.length + 1 ≤ fuel + 1 →
      Finds C db root n key (ln.tryGet db gen (fuel + 1) path key)) :
    Finds C db root n key (ln.tryGet db gen fuel path key) := by
  unfold stepsFor at enough
  obtain ⟨fuel, rfl⟩ : ∃ k, fuel = k + 2 := ⟨fuel - 2, by omega⟩
  cases ln with
  | hash h =>
    obtain ⟨rn, resolved, rep, shape⟩ := rep.resolveHash gen known path
    obtain ⟨ln', didResolve, ran, rep⟩ := loaded fuel rep shape (by omega)
    exact ⟨ln', true, by simp only [LiveNode.tryGet, resolved, ran, bind, Except.bind], rep⟩
  | _ => exact loaded _ rep rfl (by omega)

/-- A lookup finds what the node has, and loads nodes without changing what is represented. -/
theorem Represents.tryGet (gen : UInt16) (fine : Fine C S n) (rep : Represents C db root ln n) (path key : Key)
    (reaches : Reaches n key) (enough : stepsFor key ≤ fuel) :
    Finds C db root n key (ln.tryGet db gen fuel path key) := by
  induction n generalizing root ln path key fuel with
  | nil =>
    obtain ⟨fuel, rfl⟩ := exists_fuel enough
    cases rep with
    | nil => exact ⟨.nil, false, rfl, .nil⟩
    | hash inner => cases inner
  | value v =>
    obtain ⟨fuel, rfl⟩ := exists_fuel enough
    cases rep with
    | value => exact ⟨.value v, false, rfl, .value v⟩
    | hash inner => cases inner
  | short k m ih =>
    have known := fine.known rfl
    refine known.finds rep enough fun {ln} fuel rep shape enough => ?_
    cases rep with
    | hash => cases shape
    | @short _ _ val _ flags below flagged =>
      by_cases starts : k <+: key
      · obtain ⟨rest, rfl⟩ := starts
        obtain ⟨ln', loaded, ran, rep⟩ := ih known.of_short below (path ++ k) rest (known.reaches_short reaches)
          (by simpa using steps_drop k (k ++ rest) known.key_ne_nil (by simp) enough)
        simp only [LiveNode.tryGet, List.prefix_append, ↓reduceIte, List.drop_left, ran, bind, Except.bind,
          get_short_append, Finds]
        cases loaded with
        | true => exact ⟨_, true, rfl, .short rep flagged.touched⟩
        | false => exact ⟨_, false, rfl, .short below flagged⟩
      · exact ⟨_, false, by simp [LiveNode.tryGet, starts, get_short_eq_none starts], .short below flagged⟩
  | full ns ih =>
    have known := fine.known rfl
    refine known.finds rep enough fun {ln} fuel rep shape enough => ?_
    cases rep with
    | hash => cases shape
    | @full _ children _ flags below flagged =>
      obtain - | ⟨x, key⟩ := key
      · exact (not_terminated_nil (reaches.resolve_left (by simp [Node.inner]))).elim
      obtain ⟨ln', loaded, ran, rep⟩ := ih x (known.of_full x) (below x) (path ++ [x]) key (known.reaches_full reaches)
        (steps_tail x key enough)
      simp only [LiveNode.tryGet, ran, bind, Except.bind, get_full_cons, Finds]
      cases loaded with
      | true => exact ⟨_, true, rfl, .full (by simpa using Represents.update (x := x) below rep) flagged.touched⟩
      | false => exact ⟨_, false, rfl, .full below flagged⟩

/-- The outcome of a change stands for what the change leads to on the nodes. A node that is new is loaded. -/
def Follows (C : Crypto) (db : Database) (root : Bool) (outcome : Outcome (Bool × LiveNode))
    (out : Bool × Node Bytes) : Prop :=
  ∃ ln, outcome = .ok (out.1, ln) ∧ Represents C db root ln out.2 ∧ (out.1 = true → ln.isHash = false)

/-- It is enough to change nodes that are loaded. -/
theorem Known.follows (known : Known C S n) (act : ℕ → LiveNode → Outcome (Bool × LiveNode))
    (rep : Represents C db root ln n)
    (resolves : ∀ {fuel h}, act (fuel + 1) (.hash h) = (do
      let rn ← Trie.resolveHash db gen h path
      let child ← act fuel rn
      .ok (unlessClean rn id child)))
    (same : out.1 = false → out.2 = n) (enough : stepsFor key ≤ fuel)
    (loaded : ∀ {ln : LiveNode} (fuel : ℕ), Represents C db root ln n → ln.isHash = false →
      2 * key.length + 1 ≤ fuel + 1 →
      Follows C db root (act (fuel + 1) ln) out) :
    Follows C db root (act fuel ln) out := by
  unfold stepsFor at enough
  obtain ⟨fuel, rfl⟩ : ∃ k, fuel = k + 2 := ⟨fuel - 2, by omega⟩
  cases ln with
  | hash h =>
    obtain ⟨rn, resolved, rep, shape⟩ := rep.resolveHash gen known path
    obtain ⟨ln', ran, follows⟩ := loaded fuel rep shape (by omega)
    rw [resolves]
    simp only [resolved, ran, bind, Except.bind]
    obtain ⟨dirty, n'⟩ := out
    cases dirty with
    | true => exact ⟨ln', rfl, follows⟩
    | false =>
      obtain rfl : n' = n := same rfl
      exact ⟨rn, rfl, rep, fun _ => shape⟩
  | _ => exact loaded _ rep rfl (by omega)

/-- A change below a node, put back. -/
theorem Follows.rebuild {child : Outcome (Bool × LiveNode)} {old : LiveNode}
    {put : LiveNode → LiveNode} {put' : Node Bytes → Node Bytes} (below : Follows C db false child out)
    (rep : Represents C db root old n)
    (puts : ∀ {ln m}, Represents C db false ln m → ln.isHash = false →
      Represents C db root (put ln) (put' m) ∧ (put ln).isHash = false) :
    Follows C db root (do let c ← child; .ok (unlessClean old put c)) (Node.rebuild n put' out) := by
  obtain ⟨ln', rfl, follows, shape⟩ := below
  obtain ⟨dirty, n'⟩ := out
  cases dirty with
  | true =>
    obtain ⟨rep, shape⟩ := puts follows (shape rfl)
    exact ⟨put ln', rfl, rep, fun _ => shape⟩
  | false => exact ⟨old, rfl, rep, fun changed => nomatch changed⟩

theorem prefixLen_le_left (first second : Key) : prefixLen first second ≤ first.length := by
  induction first generalizing second with
  | nil => simp [prefixLen]
  | cons x first ih =>
    cases second with
    | nil => simp [prefixLen]
    | cons y second =>
      have := ih second
      simp only [prefixLen, List.length_cons]
      split_ifs <;> omega

/-- Inserting where there is nothing. -/
theorem insert_nil (gen : UInt16) (fuel : ℕ) (path key : Key) {new : LiveNode} (rep : Represents C db false new m) :
    ∃ ln, LiveNode.insert db gen (fuel + 1) .nil path key new = .ok (true, ln) ∧
      Represents C db false ln (insertNil key m) := by
  cases key with
  | nil => exact ⟨new, rfl, rep⟩
  | cons x key => exact ⟨_, rfl, .short rep .new⟩

/-- Where the keys part, `insert` makes a full node of both. -/
theorem insert_branch {matchlen : ℕ} {front : Key} {a b : Nibble} {val new : LiveNode} {m' : Node Bytes}
    (below : Represents C db false val m) (rep : Represents C db false new m') (paths : Key × Key) :
    Follows C db root (do
      let (_, left) ← LiveNode.insert db gen (fuel + 1) .nil paths.1 k val
      let (_, right) ← LiveNode.insert db gen (fuel + 1) .nil paths.2 key new
      let branch := .full (update (update (fun _ => .nil) a left) b right) (newFlag gen)
      .ok (true, if matchlen = 0 then branch else .short front branch (newFlag gen)))
      (true, if matchlen = 0 then branch a (insertNil k m) b (insertNil key m')
        else .short front (branch a (insertNil k m) b (insertNil key m'))) := by
  obtain ⟨left, ranLeft, left'⟩ := insert_nil gen fuel paths.1 k below
  obtain ⟨right, ranRight, right'⟩ := insert_nil gen fuel paths.2 key rep
  have both : ∀ root, Represents C db root
      (.full (update (update (fun _ => .nil) a left) b right) (newFlag gen))
      (branch a (insertNil k m) b (insertNil key m')) :=
    fun root => .full (Represents.update (Represents.update (fun _ => .nil) left') right') .new
  simp only [ranLeft, ranRight, bind, Except.bind]
  split_ifs
  · exact ⟨_, rfl, both root, fun _ => rfl⟩
  · exact ⟨_, rfl, .short (both false) .new, fun _ => rfl⟩

theorem Node.rebuild_clean {put : Node Bytes → Node Bytes} {inner : Option (Bool × Node Bytes)}
    (ran : inner.map (Node.rebuild n put) = some out) (clean : out.1 = false) : out.2 = n := by
  obtain ⟨⟨dirty, n'⟩, -, rfl⟩ := Option.map_eq_some_iff.mp ran
  cases dirty with
  | true => cases clean
  | false => rfl

/-- A node that is not reported as changed is the old one. -/
theorem Node.insert_clean (ran : n.insert key (.value v) = some out)
    (clean : out.1 = false) : out.2 = n := by
  have changed : ∀ {n' : Node Bytes}, some (true, n') = some out → out.2 = n := by
    rintro n' same
    cases same
    cases clean
  cases n with
  | nil => exact changed ran
  | value w =>
    cases key with
    | nil =>
      cases ran
      have same : w = v := by simpa using clean
      rw [same]
    | cons x key => cases ran
  | short k m =>
    cases key with
    | nil => exact changed ran
    | cons x key =>
      rw [Node.insert] at ran
      by_cases whole : prefixLen (x :: key) k = k.length
      · rw [if_pos whole] at ran
        exact Node.rebuild_clean ran clean
      · rw [if_neg whole] at ran
        split at ran
        · exact changed ran
        · cases ran
  | full ns =>
    cases key with
    | nil => exact changed ran
    | cons x key => exact Node.rebuild_clean ran clean

/-- `insert` leads to a node in memory that stands for the node with the value inserted. -/
theorem Represents.insert (gen : UInt16) (fine : Fine C S n) (rep : Represents C db root ln n) (path key : Key)
    (enough : stepsFor key ≤ fuel) (ran : n.insert key (.value v) = some out) :
    Follows C db root (ln.insert db gen fuel path key (.value v)) out := by
  induction n generalizing root ln path key fuel out with
  | nil =>
    obtain ⟨fuel, rfl⟩ := exists_fuel enough
    cases ran
    cases rep with
    | nil =>
      cases key with
      | nil => exact ⟨.value v, rfl, .value v, fun _ => rfl⟩
      | cons x key => exact ⟨_, rfl, .short (.value v) .new, fun _ => rfl⟩
    | hash inner => cases inner
  | value w =>
    obtain ⟨fuel, rfl⟩ := exists_fuel enough
    cases rep with
    | value =>
      cases key with
      | nil =>
        cases ran
        refine ⟨.value v, ?_, .value v, fun _ => rfl⟩
        change Except.ok (w != v, LiveNode.value v) = _
        congr 2
        rw [Bool.eq_iff_iff]
        simp
      | cons x key => cases ran
    | hash inner => cases inner
  | short k m ih =>
    have known := fine.known rfl
    obtain - | ⟨x, key⟩ := key
    · obtain ⟨fuel, rfl⟩ := exists_fuel enough
      cases ran
      cases rep <;> exact ⟨.value v, rfl, .value v, fun _ => rfl⟩
    refine known.follows (fun fuel ln => ln.insert db gen fuel path (x :: key) (.value v)) rep rfl
      (Node.insert_clean ran) enough fun {ln} fuel rep shape enough => ?_
    cases rep with
    | hash => cases shape
    | @short _ _ val _ flags below flagged =>
      rw [Node.insert] at ran
      rw [LiveNode.insert]
      by_cases whole : prefixLen (x :: key) k = k.length
      · rw [if_pos whole] at ran ⊢
        obtain ⟨inner, inserted, rfl⟩ := Option.map_eq_some_iff.mp ran
        have starts := prefixLen_le_left (x :: key) k
        refine (ih known.of_short below (path ++ k) _ ?_ inserted).rebuild (.short below flagged)
          fun rep _ => ⟨.short rep .new, rfl⟩
        rw [whole] at starts ⊢
        exact steps_drop k (x :: key) known.key_ne_nil starts enough
      · rw [if_neg whole] at ran ⊢
        cases tail : k.drop (prefixLen (x :: key) k) with
        | nil =>
          rw [tail] at ran
          cases ran
        | cons a k' =>
          cases tail' : (x :: key).drop (prefixLen (x :: key) k) with
          | nil =>
            rw [tail, tail'] at ran
            cases ran
          | cons b key' =>
            rw [tail, tail'] at ran
            cases ran
            obtain ⟨fuel, rfl⟩ : ∃ k, fuel = k + 1 := ⟨fuel - 1, by simp at enough; omega⟩
            exact insert_branch below (.value v) (path ++ k.take (prefixLen (x :: key) k + 1),
              path ++ (x :: key).take (prefixLen (x :: key) k + 1))
  | full ns ih =>
    have known := fine.known rfl
    obtain - | ⟨x, key⟩ := key
    · obtain ⟨fuel, rfl⟩ := exists_fuel enough
      cases ran
      cases rep <;> exact ⟨.value v, rfl, .value v, fun _ => rfl⟩
    refine known.follows (fun fuel ln => ln.insert db gen fuel path (x :: key) (.value v)) rep rfl
      (Node.insert_clean ran) enough fun {ln} fuel rep shape enough => ?_
    cases rep with
    | hash => cases shape
    | @full _ children _ flags below flagged =>
      obtain ⟨inner, inserted, rfl⟩ := Option.map_eq_some_iff.mp ran
      exact (ih x (known.of_full x) (below x) (path ++ [x]) key (steps_tail x key enough) inserted).rebuild
        (.full below flagged) fun rep _ => ⟨.full (Represents.update below rep) .new, rfl⟩

/-- A node that is not reported as changed is the old one. -/
theorem Node.delete_clean (ran : n.delete key = some out) (clean : out.1 = false) :
    out.2 = n := by
  cases n with
  | nil =>
    cases ran
    rfl
  | value w =>
    cases ran
    cases clean
  | short k m =>
    rw [Node.delete] at ran
    split_ifs at ran
    · cases ran
      rfl
    · cases ran
      cases clean
    · exact Node.rebuild_clean ran clean
  | full ns =>
    cases key with
    | nil => cases ran
    | cons x key => exact Node.rebuild_clean ran clean

theorem Represents.isNil (rep : Represents C db root ln n) : ln.isNil = n.isNil := by
  cases rep with
  | hash inner =>
    cases n with
    | nil => cases inner
    | _ => rfl
  | _ => rfl

theorem Represents.inner_of_isHash (rep : Represents C db root ln n) (isHash : ln.isHash = true) : n.inner = true := by
  cases rep with
  | hash inner => exact inner
  | _ => cases isHash

/-- A short node over what a delete has left, if that is loaded. -/
theorem Represents.merge (rep : Represents C db false ln m) (shape : ln.isHash = false) :
    Represents C db root (ln.merge gen k) (Node.extend k m) := by
  cases rep with
  | nil => exact .short .nil .new
  | value b => exact .short (.value b) .new
  | hash => cases shape
  | short below flagged => exact .short below .new
  | full below flagged => exact .short (.full below flagged) .new

/-- A child is loaded, to see whether it is short. -/
theorem Represents.resolve (gen : UInt16) (known : ln.isHash = true → Known C S n) (rep : Represents C db root ln n)
    (path : Key) :
    ∃ rn, Trie.resolve db gen ln path = .ok rn ∧ Represents C db root rn n ∧ rn.isHash = false := by
  cases ln with
  | hash h => exact rep.resolveHash gen (known rfl) path
  | _ => exact ⟨_, rfl, rep, rfl⟩

/-- The only child of a full node takes its place. -/
theorem Represents.contract (root : Bool) (gen : UInt16)
    (below : ∀ i, Represents C db false (children i) (ns i))
    (known : ∀ i, (children i).isHash = true → Known C S (ns i)) (path : Key) :
    ∃ ln, LiveNode.reduce db gen children path = .ok ln ∧ Represents C db root ln (Node.reduce ns) ∧
      ln.isHash = false := by
  have used : (List.finRange 17).filter (fun i => !(children i).isNil) =
      (List.finRange 17).filter fun i => !(ns i).isNil := by
    refine List.filter_congr fun i _ => ?_
    rw [(below i).isNil]
  unfold LiveNode.reduce Node.reduce
  rw [used]
  generalize (List.finRange 17).filter (fun i => !(ns i).isNil) = l
  obtain - | ⟨pos, - | ⟨second, l⟩⟩ := l
  · exact ⟨_, rfl, .full below .new, rfl⟩
  · dsimp only
    by_cases atEnd : pos = 16
    · subst atEnd
      refine ⟨_, if_neg (by simp), ?_, rfl⟩
      have plain : Node.contract 16 (ns 16) = .short [16] (ns 16) := by
        unfold Node.contract
        split <;> rfl
      rw [plain]
      exact .short (below 16) .new
    · obtain ⟨rn, resolved, rep, shape⟩ := (below pos).resolve gen (known pos) path
      rw [if_pos atEnd]
      simp only [resolved, bind, Except.bind]
      have child := below pos
      revert child
      generalize ns pos = m at rep
      intro child
      cases rep with
      | nil | value | full => exact ⟨_, rfl, .short child .new, rfl⟩
      | hash => cases shape
      | short below flagged =>
        simp only [Node.contract, atEnd, ↓reduceIte]
        exact ⟨_, rfl, .short below .new, rfl⟩
  · exact ⟨_, rfl, .full below .new, rfl⟩

/-- `delete` leads to a node in memory that stands for the node with the value deleted. -/
theorem Represents.delete (gen : UInt16) (fine : Fine C S n) (rep : Represents C db root ln n) (path key : Key)
    (enough : stepsFor key ≤ fuel) (ran : n.delete key = some out) :
    Follows C db root (ln.delete db gen fuel path key) out := by
  induction n generalizing root ln path key fuel out with
  | nil =>
    obtain ⟨fuel, rfl⟩ := exists_fuel enough
    cases ran
    cases rep with
    | nil => exact ⟨.nil, rfl, .nil, fun _ => rfl⟩
    | hash inner => cases inner
  | value w =>
    obtain ⟨fuel, rfl⟩ := exists_fuel enough
    cases ran
    cases rep with
    | value => exact ⟨.nil, rfl, .nil, fun _ => rfl⟩
    | hash inner => cases inner
  | short k m ih =>
    have known := fine.known rfl
    refine known.follows (fun fuel ln => ln.delete db gen fuel path key) rep rfl
      (Node.delete_clean ran) enough fun {ln} fuel rep shape enough => ?_
    cases rep with
    | hash => cases shape
    | @short _ _ val _ flags below flagged =>
      rw [Node.delete] at ran
      rw [LiveNode.delete]
      split_ifs at ran ⊢ with differs whole
      · cases ran
        exact ⟨_, rfl, .short below flagged, fun _ => rfl⟩
      · cases ran
        exact ⟨.nil, rfl, .nil, fun _ => rfl⟩
      · obtain ⟨inner, deleted, rfl⟩ := Option.map_eq_some_iff.mp ran
        have starts := prefixLen_le_left key k
        refine (ih known.of_short below (path ++ k) _ (steps_drop k key known.key_ne_nil (by omega) enough)
          deleted).rebuild
          (.short below flagged) fun {ln m} rep shape => ⟨rep.merge shape, ?_⟩
        cases ln <;> rfl
  | full ns ih =>
    have known := fine.known rfl
    obtain - | ⟨x, key⟩ := key
    · cases ran
    refine known.follows (fun fuel ln => ln.delete db gen fuel path (x :: key)) rep rfl
      (Node.delete_clean ran) enough fun {ln} fuel rep shape enough => ?_
    cases rep with
    | hash => cases shape
    | @full _ children _ flags below flagged =>
      obtain ⟨⟨dirty, n'⟩, deleted, rfl⟩ := Option.map_eq_some_iff.mp ran
      obtain ⟨ln', ran, rep, loaded⟩ := ih x (known.of_full x) (below x) (path ++ [x]) key
        (steps_tail x key enough) deleted
      simp only [LiveNode.delete, ran, bind, Except.bind]
      cases dirty with
      | false => exact ⟨_, rfl, .full below flagged, fun _ => rfl⟩
      | true =>
        have hashes : ∀ i, (Function.update children x ln' i).isHash = true →
            Known C S (Function.update ns x n' i) := by
          intro i isHash
          by_cases here : i = x
          · subst here
            simp [loaded rfl] at isHash
          · rw [update_of_ne here] at isHash ⊢
            exact (known.of_full i).known ((below i).inner_of_isHash isHash)
        obtain ⟨reduced, ran, rep, shape⟩ := Represents.contract root gen
          (Represents.update below rep) hashes path
        simp only [ran, ↓reduceIte]
        exact ⟨reduced, rfl, rep, fun _ => shape⟩

end Operations

end KKChain.Trie
