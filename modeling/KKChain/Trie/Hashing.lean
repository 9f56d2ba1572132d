import KKChain.Trie.Represents
import KKChain.Trie.FlushList
import KKChain.Trie.DatabaseReads

/-! # Hashing and committing

Both return the hash of the node that is represented, and leave a node in memory that stands for the same. After a
commit the database holds all of it. Nodes are only added to the database, so that nothing it holds for others is lost.
-/

namespace KKChain.Trie

open Node Option

variable {C : Crypto} {S : Set Bytes} {db db' : Database} {root : Bool} {n : Node Bytes} {ln : LiveNode}
    {flags : NodeFlag}

/-- Under the hash of a node there is no other entry, and the flush list is sound. -/
structure Honest (C : Crypto) (S : Set Bytes) (db : Database) : Prop where
  entries : ∀ {n}, Known C S n → db.nodes.lookup (n.digest C) ≠ none → db.Holds C n
  listed : ∃ l, Flushes db (fun _ => False) l

/-- The database still returns what was stored. -/
structure Serves (C : Crypto) (S : Set Bytes) (db db' : Database) : Prop where
  holds : ∀ {n}, Known C S n → db.Holds C n → db'.Holds C n
  honest : Honest C S db'

namespace Serves

theorem refl (honest : Honest C S db) : Serves C S db db := ⟨fun _ => id, honest⟩

theorem trans {db'' : Database} (first : Serves C S db db') (second : Serves C S db' db'') : Serves C S db db'' :=
  ⟨fun known held => second.holds known (first.holds known held), second.honest⟩

theorem kept (serves : Serves C S db db') (fine : Fine C S n) (kept : Kept C db n) : Kept C db' n := by
  induction n with
  | nil | value v => trivial
  | short key m ih =>
    have known := fine.known rfl
    exact ⟨fun sized => serves.holds known (kept.1 sized), ih known.of_short kept.2⟩
  | full ns ih =>
    have known := fine.known rfl
    exact ⟨fun sized => serves.holds known (kept.1 sized), fun i => ih i (known.of_full i) (kept.2 i)⟩

theorem flagged (serves : Serves C S db db') (known : Known C S n) (flagged : Flagged C db root flags n) :
    Flagged C db' root flags n where
  hash := flagged.hash
  clean clean :=
    ⟨serves.kept (.inr (.inr known)) (flagged.clean clean).1,
      fun atRoot => serves.holds known ((flagged.clean clean).2 atRoot)⟩

/-- A node in memory goes on to stand for what it did. -/
theorem represents (serves : Serves C S db db') (fine : Fine C S n) (represents : Represents C db root ln n) :
    Represents C db' root ln n := by
  induction represents with
  | nil => exact .nil
  | value b => exact .value b
  | hash inner held kept referred =>
    exact .hash inner (serves.holds (fine.known inner) held) (serves.kept fine kept) referred
  | short below flagged ih =>
    have known := fine.known rfl
    exact .short (ih known.of_short) (serves.flagged known flagged)
  | full below flagged ih =>
    have known := fine.known rfl
    exact .full (fun i => ih i (known.of_full i)) (serves.flagged known flagged)

end Serves

theorem Database.holds_iff : db.Holds C n ↔
    (db.nodes.lookup (n.digest C)).map CachedNode.content = some (.node (n.stored C)) ∨
    (db.nodes.lookup (n.digest C)).map CachedNode.content = some (.blob (n.encoding C)) ∨
    (db.nodes.lookup (n.digest C)).map CachedNode.content = none ∧ db.disk (n.digest C) = some (n.encoding C) := by
  unfold Database.Holds
  cases db.nodes.lookup (n.digest C) <;> simp

/-- Inserting a node, whether it is there or not, makes the database hold it, and takes nothing away. -/
theorem Honest.insert (inj : Set.InjOn C.keccak S) (honest : Honest C S db) (known : Known C S n) :
    ∃ db', db.insert (n.digest C) (n.encoding C) (.node (n.stored C)) = some db' ∧ Serves C S db db' ∧
      db'.Holds C n := by
  obtain ⟨l, flushes⟩ := honest.listed
  by_cases missing : db.nodes.lookup (n.digest C) = none
  swap
  · obtain ⟨e, found⟩ := ne_none_iff_exists'.mp missing
    exact ⟨db, by rw [Database.insert, found], .refl honest, honest.entries known missing⟩
  obtain ⟨db', inserted, disk, view, listed⟩ := flushes.insert missing (n.encoding C) (.node (n.stored C))
  have contents : ∀ h, (db'.nodes.lookup h).map CachedNode.content =
      if h = n.digest C then some (.node (n.stored C)) else (db.nodes.lookup h).map CachedNode.content := by
    intro h
    have := congrArg (Option.map Prod.fst) (view h)
    rw [map_map] at this
    refine this.trans ?_
    split_ifs
    · rfl
    · rw [map_map]
      rfl
  have held : db'.Holds C n := Database.holds_iff.mpr (.inl ((contents _).trans (if_pos rfl)))
  have others : ∀ {m}, Known C S m → m.digest C ≠ n.digest C → (db'.Holds C m ↔ db.Holds C m) := by
    intro m _ apart
    rw [Database.holds_iff, Database.holds_iff, contents, if_neg apart, disk]
  have same : ∀ {m}, Known C S m → m.digest C = n.digest C → db'.Holds C m := by
    intro m other same
    rw [other.eq_of_digest inj known same]
    exact held
  refine ⟨db', inserted, ⟨fun {m} other before => ?_, fun {m} other present => ?_, _, listed⟩, held⟩
  · by_cases apart : m.digest C = n.digest C
    · exact same other apart
    · exact (others other apart).mpr before
  · by_cases apart : m.digest C = n.digest C
    · exact same other apart
    · refine (others other apart).mpr (honest.entries other fun none => present ?_)
      have := contents (m.digest C)
      rw [if_neg apart, none, map_none, map_eq_none_iff] at this
      exact this

section Hashing

variable {h : Hasher} {ns : Nibble → Node Bytes} {children : Nibble → LiveNode} {key : Key}

/-- What stands for the node: its hash at the root, and below if it is large. -/
noncomputable def Node.referTo (C : Crypto) (root : Bool) (n : Node Bytes) : Stored :=
  open Classical in if root = true ∨ n.Sized C then .hash (n.digest C) else n.stored C

theorem Known.referTo_child (known : Known C S n) : n.referTo C false = (n.stored C).refer C := by
  unfold Node.referTo
  by_cases sized : n.Sized C
  · rw [if_pos (.inr sized), known.canonical.refer_of_sized known.present sized]
  · rw [if_neg (by simp [sized]), known.canonical.refer_of_small sized]

/-- What hashing a node leads to, from `db`. -/
structure Hashed (C : Crypto) (S : Set Bytes) (h : Hasher) (db : Database) (root : Bool) (n : Node Bytes)
    (out : Stored × LiveNode) (db' : Database) : Prop where
  serves : Serves C S db db'
  refers : out.1 = n.referTo C root
  represents : Represents C db' root out.2 n
  committed : h.commit = true → Kept C db' n ∧ (root = true → db'.Holds C n)

/-- `store` of a collapsed node, with its right hash if there is one. -/
theorem store_spec (inj : Set.InjOn C.keccak S) (honest : Honest C S db) (known : Known C S n) {cached : Option Hash}
    (right : ∀ {x}, cached = some x → x = n.digest C) :
    Proc.Spec (fun d => d = db) (h.store C cached (n.stored C) root)
      (fun out d => out = n.referTo C root ∧ Serves C S db d ∧
        (h.commit = true → root = true ∨ n.Sized C → d.Holds C n))
      fun _ _ => False := by
  have item := known.canonical.item_stored (C := C) known.present
  have digest : cached.getD (C.keccak (n.encoding C)) = n.digest C := by
    cases cached with
    | none => rfl
    | some x => exact right rfl
  have unfolded : h.store C cached (n.stored C) root =
      if (n.encoding C).length < 32 ∧ root = false then pure (n.stored C)
      else if h.commit then (do
        let db ← MonadState.get
        let db ← Proc.orFault .panic (db.insert (n.digest C) (n.encoding C) (.node (n.stored C)))
        set db
        pure (.hash (n.digest C)))
      else pure (.hash (n.digest C)) := by
    rw [← digest]
    unfold encoding
    rw [← item]
    cases n with
    | nil | value => exact absurd known.inner (by simp [Node.inner])
    | short | full => rfl
  have referred : ¬ ((n.encoding C).length < 32 ∧ root = false) ↔ root = true ∨ n.Sized C := by
    unfold Sized
    cases root <;> simp
  rw [unfolded]
  refine .ite (fun small => .pure ?_) fun large => .ite (fun commit => ?_) fun pure_ => .pure ?_
  · rintro s rfl
    have inline : ¬ (root = true ∨ n.Sized C) := fun large => referred.mpr large small
    exact ⟨(if_neg inline).symm, .refl honest, fun _ large => (inline large).elim⟩
  · obtain ⟨db', inserted, serves, held⟩ := honest.insert inj known
    rintro s rfl
    have ran : (do
        let db ← MonadState.get
        let db ← Proc.orFault .panic (db.insert (n.digest C) (n.encoding C) (.node (n.stored C)))
        set db
        pure (.hash (n.digest C)) : Proc Empty Database Stored).run s = .ok (.hash (n.digest C)) db' := by
      simp only [Proc.bind_eq_ok, Proc.get_eq_ok, Proc.orFault_eq_ok]
      exact ⟨s, s, ⟨rfl, rfl⟩, db', s, ⟨inserted, rfl⟩, ⟨⟩, db', rfl, rfl⟩
    rw [ran]
    exact ⟨(if_pos (referred.mp large)).symm, serves, fun _ _ => held⟩
  · rintro s rfl
    exact ⟨(if_pos (referred.mp large)).symm, .refl honest, fun commit => absurd commit pure_⟩

/-- What hashing a child leads to. -/
structure HashedChild (C : Crypto) (S : Set Bytes) (h : Hasher) (db : Database) (n : Node Bytes)
    (out : Stored × LiveNode) (db' : Database) : Prop where
  serves : Serves C S db db'
  refers : out.1 = (n.stored C).refer C
  represents : Represents C db' false out.2 n
  kept : h.commit = true → Kept C db' n

/-- The loop over the children, one after the other. -/
theorem hashEach_spec {hash : Nibble → Proc Empty Database (Stored × LiveNode)}
    (fine : ∀ i, Fine C S (ns i))
    (each : ∀ i db, i ≠ 16 → Honest C S db → Represents C db false (children i) (ns i) →
      Proc.Spec (fun d => d = db) (hash i) (HashedChild C S h db (ns i)) fun _ _ => False)
    {is : List Nibble} (digits : ∀ i ∈ is, i ≠ 16) (honest : Honest C S db)
    (below : ∀ i, Represents C db false (children i) (ns i)) (collapsed : Nibble → Stored) (cached : Nibble → LiveNode)
    (represents : ∀ i, Represents C db false (cached i) (ns i)) :
    Proc.Spec (fun d => d = db) (hashEach hash is collapsed cached)
      (fun out d => Serves C S db d ∧ (∀ i, out.1 i = if i ∈ is then ((ns i).stored C).refer C else collapsed i) ∧
        (∀ i, Represents C d false (out.2 i) (ns i)) ∧ (h.commit = true → ∀ i ∈ is, Kept C d (ns i)))
      fun _ _ => False := by
  induction is generalizing db collapsed cached with
  | nil =>
    refine .pure ?_
    rintro s rfl
    exact ⟨.refl honest, by simp, represents, by simp⟩
  | cons i is ih =>
    obtain ⟨digit, digits⟩ := List.forall_mem_cons.mp digits
    refine .bind (each i db digit honest (below i)) ?_
    rintro ⟨s, n⟩ d hashed
    have step := ih digits hashed.serves.honest (fun j => hashed.serves.represents (fine j) (below j))
      (Function.update collapsed i s) (Function.update cached i n) (fun j => by
        by_cases here : j = i
        · subst here
          simpa using hashed.represents
        · simpa [here] using hashed.serves.represents (fine j) (represents j))
    refine step.post ?_ d rfl
    rintro ⟨collapsed', cached'⟩ d' ⟨serves, refers, represents, kept⟩
    refine ⟨hashed.serves.trans serves, fun j => ?_, represents, fun commit => ?_⟩
    · rw [refers j]
      by_cases later : j ∈ is
      · simp [later]
      · by_cases here : j = i
        · subst here
          simpa [later] using hashed.refers
        · simp [later, here]
    · exact List.forall_mem_cons.mpr ⟨serves.kept (fine i) (hashed.kept commit), kept commit⟩

/-- Where the cached hash is returned, it is right. -/
theorem Flagged.cached {done : Stored × LiveNode} (honest : Honest C S db) (known : Known C S n)
    (flagged : Flagged C db root flags n) (represents : Represents C db root ln n)
    (ran : h.cached ln flags = some done) :
    Hashed C S h db root n done db := by
  unfold Hasher.cached at ran
  split at ran
  · cases ran
  next x found =>
  obtain ⟨rfl, referred⟩ := flagged.hash found
  have refers : n.referTo C root = .hash (n.digest C) := if_pos referred
  have clean : flags.dirty = false → Kept C db n ∧ db.Holds C n := fun clean =>
    ⟨(flagged.clean clean).1, referred.elim (flagged.clean clean).2 ((flagged.clean clean).1.holds known.inner)⟩
  split_ifs at ran with plain unload tidy
  · cases ran
    exact ⟨.refl honest, refers.symm, represents, fun commit => by simp [commit] at plain⟩
  · cases ran
    obtain ⟨kept, held⟩ := clean (by simpa using (Bool.and_eq_true_iff.mp unload).1)
    exact ⟨.refl honest, refers.symm, .hash known.inner held kept referred, fun _ => ⟨kept, fun _ => held⟩⟩
  · cases ran
    obtain ⟨kept, held⟩ := clean (by simpa using tidy)
    exact ⟨.refl honest, refers.symm, represents, fun _ => ⟨kept, fun _ => held⟩⟩

/-- The flags after hashing are right. -/
theorem Flagged.hashed (flagged : Flagged C db root flags n) (known : Known C S n) (serves : Serves C S db db')
    (committed : h.commit = true → Kept C db' n ∧ (root = true → db'.Holds C n)) :
    Flagged C db' root (h.flagsFor flags (n.referTo C root)) n := by
  have clean : (flags.dirty && !h.commit) = false → Kept C db' n ∧ (root = true → db'.Holds C n) := by
    intro clean
    by_cases commit : h.commit = true
    · exact committed commit
    · have before : flags.dirty = false := by simpa [commit] using clean
      exact (serves.flagged known flagged).clean before
  unfold Node.referTo
  split_ifs with referred
  · exact ⟨fun {x} same => ⟨(some.inj same).symm, referred⟩, clean⟩
  · have solid := stored_ne_nil (C := C) known.present
    have inner := known.inner
    cases n with
    | nil | value => cases inner
    | short | full => exact ⟨fun {x} same => (nomatch same), clean⟩

theorem Known.digit_child (known : Known C S (.full ns)) {i : Nibble} (digit : i ≠ 16) :
    ns i = .nil ∨ Known C S (ns i) := by
  rcases known.of_full i with empty | ⟨v, held⟩ | known'
  · exact .inl empty
  · obtain ⟨-, canon, -, -⟩ := known
    cases canon with
    | full below here two =>
      have := below i digit
      rw [held] at this
      cases this
  · exact .inr known'

theorem Known.last_child (known : Known C S (.full ns)) : ns 16 = .nil ∨ ∃ v, ns 16 = .value v := by
  obtain ⟨-, canon, -, -⟩ := known
  cases canon with
  | full below here two => exact here

theorem Represents.simplify (represents : Represents C db root ln n) (plain : n = .nil ∨ ∃ v, n = .value v) :
    ln.simplify = n.stored C := by
  cases represents with
  | nil | value => rfl
  | hash inner =>
    rcases plain with rfl | ⟨v, rfl⟩ <;> cases inner
  | short | full => simp at plain

/-- The rest of `hash`, once the children are hashed. -/
theorem hash_rest (inj : Set.InjOn C.keccak S) {db₁ : Database} (known : Known C S n)
    (flagged : Flagged C db root flags n) (serves : Serves C S db db₁)
    (below : h.commit = true → ∀ {d}, Serves C S db₁ d →
      (n.Sized C → d.Holds C n) → Kept C d n) {rebuilt : NodeFlag → LiveNode}
    (represents : ∀ {d flags}, Serves C S db₁ d → Flagged C d root flags n → Represents C d root (rebuilt flags) n) :
    Proc.Spec (fun d => d = db₁) (do
      let hashed ← h.store C flags.hash (n.stored C) root
      pure (hashed, rebuilt (h.flagsFor flags hashed))) (Hashed C S h db root n) fun _ _ => False := by
  refine .bind (store_spec inj serves.honest known fun found => (flagged.hash found).1) fun hashed => .pure ?_
  rintro d ⟨rfl, next, held⟩
  have committed : h.commit = true → Kept C d n ∧ (root = true → d.Holds C n) := fun commit =>
    ⟨below commit next fun sized => held commit (.inr sized), fun atRoot => held commit (.inl atRoot)⟩
  exact ⟨serves.trans next, rfl, represents next (flagged.hashed known (serves.trans next) committed), committed⟩

theorem hash_leaf {v : Bytes} (walk : h.cached (.short key (.value v) flags) flags = none) :
    h.hash C (.short key (.value v) flags) root = (do
      let hashed ← h.store C flags.hash (stored C (.short key (.value v))) root
      pure (hashed, .short key (.value v) (h.flagsFor flags hashed))) := by
  rw [Hasher.hash, walk, show stored C (.short key (.value v)) = .short (hexToCompact key) (.value v) from rfl]
  simp only [pure_bind]

theorem hash_extension {val : LiveNode} (walk : h.cached (.short key val flags) flags = none)
    (inner : ∀ v, val ≠ .value v) :
    h.hash C (.short key val flags) root = (do
      let (collapsed, cached) ← h.hash C val false
      let hashed ← h.store C flags.hash (.short (hexToCompact key) collapsed) root
      pure (hashed, .short key cached (h.flagsFor flags hashed))) := by
  rw [Hasher.hash, walk]
  cases val with
  | value v => exact (inner v rfl).elim
  | _ => rfl

theorem hash_full (walk : h.cached (.full children flags) flags = none) :
    h.hash C (.full children flags) root = (do
      let (collapsed, cached) ← hashEach
        (fun i => if (children i).isNil then pure (.nil, .nil) else h.hash C (children i) false)
        ((List.finRange 16).map Fin.castSucc) (fun i => (children i).simplify) children
      let hashed ← h.store C flags.hash (.full collapsed) root
      pure (hashed, .full cached (h.flagsFor flags hashed))) := by
  rw [Hasher.hash, walk]

theorem Hashed.child {out : Stored × LiveNode} (known : Known C S n) (hashed : Hashed C S h db false n out db') :
    HashedChild C S h db n out db' :=
  ⟨hashed.serves, hashed.refers.trans known.referTo_child, hashed.represents, fun commit => (hashed.committed commit).1⟩

/-- A hash stands for itself. -/
theorem hash_hash (honest : Honest C S db) (inner : n.inner = true) (held : db.Holds C n) (kept : Kept C db n)
    (referred : root = true ∨ n.Sized C) :
    Proc.Spec (fun d => d = db) (h.hash C (.hash (n.digest C)) root) (Hashed C S h db root n) fun _ _ => False := by
  refine .pure ?_
  rintro s rfl
  exact ⟨.refl honest, (if_pos referred).symm, .hash inner held kept referred, fun _ => ⟨kept, fun _ => held⟩⟩

/-- What `hash` is to do for a child. -/
def HashesChild (C : Crypto) (S : Set Bytes) (h : Hasher) (n : Node Bytes) : Prop :=
  ∀ {db ln}, Honest C S db → Known C S n → Represents C db false ln n →
    Proc.Spec (fun d => d = db) (h.hash C ln false) (Hashed C S h db false n) fun _ _ => False

theorem hash_short_spec {m : Node Bytes} (inj : Set.InjOn C.keccak S) (honest : Honest C S db)
    (known : Known C S (.short key m)) (represents : Represents C db root ln (.short key m))
    (child : HashesChild C S h m) :
    Proc.Spec (fun d => d = db) (h.hash C ln root) (Hashed C S h db root (.short key m)) fun _ _ => False := by
  cases represents with
  | hash inner held kept referred => exact hash_hash honest inner held kept referred
  | @short _ _ val _ flags below flagged =>
    cases walk : h.cached (.short key val flags) flags with
    | some done =>
      rw [Hasher.hash, walk]
      refine .pure ?_
      rintro s rfl
      exact flagged.cached honest known (.short below flagged) walk
    | none =>
      have shape := known.canonical
      cases shape with
      | @leaf _ v ends =>
        cases below with
        | hash inner => cases inner
        | value =>
          rw [hash_leaf walk]
          exact hash_rest (n := .short key (.value v)) inj known flagged (.refl honest)
            (fun _ {d} _ held => ⟨held, trivial⟩) fun _ flagged => .short (.value v) flagged
      | @extension _ children nonempty digits canon =>
        have known' := known.of_short.known rfl
        rw [hash_extension walk (by rintro v rfl; cases below)]
        refine .bind ((child honest known' below).post (fun _ _ => Hashed.child known')) ?_
        rintro ⟨collapsed, cached⟩
        refine .of_each fun d hashed => ?_
        have fine : Fine C S (.full children) := .inr (.inr known')
        have whole : Stored.short (hexToCompact key) collapsed = stored C (.short key (.full children)) := by
          rw [show collapsed = _ from hashed.refers]
          rfl
        dsimp only
        rw [whole]
        exact hash_rest (n := .short key (.full children)) inj known flagged hashed.serves
          (fun commit {d} serves held => ⟨held, serves.kept fine (hashed.kept commit)⟩)
          fun serves flagged => .short (serves.represents fine hashed.represents) flagged

theorem mem_digits {i : Nibble} : i ∈ (List.finRange 16).map Fin.castSucc ↔ i ≠ 16 := by
  revert i
  decide

theorem hash_digit_spec (known : Known C S (.full ns)) (child : ∀ i, HashesChild C S h (ns i)) (i : Nibble)
    (db : Database) (digit : i ≠ 16) (honest : Honest C S db) (represents : Represents C db false (children i) (ns i)) :
    Proc.Spec (fun d => d = db) (if (children i).isNil then pure (.nil, .nil) else h.hash C (children i) false)
      (HashedChild C S h db (ns i)) fun _ _ => False := by
  rw [represents.isNil]
  rcases known.digit_child digit with empty | known
  · rw [empty]
    refine .pure ?_
    rintro s rfl
    exact ⟨.refl honest, rfl, .nil, fun _ => trivial⟩
  · rw [if_neg (by simpa using known.present)]
    exact (child i honest known represents).post (fun _ _ => Hashed.child known)

/-- The loop collapses the children up to the last one, which is a value. -/
theorem full_eq_stored {collapsed : Nibble → Stored} (known : Known C S (.full ns))
    (below : ∀ i, Represents C db false (children i) (ns i))
    (refers : ∀ i, collapsed i = if i ∈ (List.finRange 16).map Fin.castSucc then ((ns i).stored C).refer C
      else (children i).simplify) : Stored.full collapsed = stored C (.full ns) := by
  simp only [stored, Stored.full.injEq]
  funext i
  rw [refers]
  by_cases atEnd : i = 16
  · subst atEnd
    rw [if_neg (by simp [mem_digits]), if_pos rfl]
    exact (below 16).simplify known.last_child
  · rw [if_pos (mem_digits.mpr atEnd), if_neg atEnd]

theorem hash_full_spec (inj : Set.InjOn C.keccak S) (honest : Honest C S db) (known : Known C S (.full ns))
    (represents : Represents C db root ln (.full ns)) (child : ∀ i, HashesChild C S h (ns i)) :
    Proc.Spec (fun d => d = db) (h.hash C ln root) (Hashed C S h db root (.full ns)) fun _ _ => False := by
  cases represents with
  | hash inner held kept referred => exact hash_hash honest inner held kept referred
  | @full _ children _ flags below flagged =>
    cases walk : h.cached (.full children flags) flags with
    | some done =>
      rw [Hasher.hash, walk]
      refine .pure ?_
      rintro s rfl
      exact flagged.cached honest known (.full below flagged) walk
    | none =>
      rw [hash_full walk]
      refine .bind (hashEach_spec known.of_full (hash_digit_spec known child) (fun _ => mem_digits.mp) honest below _ _
        below) ?_
      rintro ⟨collapsed, cached⟩
      refine .of_each ?_
      rintro d ⟨serves, refers, represents, kept⟩
      dsimp only
      rw [full_eq_stored known below refers]
      refine hash_rest (n := .full ns) inj known flagged serves
        (fun commit {d} serves held => ⟨held, fun i => ?_⟩)
        fun serves flagged => .full (fun i => serves.represents (known.of_full i) (represents i)) flagged
      by_cases atEnd : i = 16
      · subst atEnd
        rcases known.last_child with empty | ⟨v, held⟩
        · rw [empty]
          trivial
        · rw [held]
          trivial
      · exact serves.kept (known.of_full i) (kept commit i (mem_digits.mpr atEnd))

/-- `hash` returns what stands for the node, and leaves a node in memory that stands for the same. -/
theorem hash_spec (inj : Set.InjOn C.keccak S) (honest : Honest C S db) (known : Known C S n)
    (represents : Represents C db root ln n) :
    Proc.Spec (fun d => d = db) (h.hash C ln root) (Hashed C S h db root n) fun _ _ => False := by
  induction n generalizing root ln db with
  | nil => exact absurd rfl known.present
  | value => exact absurd known.inner (by simp [Node.inner])
  | short key m ih => exact hash_short_spec inj honest known represents ih
  | full ns ih => exact hash_full_spec inj honest known represents fun i => ih i

end Hashing

end KKChain.Trie
