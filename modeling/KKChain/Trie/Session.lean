import KKChain.Trie.Hashing
import KKChain.Trie.Durable

/-! # Tries as finite maps

A session is a trie with its database and the roots it has committed. Whatever is called, in whatever order and with
whatever cache limit, and however the database moves its nodes, the trie stands for the canonical trie of the contents:
`TryGet` returns what was last put, and the root hash is a function of the contents.
-/

namespace KKChain.Trie

open Rlp List Function Set

/-- A trie over its database, and the roots that were committed, last first. -/
structure Session where
  db : Database
  trie : LiveTrie
  roots : List Hash

/-- A key, whose hex form can be allocated. -/
structure TrieKey where
  bytes : Bytes
  fits : 2 * bytes.length + 1 ≤ maxAlloc

/-- A value, which is a slice. -/
structure TrieValue where
  bytes : Bytes
  fits : bytes.length ≤ maxAlloc

namespace Session

/-- `New`, over the zero hash. -/
def fresh (db : Database) : Session := ⟨db, ⟨.nil, 0, 0⟩, []⟩

/-- `t.root = n`. -/
def withRoot (s : Session) (n : LiveNode) : Session := { s with trie := { s.trie with root := n } }

def tryGet (key : Bytes) : Proc MissingNodeError Session (Option Bytes) := do
  let s ← MonadState.get
  let k := keybytesToHex key
  let (value, newroot, didResolve) ← Proc.ofExcept (s.trie.root.tryGet s.db s.trie.cachegen (stepsFor k) [] k)
  if didResolve then set (s.withRoot newroot)
  pure value

def tryDelete (key : Bytes) : Proc MissingNodeError Session PUnit := do
  let s ← MonadState.get
  let k := keybytesToHex key
  let (_, n) ← Proc.ofExcept (s.trie.root.delete s.db s.trie.cachegen (stepsFor k) [] k)
  set (s.withRoot n)

def tryUpdate (key value : Bytes) : Proc MissingNodeError Session PUnit :=
  if value.length ≠ 0 then do
    let s ← MonadState.get
    let k := keybytesToHex key
    let (_, n) ← Proc.ofExcept (s.trie.root.insert s.db s.trie.cachegen (stepsFor k) [] k (.value value))
    set (s.withRoot n)
  else tryDelete key

/-- A call on the database of the session. -/
def onDatabase {α : Type} (x : Proc Empty Database α) : Proc MissingNodeError Session α := fun s =>
  match x.run s.db with
  | .ok a db => .ok a { s with db := db }
  | .error e db => .error (e.map Empty.elim) { s with db := db }

def hash (C : Crypto) : Proc MissingNodeError Session Hash := do
  let s ← MonadState.get
  let (hash, cached) ← onDatabase (s.trie.hashRoot C false)
  modify (·.withRoot cached)
  pure hash

/-- `Commit`. The root is remembered. -/
def commit (C : Crypto) : Proc MissingNodeError Session Hash := do
  let s ← MonadState.get
  let (hash, cached) ← onDatabase (s.trie.hashRoot C true)
  modify fun s => { s with trie := ⟨cached, s.trie.cachegen + 1, s.trie.cachelimit⟩, roots := hash :: s.roots }
  pure hash

def setCacheLimit (l : UInt16) : Proc MissingNodeError Session PUnit :=
  modify fun s => { s with trie := { s.trie with cachelimit := l } }

/-- `New`, over the same database. -/
def reopen (root : Hash) : Proc MissingNodeError Session PUnit := do
  let s ← MonadState.get
  if root ≠ 0 ∧ root ≠ emptyRoot then do
    let rootnode ← Proc.ofExcept (resolveHash s.db 0 root [])
    set { s with trie := ⟨rootnode, 0, 0⟩ }
  else set { s with trie := ⟨.nil, 0, 0⟩ }

end Session

/-- What happens to a session. -/
inductive Op where
  | update (key : TrieKey) (value : TrieValue)
  | delete (key : TrieKey)
  | get (key : TrieKey)
  | hash
  | commit
  | setCacheLimit (l : UInt16)
  /-- Reopen at a root, by how many commits ago it was committed. -/
  | reopen (age : ℕ)
  /-- The database caches, writes and drops nodes. -/
  | database

/-- A call that returns, or a move of the database that keeps what it stored. -/
inductive Session.Step (C : Crypto) (S : Set Bytes) : Session → Op → Session → Prop
  | update {s s' : Session} {key : TrieKey} {value : TrieValue}
      (ran : (tryUpdate key.bytes value.bytes).run s = .ok ⟨⟩ s') : Step C S s (.update key value) s'
  | delete {s s' : Session} {key : TrieKey} (ran : (tryDelete key.bytes).run s = .ok ⟨⟩ s') :
    Step C S s (.delete key) s'
  | get {s s' : Session} {key : TrieKey} {value : Option Bytes} (ran : (tryGet key.bytes).run s = .ok value s') :
      Step C S s (.get key) s'
  | hash {s s' : Session} {h : Hash} (ran : (Session.hash C).run s = .ok h s') : Step C S s .hash s'
  | commit {s s' : Session} {h : Hash} (ran : (Session.commit C).run s = .ok h s') : Step C S s .commit s'
  | setCacheLimit {s s' : Session} {l : UInt16} (ran : (Session.setCacheLimit l).run s = .ok ⟨⟩ s') :
      Step C S s (.setCacheLimit l) s'
  | reopen {s s' : Session} {age : ℕ} {root : Hash} (committed : s.roots[age]? = some root)
      (ran : (Session.reopen root).run s = .ok ⟨⟩ s') : Step C S s (.reopen age) s'
  | database {s : Session} {db : Database} (serves : Serves C S s.db db) : Step C S s .database { s with db := db }

/-- A finite map, and those that were saved, last first. -/
structure Contents where
  now : Bytes → Option Bytes
  saved : List (Bytes → Option Bytes)

namespace Contents

def empty : Contents := ⟨fun _ => none, []⟩

/-- Updates put a value, or remove it if the new one is empty; what is reopened is what was saved. -/
def apply (c : Contents) : Op → Contents
  | .update key value =>
    { c with now := Function.update c.now key.bytes (if value.bytes = [] then none else some value.bytes) }
  | .delete key => { c with now := Function.update c.now key.bytes none }
  | .commit => { c with saved := c.now :: c.saved }
  | .reopen age => { c with now := c.saved.getD age fun _ => none }
  | .get _ => c
  | .hash => c
  | .setCacheLimit _ => c
  | .database => c

def after (ops : List Op) (c : Contents) : Contents := ops.foldl apply c

end Contents

variable {C : Crypto} {S : Set Bytes} {s s' : Session} {c : Contents} {db db' : Database} {now : Bytes → Option Bytes}
  {root : Hash} {t : Trie Bytes} {n : Node Bytes}

/-- A trie with the contents, whose nodes are encoded by strings of `S`. -/
structure Holding (C : Crypto) (S : Set Bytes) (now : Bytes → Option Bytes) (t : Trie Bytes) : Prop where
  get : t.get = now
  stores : Stores id t
  inside : t.encodings C id ⊆ S

theorem Holding.fine (holding : Holding C S now t) : Fine C S t.root :=
  t.canonical.fine holding.stores.root holding.inside

/-- The root is the hash of a trie with the contents, which the database holds. -/
def SavedAs (C : Crypto) (S : Set Bytes) (db : Database) (root : Hash) (now : Bytes → Option Bytes) : Prop :=
  ∃ t, Holding C S now t ∧ root = t.hash C id ∧ (t.root.inner = true → Kept C db t.root ∧ db.Holds C t.root)

/-- The session stands for the contents. -/
structure Stands (C : Crypto) (S : Set Bytes) (s : Session) (c : Contents) : Prop where
  honest : Honest C S s.db
  root : ∃ t, Holding C S c.now t ∧ Represents C s.db true s.trie.root t.root
  saved : List.Forall₂ (SavedAs C S s.db) s.roots c.saved

theorem SavedAs.mono (serves : Serves C S db db') (saved : SavedAs C S db root now) : SavedAs C S db' root now := by
  obtain ⟨t, holding, hash, held⟩ := saved
  refine ⟨t, holding, hash, fun inner => ?_⟩
  exact ⟨serves.kept holding.fine (held inner).1, serves.holds (holding.fine.known inner) (held inner).2⟩

theorem Stands.withRoot {n : LiveNode} (stands : Stands C S s c)
    (holding : Holding C S now t) (rep : Represents C s.db true n t.root) :
    Stands C S (s.withRoot n) ⟨now, c.saved⟩ := ⟨stands.honest, ⟨t, holding, rep⟩, stands.saved⟩

section Calls

/-- `TryGet` returns what the contents have. -/
theorem Stands.tryGet (stands : Stands C S s c) (key : Bytes) :
    ∃ s', (Session.tryGet key).run s = .ok (c.now key) s' ∧ Stands C S s' c := by
  obtain ⟨t, holding, rep⟩ := stands.root
  obtain ⟨ln, loaded, ran, represents'⟩ := rep.tryGet s.trie.cachegen holding.fine [] (keybytesToHex key)
    (.inr (keybytesToHex_terminated key)) le_rfl
  have found : t.root.get (keybytesToHex key) = c.now key := congrFun holding.get key
  rw [found] at ran
  refine ⟨if loaded then s.withRoot ln else s, ?_, ?_⟩
  · refine Proc.bind_eq_ok.mpr ⟨s, s, by simp, Proc.bind_eq_ok.mpr ⟨_, s, Proc.ofExcept_eq_ok.mpr ⟨ran, rfl⟩, ?_⟩⟩
    cases loaded <;> rfl
  · cases loaded with
    | true => exact stands.withRoot holding represents'
    | false => exact stands

/-- Putting a value, if the new trie's nodes are in `S` too. -/
theorem Stands.insert (stands : Stands C S s c) (key : TrieKey) (value : TrieValue) (solid : value.bytes ≠ []) :
    ∃ n, (Session.tryUpdate key.bytes value.bytes).run s = .ok ⟨⟩ (s.withRoot n) ∧
      ((∀ t : Trie Bytes, t.get = update c.now key.bytes (some value.bytes) → t.encodings C id ⊆ S) →
        Stands C S (s.withRoot n) ⟨update c.now key.bytes (some value.bytes), c.saved⟩) := by
  obtain ⟨t, holding, rep⟩ := stands.root
  obtain ⟨dirty, inserted⟩ := t.root_insert key.bytes value.bytes
  obtain ⟨n, ran, represents', -⟩ := rep.insert s.trie.cachegen holding.fine [] _ le_rfl inserted
  have get : (t.insert key.bytes value.bytes).get = update c.now key.bytes (some value.bytes) := by
    funext k
    rw [get_insert, ← holding.get, update_apply]
  refine ⟨n, ?_, fun inside => stands.withRoot ⟨get, fun k v found => ?_, inside _ get⟩ represents'⟩
  · rw [Session.tryUpdate, if_pos (by simpa using solid)]
    exact Proc.bind_eq_ok.mpr ⟨s, s, by simp, Proc.bind_eq_ok.mpr ⟨_, s, Proc.ofExcept_eq_ok.mpr ⟨ran, rfl⟩, rfl⟩⟩
  · rw [get_insert] at found
    split_ifs at found with here
    · cases found
      exact ⟨solid, value.fits, here ▸ key.fits⟩
    · exact holding.stores k v found

/-- Removing a value, if the new trie's nodes are in `S` too. -/
theorem Stands.delete (stands : Stands C S s c) (key : Bytes) :
    ∃ n, (Session.tryDelete key).run s = .ok ⟨⟩ (s.withRoot n) ∧
      ((∀ t : Trie Bytes, t.get = update c.now key none → t.encodings C id ⊆ S) →
        Stands C S (s.withRoot n) ⟨update c.now key none, c.saved⟩) := by
  obtain ⟨t, holding, rep⟩ := stands.root
  obtain ⟨dirty, deleted⟩ := t.root_delete key
  obtain ⟨n, ran, represents', -⟩ := rep.delete s.trie.cachegen holding.fine [] _ le_rfl deleted
  have get : (t.delete key).get = update c.now key none := by
    funext k
    rw [get_delete, ← holding.get, update_apply]
  refine ⟨n, ?_, fun inside => stands.withRoot ⟨get, fun k v found => ?_, inside _ get⟩ represents'⟩
  · exact Proc.bind_eq_ok.mpr ⟨s, s, by simp, Proc.bind_eq_ok.mpr ⟨_, s, Proc.ofExcept_eq_ok.mpr ⟨ran, rfl⟩, rfl⟩⟩
  · rw [get_delete] at found
    split_ifs at found
    exact holding.stores k v found

theorem onDatabase_eq_ok {α : Type} {x : Proc Empty Database α} {a : α} (ran : x.run s.db = .ok a db) :
    (Session.onDatabase x).run s = .ok a { s with db := db } := by
  change (match x.run s.db with
    | .ok a db => .ok a { s with db := db }
    | .error e db => .error (e.map Empty.elim) { s with db := db } :
      EStateM.Result (Fault MissingNodeError) Session α) = _
  rw [ran]

theorem digest_eq_hash (t : Trie Bytes) : t.root.digest C = t.hash C id := (Node.hashRoot_eq C id t.root).symm

/-- `hashRoot` returns the hash of the trie with the contents. -/
theorem Stands.hashRoot (collisionFree : InjOn C.keccak S) (stands : Stands C S s c) (commit : Bool) :
    ∃ t cached db', Holding C S c.now t ∧ (s.trie.hashRoot C commit).run s.db = .ok (t.hash C id, cached) db' ∧
      Serves C S s.db db' ∧ Represents C db' true cached t.root ∧
      (commit = true → SavedAs C S db' (t.hash C id) c.now) := by
  obtain ⟨t, holding, rep⟩ := stands.root
  rcases holding.fine with empty | ⟨v, held⟩ | known
  · rw [empty] at rep
    refine ⟨t, .nil, s.db, holding, ?_, .refl stands.honest, by rw [empty]; exact .nil, fun _ => ⟨t, holding, rfl, ?_⟩⟩
    · have isNil := rep.isNil
      rw [LiveTrie.hashRoot, LiveNode.isNil_iff.mp isNil, hash, empty]
      rfl
    · rw [empty]
      simp [Node.inner]
  · have := t.canonical
    rw [held] at this
    cases this
  · obtain ⟨⟨hashed, cached⟩, db', ran, done⟩ :=
      (hash_spec (h := ⟨commit, s.trie.cachegen, s.trie.cachelimit⟩) collisionFree
      stands.honest known rep).exists_ok rfl fun _ _ => id
    have refers : hashed = .hash (t.hash C id) := by
      rw [show hashed = _ from done.refers, Node.referTo, if_pos (.inl rfl), digest_eq_hash]
    refine ⟨t, cached, db', holding, ?_, done.serves, done.represents, fun commit => ⟨t, holding, rfl, fun _ => ?_⟩⟩
    · have shape : s.trie.root.isNil = false := rep.isNil.trans (by simpa using known.present)
      rw [LiveTrie.hashRoot]
      split
      · next nil => simp [nil, LiveNode.isNil] at shape
      · rw [refers] at ran
        exact Proc.bind_eq_ok.mpr ⟨_, _, ran, rfl⟩
    · obtain ⟨kept, held⟩ := done.committed commit
      exact ⟨kept, held rfl⟩

/-- `Hash` returns the hash of the trie with the contents. -/
theorem Stands.hash (collisionFree : InjOn C.keccak S) (stands : Stands C S s c) :
    ∃ t s', Holding C S c.now t ∧ (Session.hash C).run s = .ok (t.hash C id) s' ∧ Stands C S s' c := by
  obtain ⟨t, cached, db', holding, ran, serves, rep, -⟩ := stands.hashRoot collisionFree false
  refine ⟨t, { s with db := db' }.withRoot cached, holding, ?_, serves.honest, ⟨t, holding, rep⟩, ?_⟩
  · exact Proc.bind_eq_ok.mpr ⟨s, s, by simp, Proc.bind_eq_ok.mpr ⟨_, _, onDatabase_eq_ok ran, rfl⟩⟩
  · exact stands.saved.imp fun _ _ => .mono serves

/-- So does `Commit`, which saves the contents under it. -/
theorem Stands.commit (collisionFree : InjOn C.keccak S) (stands : Stands C S s c) :
    ∃ t s', Holding C S c.now t ∧ (Session.commit C).run s = .ok (t.hash C id) s' ∧
      Stands C S s' ⟨c.now, c.now :: c.saved⟩ := by
  obtain ⟨t, cached, db', holding, ran, serves, rep, saved⟩ := stands.hashRoot collisionFree true
  refine ⟨t, ⟨db', ⟨cached, s.trie.cachegen + 1, s.trie.cachelimit⟩, t.hash C id :: s.roots⟩, holding, ?_,
    serves.honest, ⟨t, holding, rep⟩, .cons (saved rfl) (stands.saved.imp fun _ _ => .mono serves)⟩
  exact Proc.bind_eq_ok.mpr ⟨s, s, by simp, Proc.bind_eq_ok.mpr ⟨_, _, onDatabase_eq_ok ran, rfl⟩⟩

end Calls

section Runs

variable {op : Op} {ts : List (Session × Op × Session)} {ops : List Op}

theorem Stands.saved_at {age : ℕ} (stands : Stands C S s c) (committed : s.roots[age]? = some root) :
    ∃ now, c.saved[age]? = some now ∧ SavedAs C S s.db root now := by
  obtain ⟨bound, rfl⟩ := List.getElem?_eq_some_iff.mp committed
  have length := stands.saved.length_eq
  exact ⟨c.saved[age], getElem?_eq_getElem _, stands.saved.get bound (length ▸ bound)⟩

/-- The tries with the contents have their nodes in `S`. -/
def Covers (C : Crypto) (S : Set Bytes) (c : Contents) : Prop := ∀ t : Trie Bytes, t.get = c.now → t.encodings C id ⊆ S

theorem Stands.fresh (honest : Honest C S db) (empty : [0x80] ∈ S) : Stands C S (.fresh db) .empty := by
  refine ⟨honest, ⟨Trie.empty, ⟨rfl, fun key v found => (nomatch found), ?_⟩, .nil⟩, .nil⟩
  rintro b rfl
  exact empty

/-- What is reopened was committed. -/
def Possible : Contents → List Op → Prop
  | _, [] => True
  | c, op :: ops => (∀ age, op = .reopen age → age < c.saved.length) ∧ Possible (c.apply op) ops

section Distinct

variable (collisionFree : InjOn C.keccak S) (nonzero : ∀ b ∈ S, C.keccak b ≠ 0) (empty : [0x80] ∈ S)

include collisionFree nonzero empty

/-- No node has one of the hashes that `New` takes for the empty trie. -/
theorem Known.digest_ne (known : Known C S n) : n.digest C ≠ 0 ∧ n.digest C ≠ emptyRoot := by
  refine ⟨nonzero _ known.encoding_mem, fun same => ?_⟩
  have bytes : n.encoding C = [0x80] := collisionFree known.encoding_mem empty (same.trans C.keccak_emptyString.symm)
  have item : n.collapse C id = .str [] :=
    Rlp.Item.encode_inj known.length_lt (by simp [Rlp.Item.encode, Rlp.encodeStr, Rlp.puthead]) bytes
  obtain ⟨inner, canon, -, -⟩ := known
  cases canon <;> simp [Node.collapse, Node.inner] at item inner

/-- Reopening at a saved root goes back to what was saved. -/
theorem Stands.reopen (stands : Stands C S s c) (saved : SavedAs C S s.db root now) :
    ∃ s', (Session.reopen root).run s = .ok ⟨⟩ s' ∧ Stands C S s' ⟨now, c.saved⟩ := by
  obtain ⟨t, holding, rfl, held⟩ := saved
  rcases holding.fine with none | ⟨v, value⟩ | known
  · have hash : t.hash C id = emptyRoot := by rw [Trie.hash, none]; rfl
    refine ⟨⟨s.db, ⟨.nil, 0, 0⟩, s.roots⟩, ?_, stands.honest, ⟨t, holding, by rw [none]; exact .nil⟩, stands.saved⟩
    refine Proc.bind_eq_ok.mpr ⟨s, s, by simp, ?_⟩
    rw [if_neg (by simp [hash])]
    rfl
  · have := t.canonical
    rw [value] at this
    cases this
  · obtain ⟨kept, held⟩ := held known.inner
    have apart := known.digest_ne collisionFree nonzero empty
    rw [digest_eq_hash] at apart
    have hashed : Represents C s.db true (.hash (t.root.digest C)) t.root := .hash known.inner held kept (.inl rfl)
    obtain ⟨rn, resolved, rep, -⟩ := hashed.resolveHash 0 known []
    rw [digest_eq_hash] at resolved
    refine ⟨⟨s.db, ⟨rn, 0, 0⟩, s.roots⟩, ?_, stands.honest, ⟨t, holding, rep⟩, stands.saved⟩
    refine Proc.bind_eq_ok.mpr ⟨s, s, by simp, ?_⟩
    rw [if_pos apart]
    exact Proc.bind_eq_ok.mpr ⟨rn, s, Proc.ofExcept_eq_ok.mpr ⟨resolved, rfl⟩, rfl⟩

/-- Every call returns, and keeps the session standing for the contents. -/
theorem Stands.step (stands : Stands C S s c) (step : s.Step C S op s') (covers : Covers C S (c.apply op)) :
    Stands C S s' (c.apply op) := by
  cases step with
  | @update _ key value ran =>
    by_cases solid : value.bytes = []
    · obtain ⟨n, ran', next⟩ := stands.delete key.bytes
      have same : Session.tryUpdate key.bytes value.bytes = Session.tryDelete key.bytes := if_neg (by simp [solid])
      rw [same, ran'] at ran
      cases ran
      have apply : c.apply (.update key value) = ⟨update c.now key.bytes none, c.saved⟩ := by
        rw [Contents.apply, if_pos solid]
      rw [apply] at covers ⊢
      exact next covers
    · obtain ⟨n, ran', next⟩ := stands.insert key value solid
      rw [ran'] at ran
      cases ran
      have apply : c.apply (.update key value) = ⟨update c.now key.bytes (some value.bytes), c.saved⟩ := by
        rw [Contents.apply, if_neg solid]
      rw [apply] at covers ⊢
      exact next covers
  | @delete _ key ran =>
    obtain ⟨n, ran', next⟩ := stands.delete key.bytes
    rw [ran'] at ran
    cases ran
    exact next covers
  | @get _ key value ran =>
    obtain ⟨s'', ran', next⟩ := stands.tryGet key.bytes
    rw [ran'] at ran
    cases ran
    exact next
  | hash ran =>
    obtain ⟨t, s'', -, ran', next⟩ := stands.hash collisionFree
    rw [ran'] at ran
    cases ran
    exact next
  | commit ran =>
    obtain ⟨t, s'', -, ran', next⟩ := stands.commit collisionFree
    rw [ran'] at ran
    cases ran
    exact next
  | setCacheLimit ran =>
    obtain rfl := Proc.modify_eq_ok.mp ran
    exact ⟨stands.honest, stands.root, stands.saved⟩
  | @reopen _ age root committed ran =>
    obtain ⟨now, found, saved⟩ := stands.saved_at committed
    obtain ⟨s'', ran', next⟩ := stands.reopen collisionFree nonzero empty saved
    rw [ran'] at ran
    cases ran
    rw [Contents.apply, getD_eq_getElem?_getD, found]
    exact next
  | @database db serves =>
    obtain ⟨t, holding, rep⟩ := stands.root
    exact ⟨serves.honest, ⟨t, holding, serves.represents holding.fine rep⟩, stands.saved.imp fun _ _ => .mono serves⟩

/-- A session that stands for the contents does so after a run, for the contents after the run. -/
theorem Stands.run (run : Run (Session.Step C S) s ts s') (stands : Stands C S s c)
    (covers : ∀ pre, pre <+: ts.map (·.2.1) → Covers C S (c.after pre)) : Stands C S s' (c.after (ts.map (·.2.1))) := by
  induction run generalizing c with
  | nil => exact stands
  | @cons s s₁ t op ts first rest ih =>
    have next := stands.step collisionFree nonzero empty first
      (covers [op] (cons_prefix_cons.mpr ⟨rfl, nil_prefix⟩))
    exact ih next fun pre front => covers (op :: pre) (cons_prefix_cons.mpr ⟨rfl, front⟩)

/-- No call fails: it returns from every session that stands for some contents. -/
theorem Stands.exists_step (stands : Stands C S s c) (op : Op)
    (committed : ∀ age, op = .reopen age → age < s.roots.length) :
    ∃ s', s.Step C S op s' := by
  cases op with
  | update key value =>
    by_cases solid : value.bytes = []
    · obtain ⟨n, ran, -⟩ := stands.delete key.bytes
      have same : Session.tryUpdate key.bytes value.bytes = Session.tryDelete key.bytes := if_neg (by simp [solid])
      exact ⟨_, .update (by rw [same, ran])⟩
    · obtain ⟨n, ran, -⟩ := stands.insert key value solid
      exact ⟨_, .update ran⟩
  | delete key =>
    obtain ⟨n, ran, -⟩ := stands.delete key.bytes
    exact ⟨_, .delete ran⟩
  | get key =>
    obtain ⟨s', ran, -⟩ := stands.tryGet key.bytes
    exact ⟨s', .get ran⟩
  | hash =>
    obtain ⟨t, s', -, ran, -⟩ := stands.hash collisionFree
    exact ⟨s', .hash ran⟩
  | commit =>
    obtain ⟨t, s', -, ran, -⟩ := stands.commit collisionFree
    exact ⟨s', .commit ran⟩
  | setCacheLimit l => exact ⟨_, .setCacheLimit rfl⟩
  | reopen age =>
    have found := List.getElem?_eq_getElem (committed age rfl)
    obtain ⟨now, -, saved⟩ := stands.saved_at found
    obtain ⟨s', ran, -⟩ := stands.reopen collisionFree nonzero empty saved
    exact ⟨s', .reopen found ran⟩
  | database => exact ⟨_, .database (.refl stands.honest)⟩

/-- Any calls can be made one after the other. -/
theorem Stands.exists_run (stands : Stands C S s c) (possible : Possible c ops)
    (covers : ∀ pre, pre <+: ops → Covers C S (c.after pre)) :
    ∃ ts s', Run (Session.Step C S) s ts s' ∧ ts.map (·.2.1) = ops := by
  induction ops generalizing s c with
  | nil => exact ⟨[], s, .nil s, rfl⟩
  | cons op ops ih =>
    obtain ⟨committed, possible⟩ := possible
    rw [← stands.saved.length_eq] at committed
    obtain ⟨s₁, first⟩ := stands.exists_step collisionFree nonzero empty op committed
    have next := stands.step collisionFree nonzero empty first (covers [op] (cons_prefix_cons.mpr ⟨rfl, nil_prefix⟩))
    obtain ⟨ts, s', rest, labels⟩ :=
      ih next possible fun pre front => covers (op :: pre) (cons_prefix_cons.mpr ⟨rfl, front⟩)
    exact ⟨(s, op, s₁) :: ts, s', .cons first rest, by rw [map_cons, labels]⟩

end Distinct

/-- A new database holds nothing under the hash of a node. -/
theorem honest_new (nonzero : ∀ b ∈ S, C.keccak b ≠ 0) (disk preimages : Hash → Option Bytes) :
    Honest C S (.new disk preimages) where
  entries {n} known present := by
    have some_ : n.digest C ≠ 0 := nonzero _ known.encoding_mem
    refine absurd ?_ present
    rw [Database.new, ← AList.insert_empty, AList.lookup_insert_ne some_, AList.lookup_empty]
  listed := by
    have sound : Sound (fun _ => 0) ⟨.new disk preimages, fun _ _ => False⟩ [] := .new disk preimages _
    exact ⟨[], sound.flushes⟩

/-- The conditions on hashes for a run: they tell the nodes of all tries apart that the contents stand for on the way,
and from the empty trie. -/
structure Apart (C : Crypto) (S : Set Bytes) (ops : List Op) : Prop where
  collisionFree : Set.InjOn C.keccak S
  nonzero : ∀ b ∈ S, C.keccak b ≠ 0
  covers : ∀ pre, pre <+: ops → Covers C S (Contents.empty.after pre)

theorem Apart.empty_mem (apart : Apart C S ops) : [0x80] ∈ S :=
  apart.covers [] nil_prefix Trie.empty rfl rfl

theorem Apart.stands (apart : Apart C S (ts.map (·.2.1))) (honest : Honest C S db)
    (run : Run (Session.Step C S) (.fresh db) ts s) : Stands C S s (Contents.empty.after (ts.map (·.2.1))) :=
  Stands.run apart.collisionFree apart.nonzero apart.empty_mem run (.fresh honest apart.empty_mem) apart.covers

/-- After any calls, `TryGet` returns what was last put under the key and not removed since; and no call fails. -/
theorem tryGet_last {ts : List (Session × Op × Session)} (honest : Honest C S db) (apart : Apart C S (ts.map (·.2.1)))
    (run : Run (Session.Step C S) (.fresh db) ts s) :
    (∀ key : TrieKey, ∃ s', (Session.tryGet key.bytes).run s = .ok
      ((Contents.empty.after (ts.map (·.2.1))).now key.bytes) s') ∧
      ∀ op, (∀ age, op = .reopen age → age < s.roots.length) → ∃ s', s.Step C S op s' := by
  have stands := apart.stands honest run
  refine ⟨fun key => ?_, fun op => stands.exists_step apart.collisionFree apart.nonzero apart.empty_mem op⟩
  obtain ⟨s', ran, -⟩ := stands.tryGet key.bytes
  exact ⟨s', ran⟩

/-- The encodings of a node and of those below it, in a list. -/
def encodingList (C : Crypto) : Node Bytes → List Bytes
  | .nil => [(Node.nil.collapse C id).encode]
  | .value _ => []
  | .short key val => ((Node.short key val).collapse C id).encode :: encodingList C val
  | .full children =>
    ((Node.full children).collapse C id).encode :: (finRange 17).flatMap fun i => encodingList C (children i)

theorem mem_encodingList {b : Bytes} (mem : b ∈ n.encodings C id) : b ∈ encodingList C n := by
  induction n with
  | nil => exact mem_singleton.mpr mem
  | value => exact mem.elim
  | short key val ih =>
    rcases mem with rfl | mem
    · exact .head _
    · exact .tail _ (ih mem)
  | full children ih =>
    rcases mem with rfl | mem
    · exact .head _
    · obtain ⟨i, mem⟩ := Set.mem_iUnion.mp mem
      exact .tail _ (mem_flatMap.mpr ⟨i, mem_finRange i, ih i mem⟩)

/-- What a call does to the trie with the contents, and to those with the contents that were saved. -/
def Op.onTries (tries : Trie Bytes × List (Trie Bytes)) : Op → Trie Bytes × List (Trie Bytes)
  | .update key value =>
    (if value.bytes = [] then tries.1.delete key.bytes else tries.1.insert key.bytes value.bytes, tries.2)
  | .delete key => (tries.1.delete key.bytes, tries.2)
  | .commit => (tries.1, tries.1 :: tries.2)
  | .reopen age => (tries.2.getD age .empty, tries.2)
  | _ => tries

/-- The tries with the contents after some calls. -/
def triesAfter (ops : List Op) : Trie Bytes × List (Trie Bytes) := ops.foldl Op.onTries (.empty, [])

theorem after_eq_get (ops : List Op) :
    Contents.empty.after ops = ⟨(triesAfter ops).1.get, (triesAfter ops).2.map Trie.get⟩ := by
  have step : ∀ (tries : Trie Bytes × List (Trie Bytes)) op, Contents.apply ⟨tries.1.get, tries.2.map Trie.get⟩ op =
      ⟨(op.onTries tries).1.get, (op.onTries tries).2.map Trie.get⟩ := by
    intro tries op
    cases op with
    | update key value =>
      refine congrArg (Contents.mk · _) (funext fun k => ?_)
      rw [update_apply, Op.onTries]
      split_ifs <;> simp_all [get_insert, get_delete]
    | delete key =>
      refine congrArg (Contents.mk · _) (funext fun k => ?_)
      rw [update_apply, Op.onTries, get_delete]
    | reopen age =>
      refine congrArg (Contents.mk · _) ?_
      rw [Op.onTries, getD_eq_getElem?_getD, getElem?_map, getD_eq_getElem?_getD]
      cases tries.2[age]? <;> rfl
    | _ => rfl
  induction ops using List.reverseRecOn with
  | nil => rfl
  | append_singleton ops op ih =>
    rw [Contents.after] at ih ⊢
    rw [foldl_concat, ih, step, triesAfter, triesAfter, foldl_concat]

/-- The encodings of all nodes of the tries that the contents stand for on the way. -/
def met (C : Crypto) (ops : List Op) : List Bytes :=
  ops.inits.flatMap fun pre => encodingList C (triesAfter pre).1.root

theorem Apart.of_met {ops : List Op} (free : ∀ b ∈ met C ops, ∀ b' ∈ met C ops, C.keccak b = C.keccak b' → b = b')
    (nonzero : ∀ b ∈ met C ops, C.keccak b ≠ 0) : Apart C {b | b ∈ met C ops} ops where
  collisionFree b mem b' mem' := free b mem b' mem'
  nonzero := nonzero
  covers pre front := by
    intro t get b mem
    obtain rfl : t = (triesAfter pre).1 := ext_get fun key => by rw [get, after_eq_get]
    exact mem_flatMap.mpr ⟨pre, (mem_inits _ _).mpr front, mem_encodingList mem⟩

/-- A database in memory only. -/
def blankDatabase : Database := .new (fun _ => none) fun _ => none

def keyOf (b : UInt8) : TrieKey := ⟨[b], by simp [maxAlloc]⟩

def oneByte (v : UInt8) : TrieValue := ⟨[v], by simp [maxAlloc]⟩

/-- A value so long that its leaf is hashed. -/
def long : TrieValue := ⟨List.replicate 29 7, by simp [maxAlloc]⟩

/-- A branch with three leaves is committed, one of them is deleted, and what is then committed is reopened. -/
def saveAndReopen : List Op :=
  [.update (keyOf 0) long, .update (keyOf 16) (oneByte 1), .update (keyOf 32) (oneByte 2), .commit, .delete (keyOf 32),
    .commit, .reopen 0]

/-- The two leaves that are left, in the other order and with another value first. -/
def otherWay : List Op := [.update (keyOf 16) (oneByte 3), .update (keyOf 0) long, .update (keyOf 16) (oneByte 1)]

theorem apart_saveAndReopen : Apart .numeral {b | b ∈ met .numeral saveAndReopen} saveAndReopen :=
  .of_met (by decide +kernel) (by decide +kernel)

theorem apart_otherWay : Apart .numeral {b | b ∈ met .numeral otherWay} otherWay :=
  .of_met (by decide +kernel) (by decide +kernel)

theorem Apart.exists_run (apart : Apart C S ops) (honest : Honest C S db) (possible : Possible .empty ops) :
    ∃ ts s, Run (Session.Step C S) (.fresh db) ts s ∧ ts.map (·.2.1) = ops :=
  (Stands.fresh honest apart.empty_mem).exists_run apart.collisionFree apart.nonzero apart.empty_mem possible
    apart.covers

/-- A leaf that was deleted is gone, and the others are read from the reopened branch. -/
theorem tryGet_last_reopened : ∃ ts s, ts.map (·.2.1) = saveAndReopen ∧
    Run (Session.Step .numeral {b | b ∈ met .numeral saveAndReopen}) (.fresh blankDatabase) ts s ∧
    (∃ s', (Session.tryGet [0]).run s = .ok (some (List.replicate 29 7)) s') ∧
    (∃ s', (Session.tryGet [16]).run s = .ok (some [1]) s') ∧ ∃ s', (Session.tryGet [32]).run s = .ok none s' := by
  have honest := honest_new apart_saveAndReopen.nonzero (fun _ => none) fun _ => none
  obtain ⟨ts, s, run, labels⟩ :=
    apart_saveAndReopen.exists_run honest (by simp [saveAndReopen, Possible, Contents.apply])
  have read := (tryGet_last honest (labels ▸ apart_saveAndReopen) run).1
  rw [labels] at read
  exact ⟨ts, s, labels, run, read (keyOf 0), read (keyOf 16), read (keyOf 32)⟩

/-- The loaded part of a trie is in minimal form: no short node is below a short node, and full nodes have two children.
-/
def LiveNode.Minimal : LiveNode → Prop
  | .short _ val _ => (∀ k n flags, val ≠ .short k n flags) ∧ val ≠ .nil ∧ val.Minimal
  | .full children _ => (∃ i j, i ≠ j ∧ children i ≠ .nil ∧ children j ≠ .nil) ∧ ∀ i, (children i).Minimal
  | _ => True

theorem Represents.minimal {root : Bool} {ln : LiveNode} (rep : Represents C db root ln n) (fine : Fine C S n) :
    ln.Minimal := by
  induction rep with
  | nil | value | hash => trivial
  | @short root key val m flags below flagged ih =>
    have known := fine.known rfl
    have canon := known.canonical
    refine ⟨?_, ?_, ih known.of_short⟩
    · rintro k n flags rfl
      cases below
      cases canon
    · rintro rfl
      cases below with
      | nil => cases canon
  | @full root children ns flags below flagged ih =>
    have known := fine.known rfl
    have canon := known.canonical
    refine ⟨?_, fun i => ih i (known.of_full i)⟩
    cases canon with
    | full _ _ two =>
      obtain ⟨i, j, part, left, right⟩ := two
      have present : ∀ {i}, ns i ≠ .nil → children i ≠ .nil := by
        intro i some_ none
        have := (below i).isNil
        rw [none] at this
        exact some_ (Node.isNil_iff.mp this.symm)
      exact ⟨i, j, part, present left, present right⟩

/-- What `Hash` and `Commit` return. -/
def Session.HasRoot (C : Crypto) (s : Session) (h : Hash) : Prop :=
  (∃ s', (Session.hash C).run s = .ok h s') ∧ ∃ s', (Session.commit C).run s = .ok h s'

/-- Two runs to the same contents lead to the same root hash: the tries stand for one node, in minimal form. -/
theorem root_of_contents {S' : Set Bytes} {ts ts' : List (Session × Op × Session)} (honest : Honest C S db)
    (honest' : Honest C S' db') (apart : Apart C S (ts.map (·.2.1))) (apart' : Apart C S' (ts'.map (·.2.1)))
    (run : Run (Session.Step C S) (.fresh db) ts s) (run' : Run (Session.Step C S') (.fresh db') ts' s')
    (same : (Contents.empty.after (ts.map (·.2.1))).now = (Contents.empty.after (ts'.map (·.2.1))).now) :
    ∃ n h, n.Canonical ∧ Represents C s.db true s.trie.root n ∧ Represents C s'.db true s'.trie.root n ∧
      s.trie.root.Minimal ∧ s'.trie.root.Minimal ∧ s.HasRoot C h ∧ s'.HasRoot C h := by
  have unique : ∀ {t t' : Trie Bytes} {now : Bytes → Option Bytes}, t.get = now → t'.get = now → t = t' :=
    fun left right => ext_get fun key => congrFun (left.trans right.symm) key
  have stands := apart.stands honest run
  have stands' := apart'.stands honest' run'
  obtain ⟨t, holding, represents⟩ := stands.root
  obtain ⟨t', holding', represents'⟩ := stands'.root
  obtain rfl : t = t' := unique holding.get (holding'.get.trans same.symm)
  have root : ∀ {S : Set Bytes} {s : Session} {c : Contents}, InjOn C.keccak S → Stands C S s c → t.get = c.now →
      s.HasRoot C (t.hash C id) := by
    intro S s c collisionFree stands get
    obtain ⟨t₁, s₁, first, ran, -⟩ := stands.hash collisionFree
    obtain ⟨t₂, s₂, second, ran', -⟩ := stands.commit collisionFree
    obtain rfl : t = t₁ := unique get first.get
    obtain rfl : t = t₂ := unique get second.get
    exact ⟨⟨s₁, ran⟩, s₂, ran'⟩
  exact ⟨t.root, t.hash C id, t.canonical, represents, represents', represents.minimal holding.fine,
    represents'.minimal holding'.fine, root apart.collisionFree stands holding.get,
      root apart'.collisionFree stands' holding'.get⟩

/-- The branch that was reopened has the root of the one that was built in the other order. -/
theorem root_of_contents_reopened : ∃ ts ts' s s' h, ts.map (·.2.1) = saveAndReopen ∧ ts'.map (·.2.1) = otherWay ∧
    Run (Session.Step .numeral {b | b ∈ met .numeral saveAndReopen}) (.fresh blankDatabase) ts s ∧
    Run (Session.Step .numeral {b | b ∈ met .numeral otherWay}) (.fresh blankDatabase) ts' s' ∧
    s.HasRoot .numeral h ∧ s'.HasRoot .numeral h := by
  have honest := honest_new apart_saveAndReopen.nonzero (fun _ => none) fun _ => none
  have honest' := honest_new apart_otherWay.nonzero (fun _ => none) fun _ => none
  obtain ⟨ts, s, run, labels⟩ :=
    apart_saveAndReopen.exists_run honest (by simp [saveAndReopen, Possible, Contents.apply])
  obtain ⟨ts', s', run', labels'⟩ := apart_otherWay.exists_run honest' (by simp [otherWay, Possible])
  have same : (Contents.empty.after saveAndReopen).now = (Contents.empty.after otherWay).now := by
    funext key
    simp only [saveAndReopen, otherWay, Contents.after, foldl_cons, foldl_nil, Contents.apply, Contents.empty, keyOf,
      update_apply, getD_cons_zero]
    split_ifs <;> simp_all
  obtain ⟨n, h, -, -, -, -, -, root, root'⟩ := root_of_contents honest honest' (labels ▸ apart_saveAndReopen)
    (labels' ▸ apart_otherWay) run run' (by rw [labels, labels']; exact same)
  exact ⟨ts, ts', s, s', h, labels, labels', run, run', root, root'⟩

end Runs

end KKChain.Trie
