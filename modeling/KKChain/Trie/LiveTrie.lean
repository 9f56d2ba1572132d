import KKChain.Trie.Live
import KKChain.Trie.Database

/-! # Tries over a database

A trie in memory loads the nodes it meets from its database and keeps them, with the hashes that were computed. `Hash`
fills in the hashes that are missing; `Commit` also inserts what is new into the database, and unloads nodes that have
not been used for some generations.
-/

namespace KKChain.Trie

open Rlp

structure MissingNodeError where
  nodeHash : Hash
  path : Key
deriving DecidableEq

abbrev Outcome := Except (Fault MissingNodeError)

def mustDecodeNode (hash : Hash) (buf : Bytes) (gen : UInt16) : Outcome LiveNode :=
  match decodeNode (some hash) buf gen with
  | .ok n => .ok n
  | .error .diverges => .error .diverges
  | .error _ => .error .panic

def Content.obj (hash : Hash) (gen : UInt16) : Content → Outcome LiveNode
  | blob b => mustDecodeNode hash b gen
  | node n => if n.expandable then .ok (n.expand gen (some hash)) else .error .panic

/-- `node`, of a database; nil if it is missing. -/
def Database.load (db : Database) (hash : Hash) (gen : UInt16) : Outcome (Option LiveNode) :=
  match db.nodes.lookup hash with
  | some n => (n.content.obj hash gen).map some
  | none =>
    match db.disk hash with
    | some enc => (mustDecodeNode hash enc gen).map some
    | none => .ok none

/-- `Trie`, without its database. -/
structure LiveTrie where
  root : LiveNode
  cachegen : UInt16
  cachelimit : UInt16

section Nodes

variable (db : Database) (gen : UInt16)

def resolveHash (h : Hash) (path : Key) : Outcome LiveNode := do
  match ← db.load h gen with
  | some n => .ok n
  | none => .error (.error ⟨h, path⟩)

def resolve (n : LiveNode) (path : Key) : Outcome LiveNode :=
  match n with
  | .hash h => resolveHash db gen h path
  | n => .ok n

def newFlag : NodeFlag := ⟨none, gen, true⟩

/-- The value found, the node that replaces the one searched, and whether something was loaded. -/
abbrev Found := Option Bytes × LiveNode × Bool

/-- `tryGet`, with the part of the key before `pos` in `path` and the rest in `key`. -/
def LiveNode.tryGet : ℕ → LiveNode → Key → Key → Outcome Found
  | 0, _, _, _ => .error .diverges
  | _ + 1, .nil, _, _ => .ok (none, .nil, false)
  | _ + 1, .value b, _, _ => .ok (some b, .value b, false)
  | fuel + 1, .short k val flags, path, key =>
    if k <+: key then do
      let (found, newnode, didResolve) ← tryGet fuel val (path ++ k) (key.drop k.length)
      if didResolve then .ok (found, .short k newnode { flags with gen := gen }, true)
      else .ok (found, .short k val flags, false)
    else .ok (none, .short k val flags, false)
  | _ + 1, .full _ _, _, [] => .error .panic
  | fuel + 1, .full children flags, path, x :: key => do
    let (found, newnode, didResolve) ← tryGet fuel (children x) (path ++ [x]) key
    if didResolve then .ok (found, .full (Function.update children x newnode) { flags with gen := gen }, true)
    else .ok (found, .full children flags, false)
  | fuel + 1, .hash h, path, key => do
    let child ← resolveHash db gen h path
    let (found, newnode, _) ← tryGet fuel child path key
    .ok (found, newnode, true)

/-- What a change below a node leads to: if there was none, the node stays. -/
def unlessClean (old : LiveNode) (put : LiveNode → LiveNode) (child : Bool × LiveNode) : Bool × LiveNode :=
  if child.1 then (true, put child.2) else (false, old)

/-- `insert` at the end of the key. -/
def LiveNode.insertHere (new : LiveNode) : LiveNode → Outcome (Bool × LiveNode)
  | .value v =>
    match new with
    | .value w => .ok (v != w, new)
    | _ => .error .panic
  | _ => .ok (true, new)

/-- `insert`: whether the node changed, and the new node. -/
def LiveNode.insert : ℕ → LiveNode → Key → Key → LiveNode → Outcome (Bool × LiveNode)
  | 0, _, _, _, _ => .error .diverges
  | _ + 1, n, _, [], new => insertHere new n
  | fuel + 1, .short k val flags, path, x :: key, new =>
    let matchlen := prefixLen (x :: key) k
    if matchlen = k.length then do
      let child ← insert fuel val (path ++ k) ((x :: key).drop matchlen) new
      .ok (unlessClean (.short k val flags) (.short k · (newFlag gen)) child)
    else
      match k.drop matchlen, (x :: key).drop matchlen with
      | a :: k', b :: key' => do
        let (_, left) ← insert fuel .nil (path ++ k.take (matchlen + 1)) k' val
        let (_, right) ← insert fuel .nil (path ++ (x :: key).take (matchlen + 1)) key' new
        let branch := .full (Function.update (Function.update (fun _ => .nil) a left) b right) (newFlag gen)
        .ok (true, if matchlen = 0 then branch else .short ((x :: key).take matchlen) branch (newFlag gen))
      | _, _ => .error .panic
  | fuel + 1, .full children flags, path, x :: key, new => do
    let child ← insert fuel (children x) (path ++ [x]) key new
    .ok (unlessClean (.full children flags) (fun nn => .full (Function.update children x nn) (newFlag gen)) child)
  | _ + 1, .nil, _, x :: key, new => .ok (true, .short (x :: key) new (newFlag gen))
  | fuel + 1, .hash h, path, x :: key, new => do
    let rn ← resolveHash db gen h path
    let child ← insert fuel rn path (x :: key) new
    .ok (unlessClean rn id child)
  | _ + 1, .value _, _, _ :: _, _ => .error .panic

/-- The short node over what a delete left below it. -/
def LiveNode.merge (k : Key) : LiveNode → LiveNode
  | .short k' val _ => .short (k ++ k') val (newFlag gen)
  | child => .short k child (newFlag gen)

/-- The reduction of a full node that may have a single child left, which is loaded to see whether it is short. -/
def LiveNode.reduce (children : Nibble → LiveNode) (path : Key) : Outcome LiveNode :=
  match (List.finRange 17).filter fun i => !(children i).isNil with
  | [pos] =>
    if pos ≠ 16 then do
      match ← resolve db gen (children pos) path with
      | .short k val _ => .ok (.short (pos :: k) val (newFlag gen))
      | _ => .ok (.short [pos] (children pos) (newFlag gen))
    else .ok (.short [pos] (children pos) (newFlag gen))
  | _ => .ok (.full children (newFlag gen))

/-- `delete`: whether the node changed, and the new node. -/
def LiveNode.delete : ℕ → LiveNode → Key → Key → Outcome (Bool × LiveNode)
  | 0, _, _, _ => .error .diverges
  | fuel + 1, .short k val flags, path, key =>
    let matchlen := prefixLen key k
    if matchlen < k.length then .ok (false, .short k val flags)
    else if matchlen = key.length then .ok (true, .nil)
    else do
      let child ← delete fuel val (path ++ k) (key.drop k.length)
      .ok (unlessClean (.short k val flags) (merge gen k) child)
  | _ + 1, .full _ _, _, [] => .error .panic
  | fuel + 1, .full children flags, path, x :: key => do
    let (dirty, nn) ← delete fuel (children x) (path ++ [x]) key
    if dirty then do
      let n ← reduce db gen (Function.update children x nn) path
      .ok (true, n)
    else .ok (false, .full children flags)
  | _ + 1, .value _, _, _ => .ok (true, .nil)
  | _ + 1, .nil, _, _ => .ok (false, .nil)
  | fuel + 1, .hash h, path, key => do
    let rn ← resolveHash db gen h path
    let child ← delete fuel rn path key
    .ok (unlessClean rn id child)

end Nodes

/-- Every node on the way but hashes takes a part of the key, and no two hashes follow each other. -/
def stepsFor (key : Key) : ℕ := 2 * key.length + 2

section Hasher

variable (C : Crypto)

/-- `simplifyNode`. -/
def LiveNode.simplify : LiveNode → Stored
  | .nil => .nil
  | .value b => .value b
  | .hash h => .hash h
  | .short key val _ => .short (key.map fun x => UInt8.ofNat x.val) val.simplify
  | .full children _ => .full fun i => (children i).simplify

/-- `hasher`, without its buffers; `commit` tells whether it has a database. -/
structure Hasher where
  commit : Bool
  cachegen : UInt16
  cachelimit : UInt16

/-- `store`, of a collapsed node with the hash that is cached for it. -/
def Hasher.store (h : Hasher) (known : Option Hash) (n : Stored) (force : Bool) : Proc Empty Database Stored :=
  match n with
  | .nil => pure .nil
  | .hash x => pure (.hash x)
  | n =>
    let enc := n.item.encode
    if enc.length < 32 ∧ force = false then pure n
    else do
      let hash := known.getD (C.keccak enc)
      if h.commit then
        let db ← MonadState.get
        let db ← Proc.orFault .panic (db.insert hash enc (.node n))
        set db
        pure (.hash hash)
      else pure (.hash hash)

/-- The flags of a node once it is hashed. -/
def Hasher.flagsFor (h : Hasher) (flags : NodeFlag) : Stored → NodeFlag
  | .hash x => { flags with hash := some x, dirty := flags.dirty && !h.commit }
  | _ => { flags with hash := none, dirty := flags.dirty && !h.commit }

/-- The cached hash of a node, where it is returned instead of walking the node. -/
def Hasher.cached (h : Hasher) (n : LiveNode) (flags : NodeFlag) : Option (Stored × LiveNode) :=
  match flags.hash with
  | none => none
  | some x =>
    if !h.commit then some (.hash x, n)
    else if flags.canUnload h.cachegen h.cachelimit then some (.hash x, .hash x)
    else if !flags.dirty then some (.hash x, n)
    else none

/-- The loop over the children of a full node. -/
def hashEach (hash : Nibble → Proc Empty Database (Stored × LiveNode)) :
    List Nibble → (Nibble → Stored) → (Nibble → LiveNode) →
      Proc Empty Database ((Nibble → Stored) × (Nibble → LiveNode))
  | [], collapsed, cached => pure (collapsed, cached)
  | i :: is, collapsed, cached => do
    let (s, n) ← hash i
    hashEach hash is (Function.update collapsed i s) (Function.update cached i n)

/-- `hash`, with `hashChildren` in it. -/
def Hasher.hash (h : Hasher) : LiveNode → Bool → Proc Empty Database (Stored × LiveNode)
  | .nil, _ => throw .panic
  | .value b, force => do
    let hashed ← h.store C none (.value b) force
    pure (hashed, .value b)
  | .hash x, _ => pure (.hash x, .hash x)
  | .short key val flags, force =>
    match h.cached (.short key val flags) flags with
    | some done => pure done
    | none => do
      let (collapsed, cached) ←
        match val with
        | .value b => pure (.value b, .value b)
        | val => hash h val false
      let hashed ← h.store C flags.hash (.short (hexToCompact key) collapsed) force
      pure (hashed, .short key cached (h.flagsFor flags hashed))
  | .full children flags, force =>
    match h.cached (.full children flags) flags with
    | some done => pure done
    | none => do
      let (collapsed, cached) ← hashEach
        (fun i => if (children i).isNil then pure (.nil, .nil) else hash h (children i) false)
        ((List.finRange 16).map Fin.castSucc) (fun i => (children i).simplify) children
      let hashed ← h.store C flags.hash (.full collapsed) force
      pure (hashed, .full cached (h.flagsFor flags hashed))

/-- `hashRoot`. The type assertion of its callers fails on anything but a hash. -/
def LiveTrie.hashRoot (t : LiveTrie) (commit : Bool) : Proc Empty Database (Hash × LiveNode) :=
  match t.root with
  | .nil => pure (emptyRoot, .nil)
  | root => do
    let (hashed, cached) ← Hasher.hash C ⟨commit, t.cachegen, t.cachelimit⟩ root true
    match hashed with
    | .hash x => pure (x, cached)
    | _ => throw .panic

end Hasher

end KKChain.Trie
