import KKChain.Trie.Stored
import KKChain.Machine.Proc
import KKChain.Machine.DoublyLinked
import KKChain.ToMathlib.AList

/-! # The trie database

The write layer between tries and disk. Nodes are cached by hash, with the references from one to the other and a list
in the order they came in. `Cap` writes the oldest nodes to disk and drops them from the cache, `Commit` does so with
all that a root refers to. Both write first and drop then, and a reader may look at the database in between: every state
it could see is kept.
-/

namespace KKChain.Trie

structure CachedNode where
  content : Content
  size : ℕ
  parents : ℕ
  children : AList fun _ : Hash => ℕ
  flushPrev : Hash
  flushNext : Hash

/-- `childs`: the explicit children, and those inside of the node. -/
def CachedNode.childs (n : CachedNode) : List Hash := n.children.keys ++ n.content.children

/-- `Database`, with the tables of its disk. -/
structure Database where
  disk : Hash → Option Bytes
  preimagesOnDisk : Hash → Option Bytes
  nodes : AList fun _ : Hash => CachedNode
  oldest : Hash
  newest : Hash
  preimages : AList fun _ : Hash => Bytes
  nodesSize : ℤ
  preimagesSize : ℤ

/-- The node under the zero hash, whose children are the roots. -/
def CachedNode.metaRoot : CachedNode := ⟨.node .nil, 0, 0, ∅, 0, 0⟩

namespace Database

/-- `NewDatabase`. -/
def new (disk preimages : Hash → Option Bytes) : Database :=
  ⟨disk, preimages, AList.singleton 0 .metaRoot, 0, 0, ∅, 0, 0⟩

def node (db : Database) (hash : Hash) : Option Bytes :=
  match db.nodes.lookup hash with
  | some n => n.content.rlp
  | none => db.disk hash

/-- The node behind `hash` in the flush list. -/
def next (db : Database) (hash : Hash) : Hash := ((db.nodes.lookup hash).map CachedNode.flushNext).getD 0

def prev (db : Database) (hash : Hash) : Hash := ((db.nodes.lookup hash).map CachedNode.flushPrev).getD 0

/-- The flush list, oldest first. -/
def flushList (db : Database) : List Hash := Linked.walk 0 db.next db.nodes.keys.length db.oldest

/-- A write through the pointer in the map; there is none if the hash is not cached. -/
def update (db : Database) (hash : Hash) (f : CachedNode → CachedNode) : Option Database :=
  (db.nodes.lookup hash).map fun n => { db with nodes := db.nodes.insert hash (f n) }

/-- One more parent for each child that is cached. -/
def addParents (nodes : AList fun _ : Hash => CachedNode) (children : List Hash) : AList fun _ : Hash => CachedNode :=
  children.foldl (fun nodes child =>
    match nodes.lookup child with
    | some c => nodes.insert child { c with parents := (c.parents + 1) % 2 ^ 16 }
    | none => nodes) nodes

/-- `insert`, of a node that `simplifyNode` has stripped. -/
def insert (db : Database) (hash : Hash) (blob : Bytes) (content : Content) : Option Database :=
  match db.nodes.lookup hash with
  | some _ => some db
  | none =>
    let size := blob.length % 2 ^ 16
    let entry : CachedNode := ⟨content, size, 0, ∅, db.newest, 0⟩
    let db := { db with
      nodes := (addParents db.nodes entry.childs).insert hash entry
      -- the sum is taken in 16 bits
      nodesSize := db.nodesSize + ((32 + size) % 2 ^ 16 : ℕ) }
    if db.oldest = (0 : Hash) then some { db with oldest := hash, newest := hash }
    else (db.update db.newest fun n => { n with flushNext := hash }).map fun db => { db with newest := hash }

def reference (db : Database) (child parent : Hash) : Option Database :=
  match db.nodes.lookup child with
  | none => some db
  | some _ =>
    match db.nodes.lookup parent with
    | none => none
    | some p =>
      if p.children.lookup child ≠ none ∧ parent ≠ 0 then some db
      else
        (db.update child fun c => { c with parents := (c.parents + 1) % 2 ^ 16 }).bind fun db =>
          db.update parent fun p =>
            { p with children := p.children.insert child (((p.children.lookup child).getD 0 + 1) % 2 ^ 16) }

end Database

/-- What a batch will write. -/
structure Batch where
  writes : List (Hash × Bytes)
  preimages : List (Hash × Bytes)
  valueSize : ℕ

namespace Batch

def empty : Batch := ⟨[], [], 0⟩

/-- `Put` of a node. -/
def put (b : Batch) (hash : Hash) (value : Bytes) : Batch :=
  { b with writes := b.writes ++ [(hash, value)], valueSize := b.valueSize + value.length }

/-- `Put` under a `secureKey`. -/
def putPreimage (b : Batch) (hash : Hash) (preimage : Bytes) : Batch :=
  { b with preimages := b.preimages ++ [(hash, preimage)], valueSize := b.valueSize + preimage.length }

/-- A table after the writes. -/
def store (table : Hash → Option Bytes) (writes : List (Hash × Bytes)) : Hash → Option Bytes :=
  writes.foldl (fun table w => Function.update table w.1 (some w.2)) table

end Batch

def idealBatchSize : ℕ := 100 * 1024

def Database.write (db : Database) (b : Batch) : Database :=
  { db with disk := Batch.store db.disk b.writes, preimagesOnDisk := Batch.store db.preimagesOnDisk b.preimages }

/-- A database, and its states that a reader could see since the call began, last first. -/
structure Watched where
  db : Database
  seen : List Database

/-- A change that a reader could see. -/
def visibly (f : Database → Database) : Proc Empty Watched PUnit := modify fun w => ⟨f w.db, f w.db :: w.seen⟩

/-- Write a batch that is large enough, and go on with an empty one. -/
def writeIf (full : Bool) (b : Batch) : Proc Empty Watched Batch :=
  if full then do
    visibly (·.write b)
    pure .empty
  else pure b

/-- The loop over the preimages in `Cap` and `Commit`. -/
def putPreimages (preimages : List (Sigma fun _ : Hash => Bytes)) (b : Batch) : Proc Empty Watched Batch :=
  preimages.foldlM (fun b p =>
    let b := b.putPreimage p.1 p.2
    writeIf (idealBatchSize < b.valueSize) b) b

/-- A cached node, by the pointer in the map. -/
def cached (hash : Hash) : Proc Empty Watched CachedNode := do
  let w ← MonadState.get
  Proc.orFault .panic (w.db.nodes.lookup hash)

/-- Put an encoded node into the batch, which is written once it is large. -/
def putNode (hash : Hash) (n : CachedNode) (b : Batch) : Proc Empty Watched Batch := do
  let enc ← Proc.orFault .panic n.content.rlp
  let b := b.put hash enc
  writeIf (idealBatchSize ≤ b.valueSize) b

namespace Database

/-- The first loop of `Cap`: write nodes from the flush list until the size is below the limit. -/
def flushOldest (limit : ℤ) : ℕ → ℤ → Hash → Batch → Proc Empty Watched (Hash × Batch)
  | 0, _, _, _ => throw .diverges
  | fuel + 1, size, oldest, b =>
    if limit < size ∧ oldest ≠ 0 then do
      let n ← cached oldest
      let b ← putNode oldest n b
      flushOldest limit fuel (size - (3 * 32 + n.size : ℕ)) n.flushNext b
    else pure (oldest, b)

/-- Take the oldest node, which is `n`, out of the cache. -/
def dropOldest (n : CachedNode) (db : Database) : Database :=
  { db with nodes := db.nodes.erase db.oldest, oldest := n.flushNext, nodesSize := db.nodesSize - (32 + n.size : ℕ) }

/-- The second loop of `Cap`: drop what was written from the cache. -/
def dropUntil : ℕ → Hash → Proc Empty Watched PUnit
  | 0, _ => throw .diverges
  | fuel + 1, oldest => do
    let w ← MonadState.get
    if w.db.oldest = oldest then pure ⟨⟩
    else
      let n ← cached w.db.oldest
      visibly (dropOldest n)
      dropUntil fuel oldest

/-- The pointer to before the oldest node is cleared. -/
def cutOldest : Proc Empty Watched PUnit := do
  let w ← MonadState.get
  if w.db.oldest ≠ 0 then
    let db ← Proc.orFault .panic (w.db.update w.db.oldest fun n => { n with flushPrev := 0 })
    visibly fun _ => db
  else pure ⟨⟩

def clearPreimages (db : Database) : Database := { db with preimages := ∅, preimagesSize := 0 }

def cap (limit : ℤ) : Proc Empty Watched PUnit := do
  let w ← MonadState.get
  let fuel := w.db.nodes.keys.length + 1
  let size := w.db.nodesSize + (((w.db.nodes.keys.length : ℤ) - 1) * 2 * 32)
  let flushPreimages := decide (4 * 1024 * 1024 < w.db.preimagesSize)
  let b ← putPreimages (if flushPreimages then w.db.preimages.entries else []) .empty
  let (oldest, b) ← flushOldest limit fuel size w.db.oldest b
  visibly (·.write b)
  visibly fun db => if flushPreimages then db.clearPreimages else db
  dropUntil fuel oldest
  cutOldest

/-- `commit`: the children first. -/
def commit : ℕ → Hash → Batch → Proc Empty Watched Batch
  | 0, _, _ => throw .diverges
  | fuel + 1, hash, b => do
    let w ← MonadState.get
    match w.db.nodes.lookup hash with
    | none => pure b
    | some n =>
      let b ← n.childs.foldlM (fun b child => commit fuel child b) b
      putNode hash n b

/-- Take a node, which is `n`, out of the flush list. -/
def unlink (db : Database) (hash : Hash) (n : CachedNode) : Option Database :=
  if hash = db.oldest then
    { db with oldest := n.flushNext }.update n.flushNext fun m => { m with flushPrev := 0 }
  else if hash = db.newest then
    { db with newest := n.flushPrev }.update n.flushPrev fun m => { m with flushNext := 0 }
  else
    (db.update n.flushPrev fun m => { m with flushNext := n.flushNext }).bind fun db =>
      db.update n.flushNext fun m => { m with flushPrev := n.flushPrev }

def drop (hash : Hash) (n : CachedNode) (db : Database) : Database :=
  { db with nodes := db.nodes.erase hash, nodesSize := db.nodesSize - (32 + n.size : ℕ) }

def uncache : ℕ → Hash → Proc Empty Watched PUnit
  | 0, _ => throw .diverges
  | fuel + 1, hash => do
    let w ← MonadState.get
    match w.db.nodes.lookup hash with
    | none => pure ⟨⟩
    | some n =>
      let db ← Proc.orFault .panic (w.db.unlink hash n)
      visibly fun _ => db
      n.childs.forM (uncache fuel)
      visibly (drop hash n)

/-- `Commit`. No path through the cached nodes is longer than there are nodes, unless it runs in circles. -/
def commitRoot (root : Hash) : Proc Empty Watched PUnit := do
  let w ← MonadState.get
  let fuel := w.db.nodes.keys.length + 1
  let b ← putPreimages w.db.preimages.entries .empty
  let b ← commit fuel root b
  visibly (·.write b)
  visibly clearPreimages
  uncache fuel root

end Database

inductive Call where
  | insert (hash : Hash) (blob : Bytes) (content : Content)
  | reference (child parent : Hash)
  | cap (limit : ℤ)
  | commit (root : Hash)

def Call.run : Call → Proc Empty Watched PUnit
  | insert hash blob content => do
    let w ← MonadState.get
    let db ← Proc.orFault .panic (w.db.insert hash blob content)
    visibly fun _ => db
  | reference child parent => do
    let w ← MonadState.get
    let db ← Proc.orFault .panic (w.db.reference child parent)
    visibly fun _ => db
  | cap limit => Database.cap limit
  | commit root => Database.commitRoot root

end KKChain.Trie
