import KKChain.Core.Ancestors
import KKChain.Machine.Lru

/-! # Reads through the caches

The getters of the chain read through four caches, which are keyed by hash alone: what was cached is found whatever
number it is asked under. `SetHead` walks through them and empties them before it reloads the head.
-/

namespace KKChain

variable {B : Backend}

/-- `headerCache`, `tdCache`, `numberCache` and `blockCache`. -/
structure Caches where
  header : Lru Hash Header
  td : Lru Hash ℤ
  number : Lru Hash ℕ
  block : Lru Hash Block

namespace Caches

/-- The caches `NewBlockChain` makes, with their limits. -/
def empty : Caches := ⟨.empty 512, .empty 1024, .empty 2048, .empty 256⟩

/-- All four are emptied. -/
def purge (c : Caches) : Caches := ⟨c.header.purge, c.td.purge, c.number.purge, c.block.purge⟩

section Getters

variable (c : Caches) (bc : BlockChain B) (hash : Hash) (number : ℕ)

def getHeader : Option Header × Caches :=
  let read := c.header.fetch hash ((bc.getHeader hash number).map (hash, ·))
  (read.1, { c with header := read.2 })

def getTd : Option ℤ × Caches :=
  let read := c.td.fetch hash ((bc.getTd hash number).map (hash, ·))
  (read.1, { c with td := read.2 })

def getBlockNumber : Option ℕ × Caches :=
  let read := c.number.fetch hash ((bc.db.headerNumber hash).map (hash, ·))
  (read.1, { c with number := read.2 })

/-- `GetBlock`: the block is entered under its own hash, which it keeps from then on. -/
def getBlock : Option Block × Caches :=
  let read := c.block.fetch hash ((bc.getBlock hash number).map fun b => (b.hash B.crypto, b.hashed B.crypto))
  (read.1, { c with block := read.2 })

def hasBlock : Bool := c.block.contains hash || bc.hasBlock hash number

/-- A getter by hash: the number comes from `GetBlockNumber`. -/
def byHash {α : Type} (read : Caches → ℕ → Option α × Caches) : Option α × Caches :=
  match c.getBlockNumber bc hash with
  | (none, c) => (none, c)
  | (some number, c) => read c number

/-- A getter by number: the hash comes from the canonical index. -/
def byNumber {α : Type} (read : Caches → Hash → Option α × Caches) : Option α × Caches :=
  let hash := bc.db.readCanonicalHash number
  if hash = 0 then (none, c) else read c hash

def getHeaderByHash : Option Header × Caches := c.byHash bc hash fun c number => c.getHeader bc hash number

def getTdByHash : Option ℤ × Caches := c.byHash bc hash fun c number => c.getTd bc hash number

def getBlockByHash : Option Block × Caches := c.byHash bc hash fun c number => c.getBlock bc hash number

def getHeaderByNumber : Option Header × Caches := c.byNumber bc number fun c hash => c.getHeader bc hash number

def getBlockByNumber : Option Block × Caches := c.byNumber bc number fun c hash => c.getBlock bc hash number

end Getters

section SetHead

variable (bc : BlockChain B)

/-- The walk of `SetHead` through the caches. -/
def rewind (target : ℕ) : ℕ → Block → Caches → Except (Fault (ChainError B.Error)) (List Block × Block × Caches)
  | 0, _, _ => .error .diverges
  | fuel + 1, block, c =>
    if block.numberU64 ≤ target then .ok ([], block, c)
    else match c.getBlock bc block.header.parentHash (pred64 block.numberU64) with
      | (none, _) => .error .panic
      | (some parent, c) => (rewind target fuel parent c).map fun (blocks, last, c) => (block :: blocks, last, c)

def repair : ℕ → Block → Caches → Except (Fault (ChainError B.Error)) (Block × Caches)
  | 0, _, _ => .error .diverges
  | fuel + 1, block, c =>
    if bc.hasState block.header.stateRoot then .ok (block, c)
    else match c.getBlock bc block.header.parentHash (pred64 block.numberU64) with
      | (none, _) => .error .panic
      | (some parent, c) => repair fuel parent c

/-- The header `loadLastState` reports: the last one noted if it is there, that of the head otherwise. -/
def lastHeader (c : Caches) (block : Block) : Header × Caches :=
  let head := bc.db.headHeader.getD 0
  if head = 0 then (block.header, c)
  else match c.getHeaderByHash bc head with
    | (none, c) => (block.header, c)
    | (some header, c) => (header, c)

/-- `loadLastState` with the mutex held, where `Reset` would wait for it forever. The two total difficulties are read
for the log. -/
def loadLastState (fuel : ℕ) (c : Caches) : Except (Fault (ChainError B.Error)) (BlockChain B × Caches) :=
  let head := bc.db.headBlock.getD 0
  if head = 0 then .error .diverges
  else match c.getBlockByHash bc head with
    | (none, _) => .error .diverges
    | (some block, c) => do
      let (block, c) ← repair bc fuel block c
      let (header, c) := lastHeader bc c block
      let (_, c) := c.getTd bc (header.hashOf B.crypto) header.numberU64
      let (_, c) := c.getTd bc (block.hash B.crypto) block.numberU64
      .ok ({ bc with currentBlock := block }, c)

def setHead (fuel target : ℕ) (c : Caches) : Except (Fault (ChainError B.Error)) (BlockChain B × Caches) := do
  let (blocks, block, c) ← rewind bc target fuel bc.currentBlock c
  let bc := bc.deleteAbove target blocks
  let head := bc.settle block
  let bc := { bc with
    db := { bc.db with
      headHeader := some (block.header.hashOf B.crypto)
      headBlock := some (head.hash B.crypto) }
    currentBlock := head }
  loadLastState bc fuel c.purge

end SetHead

/-- Every entry is under one of these hashes. -/
structure Within (K : Set Hash) (c : Caches) : Prop where
  header : c.header.All fun hash _ => hash ∈ K
  td : c.td.All fun hash _ => hash ∈ K
  number : c.number.All fun hash _ => hash ∈ K
  block : c.block.All fun hash _ => hash ∈ K

theorem within_purge (K : Set Hash) (c : Caches) : c.purge.Within K :=
  ⟨Lru.all_purge, Lru.all_purge, Lru.all_purge, Lru.all_purge⟩

namespace Within

variable {K : Set Hash} {c : Caches} {hash : Hash} {number : ℕ} (within : c.Within K) (bc : BlockChain B)

include within

section Inside

variable (inside : hash ∈ K)

include inside

theorem getHeader (number : ℕ) : (c.getHeader bc hash number).2.Within K := by
  refine ⟨within.header.fetch ?_, within.td, within.number, within.block⟩
  simp [inside]

theorem getTd (number : ℕ) : (c.getTd bc hash number).2.Within K := by
  refine ⟨within.header, within.td.fetch ?_, within.number, within.block⟩
  simp [inside]

theorem getBlockNumber : (c.getBlockNumber bc hash).2.Within K := by
  refine ⟨within.header, within.td, within.number.fetch ?_, within.block⟩
  simp [inside]

end Inside

section Outside

variable (outside : hash ∉ K)

include outside

theorem getHeader_fst (number : ℕ) : (c.getHeader bc hash number).1 = bc.getHeader hash number := by
  simp [Caches.getHeader, within.header.fetch_of_not outside]

theorem getTd_fst (number : ℕ) : (c.getTd bc hash number).1 = bc.getTd hash number := by
  simp [Caches.getTd, within.td.fetch_of_not outside]

theorem getBlockNumber_fst : (c.getBlockNumber bc hash).1 = bc.db.headerNumber hash := by
  simp [Caches.getBlockNumber, within.number.fetch_of_not outside]

theorem getBlock_fst (number : ℕ) :
    (c.getBlock bc hash number).1 = (bc.getBlock hash number).map (Block.hashed B.crypto) := by
  simp [Caches.getBlock, within.block.fetch_of_not outside, Function.comp_def]

theorem hasBlock (number : ℕ) : c.hasBlock bc hash number = bc.hasBlock hash number := by
  have absent : c.block.contains hash = false := by
    rw [Bool.eq_false_iff]
    intro cached
    obtain ⟨-, inside⟩ := within.block.contains cached
    exact outside inside
  rw [Caches.hasBlock, absent, Bool.false_or]

/-- A hash whose number is not known is not found by a getter by hash. -/
theorem byHash_fst {α : Type} (read : Caches → ℕ → Option α × Caches) (unknown : bc.db.headerNumber hash = none) :
    (c.byHash bc hash read).1 = none := by
  have noted := within.getBlockNumber_fst bc outside
  unfold Caches.byHash
  rcases read' : c.getBlockNumber bc hash with ⟨_ | number, c'⟩
  · rfl
  · rw [read', unknown] at noted
    cases noted

end Outside

end Within

/-- A number without an entry in the index is not found by a getter by number. -/
theorem byNumber_fst {α : Type} (c : Caches) (bc : BlockChain B) {number : ℕ}
    (read : Caches → Hash → Option α × Caches) (absent : bc.db.canonical number = none) :
    (c.byNumber bc number read).1 = none := by
  have zero : bc.db.readCanonicalHash number = 0 := by rw [Database.readCanonicalHash, absent, Option.getD_none]
  rw [byNumber, if_pos zero]

end Caches

end KKChain
