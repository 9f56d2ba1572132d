import KKChain.Core.Rawdb
import KKChain.Machine.Proc

/-! # The block chain

`BlockChain` with its calls `WriteBlockWithState`, `InsertChain` and `SetHead`. Execution of transactions,
the state database and the consensus rules for headers are a `Backend`; the processing loop, the checks of
the validator and everything the chain reads and writes are defined here. A `World` is the chain together
with the coin flips still to come and a record of the calls made so far, each with the chain it met.
-/

namespace KKChain

open Rlp

/-- What the chain rests on. `Error` are the errors the chain hands on without looking at them. -/
structure Backend where
  crypto : Crypto
  /-- A `StateDB` in use. -/
  State : Type
  /-- The database of state tries. -/
  StateDb : Type
  Receipt : Type
  Error : Type
  /-- `VerifyHeader` of the engine, which reads stored headers by number and hash. -/
  verifyHeader : (ℕ → Hash → Option Header) → Header → Except (Fault Error) Unit
  /-- `state.New`. -/
  openState : StateDb → Hash → Except (Fault Error) State
  /-- `Prepare`: transaction hash, block hash and index. -/
  prepare : State → Hash → Hash → ℕ → State
  /-- `ApplyTransaction`, with the gas pool and the gas used so far. -/
  applyTransaction : (ℕ → Hash → Option Header) → Header → Transaction → UInt64 → UInt64 → State →
    Except (Fault Error) (Receipt × UInt64 × UInt64 × State)
  /-- `accumulateRewards`. -/
  accumulateRewards : State → Header → State
  /-- `IntermediateRoot(true)`. -/
  intermediateRoot : State → Except (Fault Error) (Hash × State)
  /-- `Commit(false)` followed by `Commit` of the trie database. -/
  commit : State → StateDb → Except (Fault Error) Unit × StateDb
  createBloom : List Receipt → Bloom
  /-- `DeriveSha` of receipts. -/
  receiptRoot : List Receipt → Option Hash

/-- The errors the chain itself returns, with the data of their messages. -/
inductive ChainError (ε : Type) where
  | knownBlock
  | unknownAncestor
  | prunedAncestor
  | nonContiguous (item : ℕ)
  | invalidOldChain
  | invalidNewChain
  | txRootMismatch (got want : Hash)
  | invalidGasUsed (remote own : UInt64)
  | invalidBloom (remote own : Bloom)
  | invalidReceiptRoot (remote own : Hash)
  | invalidMerkleRoot (remote own : Hash)
  | other (e : ε)
deriving Repr

/-- An outcome of the backend, seen from the chain. -/
def lifted {ε α : Type} (x : Except (Fault ε) α) : Except (Fault (ChainError ε)) α :=
  x.mapError (Fault.map .other)

structure BlockChain (B : Backend) where
  db : Database
  stateDb : B.StateDb
  currentBlock : Block
  genesisBlock : Block

namespace BlockChain

variable {B : Backend} (bc : BlockChain B)

def getHeader (hash : Hash) (number : ℕ) : Option Header := bc.db.headers (number, hash)

/-- The header reads of the engine and of `BLOCKHASH`. -/
def reader (number : ℕ) (hash : Hash) : Option Header := bc.getHeader hash number

/-- `GetBlock`, as it reads the database. The source caches the pointer it hands out, and `Finalize` writes into the
header behind it: the two differ once a block is executed that declares another root than its own. -/
def getBlock (hash : Hash) (number : ℕ) : Option Block := bc.db.readBlock hash number

/-- The parent of a block, as `GetBlock` finds it. -/
def parentOf (block : Block) : Option Block := bc.getBlock block.header.parentHash (pred64 block.numberU64)

def getTd (hash : Hash) (number : ℕ) : Option ℤ := bc.db.tds (number, hash)

/-- The total difficulty of a block that is stored. -/
def tdOf (block : Block) : Option ℤ := bc.getTd (block.hash B.crypto) block.numberU64

/-- The total difficulty of the parent of a block. -/
def parentTd (block : Block) : Option ℤ := bc.getTd block.header.parentHash (pred64 block.numberU64)

def getBlockByHash (hash : Hash) : Option Block := do
  let number ← bc.db.headerNumber hash
  bc.getBlock hash number

def getBlockByNumber (number : ℕ) : Option Block :=
  (bc.db.canonical number).bind fun hash => if hash = 0 then none else bc.getBlock hash number

def hasBlock (hash : Hash) (number : ℕ) : Bool := (bc.db.bodies (number, hash)).isSome

def hasState (root : Hash) : Bool := (B.openState bc.stateDb root).isOk

def hasBlockAndState (hash : Hash) (number : ℕ) : Bool :=
  (bc.getBlock hash number).any fun block => bc.hasState block.header.stateRoot

def insert (block : Block) : BlockChain B :=
  { bc with
    db := { bc.db with
      canonical := Function.update bc.db.canonical block.numberU64 (some (block.hash B.crypto))
      headBlock := some (block.hash B.crypto) }
    currentBlock := block }

def writeTxLookupEntries (block : Block) : BlockChain B :=
  { bc with db := bc.db.writeTxLookupEntries B.crypto block }

/-- The first loop of `reorg`: the blocks from `block` down to above `target`, and the block found there. -/
def reduce (target : ℕ) : ℕ → Block → Except (Fault (ChainError B.Error)) (List Block × Option Block)
  | 0, _ => .error .diverges
  | fuel + 1, block =>
    if block.numberU64 = target then .ok ([], some block)
    else match bc.parentOf block with
      | none => .ok ([block], none)
      | some parent => (reduce target fuel parent).map fun (blocks, last) => (block :: blocks, last)

/-- The second loop of `reorg`: the blocks of both chains down to above the common one. -/
def meet : ℕ → Block → Block → Except (Fault (ChainError B.Error)) (List Block × List Block)
  | 0, _, _ => .error .diverges
  | fuel + 1, old, new =>
    if old.hash B.crypto = new.hash B.crypto then .ok ([], [])
    else match bc.parentOf old, bc.parentOf new with
      | none, _ => .error (.error .invalidOldChain)
      | some _, none => .error (.error .invalidNewChain)
      | some old', some new' => (meet fuel old' new').map fun (olds, news) => (old :: olds, new :: news)

/-- The walks of `reorg`: the old and the new chain down to above the common block. -/
def split (fuel : ℕ) (old new : Block) : Except (Fault (ChainError B.Error)) (List Block × List Block) :=
  if new.numberU64 < old.numberU64 then do
    let (olds, old) ← bc.reduce new.numberU64 fuel old
    let some old := old | .error (.error .invalidOldChain)
    let (olds', news) ← bc.meet fuel old new
    .ok (olds ++ olds', news)
  else do
    let (news, new) ← bc.reduce old.numberU64 fuel new
    let some new := new | .error (.error .invalidNewChain)
    let (olds, news') ← bc.meet fuel old new
    .ok (olds, news ++ news')

/-- `reorg`: the new chain is inserted from the bottom, then the entries of transactions that were only
in the old chain go. -/
def reorg (fuel : ℕ) (old new : Block) : Except (Fault (ChainError B.Error)) (BlockChain B) := do
  let (olds, news) ← bc.split fuel old new
  let bc := news.foldr (fun block bc => (bc.insert block).writeTxLookupEntries block) bc
  let diff := txDifference B.crypto (olds.flatMap Block.txs) (news.flatMap Block.txs)
  .ok { bc with db := bc.db.deleteTxLookupEntries B.crypto diff }

/-- Whether `WriteBlockWithState` reorganises: on a higher total difficulty, or on the same with a lower
number, or on the same with the same number and the coin. -/
def prefers (externTd localTd : ℤ) (block : Block) (coin : Bool) : Bool :=
  localTd < externTd ∨ externTd = localTd ∧
    (block.numberU64 < bc.currentBlock.numberU64 ∨ block.numberU64 = bc.currentBlock.numberU64 ∧ coin)

/-- The coin is flipped only between blocks of the same total difficulty and number. -/
def flips (externTd localTd : ℤ) (block : Block) : Bool :=
  externTd = localTd ∧ block.numberU64 = bc.currentBlock.numberU64

end BlockChain

/-- A call on the chain. `offer` is a block handed to the import loop, `execute` the execution of a block on
its parent, `write` and `side` the two ways to store a block. -/
inductive ChainCall where
  | offer (block : Block)
  | execute (parent block : Block)
  | write (block : Block) (coin : Bool)
  | side (block : Block)
  | setHead (target : ℕ)

/-- A call and the chain it met. -/
structure ChainEvent (B : Backend) where
  before : BlockChain B
  call : ChainCall

structure World (B : Backend) where
  chain : BlockChain B
  /-- The outcomes of `rand.Float64() < 0.5` to come. -/
  coins : ℕ → Bool
  /-- The calls made so far, the latest first. -/
  log : List (ChainEvent B)

/-- A call on the chain. -/
abbrev ChainProc (B : Backend) := Proc (ChainError B.Error) (World B)

namespace ChainProc

variable {B : Backend}

/-- Notes a call with the chain it meets. -/
def record (call : ChainCall) : ChainProc B Unit :=
  modify fun w => { w with log := ⟨w.chain, call⟩ :: w.log }

def modifyChain (f : BlockChain B → BlockChain B) : ChainProc B Unit :=
  modify fun w => { w with chain := f w.chain }

def modifyDb (f : Database → Database) : ChainProc B Unit :=
  modifyChain fun bc => { bc with db := f bc.db }

/-- An encoding that has to succeed: an error is logged and ends the process. -/
def mustEncode (v : Value) : ChainProc B Unit :=
  match encodeToBytes v with
  | some (.ok _) => pure ()
  | some (.error _) => throw .fatal
  | none => throw .panic

def writeTd (hash : Hash) (number : ℕ) (td : ℤ) : ChainProc B Unit := do
  mustEncode (.bigInt (some td))
  modifyDb (·.putTd hash number td)

def writeBody (hash : Hash) (number : ℕ) (txs : List Transaction) : ChainProc B Unit := do
  mustEncode (.list [.list (txs.map Transaction.value)])
  modifyDb (·.putBody hash number txs)

/-- `WriteHeader`: the number is stored before the header is encoded. -/
def writeHeader (header : Header) : ChainProc B Unit := do
  modifyDb (·.putHeaderNumber (header.hashOf B.crypto) header.numberU64)
  mustEncode header.value
  modifyDb (·.putHeader (header.hashOf B.crypto) header.numberU64 header)

def writeBlock (block : Block) : ChainProc B Unit := do
  writeBody (block.hash B.crypto) block.numberU64 block.txs
  writeHeader block.header

/-- `Commit` of the state and of its trie database. -/
def commitState (state : B.State) : ChainProc B Unit := do
  let bc := (← get).chain
  let (outcome, stateDb) := B.commit state bc.stateDb
  modifyChain fun bc => { bc with stateDb }
  Proc.ofExcept (lifted outcome)

/-- The next coin, taken if `drawn`. -/
def flip (drawn : Bool) : ChainProc B Bool := do
  let w ← get
  if drawn then
    set { w with coins := fun k => w.coins (k + 1) }
  return w.coins 0

/-- The head update of `WriteBlockWithState`. -/
def adopt (fuel : ℕ) (block : Block) (externTd : ℤ) (localTd : Option ℤ) : ChainProc B Unit := do
  let bc := (← get).chain
  let localTd ← Proc.orFault .panic localTd
  let coin ← flip (bc.flips externTd localTd block)
  if bc.prefers externTd localTd block coin then
    if block.header.parentHash ≠ bc.currentBlock.hash B.crypto then
      let bc ← Proc.ofExcept (bc.reorg fuel bc.currentBlock block)
      modifyChain fun _ => bc
    modifyChain (·.writeTxLookupEntries block)
  modifyChain (·.insert block)

def writeBlockWithState (fuel : ℕ) (block : Block) (state : B.State) : ChainProc B Unit := do
  let w ← get
  record (.write block (w.coins 0))
  let ptd ← Proc.orFault (.error .unknownAncestor) (w.chain.parentTd block)
  let localTd := w.chain.tdOf w.chain.currentBlock
  let externTd := block.header.difficulty + ptd
  writeTd (block.hash B.crypto) block.numberU64 externTd
  writeBlock block
  commitState state
  adopt fuel block externTd localTd

def writeBlockWithoutState (block : Block) (td : ℤ) : ChainProc B Unit := do
  record (.side block)
  writeTd (block.hash B.crypto) block.numberU64 td
  writeBlock block

end ChainProc

namespace BlockChain

variable {B : Backend} (bc : BlockChain B)

def validateBody (block : Block) : Except (Fault (ChainError B.Error)) Unit :=
  if bc.hasBlockAndState (block.hash B.crypto) block.numberU64 then .error (.error .knownBlock)
  else if !bc.hasBlockAndState block.header.parentHash (pred64 block.numberU64) then
    if !bc.hasBlock block.header.parentHash (pred64 block.numberU64) then .error (.error .unknownAncestor)
    else .error (.error .prunedAncestor)
  else match txRootOf B.crypto block.txs with
    | none => .error .panic
    | some root =>
      if root ≠ block.header.txRoot then .error (.error (.txRootMismatch root block.header.txRoot)) else .ok ()

/-- The checks of the import loop: `VerifyHeader`, then `ValidateBody`. -/
def verify (block : Block) : Except (Fault (ChainError B.Error)) Unit := do
  lifted (B.verifyHeader bc.reader block.header)
  bc.validateBody block

/-- The transactions of `Process` from index `i` on. -/
def processTxs (block : Block) : ℕ → List Transaction → UInt64 → UInt64 → B.State →
    Except (Fault B.Error) (List B.Receipt × UInt64 × B.State)
  | _, [], _, usedGas, state => .ok ([], usedGas, state)
  | i, tx :: txs, pool, usedGas, state => do
    let state := B.prepare state (tx.hashOf B.crypto) (block.hash B.crypto) i
    let (receipt, pool, usedGas, state) ← B.applyTransaction bc.reader block.header tx pool usedGas state
    let (receipts, usedGas, state) ← processTxs block (i + 1) txs pool usedGas state
    .ok (receipt :: receipts, usedGas, state)

end BlockChain

namespace Backend

variable (B : Backend)

/-- `Finalize` of the engine: the reward, and the root that is written into the header of the block. -/
def finalize (state : B.State) (block : Block) : Except (Fault B.Error) (B.State × Block) := do
  let (root, state) ← B.intermediateRoot (B.accumulateRewards state block.header)
  .ok (state, { block with header := { block.header with stateRoot := root } })

def validateState (block : Block) (state : B.State) (receipts : List B.Receipt) (usedGas : UInt64) :
    Except (Fault (ChainError B.Error)) B.State :=
  if block.header.gasUsed ≠ usedGas then .error (.error (.invalidGasUsed block.header.gasUsed usedGas))
  else if B.createBloom receipts ≠ block.header.bloom then
    .error (.error (.invalidBloom block.header.bloom (B.createBloom receipts)))
  else match B.receiptRoot receipts with
    | none => .error .panic
    | some receiptSha =>
      if receiptSha ≠ block.header.receiptRoot then
        .error (.error (.invalidReceiptRoot block.header.receiptRoot receiptSha))
      else do
        let (root, state) ← lifted (B.intermediateRoot state)
        if block.header.stateRoot ≠ root then .error (.error (.invalidMerkleRoot block.header.stateRoot root))
        else .ok state

end Backend

namespace BlockChain

variable {B : Backend} (bc : BlockChain B)

/-- `Process`: receipts, gas used, the state and the block with the root it was given. -/
def process (block : Block) (state : B.State) :
    Except (Fault B.Error) (List B.Receipt × UInt64 × B.State × Block) := do
  let (receipts, usedGas, state) ← bc.processTxs block 0 block.txs block.header.gasLimit 0 state
  let (state, block) ← B.finalize state block
  .ok (receipts, usedGas, state, block)

/-- The blocks without state from `parent` down, as the import loop collects them. -/
def pruned : ℕ → Option Block → Except (Fault (ChainError B.Error)) (List Block)
  | 0, _ => .error .diverges
  | _ + 1, none => .error .panic
  | fuel + 1, some block =>
    if bc.hasState block.header.stateRoot then .ok []
    else (pruned fuel (bc.parentOf block)).map (block :: ·)

end BlockChain

/-- The index of the first block that does not follow the one before it. -/
def brokenAt (C : Crypto) : ℕ → List Block → Option ℕ
  | i, first :: second :: rest =>
    if second.numberU64 ≠ (first.numberU64 + 1) % 2 ^ 64 ∨ second.header.parentHash ≠ first.hash C then some (i + 1)
    else brokenAt C (i + 1) (second :: rest)
  | _, _ => none

namespace ChainProc

variable {B : Backend}

/-- The parent the import loop executes on: the block imported before, or for the first the stored one. -/
def parentFor (previous : Option Block) (block : Block) : ChainProc B Block := do
  match previous with
  | some parent => return parent
  | none =>
    let bc := (← get).chain
    Proc.orFault .panic (bc.parentOf block)

/-- The branch for a block whose parent has no state. A block that does not beat the head is only stored;
otherwise the ancestors without state are imported first. -/
def importPruned (fuel : ℕ) (insertChain : List Block → ChainProc B Unit) (previous : Option Block) (block : Block) :
    ChainProc B (Option Block) := do
  let bc := (← get).chain
  let ptd ← Proc.orFault .panic (bc.parentTd block)
  let localTd ← Proc.orFault .panic (bc.tdOf bc.currentBlock)
  let externTd := ptd + block.header.difficulty
  if localTd > externTd then
    writeBlockWithoutState block externTd
    return none
  else
    let winner ← Proc.ofExcept (bc.pruned fuel (bc.parentOf block))
    insertChain winner.reverse
    return some (← parentFor previous block)

/-- The checks of the import loop and what follows from them: the parent to execute the block on, or
nothing if the loop goes on to the next block. -/
def route (fuel : ℕ) (insertChain : List Block → ChainProc B Unit) (previous : Option Block) (block : Block) :
    ChainProc B (Option Block) := do
  let bc := (← get).chain
  match bc.verify block with
  | .ok () => return some (← parentFor previous block)
  | .error (.error .knownBlock) =>
    if block.numberU64 ≤ bc.currentBlock.numberU64 then return none
    else return some (← parentFor previous block)
  | .error (.error .prunedAncestor) => importPruned fuel insertChain previous block
  | .error e => throw e

/-- A block is executed on its parent, checked and written. It comes back with the root `Finalize` gave it. -/
def executeBlock (fuel : ℕ) (parent block : Block) : ChainProc B Block := do
  record (.execute parent block)
  let bc := (← get).chain
  let state ← Proc.ofExcept (lifted (B.openState bc.stateDb parent.header.stateRoot))
  let (receipts, usedGas, state, block) ← Proc.ofExcept (lifted (bc.process block state))
  let state ← Proc.ofExcept (B.validateState block state receipts usedGas)
  writeBlockWithState fuel block state
  return block

/-- One round of the import loop; the block comes back as the loop leaves it. -/
def importBlock (fuel : ℕ) (insertChain : List Block → ChainProc B Unit) (previous : Option Block) (block : Block) :
    ChainProc B Block := do
  record (.offer block)
  match ← route fuel insertChain previous (block.hashed B.crypto) with
  | none => return block.hashed B.crypto
  | some parent => executeBlock fuel parent (block.hashed B.crypto)

/-- The import loop. -/
def importAll (fuel : ℕ) (insertChain : List Block → ChainProc B Unit) : Option Block → List Block → ChainProc B Unit
  | _, [] => return ()
  | previous, block :: rest => do
    let block ← importBlock fuel insertChain previous block
    importAll fuel insertChain (some block) rest

def insertChain : ℕ → List Block → ChainProc B Unit
  | 0, _ => throw .diverges
  | fuel + 1, chain =>
    match brokenAt B.crypto 0 chain with
    | some i => throw (.error (.nonContiguous i))
    | none => importAll fuel (fun winner => insertChain fuel winner) none chain

end ChainProc

namespace BlockChain

variable {B : Backend} (bc : BlockChain B)

/-- The walk of `SetHead`: the blocks above `target`, which are deleted, and the block reached. -/
def rewind (target : ℕ) : ℕ → Block → Except (Fault (ChainError B.Error)) (List Block × Block)
  | 0, _ => .error .diverges
  | fuel + 1, block =>
    if block.numberU64 ≤ target then .ok ([], block)
    else match bc.parentOf block with
      | none => .error .panic
      | some parent => (rewind target fuel parent).map fun (blocks, last) => (block :: blocks, last)

def repair : ℕ → Option Block → Except (Fault (ChainError B.Error)) Block
  | 0, _ => .error .diverges
  | _ + 1, none => .error .panic
  | fuel + 1, some block =>
    if bc.hasState block.header.stateRoot then .ok block else repair fuel (bc.parentOf block)

/-- `loadLastState` with the mutex held: `Reset` would wait for it forever. -/
def loadLastState (fuel : ℕ) : Except (Fault (ChainError B.Error)) (BlockChain B) := do
  let head := bc.db.headBlock.getD 0
  if head = 0 then .error .diverges
  else match bc.getBlockByHash head with
    | none => .error .diverges
    | some block =>
      let block ← bc.repair fuel (some block)
      .ok { bc with currentBlock := block }

/-- The deletions of `SetHead`. -/
def deleteAbove (target : ℕ) (blocks : List Block) : BlockChain B :=
  let db := blocks.foldl (fun db block => db.deleteBlock (block.header.hashOf B.crypto) block.numberU64) bc.db
  { bc with db := db.deleteCanonical target bc.currentBlock.numberU64 }

/-- The head `SetHead` settles on: the block reached if its state can be opened, the genesis block if not. -/
def settle (block : Block) : Block := if bc.hasState block.header.stateRoot then block else bc.genesisBlock

def setHead (fuel target : ℕ) : Except (Fault (ChainError B.Error)) (BlockChain B) := do
  let (blocks, block) ← bc.rewind target fuel bc.currentBlock
  let bc := bc.deleteAbove target blocks
  let head := bc.settle block
  let bc := { bc with
    db := { bc.db with
      headHeader := some (block.header.hashOf B.crypto)
      headBlock := some (head.hash B.crypto) }
    currentBlock := head }
  bc.loadLastState fuel

end BlockChain

/-- The calls a node makes. Blocks handed to `InsertChain` come from the wire. -/
inductive NodeCall (B : Backend) where
  | writeBlockWithState (block : Block) (state : B.State)
  | insertChain (chain : List (Header × List Transaction))
  | setHead (target : ℕ)

namespace ChainProc

variable {B : Backend}

/-- `SetHead` as a call. -/
def setHead (fuel target : ℕ) : ChainProc B Unit := do
  record (.setHead target)
  let bc := (← get).chain
  let bc ← Proc.ofExcept (bc.setHead fuel target)
  modifyChain fun _ => bc

def call (fuel : ℕ) : NodeCall B → ChainProc B Unit
  | .writeBlockWithState block state => writeBlockWithState fuel block state
  | .insertChain chain => insertChain fuel (chain.map fun (header, txs) => .fresh header txs)
  | .setHead target => setHead fuel target

end ChainProc

def genesisDifficulty : ℤ := 131072

/-- What `Genesis.Commit` and `NewBlockChain` start a chain from. -/
structure Genesis (B : Backend) where
  header : Header
  stateDb : B.StateDb
  /-- `Difficulty` of the specification, which may be left out. -/
  difficulty : Option ℤ
  /-- `ToBlock` fills in the default. -/
  difficulty_header : header.difficulty = difficulty.getD genesisDifficulty
  number : header.number = 0
  encoded : header.Encoded
  /-- `NewBlock` without transactions. -/
  txRoot : header.txRoot = emptyRoot
  /-- The state was committed. -/
  opens : (B.openState stateDb header.stateRoot).isOk

namespace Genesis

variable {B : Backend} (g : Genesis B)

def block : Block := .fresh g.header []

def hash : Hash := g.header.hashOf B.crypto

/-- The tables after `Commit`. The total difficulty is that of the specification, and an absent integer is encoded as
zero. -/
def database : Database where
  headers := Function.update (fun _ => none) (0, g.hash) (some g.header)
  headerNumber := Function.update (fun _ => none) g.hash (some 0)
  bodies := Function.update (fun _ => none) (0, g.hash) (some [])
  tds := Function.update (fun _ => none) (0, g.hash) (some (g.difficulty.getD 0))
  canonical := Function.update (fun _ => none) 0 (some g.hash)
  headBlock := some g.hash
  headHeader := some g.hash
  txLookup := fun _ => none

def chain : BlockChain B where
  db := g.database
  stateDb := g.stateDb
  currentBlock := g.block
  genesisBlock := g.block

/-- A chain that was just set up. -/
def world (coins : ℕ → Bool) : World B := ⟨g.chain, coins, []⟩

end Genesis

end KKChain
