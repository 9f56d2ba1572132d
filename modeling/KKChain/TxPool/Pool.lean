import KKChain.Core.StateTransition
import KKChain.ToMathlib.Rounding
import KKChain.TxPool.Priced

/-! # The transaction pool

The pool keeps valid transactions by account, in a strict list of those that can be executed next and in a queue of
later ones, together with a lookup by hash and a list of prices. A transaction is added to the queue, or takes the place
of one of its sender and nonce. Promotion moves what has become executable from the queue to the pending list and trims
both; after a change of the head, demotion drops what is not executable any more and moves the rest back.

The order in which a map is ranged over and the time are asked of the surroundings.
-/

namespace KKChain

open TxData

/-- What the program does not determine: the order in which a map is ranged over, and the time. It may be another one
whenever it is asked for. -/
structure Surroundings where
  order : {α : Type} → ℕ → List α → List α
  order_perm : ∀ {α : Type} (k : ℕ) (l : List α), (order k l).Perm l
  now : ℕ → ℤ

/-- `TxPoolConfig`. Of the journal only whether there is one. -/
structure TxPoolConfig where
  locals : List Address
  noLocals : Bool
  journal : Bool
  priceLimit : UInt64
  priceBump : UInt64
  accountSlots : UInt64
  globalSlots : UInt64
  accountQueue : UInt64
  globalQueue : UInt64
  lifetime : ℤ

/-- What the pool reads of a state. -/
structure AccountState where
  nonce : Address → UInt64
  balance : Address → ℤ

/-- The errors of `add`. -/
inductive PoolError where
  | known (hash : Hash)
  | oversizedData
  | negativeValue
  | gasLimit
  | invalidSender
  | underpriced
  | nonceTooLow
  | insufficientFunds
  | outOfGas
  | intrinsicGas
  | replaceUnderpriced
deriving DecidableEq

/-- `Size` is above 32 kB. -/
def Transaction.oversized (tx : Transaction) : Bool :=
  (Rlp.encodeUnchecked tx.value).all fun enc => 32 * 1024 < enc.length

/-- `TxPool`. The journal are the transactions that were handed to it, and a managed state is a nonce for each account.
-/
structure TxPool (C : Crypto) (signer : InitialSigner) where
  config : TxPoolConfig
  currentState : AccountState
  pendingState : Address → UInt64
  currentMaxGas : UInt64
  locals : Finset Address
  journal : Option (List Transaction)
  pending : AList fun _ : Address => TxList (PooledTx C signer)
  queue : AList fun _ : Address => TxList (PooledTx C signer)
  /-- Absent for the zero time. -/
  beats : Address → Option ℤ
  all : TxLookup C signer
  priced : TxPricedList C signer
  /-- How often the surroundings were asked. -/
  asked : ℕ

namespace TxPool

variable {C : Crypto} {signer : InitialSigner} (env : Surroundings)

/-- `NewTxPool` for the state and the gas limit of the head, before the journal is loaded. -/
def newTxPool (config : TxPoolConfig) (state : AccountState) (gasLimit : UInt64) : TxPool C signer where
  config
  currentState := state
  pendingState := state.nonce
  currentMaxGas := gasLimit
  locals := config.locals.toFinset
  journal := if !config.noLocals && config.journal then some [] else none
  pending := ∅
  queue := ∅
  beats := fun _ => none
  all := ∅
  priced := .new
  asked := 0

variable (pool : TxPool C signer)

def removed : TxPool C signer :=
  { pool with priced := pool.priced.removed pool.all (env.order pool.asked), asked := pool.asked + 1 }

/-- `all.Remove` followed by `priced.Removed`. -/
def forget (t : PooledTx C signer) : TxPool C signer := removed env { pool with all := pool.all.erase t.hash }

/-- Transactions are forgotten one by one. -/
def forgetAll (ts : List (PooledTx C signer)) : TxPool C signer := ts.foldl (forget env) pool

/-- Something is in the order of a map that was ranged over. -/
def ranged {α : Type} (l : List α) : List α × TxPool C signer :=
  (env.order pool.asked l, { pool with asked := pool.asked + 1 })

/-- The transaction is looked up and has a price, if it was not looked up before. -/
def register (t : PooledTx C signer) : TxPool C signer :=
  if (pool.all.lookup t.hash).isNone then
    { pool with all := pool.all.insert t.hash t, priced := pool.priced.put t } else pool

/-- `pendingState.SetNonce`, unless the nonce is as low. -/
def lowerNonce (addr : Address) (n : UInt64) : TxPool C signer :=
  if n < pool.pendingState addr then { pool with pendingState := Function.update pool.pendingState addr n } else pool

/-- `enqueueTx`: whether a transaction was replaced, or nothing if an older one is better. -/
def enqueueTx (t : PooledTx C signer) : Option Bool × TxPool C signer :=
  match ((pool.queue.lookup t.sender).getD (.new false)).add t pool.config.priceBump with
  | none => (none, pool)
  | some (old, list) =>
    let pool := { pool with queue := pool.queue.insert t.sender list }
    let pool := old.elim pool (forget env pool)
    (some old.isSome, pool.register t)

/-- Transactions go back to the queue one by one. -/
def enqueueAll (ts : List (PooledTx C signer)) : TxPool C signer :=
  ts.foldl (fun pool t => (enqueueTx env pool t).2) pool

/-- `promoteTx`: whether the transaction was inserted. -/
def promoteTx (addr : Address) (t : PooledTx C signer) : Bool × TxPool C signer :=
  match ((pool.pending.lookup addr).getD (.new true)).add t pool.config.priceBump with
  | none => (false, forget env pool t)
  | some (old, list) =>
    let pool := { pool with pending := pool.pending.insert addr list }
    let pool := old.elim pool (forget env pool)
    let pool := pool.register t
    (true, { pool with
      beats := Function.update pool.beats addr (some (env.now pool.asked))
      pendingState := Function.update pool.pendingState addr (t.tx.nonce + 1)
      asked := pool.asked + 1 })

/-- The pending list of an account, which is deleted with its heartbeat if it is empty. -/
def setPending (addr : Address) (list : TxList (PooledTx C signer)) : TxPool C signer :=
  if list.isEmpty then { pool with pending := pool.pending.erase addr, beats := Function.update pool.beats addr none }
  else { pool with pending := pool.pending.insert addr list }

/-- The queue of an account, which is deleted if it is empty. -/
def setQueue (addr : Address) (list : TxList (PooledTx C signer)) : TxPool C signer :=
  if list.isEmpty then { pool with queue := pool.queue.erase addr }
  else { pool with queue := pool.queue.insert addr list }

def removeTx (hash : Hash) (outofbound : Bool) : TxPool C signer :=
  match pool.all.lookup hash with
  | none => pool
  | some t =>
    let pool := { pool with all := pool.all.erase hash }
    let pool := if outofbound then removed env pool else pool
    match (pool.pending.lookup t.sender).bind (·.remove t) with
    | some (invalids, list) =>
      let (invalids, pool) := ranged env (pool.setPending t.sender list) invalids
      (enqueueAll env pool invalids).lowerNonce t.sender t.tx.nonce
    | none =>
      match pool.queue.lookup t.sender with
      | none => pool
      | some list => pool.setQueue t.sender (((list.remove t).map Prod.snd).getD list)

/-- `validateTx`, with the transaction and what was read of it. -/
def validateTx (tx : Transaction) (isLocal : Bool) : Except (Fault PoolError) (PooledTx C signer) :=
  if tx.oversized then .error (.error .oversizedData)
  else
    match hasAmount : tx.amount with
    | none => .error .panic
    | some amount =>
      if amount < 0 then .error (.error .negativeValue)
      else if pool.currentMaxGas < tx.gasLimit then .error (.error .gasLimit)
      else
        match hasSender : signer.sender C tx with
        | .error (.error _) => .error (.error .invalidSender)
        | .error _ => .error .panic
        | .ok sender =>
          let isLocal := isLocal || decide (sender ∈ pool.locals)
          match hasPrice : tx.gasPrice with
          | none =>
            -- an absent price is dereferenced: for the check of the price, or for the cost
            if isLocal && decide (tx.nonce < pool.currentState.nonce sender) then .error (.error .nonceTooLow)
            else .error .panic
          | some price =>
            if !isLocal && decide (price < pool.config.priceLimit.toNat) then .error (.error .underpriced)
            else if tx.nonce < pool.currentState.nonce sender then .error (.error .nonceTooLow)
            else if pool.currentState.balance sender < price * tx.gasLimit.toNat + amount then
              .error (.error .insufficientFunds)
            else
              match KKChain.intrinsicGas (tx.payload.getD []) tx.receiver.isNone with
              | none => .error (.error .outOfGas)
              | some gas =>
                if tx.gasLimit < gas then .error (.error .intrinsicGas)
                else .ok ⟨tx, sender, price, amount, hasSender, hasPrice, hasAmount⟩

def journalTx (t : PooledTx C signer) : TxPool C signer :=
  match pool.journal with
  | none => pool
  | some handed => if t.sender ∈ pool.locals then { pool with journal := some (handed ++ [t.tx]) } else pool

/-- The number of transactions from which on the pool is full; the sum is a word. -/
def capacity : UInt64 := pool.config.globalSlots + pool.config.globalQueue

def count : ℕ := pool.all.keys.length

/-- The transactions that are discarded from a full pool, and the pool with its prices after that. -/
def discard : List (PooledTx C signer) × TxPool C signer :=
  let (drop, priced) := pool.priced.discard pool.all pool.locals (pool.count - (pool.capacity - 1).toBitVec.toInt)
  (drop, { pool with priced })

/-- Transactions leave the pool one by one. -/
def removeAll (ts : List (PooledTx C signer)) (outofbound : Bool) : TxPool C signer :=
  ts.foldl (fun pool t => removeTx env pool t.hash outofbound) pool

/-- `priced.Underpriced`, which is not asked for a local transaction. -/
def underpriced (t : PooledTx C signer) (isLocal : Bool) : Bool × TxPool C signer :=
  if isLocal then (false, pool)
  else
    let (under, priced) := pool.priced.underpriced pool.all pool.locals t
    (under, { pool with priced })

/-- The second part of `add`: the transaction takes the place of a pending one, or is queued. -/
def insert (t : PooledTx C signer) (isLocal : Bool) : EStateM.Result (Fault PoolError) (TxPool C signer) Bool :=
  match (pool.pending.lookup t.sender).filter (·.overlaps t) with
  | some list =>
    match list.add t pool.config.priceBump with
    | none => .error (.error .replaceUnderpriced) pool
    | some (old, list) =>
      let pool := { pool with pending := pool.pending.insert t.sender list }
      let pool := old.elim pool (forget env pool)
      .ok old.isSome ({ pool with all := pool.all.insert t.hash t, priced := pool.priced.put t }.journalTx t)
  | none =>
    match enqueueTx env pool t with
    | (none, pool) => .error (.error .replaceUnderpriced) pool
    | (some replace, pool) =>
      let pool := if isLocal then { pool with locals := Insert.insert t.sender pool.locals } else pool
      .ok replace (pool.journalTx t)

/-- `add`: whether a transaction was replaced. -/
def add (tx : Transaction) (isLocal : Bool) : Proc PoolError (TxPool C signer) Bool := fun pool =>
  if (pool.all.lookup (tx.hashOf C)).isSome then .error (.error (.known (tx.hashOf C))) pool
  else
    match pool.validateTx tx isLocal with
    | .error fault => .error fault pool
    | .ok t =>
      if pool.capacity.toNat ≤ pool.count then
        match pool.underpriced t isLocal with
        | (true, pool) => .error (.error .underpriced) pool
        | (false, pool) =>
          let (drop, pool) := pool.discard
          insert env (removeAll env pool drop false) t isLocal
      else insert env pool t isLocal

end TxPool

end KKChain
