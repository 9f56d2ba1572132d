import KKChain.TxPool.Pool

/-! # Promotion and demotion

`promoteExecutables` moves what has become executable from the queue to the pending lists. If there are too many pending
transactions then the longest lists of foreign accounts are cut, and if there are too many queued ones the queues of the
foreign accounts that were active last go. `demoteUnexecutables` drops what a new state does not allow any more and
moves what follows it back to the queue.

A run-time error is no pool.
-/

namespace KKChain

namespace TxPool

variable {C : Crypto} {signer : InitialSigner} (env : Surroundings) (pool : TxPool C signer)

/-- Transactions are promoted one by one. -/
def promoteAll (addr : Address) (ts : List (PooledTx C signer)) : TxPool C signer :=
  ts.foldl (fun pool t => (promoteTx env pool addr t).2) pool

/-- A round of the first loop of `promoteExecutables`. -/
def promoteAccount (addr : Address) : Option (TxPool C signer) :=
  match pool.queue.lookup addr with
  | none => some pool
  | some list =>
    let (old, list) := list.forward (pool.currentState.nonce addr).toNat
    let pool := forgetAll env pool old
    let (drops, _, list) := list.filter (pool.currentState.balance addr) pool.currentMaxGas.toNat
    let (drops, pool) := ranged env pool drops
    let pool := forgetAll env pool drops
    let (ready, list) := list.ready (pool.pendingState addr).toNat
    let pool := promoteAll env pool addr ready
    if addr ∈ pool.locals then some (pool.setQueue addr list)
    else (list.cap pool.config.accountQueue.toBitVec.toInt).map fun (drops, list) =>
      (forgetAll env pool drops).setQueue addr list

/-- How many transactions some lists hold; the sum is a word. -/
def total (lists : AList fun _ : Address => TxList (PooledTx C signer)) : UInt64 :=
  .ofNat (lists.values.map TxList.len).sum

/-- A transaction is dropped and the pending nonce lowered to its nonce. -/
def dropPending (addr : Address) (t : PooledTx C signer) : TxPool C signer :=
  (forget env pool t).lowerNonce addr t.tx.nonce

/-- The last transaction of a pending list is dropped. -/
def capOne (addr : Address) : Option (TxPool C signer) := do
  let list ← pool.pending.lookup addr
  let (drops, list) ← list.cap (list.len - 1)
  return drops.foldl (fun pool t => dropPending env pool addr t) { pool with pending := pool.pending.insert addr list }

/-- A round of the loops that cut lists: the last transaction of each list is dropped. -/
def capEach (addrs : List Address) : Option (TxPool C signer) := addrs.foldlM (capOne env) pool

def pendingLen (addr : Address) : Option ℕ := (pool.pending.lookup addr).map TxList.len

/-- The loops that cut lists: all of them lose a transaction while there are too many and the list of one of them is
above a threshold. A list that is cut gets shorter, so its length bounds the rounds. -/
def capWhile (addrs : List Address) (last : Address) (threshold : ℕ) :
    ℕ → UInt64 → TxPool C signer → Option (UInt64 × TxPool C signer)
  | 0, pending, pool => some (pending, pool)
  | fuel + 1, pending, pool =>
    if pool.config.globalSlots < pending then do
      let len ← pool.pendingLen last
      if threshold < len then
        let pool ← capEach env pool addrs
        capWhile addrs last threshold fuel (pending - .ofNat addrs.length) pool
      else some (pending, pool)
    else some (pending, pool)

/-- `capWhile` with its bound. -/
def equalize (addrs : List Address) (last : Address) (threshold : ℕ) (pending : UInt64) :
    Option (UInt64 × TxPool C signer) := do
  let len ← pool.pendingLen last
  capWhile env addrs last threshold len pending pool

/-- The loop over the spammers, which are tried in order and become offenders: the earlier ones are cut down to the
next. -/
def penalize : List Address → List Address → UInt64 → TxPool C signer → Option (List Address × UInt64 × TxPool C signer)
  | offenders, [], pending, pool => some (offenders, pending, pool)
  | offenders, offender :: spammers, pending, pool =>
    if pool.config.globalSlots < pending then
      match offenders.getLast? with
      | none => penalize [offender] spammers pending pool
      | some last => do
        let threshold ← pool.pendingLen offender
        let (pending, pool) ← equalize env pool offenders last threshold pending
        penalize (offenders ++ [offender]) spammers pending pool
    else some (offenders, pending, pool)

/-- The priority of a list among the spammers, a 32-bit float. -/
def spamPriority (addr : Address) : ℕ := roundEven 24 ((pool.pendingLen addr).getD 0)

/-- The foreign accounts with long lists, as the priority queue returns them: the longest first. -/
def spammers : List Address × TxPool C signer :=
  let (addrs, pool) := ranged env pool pool.pending.keys
  (((addrs.filter fun addr => addr ∉ pool.locals ∧
    ∃ len ∈ pool.pendingLen addr, pool.config.accountSlots.toNat < len).insertionSort
    fun a b => pool.spamPriority b ≤ pool.spamPriority a), pool)

/-- The second part of `promoteExecutables`. -/
def trimPending : Option (TxPool C signer) :=
  if pool.config.globalSlots < total pool.pending then do
    let (addrs, spammed) := spammers env pool
    let (offenders, pending, pool) ← penalize env [] addrs (total pool.pending) spammed
    match offenders.getLast? with
    | none => some pool
    | some last =>
      if pool.config.globalSlots < pending then
        let (_, pool) ← equalize env pool offenders last pool.config.accountSlots.toNat pending
        some pool
      else some pool
  else some pool

/-- The loop over the addresses whose queued transactions are dropped. -/
def dropQueued : List Address → ℕ → TxPool C signer → Option (TxPool C signer)
  | [], _, pool => some pool
  | addr :: addrs, drop, pool =>
    if 0 < drop then do
      let list ← pool.queue.lookup addr
      if list.len ≤ drop then dropQueued addrs (drop - list.len) (removeAll env pool list.flatten true)
      else dropQueued addrs 0 (removeAll env pool (list.flatten.reverse.take drop) true)
    else some pool

/-- Whether the heartbeat of an account is before that of another one. -/
def beatsBefore (addr addr' : Address) : Bool :=
  match pool.beats addr, pool.beats addr' with
  | none, none => false
  | none, some _ => true
  | some _, none => false
  | some t, some t' => t < t'

/-- The third part of `promoteExecutables`. The account that was active last is the first. -/
def trimQueue : Option (TxPool C signer) :=
  if pool.config.globalQueue < total pool.queue then
    let (addrs, pool') := ranged env pool pool.queue.keys
    let addrs := (addrs.filter (· ∉ pool.locals)).insertionSort fun a b => ¬pool.beatsBefore a b
    dropQueued env addrs (total pool.queue - pool.config.globalQueue).toNat pool'
  else some pool

/-- `promoteExecutables`, for some accounts or for all that have a queue. -/
def promoteExecutables (accounts : Option (List Address)) : Option (TxPool C signer) := do
  let (addrs, pool) := match accounts with
    | some addrs => (addrs, pool)
    | none => ranged env pool pool.queue.keys
  let pool ← addrs.foldlM (promoteAccount env) pool
  let pool ← trimPending env pool
  trimQueue env pool

/-- A round of the loop of `demoteUnexecutables`. -/
def demoteAccount (addr : Address) : Option (TxPool C signer) :=
  match pool.pending.lookup addr with
  | none => some pool
  | some list => do
    let nonce := (pool.currentState.nonce addr).toNat
    let (old, list) := list.forward nonce
    let pool := forgetAll env pool old
    let (drops, invalids, list) := list.filter (pool.currentState.balance addr) pool.currentMaxGas.toNat
    let (drops, pool) := ranged env pool drops
    let pool := forgetAll env pool drops
    let (invalids, pool) := ranged env pool invalids
    let pool := enqueueAll env pool invalids
    if 0 < list.len ∧ list.txs.get nonce = none then
      let (gapped, list) ← list.cap 0
      some ((enqueueAll env pool gapped).setPending addr list)
    else some (pool.setPending addr list)

def demoteUnexecutables : Option (TxPool C signer) :=
  let (addrs, pool) := ranged env pool pool.pending.keys
  addrs.foldlM (demoteAccount env) pool

/-- A part of a call that gives the next pool. -/
def becomes (f : TxPool C signer → Option (TxPool C signer)) : Proc PoolError (TxPool C signer) Unit := do
  let pool ← get
  let pool ← Proc.orFault .panic (f pool)
  set pool

/-- The sender of a transaction that was validated. -/
def senderOf (C : Crypto) (signer : InitialSigner) (tx : Transaction) : Address :=
  match signer.sender C tx with
  | .ok sender => sender
  | .error _ => 0

/-- The loop of `addTxsLocked`: the errors, and the senders of the transactions that were new. -/
def addEach (isLocal : Bool) :
    List Transaction → Proc PoolError (TxPool C signer) (List (Option PoolError) × List Address)
  | [] => pure ([], [])
  | tx :: txs => do
    let result ← Proc.outcome (add env tx isLocal)
    let (errs, dirty) ← addEach isLocal txs
    match result with
    | .error e => pure (some e :: errs, dirty)
    | .ok true => pure (none :: errs, dirty)
    | .ok false => pure (none :: errs, dirty.insert (senderOf C signer tx))

def addTxsLocked (txs : List Transaction) (isLocal : Bool) :
    Proc PoolError (TxPool C signer) (List (Option PoolError)) := do
  let (errs, dirty) ← addEach env isLocal txs
  if dirty.isEmpty then pure errs
  else do
    becomes fun pool =>
      let (addrs, pool) := ranged env pool dirty
      promoteExecutables env pool (some addrs)
    pure errs

/-- The pending nonce of an account is set behind its last pending transaction. A list without one is a run-time error.
-/
def setNonce (addr : Address) : Option (TxPool C signer) := do
  let list ← pool.pending.lookup addr
  let t ← list.flatten.getLast?
  return { pool with pendingState := Function.update pool.pendingState addr (t.tx.nonce + 1) }

/-- The end of `reset`: with the state of the new head, transactions are added again, and what is not executable any
more is demoted. -/
def settle (txs : List Transaction) (state : AccountState) (gasLimit : UInt64) :
    Proc PoolError (TxPool C signer) Unit := do
  modify fun pool => { pool with currentState := state, pendingState := state.nonce, currentMaxGas := gasLimit }
  let _ ← addTxsLocked env txs false
  becomes (demoteUnexecutables env)
  becomes fun pool =>
    let (addrs, pool) := ranged env pool pool.pending.keys
    addrs.foldlM setNonce pool
  becomes fun pool => promoteExecutables env pool none

end TxPool

end KKChain
