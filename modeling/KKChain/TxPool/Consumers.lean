import KKChain.P2P.ChainPeer
import KKChain.TxPool.Pool

/-! # What becomes of accepted transactions

The new transactions of the pool are printed by the miner and broadcast to the peers that do not know them. The text of
a transaction has its receiver, which a contract creation has not.
-/

namespace KKChain

variable (C : Crypto)

/-- What `String` prints of a transaction. -/
structure TxText where
  hash : Hash
  nonce : UInt64
  sender : Address
  receiver : Address
  value : UInt64
  gasLimit : UInt64
  gasPrice : UInt64
  totalCost : UInt64
  size : ℕ

/-- `Uint64` of a big integer, the low word of its absolute value. -/
def lowWord (x : ℤ) : UInt64 := .ofNat x.natAbs

/-- `String`. A run-time error is no text: an absent number is dereferenced, and so is an absent receiver. -/
def Transaction.string (tx : Transaction) : Option TxText := do
  let v ← tx.v
  let sender ←
    match (InitialSigner.new (some (deriveChainId v))).sender C tx with
    | .ok sender => some sender
    | .error (.error _) => some 0
    | .error _ => none
  let receiver ← tx.receiver
  let value ← tx.amount
  let price ← tx.gasPrice
  return {
    hash := tx.hashOf C
    nonce := tx.nonce
    sender
    receiver
    value := lowWord value
    gasLimit := tx.gasLimit
    gasPrice := lowWord price
    totalCost := lowWord (price * tx.gasLimit.toNat + value)
    size := ((Rlp.encodeUnchecked tx.value).getD []).length }

/-- The case of `mineLoop` for new transactions. -/
def mineLoopTxs (txs : List Transaction) : Option (List TxText) := txs.mapM (Transaction.string C)

def broadcastTxs (peers : List P2P.ChainPeer) (txs : List Transaction) : List P2P.ChainPeer :=
  peers.map fun p =>
    let unknown := (txs.map (Transaction.hashOf C)).filter (· ∉ p.knownTxs)
    if unknown = [] then p else p.send (.asyncTransactions unknown)

/-- Both consumers of an event. -/
def consumeTxs (peers : List P2P.ChainPeer) (txs : List Transaction) : Option (List TxText × List P2P.ChainPeer) :=
  (mineLoopTxs C txs).map fun texts => (texts, broadcastTxs C peers txs)

/-- Some pool accepts the transaction. -/
def Accepted (tx : Transaction) : Prop :=
  ∃ (signer : InitialSigner) (env : Surroundings) (pool pool' : TxPool C signer) (isLocal replaced : Bool),
    (TxPool.add env tx isLocal).run pool = .ok replaced pool'

variable {C} {tx : Transaction}

theorem TxPool.validateTx_eq_ok {signer : InitialSigner} {pool : TxPool C signer} {isLocal : Bool}
    {t : PooledTx C signer} (valid : pool.validateTx tx isLocal = .ok t) : t.tx = tx := by
  unfold validateTx at valid
  repeat' first | split at valid | dsimp only at valid
  all_goals cases valid
  rfl

/-- An accepted transaction has a sender, a price and an amount. -/
theorem Accepted.pooled (accepted : Accepted C tx) : ∃ (signer : InitialSigner) (t : PooledTx C signer), t.tx = tx := by
  obtain ⟨signer, env, pool, pool', isLocal, replaced, ran⟩ := accepted
  change TxPool.add env tx isLocal pool = _ at ran
  unfold TxPool.add at ran
  split at ran
  · cases ran
  · cases valid : pool.validateTx tx isLocal with
    | error fault => simp [valid] at ran
    | ok t => exact ⟨signer, t, TxPool.validateTx_eq_ok valid⟩

/-- Everything but the receiver is there: the signer of the pool is the one that the chain id of the transaction names.
-/
theorem Accepted.string_isSome (accepted : Accepted C tx) : (tx.string C).isSome ↔ tx.receiver.isSome := by
  obtain ⟨signer, t, rfl⟩ := accepted.pooled
  obtain ⟨v, present⟩ : ∃ v, t.tx.v = some v := by
    have found := t.hasSender
    cases present : t.tx.v with
    | none => simp [InitialSigner.sender, present] at found
    | some v => exact ⟨v, rfl⟩
  have named : InitialSigner.new (some (deriveChainId v)) = signer :=
    congrArg InitialSigner.mk (InitialSigner.sender_eq_ok present t.hasSender).1
  cases receiver : t.tx.receiver <;>
    simp [Transaction.string, present, named, t.hasSender, t.hasPrice, t.hasAmount, receiver]

/-- The consumers handle accepted transactions exactly if none is a contract creation. -/
theorem consumeTxs_isSome_iff {txs : List Transaction} (accepted : ∀ tx ∈ txs, Accepted C tx)
    (peers : List P2P.ChainPeer) :
    (consumeTxs C peers txs).isSome ↔ ∀ tx ∈ txs, tx.receiver.isSome := by
  rw [consumeTxs, Option.isSome_map, mineLoopTxs]
  induction txs with
  | nil => simp
  | cons tx txs ih =>
    obtain ⟨head, tail⟩ := List.forall_mem_cons.mp accepted
    rw [List.forall_mem_cons, ← ih tail, ← head.string_isSome, List.mapM_cons]
    cases tx.string C <;> cases txs.mapM (Transaction.string C) <;> simp

namespace TxPool

/-- The order of the program's lists, at time zero. -/
def plainly : Surroundings := ⟨fun _ l => l, fun _ l => .refl l, fun _ => 0⟩

/-- A contract creation of an account with funds, signed on chain 1, and the call of the same. -/
def creation : Transaction :=
  ⟨0, some 1, 53000, none, some 0, none, some 37, some 1, some 1⟩

def call : Transaction := { creation with receiver := some 7 }

/-- An empty pool over accounts with funds. -/
def solvent : TxPool InitialSigner.onesCrypto ⟨1⟩ :=
  newTxPool ⟨[], false, false, 1, 10, 16, 4096, 64, 1024, 0⟩ ⟨fun _ => 0, fun _ => 10 ^ 18⟩ 100000

theorem accepted_solvent (tx : Transaction)
    (passed : ∃ replaced pool', (add plainly tx false).run solvent = .ok replaced pool') :
    Accepted InitialSigner.onesCrypto tx := by
  obtain ⟨replaced, pool', ran⟩ := passed
  exact ⟨_, plainly, solvent, pool', false, replaced, ran⟩

end TxPool

open TxPool in
/-- A call is printed and sent. -/
theorem consumeTxs_call :
    Accepted InitialSigner.onesCrypto call ∧ (consumeTxs InitialSigner.onesCrypto [.new] [call]).isSome := by
  have accepted := accepted_solvent call (by decide +kernel)
  exact ⟨accepted, (consumeTxs_isSome_iff (by simpa using accepted) _).mpr (by decide)⟩

open TxPool in
/-- A contract creation is accepted, and the miner does not survive it. -/
theorem not_consumeTxs_creation :
    Accepted InitialSigner.onesCrypto creation ∧ consumeTxs InitialSigner.onesCrypto [] [creation] = none :=
  ⟨accepted_solvent creation (by decide +kernel), by decide +kernel⟩

end KKChain
