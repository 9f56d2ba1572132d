import KKChain.TxPool.SortedMap
import Mathlib.Algebra.Group.Nat.Defs

/-! # The transactions of one account

A `txList` is a sorted map of nonces with two caps, which bound the cost and the gas of what is in it. In a strict list
a transaction does not stay when one of a lower nonce is removed. Every removal splits the contents into what is
returned and what stays.
-/

namespace KKChain

open TxData

structure TxList (τ : Type) [TxData τ] where
  strict : Bool
  txs : TxSortedMap τ
  costcap : ℤ
  gascap : ℕ

namespace TxList

variable {τ : Type} [TxData τ] (l : TxList τ)

/-- `newTxList`. -/
def new (strict : Bool) : TxList τ := ⟨strict, .new, 0, 0⟩

def overlaps (tx : τ) : Bool := (l.txs.get (nonce tx)).isSome

/-- The price below which a transaction does not take the place of another one. The percentage is a signed word. -/
def priceThreshold (old : τ) (priceBump : UInt64) : ℤ := gasPrice old * (100 + priceBump).toBitVec.toInt / 100

/-- The price is too low to take the place of another transaction. -/
def Outbid (old tx : τ) (priceBump : UInt64) : Prop :=
  gasPrice tx ≤ gasPrice old ∨ gasPrice tx < priceThreshold old priceBump

instance (old tx : τ) (priceBump : UInt64) : Decidable (Outbid old tx priceBump) := inferInstanceAs (Decidable (_ ∨ _))

/-- The transaction is put into the map, and the caps are raised. -/
def put (tx : τ) : TxList τ := { l with
  txs := l.txs.put tx
  costcap := if l.costcap < cost tx then cost tx else l.costcap
  gascap := if l.gascap < gasLimit tx then gasLimit tx else l.gascap }

/-- `Add`: the transaction that is replaced and the new list, unless there is one that is better. -/
def add (tx : τ) (priceBump : UInt64) : Option (Option τ × TxList τ) :=
  let old := l.txs.get (nonce tx)
  if ∃ other ∈ old, Outbid other tx priceBump then none else some (old, l.put tx)

def forward (threshold : ℕ) : List τ × TxList τ :=
  let (removed, txs) := l.txs.forward threshold
  (removed, { l with txs })

/-- The lowest nonce of some transactions, from the greatest word on. -/
def lowestNonce (txs : List τ) : ℕ := txs.foldl (fun lowest tx => min lowest (nonce tx)) (2 ^ 64 - 1)

/-- `Filter`: the removed transactions, those that are invalid without them, and the list. -/
def filter (costLimit : ℤ) (gasLimit' : ℕ) : List τ × List τ × TxList τ :=
  if l.costcap ≤ costLimit ∧ l.gascap ≤ gasLimit' then ([], [], l)
  else
    let (removed, txs) := l.txs.filter fun tx => decide (costLimit < cost tx) || decide (gasLimit' < gasLimit tx)
    if l.strict && !removed.isEmpty then
      let lowest := lowestNonce removed
      let (invalids, txs) := txs.filter fun tx => decide (lowest < nonce tx)
      (removed, invalids, { l with txs, costcap := costLimit, gascap := gasLimit' })
    else (removed, [], { l with txs, costcap := costLimit, gascap := gasLimit' })

/-- `Cap`, which panics on a negative limit. -/
def cap (threshold : ℤ) : Option (List τ × TxList τ) :=
  (l.txs.cap threshold).map fun (dropped, txs) => (dropped, { l with txs })

/-- `Remove`: the transactions that are invalid without the removed one, and the list, if it was found. -/
def remove (tx : τ) : Option (List τ × TxList τ) :=
  (l.txs.remove (nonce tx)).map fun txs =>
    if l.strict then
      let (invalids, txs) := txs.filter fun other => decide (nonce tx < nonce other)
      (invalids, { l with txs })
    else ([], { l with txs })

def ready (start : ℕ) : List τ × TxList τ :=
  let (ready, txs) := l.txs.ready start
  (ready, { l with txs })

def len : ℕ := l.txs.len

/-- `Empty`. -/
def isEmpty : Bool := l.len = 0

/-- `Flatten`. The cache it leaves holds the same. -/
def flatten : List τ := l.txs.flatten.1

end TxList

end KKChain
