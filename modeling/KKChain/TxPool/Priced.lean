import KKChain.Core.Rawdb
import KKChain.TxPool.TxList
import KKChain.Types.Signature
import Mathlib.Data.Prod.Lex

/-! # The list of prices

`txPricedList` is a heap of the pooled transactions by price. A transaction that leaves the pool is not taken out of the
heap: the entry goes stale, and is found to be when it is popped and its hash is not looked up any more. When a quarter
of the entries is counted as stale, the heap is built anew.
-/

namespace KKChain

/-- A transaction that was found to be valid, with the values that the check has read. -/
structure PooledTx (C : Crypto) (signer : InitialSigner) where
  tx : Transaction
  sender : Address
  price : ℤ
  amount : ℤ
  hasSender : signer.sender C tx = .ok sender
  hasPrice : tx.gasPrice = some price
  hasAmount : tx.amount = some amount

namespace PooledTx

variable {C : Crypto} {signer : InitialSigner}

def hash (t : PooledTx C signer) : Hash := t.tx.hashOf C

instance : TxData (PooledTx C signer) where
  nonce t := t.tx.nonce.toNat
  gasPrice t := t.price
  gasLimit t := t.tx.gasLimit.toNat
  cost t := t.price * t.tx.gasLimit.toNat + t.amount

/-- The order of the heap: the cheaper first, and of one price the higher nonce. -/
def priceKey (t : PooledTx C signer) : ℤ ×ₗ ℕᵒᵈ := toLex (t.price, OrderDual.toDual (TxData.nonce t))

end PooledTx

abbrev TxLookup (C : Crypto) (signer : InitialSigner) := AList fun _ : Hash => PooledTx C signer

/-- `txPricedList`, but for the lookup that it shares with the pool. -/
structure TxPricedList (C : Crypto) (signer : InitialSigner) where
  items : Heap fun t : PooledTx C signer => t.priceKey
  stales : ℤ

namespace TxPricedList

variable {C : Crypto} {signer : InitialSigner} (l : TxPricedList C signer) (all : TxLookup C signer)
  (locals : Finset Address)

/-- `newTxPricedList`. -/
def new : TxPricedList C signer := ⟨.empty, 0⟩

def put (t : PooledTx C signer) : TxPricedList C signer := { l with items := l.items.push t }

/-- `Removed`, where the lookup is ranged over in some order. -/
def removed (order : List (PooledTx C signer) → List (PooledTx C signer)) : TxPricedList C signer :=
  if l.stales + 1 ≤ (l.items.entries.length / 4 : ℕ) then { l with stales := l.stales + 1 }
  else ⟨.init (order all.values), 0⟩

/-- An entry is stale if its hash is not looked up. -/
def Stale (t : PooledTx C signer) : Prop := all.lookup t.hash = none

instance (t : PooledTx C signer) : Decidable (Stale all t) := inferInstanceAs (Decidable (_ = none))

/-- The loop of `Underpriced`, which discards stale entries at the start of the heap. -/
def skipStales : ℕ → TxPricedList C signer → TxPricedList C signer
  | 0, l => l
  | fuel + 1, l =>
    match l.items.pop with
    | none => l
    | some (head, items) => if Stale all head then skipStales fuel ⟨items, l.stales - 1⟩ else l

/-- `Underpriced`, with the list it leaves. -/
def underpriced (t : PooledTx C signer) : Bool × TxPricedList C signer :=
  if t.sender ∈ locals then (false, l)
  else
    let l := skipStales all l.items.entries.length l
    match l.items.root with
    | none => (false, l)
    | some cheapest => (decide (t.price ≤ cheapest.price), l)

/-- The loop of `Discard`: the entries to drop, those to keep, and the list. -/
def discardLoop : ℕ → ℤ → TxPricedList C signer →
    List (PooledTx C signer) × List (PooledTx C signer) × TxPricedList C signer
  | 0, _, l => ([], [], l)
  | fuel + 1, count, l =>
    if 0 < count then
      match l.items.pop with
      | none => ([], [], l)
      | some (t, items) =>
        if Stale all t then discardLoop fuel count ⟨items, l.stales - 1⟩
        else if t.sender ∈ locals then
          let (drop, save, l) := discardLoop fuel count ⟨items, l.stales⟩
          (drop, t :: save, l)
        else
          let (drop, save, l) := discardLoop fuel (count - 1) ⟨items, l.stales⟩
          (t :: drop, save, l)
    else ([], [], l)

def discard (count : ℤ) : List (PooledTx C signer) × TxPricedList C signer :=
  let (drop, save, l) := discardLoop all locals l.items.entries.length count l
  (drop, save.foldl put l)

end TxPricedList

end KKChain
