import KKChain.Common
import KKChain.Machine.Run
import Mathlib.Data.Finset.Card

/-! # Peers of the chain protocol

Of every peer it is kept which transactions and blocks it knows. The marks make room before they add to these sets; the
sends, and what is queued to be sent, add without a bound.
-/

namespace KKChain.P2P

def maxKnownTxs : ℕ := 32768

def maxKnownBlocks : ℕ := 1024

def maxQueuedTxs : ℕ := 128

def maxQueuedProps : ℕ := 4

def maxQueuedAnns : ℕ := 4

/-- `peer`, with the hashes of what is known and queued. -/
structure ChainPeer where
  knownTxs : Finset Hash
  knownBlocks : Finset Hash
  queuedTxs : List (List Hash)
  queuedProps : List Hash
  queuedAnns : List Hash

/-- The sends of a peer, and those of its broadcast loop. -/
inductive Send where
  | transactions (txs : List Hash)
  | newBlockHashes (hashes : List Hash)
  | newBlock (hash : Hash)
  | asyncNewBlock (hash : Hash)
  | asyncNewBlockHash (hash : Hash)
  | asyncTransactions (txs : List Hash)
  | queuedTxs
  | queuedProp
  | queuedAnn

inductive PeerOp where
  | markBlock (hash : Hash)
  | markTransactions (hash : Hash)
  | send (s : Send)

namespace ChainPeer

/-- `NewPeer`. -/
def new : ChainPeer := ⟨∅, ∅, [], [], []⟩

def addTxs (p : ChainPeer) (txs : List Hash) : ChainPeer := { p with knownTxs := p.knownTxs ∪ txs.toFinset }

def addBlocks (p : ChainPeer) (hashes : List Hash) : ChainPeer :=
  { p with knownBlocks := p.knownBlocks ∪ hashes.toFinset }

/-- `SendTransactions` and its like. A full queue drops what is sent. -/
def send (p : ChainPeer) : Send → ChainPeer
  | .transactions txs => p.addTxs txs
  | .newBlockHashes hashes => p.addBlocks hashes
  | .newBlock hash => p.addBlocks [hash]
  | .asyncNewBlock hash =>
    if p.queuedProps.length < maxQueuedProps then
      { p.addBlocks [hash] with queuedProps := p.queuedProps ++ [hash] } else p
  | .asyncNewBlockHash hash =>
    if p.queuedAnns.length < maxQueuedAnns then { p.addBlocks [hash] with queuedAnns := p.queuedAnns ++ [hash] } else p
  | .asyncTransactions txs =>
    if p.queuedTxs.length < maxQueuedTxs then { p.addTxs txs with queuedTxs := p.queuedTxs ++ [txs] } else p
  | .queuedTxs => { p.addTxs (p.queuedTxs.headD []) with queuedTxs := p.queuedTxs.tail }
  | .queuedProp => { p.addBlocks (p.queuedProps.take 1) with queuedProps := p.queuedProps.tail }
  | .queuedAnn => { p.addBlocks (p.queuedAnns.take 1) with queuedAnns := p.queuedAnns.tail }

/-- The loop of the marks: some elements are popped until there is room. -/
inductive Pops (max : ℕ) : Finset Hash → Finset Hash → Prop
  | done {s : Finset Hash} : s.card < max → Pops max s s
  | pop {s t : Finset Hash} {h : Hash} : max ≤ s.card → h ∈ s → Pops max (s.erase h) t → Pops max s t

/-- An operation on a peer. -/
inductive Step : ChainPeer → PeerOp → ChainPeer → Prop
  | markBlock {p : ChainPeer} {hash : Hash} {s : Finset Hash} (popped : Pops maxKnownBlocks p.knownBlocks s) :
      Step p (.markBlock hash) { p with knownBlocks := insert hash s }
  | markTransactions {p : ChainPeer} {hash : Hash} {s : Finset Hash} (popped : Pops maxKnownTxs p.knownTxs s) :
      Step p (.markTransactions hash) { p with knownTxs := insert hash s }
  | send {p : ChainPeer} {s : Send} : Step p (.send s) (p.send s)

def Bounded (p : ChainPeer) : Prop := p.knownTxs.card ≤ maxKnownTxs ∧ p.knownBlocks.card ≤ maxKnownBlocks

/-- The hashes of transactions and of blocks that are sent or queued. -/
def sent (p : ChainPeer) : Send → List Hash × List Hash
  | .transactions txs => (txs, [])
  | .newBlockHashes hashes => ([], hashes)
  | .newBlock hash => ([], [hash])
  | .asyncNewBlock hash => ([], if p.queuedProps.length < maxQueuedProps then [hash] else [])
  | .asyncNewBlockHash hash => ([], if p.queuedAnns.length < maxQueuedAnns then [hash] else [])
  | .asyncTransactions txs => (if p.queuedTxs.length < maxQueuedTxs then txs else [], [])
  | .queuedTxs => (p.queuedTxs.headD [], [])
  | .queuedProp => ([], p.queuedProps.take 1)
  | .queuedAnn => ([], p.queuedAnns.take 1)

/-- How many transactions and blocks were marked, sent or queued so far, after one more operation. A mark makes room, so
that it does not count beyond the bound. -/
def count (p : ChainPeer) (n : ℕ × ℕ) : PeerOp → ℕ × ℕ
  | .markBlock _ => (n.1, min (n.2 + 1) maxKnownBlocks)
  | .markTransactions _ => (min (n.1 + 1) maxKnownTxs, n.2)
  | .send s => (n.1 + (p.sent s).1.length, n.2 + (p.sent s).2.length)

/-- The counts of a run, from some counts on, stay within the bounds. -/
def Counted : ℕ × ℕ → List (ChainPeer × PeerOp × ChainPeer) → Prop
  | _, [] => True
  | n, (p, op, _) :: ts =>
    (p.count n op).1 ≤ maxKnownTxs ∧ (p.count n op).2 ≤ maxKnownBlocks ∧ Counted (p.count n op) ts

variable {p p' : ChainPeer} {op : PeerOp} {n : ℕ × ℕ}

theorem Pops.card_lt {max : ℕ} {s t : Finset Hash} (pops : Pops max s t) : t.card < max ∧ t.card ≤ s.card := by
  induction pops with
  | done small => exact ⟨small, le_rfl⟩
  | pop _ _ _ ih => exact ⟨ih.1, ih.2.trans (Finset.card_erase_le)⟩

theorem card_mark {max k : ℕ} {s t : Finset Hash} (pops : Pops max s t) (few : s.card ≤ k) (hash : Hash) :
    (insert hash t).card ≤ min (k + 1) max := by
  obtain ⟨room, fewer⟩ := pops.card_lt
  have := Finset.card_insert_le hash t
  omega

theorem card_send {k : ℕ} {s : Finset Hash} (few : s.card ≤ k) (hashes : List Hash) :
    (s ∪ hashes.toFinset).card ≤ k + hashes.length :=
  (Finset.card_union_le _ _).trans (Nat.add_le_add few hashes.toFinset_card_le)

theorem send_known (s : Send) : (p.send s).knownTxs = p.knownTxs ∪ (p.sent s).1.toFinset ∧
    (p.send s).knownBlocks = p.knownBlocks ∪ (p.sent s).2.toFinset := by
  cases s with
  | asyncNewBlock | asyncNewBlockHash | asyncTransactions =>
    simp only [send, sent]
    split_ifs <;> simp [addTxs, addBlocks]
  | _ => simp [send, sent, addTxs, addBlocks]

/-- The sets are no larger than the counts. -/
theorem Step.card_le (step : Step p op p') (txs : p.knownTxs.card ≤ n.1) (blocks : p.knownBlocks.card ≤ n.2) :
    p'.knownTxs.card ≤ (p.count n op).1 ∧ p'.knownBlocks.card ≤ (p.count n op).2 := by
  cases step with
  | markBlock popped => exact ⟨txs, card_mark popped blocks _⟩
  | markTransactions popped => exact ⟨card_mark popped txs _, blocks⟩
  | send =>
    rw [(send_known _).1, (send_known _).2]
    exact ⟨card_send txs _, card_send blocks _⟩

theorem bounded_of_counted {ts : List (ChainPeer × PeerOp × ChainPeer)} (run : Run Step p ts p')
    (counted : Counted n ts) (txs : p.knownTxs.card ≤ n.1) (blocks : p.knownBlocks.card ≤ n.2)
    (bounded : p.Bounded) : p'.Bounded := by
  induction run generalizing n with
  | nil => exact bounded
  | cons step _ ih =>
    obtain ⟨fewTxs, fewBlocks, rest⟩ := counted
    obtain ⟨txs', blocks'⟩ := step.card_le txs blocks
    exact ih rest txs' blocks' ⟨txs'.trans fewTxs, blocks'.trans fewBlocks⟩

/-- The known sets of a peer stay bounded in every run whose counts do. -/
theorem known_bounded {ts : List (ChainPeer × PeerOp × ChainPeer)} (run : Run Step new ts p)
    (counted : Counted (0, 0) ts) : p.Bounded :=
  bounded_of_counted run counted le_rfl le_rfl ⟨Nat.zero_le _, Nat.zero_le _⟩

/-- Two blocks are announced to a new peer, one is marked and one is queued. -/
theorem known_bounded_four : ∃ ts, ∃ p : ChainPeer, ts.length = 3 ∧ Run Step new ts p ∧ p.Bounded := by
  have first : Run Step new _ (new.send (.newBlockHashes [1, 2])) := .cons .send (.nil _)
  have second := first.snoc (l := .markBlock 3) (.markBlock (.done (by decide)))
  have third := second.snoc (.send (s := .asyncNewBlock 4))
  refine ⟨_, _, rfl, third, known_bounded third ⟨?_, ?_, ?_, ?_, ?_, ?_, trivial⟩⟩ <;> decide

/-- Too many blocks are announced to a new peer at once. -/
theorem not_bounded_announced : ∃ p : ChainPeer,
    Step new (.send (.newBlockHashes ((List.range 1025).map (BitVec.ofNat 256)))) p ∧ ¬ p.Bounded := by
  refine ⟨_, .send, fun bounded => ?_⟩
  have distinct : ((List.range 1025).map (BitVec.ofNat 256)).Nodup := by
    refine List.Nodup.map_on (fun x low y low' same => ?_) List.nodup_range
    simp only [List.mem_range] at low low'
    have := congrArg BitVec.toNat same
    simp only [BitVec.toNat_ofNat] at this
    omega
  have many := bounded.2
  simp [send, addBlocks, new, List.toFinset_card_of_nodup distinct, maxKnownBlocks] at many

end ChainPeer

end KKChain.P2P
