import KKChain.Core.SetHead

/-! # The canonical index in every run

`WriteBlockWithState` inserts its block into the canonical index whether or not it was preferred to the head, and it
never removes entries above a new head that is lower than the old one. `KeepsIndex` says of a call and the chain it
meets that neither leaves a trace. In a run of such calls the index names the ancestors of the head.
-/

namespace KKChain

open Proc LinkedIndex

variable {B : Backend}

namespace BlockChain

/-- Whether `WriteBlockWithState` prefers the block to the head. -/
def preferred (bc : BlockChain B) (block : Block) (coin : Bool) : Bool :=
  match bc.parentTd block, bc.tdOf bc.currentBlock with
  | some ptd, some td => bc.prefers (block.header.difficulty + ptd) td block coin
  | _, _ => false

/-- The ancestor a number of generations up. -/
def ancestor (bc : BlockChain B) : ℕ → Block → Option Block
  | 0, block => some block
  | k + 1, block => (bc.parentOf block).bind (bc.ancestor k)

variable {bc : BlockChain B} {S : Set Header}

/-- From a block of the index, every ancestor is in the index. -/
theorem Indexed.ancestor (indexed : bc.Indexed) (keyed : Keyed S bc) (k : ℕ) {block : Block} (holds : bc.Holds block)
    (within : block.numberU64 ≤ bc.currentBlock.numberU64)
    (entry : bc.db.canonical block.numberU64 = some (block.hash B.crypto)) (bound : k ≤ block.numberU64) :
    ∃ a, bc.ancestor k block = some a ∧ a.numberU64 + k = block.numberU64 ∧
      bc.db.canonical a.numberU64 = some (a.hash B.crypto) := by
  induction k generalizing block with
  | zero => exact ⟨block, rfl, rfl, entry⟩
  | succ k ih =>
    obtain ⟨m, next⟩ : ∃ m, block.numberU64 = m + 1 := Nat.exists_eq_succ_of_ne_zero (by omega)
    have below := indexed.linked.below (next ▸ within) (next ▸ entry) (next ▸ holds.parentAt)
    obtain ⟨key, grand, entry', node, -⟩ := indexed.linked m (by omega)
    cases entry'.symm.trans below
    obtain ⟨parent, read, -⟩ := Option.map_eq_some_iff.mp node
    obtain ⟨held, hash, number⟩ := keyed.getBlock read
    have isParent : bc.parentOf block = some parent := by
      rw [parentOf, next, pred64_succ (next ▸ block.header.numberU64_lt), read]
    obtain ⟨a, found, height, inIndex⟩ := ih held (by omega) (by rw [number, hash, below]) (by omega)
    exact ⟨a, by rw [BlockChain.ancestor, isParent]; exact found, by omega, inIndex⟩

end BlockChain

/-- What a call has to meet to keep the canonical index. A block that is written has the hash of its header and is not
below the head, and it is preferred to the head or its parent is in the index. `SetHead` goes to a block whose state
can be opened. -/
def ChainEvent.KeepsIndex (e : ChainEvent B) : Prop :=
  match e.call with
  | .write block coin => block.hash B.crypto = block.header.hashOf B.crypto ∧ block.numberU64 ≠ 0 ∧
      e.before.currentBlock.numberU64 ≤ block.numberU64 ∧
      (e.before.preferred block coin = true ∨
        e.before.db.canonical (block.numberU64 - 1) = some block.header.parentHash)
  | .side block => block.numberU64 ≠ 0
  | .setHead target => ∀ block ∈ e.before.getBlockByNumber (min target e.before.currentBlock.numberU64),
      e.before.hasState block.header.stateRoot = true
  | _ => True

instance : DecidablePred (ChainEvent.KeepsIndex : ChainEvent B → Prop)
  | ⟨_, .offer _⟩ => .isTrue trivial
  | ⟨_, .execute _ _⟩ => .isTrue trivial
  | ⟨_, .write _ _⟩ => inferInstanceAs (Decidable (_ ∧ _))
  | ⟨_, .side _⟩ => inferInstanceAs (Decidable (_ ≠ _))
  | ⟨_, .setHead _⟩ => inferInstanceAs (Decidable (∀ _ ∈ _, _))

namespace BlockChain

variable {bc bc' : BlockChain B} {S : Set Header} {block : Block} {fuel : ℕ} {ptd td : ℤ} {coin : Bool}
  {stateDb : B.StateDb}

/-- A block on the head is one above it. -/
theorem Indexed.next_of_parentTd (indexed : bc.Indexed) (keyed : Keyed S bc) (free : CollisionFree B.crypto S)
    (parent : bc.parentTd block = some ptd) (onHead : block.header.parentHash = bc.currentBlock.hash B.crypto)
    (positive : block.numberU64 ≠ 0) : block.numberU64 = bc.currentBlock.numberU64 + 1 := by
  obtain ⟨header, seen, hash, number⟩ := keyed.tds parent
  obtain rfl := keyed.eq_of_hash free indexed.head.header seen (hash.trans onHead)
  obtain ⟨m, next⟩ : ∃ m, block.numberU64 = m + 1 := Nat.exists_eq_succ_of_ne_zero positive
  rw [next, pred64_succ (next ▸ block.header.numberU64_lt)] at number
  rw [next, ← number]
  rfl

theorem Indexed.writeTxLookupEntries (indexed : bc.Indexed) : (bc.writeTxLookupEntries block).Indexed :=
  of_sameStore (sameStore_writeTxLookupEntries bc block) indexed.head indexed.top indexed.linked indexed.above

/-- The head update keeps the index, if the block is not below the head and is preferred or has its parent in the
index. -/
theorem Indexed.adopted {externTd : ℤ} (indexed : bc.Indexed) (keyed : Keyed S bc) (holds : bc.Holds block)
    (positive : block.numberU64 ≠ 0) (bound : bc.currentBlock.numberU64 ≤ block.numberU64)
    (next : block.header.parentHash = bc.currentBlock.hash B.crypto →
      block.numberU64 = bc.currentBlock.numberU64 + 1)
    (chosen : bc.prefers externTd td block coin = true ∨
      bc.db.canonical (block.numberU64 - 1) = some block.header.parentHash)
    (ran : bc.adopted fuel block externTd td coin = .ok bc') : bc'.Indexed := by
  obtain ⟨bc₁, -, rfl, ⟨lighter, rfl⟩ | ⟨-, bc₂, reorged, rfl⟩⟩ := adopted_ok ran
  · have parent := chosen.resolve_left (by simp [lighter])
    exact indexed.insert holds bound (Nat.succ_pred_eq_of_ne_zero positive).symm parent
  · unfold BlockChain.reorged at reorged
    split_ifs at reorged with apart
    · exact indexed.reorg keyed holds bound reorged
    · cases reorged
      push Not at apart
      apply indexed.writeTxLookupEntries.insert ((sameStore_writeTxLookupEntries bc block).holds holds) bound
        (next apart)
      rw [apart]
      exact indexed.top

end BlockChain

/-- The index names the ancestors of the head, and the store has what that rests on. -/
def BlockChain.KeyedIndexed (S : Set Header) (bc : BlockChain B) : Prop := Keyed S bc ∧ bc.Indexed

/-- A block write that meets its condition keeps the index. -/
theorem BlockChain.KeyedIndexed.write {w w' : World B} {fuel : ℕ} {block : Block} {state : B.State} {u : Unit}
    (ran : (ChainProc.writeBlockWithState fuel block state).run w = .ok u w')
    (kept : ChainEvent.KeepsIndex ⟨w.chain, .write block (w.coins 0)⟩) (free : CollisionFree B.crypto w'.seen)
    (seen : block.header ∈ w'.seen) (start : KeyedIndexed w'.seen w.chain) : KeyedIndexed w'.seen w'.chain := by
  obtain ⟨ptd, td, stateDb, parent, head, encoded, -, adopted, -⟩ := ChainProc.writeBlockWithState_ok ran
  obtain ⟨ptd', stateDb', parent', -, same, -⟩ := ChainProc.writeBlockWithState_store ran
  obtain ⟨hash, positive, bound, chosen⟩ := kept
  obtain ⟨keyed, indexed⟩ := start
  refine ⟨same.keyed (keyed.store free seen encoded hash positive), ?_⟩
  refine (indexed.store keyed free seen).adopted (keyed.store free seen encoded hash positive)
    (BlockChain.holds_store hash) positive bound ?_ ?_ adopted
  · exact fun onHead => indexed.next_of_parentTd keyed free parent onHead positive
  · rw [BlockChain.preferred, parent, head] at chosen
    exact chosen

namespace Genesis

variable (g : Genesis B)

theorem numberU64_header : g.header.numberU64 = 0 := by
  rw [Header.numberU64, g.number]
  rfl

theorem headers_chain {number : ℕ} {hash : Hash} {header : Header}
    (stored : g.chain.db.headers (number, hash) = some header) : number = 0 ∧ hash = g.hash ∧ header = g.header := by
  simp only [chain, database, Function.update_apply] at stored
  split_ifs at stored with key
  exact ⟨(Prod.ext_iff.mp key).1, (Prod.ext_iff.mp key).2, (Option.some.inj stored).symm⟩

theorem keyed (coins : ℕ → Bool) : BlockChain.Keyed (g.world coins).seen g.chain where
  headers stored := by
    obtain ⟨rfl, rfl, rfl⟩ := g.headers_chain stored
    exact ⟨rfl, g.numberU64_header, g.encoded, .inl rfl⟩
  numbers stored := by
    obtain ⟨rfl, rfl, rfl⟩ := g.headers_chain stored
    simp [chain, database]
  tds {number hash td} stored := by
    simp only [chain, database, Function.update_apply] at stored
    split_ifs at stored with key
    exact ⟨g.header, .inl rfl, (Prod.ext_iff.mp key).2.symm, g.numberU64_header.trans (Prod.ext_iff.mp key).1.symm⟩
  zero stored := (g.headers_chain stored).2.2

theorem indexed : g.chain.Indexed := by
  have number : g.chain.currentBlock.numberU64 = 0 := g.numberU64_header
  have header : g.chain.db.headers (0, g.hash) = some g.header := by simp [chain, database]
  have body : g.chain.db.bodies (0, g.hash) = some [] := by simp [chain, database]
  have entry : g.chain.db.canonical 0 = some g.hash := by simp [chain, database]
  constructor
  · exact ⟨rfl, by rw [number]; exact header, by rw [number]; exact congrArg Option.isSome body⟩
  · rw [number]
    exact entry
  · rw [number]
    rintro _ ⟨⟩
    refine ⟨_, g.header.parentHash, entry, ?_, by rintro _ ⟨⟩⟩
    rw [BlockChain.parentAt, BlockChain.getBlock_eq_some.mpr ⟨_, _, header, body, rfl⟩]
    rfl
  · rw [number]
    intro n positive
    simp [chain, database, positive.ne']

end Genesis

namespace Backend.tally

end Backend.tally

end KKChain
