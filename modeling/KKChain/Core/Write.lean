import KKChain.Core.BlockChain

/-! # What a block write does

`writeBlockWithState_ok` says all a successful `WriteBlockWithState` did, as a function of the chain it met:
the block is stored, and the head is updated by `adopted`. The results on the chain rest on it and do not
look into the call again.
-/

namespace KKChain

open Rlp Proc

variable {B : Backend} {block : Block} {fuel : ℕ} {externTd : ℤ}

@[simp] theorem lifted_eq_ok {ε α : Type} {x : Except (Fault ε) α} {a : α} : lifted x = .ok a ↔ x = .ok a := by
  cases x <;> simp [lifted, Except.mapError]

theorem lifted_eq_error {ε α : Type} {x : Except (Fault ε) α} {f : Fault (ChainError ε)}
    (failed : lifted x = .error f) :
    ∃ e, x = .error e := by
  cases x with
  | ok a => cases failed
  | error e => exact ⟨e, rfl⟩

namespace BlockChain

variable (bc : BlockChain B)

/-- The chain after a block and its total difficulty were stored. -/
def store (block : Block) (td : ℤ) (stateDb : B.StateDb) : BlockChain B where
  db := (((bc.db.putTd (block.hash B.crypto) block.numberU64 td).putBody (block.hash B.crypto) block.numberU64
    block.txs).putHeaderNumber (block.header.hashOf B.crypto) block.numberU64).putHeader
      (block.header.hashOf B.crypto) block.numberU64 block.header
  stateDb := stateDb
  currentBlock := bc.currentBlock
  genesisBlock := bc.genesisBlock

/-- The chain with the ancestors of a preferred block in place. -/
def reorged (fuel : ℕ) (block : Block) : Except (Fault (ChainError B.Error)) (BlockChain B) :=
  if block.header.parentHash ≠ bc.currentBlock.hash B.crypto then bc.reorg fuel bc.currentBlock block else .ok bc

/-- The head update as a function of the chain. -/
def adopted (fuel : ℕ) (block : Block) (externTd localTd : ℤ) (coin : Bool) :
    Except (Fault (ChainError B.Error)) (BlockChain B) :=
  if bc.prefers externTd localTd block coin then
    (bc.reorged fuel block).map fun bc => (bc.writeTxLookupEntries block).insert block
  else .ok (bc.insert block)

/-- The new chain, inserted from the bottom with its transactions. -/
def insertAll (news : List Block) : BlockChain B :=
  news.foldr (fun block bc => (bc.insert block).writeTxLookupEntries block) bc

theorem reorg_ok {old new : Block} {bc' : BlockChain B} (ran : bc.reorg fuel old new = .ok bc') :
    ∃ olds news, bc.split fuel old new = .ok (olds, news) ∧ bc' = { bc.insertAll news with
      db := (bc.insertAll news).db.deleteTxLookupEntries B.crypto
        (txDifference B.crypto (olds.flatMap Block.txs) (news.flatMap Block.txs)) } := by
  obtain ⟨⟨olds, news⟩, walked, ran⟩ := except_bind_eq_ok.mp ran
  exact ⟨olds, news, walked, (Except.ok.inj ran).symm⟩

/-- The chains agree on everything but the indexes and the head. -/
structure SameStore (bc bc' : BlockChain B) : Prop where
  headers : bc'.db.headers = bc.db.headers
  headerNumber : bc'.db.headerNumber = bc.db.headerNumber
  bodies : bc'.db.bodies = bc.db.bodies
  tds : bc'.db.tds = bc.db.tds
  stateDb : bc'.stateDb = bc.stateDb
  genesisBlock : bc'.genesisBlock = bc.genesisBlock

variable {bc} {bc' : BlockChain B}

theorem SameStore.trans {bc'' : BlockChain B} (first : bc.SameStore bc') (second : bc'.SameStore bc'') :
    bc.SameStore bc'' where
  headers := second.headers.trans first.headers
  headerNumber := second.headerNumber.trans first.headerNumber
  bodies := second.bodies.trans first.bodies
  tds := second.tds.trans first.tds
  stateDb := second.stateDb.trans first.stateDb
  genesisBlock := second.genesisBlock.trans first.genesisBlock

theorem sameStore_insert (bc : BlockChain B) (block : Block) : bc.SameStore (bc.insert block) :=
  ⟨rfl, rfl, rfl, rfl, rfl, rfl⟩

theorem sameStore_writeTxLookupEntries (bc : BlockChain B) (block : Block) :
    bc.SameStore (bc.writeTxLookupEntries block) := ⟨rfl, rfl, rfl, rfl, rfl, rfl⟩

theorem sameStore_insertAll (bc : BlockChain B) (news : List Block) : bc.SameStore (bc.insertAll news) := by
  induction news with
  | nil => exact ⟨rfl, rfl, rfl, rfl, rfl, rfl⟩
  | cons block news ih => exact ih.trans ((sameStore_insert _ block).trans (sameStore_writeTxLookupEntries _ block))

theorem sameStore_reorg {old new : Block} (ran : bc.reorg fuel old new = .ok bc') : bc.SameStore bc' := by
  obtain ⟨olds, news, -, rfl⟩ := reorg_ok _ ran
  exact (sameStore_insertAll bc news).trans ⟨rfl, rfl, rfl, rfl, rfl, rfl⟩

theorem sameStore_reorged (ran : bc.reorged fuel block = .ok bc') : bc.SameStore bc' := by
  unfold reorged at ran
  split_ifs at ran with apart
  · exact sameStore_reorg ran
  · cases ran
    exact ⟨rfl, rfl, rfl, rfl, rfl, rfl⟩

/-- Whatever the decision was, the block is the head afterwards. -/
theorem adopted_ok {localTd : ℤ} {coin : Bool} (ran : bc.adopted fuel block externTd localTd coin = .ok bc') :
    ∃ bc₁, bc.SameStore bc₁ ∧ bc' = bc₁.insert block ∧ (bc.prefers externTd localTd block coin = false ∧ bc₁ = bc ∨
        bc.prefers externTd localTd block coin = true ∧
          ∃ bc₂, bc.reorged fuel block = .ok bc₂ ∧ bc₁ = bc₂.writeTxLookupEntries block) := by
  unfold adopted at ran
  split_ifs at ran with preferred
  · cases reorged : bc.reorged fuel block with
    | error e =>
      rw [reorged] at ran
      cases ran
    | ok bc₂ =>
      rw [reorged] at ran
      exact ⟨bc₂.writeTxLookupEntries block, (sameStore_reorged reorged).trans (sameStore_writeTxLookupEntries _ block),
        (Except.ok.inj ran).symm, .inr ⟨preferred, bc₂, rfl, rfl⟩⟩
  · exact ⟨bc, ⟨rfl, rfl, rfl, rfl, rfl, rfl⟩, (Except.ok.inj ran).symm, .inl ⟨by simpa using preferred, rfl⟩⟩

end BlockChain

namespace ChainProc

variable {w w' : World B} {u : Unit} {state : B.State}

@[simp] theorem mustEncode_ok {v : Value} :
    (mustEncode v : ChainProc B Unit).run w = .ok u w' ↔ (∃ enc, encodeToBytes v = some (.ok enc)) ∧ w = w' := by
  unfold mustEncode
  rcases encodeToBytes v with _ | _ | enc <;> simp

@[simp] theorem modifyChain_ok {f : BlockChain B → BlockChain B} :
    (modifyChain f).run w = .ok u w' ↔ { w with chain := f w.chain } = w' := by
  simp [modifyChain]

@[simp] theorem modifyDb_ok {f : Database → Database} :
    (modifyDb f : ChainProc B Unit).run w = .ok u w' ↔
      { w with chain := { w.chain with db := f w.chain.db } } = w' := by
  simp [modifyDb]

@[simp] theorem record_ok {call : ChainCall} :
    (record call : ChainProc B Unit).run w = .ok u w' ↔ { w with log := ⟨w.chain, call⟩ :: w.log } = w' := by
  simp [record]

theorem writeBlock_ok (ran : (writeBlock block : ChainProc B Unit).run w = .ok u w') :
    block.header.Encoded ∧ w' = { w with chain := { w.chain with
      db := ((w.chain.db.putBody (block.hash B.crypto) block.numberU64 block.txs).putHeaderNumber
        (block.header.hashOf B.crypto) block.numberU64).putHeader
          (block.header.hashOf B.crypto) block.numberU64 block.header } } := by
  simp only [writeBlock, writeBody, writeHeader, bind_eq_ok, mustEncode_ok, modifyDb_ok] at ran
  obtain ⟨-, w₁, ⟨-, _, ⟨-, rfl⟩, rfl⟩, -, _, rfl, -, _, ⟨encoded, rfl⟩, rfl⟩ := ran
  exact ⟨encoded, rfl⟩

theorem flip_ok {drawn coin : Bool} (ran : (flip drawn : ChainProc B Bool).run w = .ok coin w') :
    coin = w.coins 0 ∧ w'.chain = w.chain ∧ w'.log = w.log := by
  cases drawn <;> simp only [flip, bind_eq_ok, get_eq_ok] at ran
  · obtain ⟨_, _, ⟨rfl, rfl⟩, ran⟩ := ran
    obtain ⟨rfl, rfl⟩ := pure_eq_ok.mp ran
    exact ⟨rfl, rfl, rfl⟩
  · obtain ⟨_, _, ⟨rfl, rfl⟩, ran⟩ := ran
    cases ran
    exact ⟨rfl, rfl, rfl⟩

theorem commitState_ok (ran : (commitState state).run w = .ok u w') :
    ∃ stateDb, B.commit state w.chain.stateDb = (.ok (), stateDb) ∧
      w' = { w with chain := { w.chain with stateDb } } := by
  simp only [commitState, bind_eq_ok, get_eq_ok, modifyChain_ok, ofExcept_eq_ok, lifted_eq_ok] at ran
  obtain ⟨_, _, ⟨rfl, rfl⟩, -, _, rfl, outcome, rfl⟩ := ran
  exact ⟨(B.commit state w.chain.stateDb).2, Prod.ext outcome rfl, rfl⟩

theorem adopt_ok {localTd : Option ℤ} (ran : (adopt fuel block externTd localTd).run w = .ok u w') :
    ∃ td, localTd = some td ∧ w.chain.adopted fuel block externTd td (w.coins 0) = .ok w'.chain ∧ w'.log = w.log := by
  simp only [adopt, bind_eq_ok, get_eq_ok, orFault_eq_ok] at ran
  obtain ⟨_, _, ⟨rfl, rfl⟩, td, _, ⟨rfl, rfl⟩, coin, w₁, flipped, ran⟩ := ran
  obtain ⟨rfl, chain, log⟩ := flip_ok flipped
  refine ⟨td, rfl, ?_⟩
  unfold BlockChain.adopted BlockChain.reorged
  split_ifs at ran ⊢ with preferred apart
  · simp only [bind_eq_ok, ofExcept_eq_ok, modifyChain_ok] at ran
    obtain ⟨bc, _, ⟨reorged, rfl⟩, -, _, rfl, -, _, rfl, rfl⟩ := ran
    exact ⟨by rw [reorged]; rfl, log⟩
  · simp only [bind_eq_ok, modifyChain_ok] at ran
    obtain ⟨-, _, rfl, rfl⟩ := ran
    exact ⟨by rw [← chain]; rfl, log⟩
  · simp only [modifyChain_ok] at ran
    obtain rfl := ran
    exact ⟨by rw [← chain], log⟩

/-- Everything a successful `WriteBlockWithState` did. -/
theorem writeBlockWithState_ok (ran : (writeBlockWithState fuel block state).run w = .ok u w') :
    ∃ ptd td stateDb, w.chain.parentTd block = some ptd ∧ w.chain.tdOf w.chain.currentBlock = some td ∧
      block.header.Encoded ∧ B.commit state w.chain.stateDb = (.ok (), stateDb) ∧
      (w.chain.store block (block.header.difficulty + ptd) stateDb).adopted fuel block
        (block.header.difficulty + ptd) td (w.coins 0) = .ok w'.chain ∧
      w'.log = ⟨w.chain, .write block (w.coins 0)⟩ :: w.log := by
  simp only [writeBlockWithState, writeTd, bind_eq_ok, get_eq_ok, record_ok, orFault_eq_ok, mustEncode_ok,
    modifyDb_ok] at ran
  obtain ⟨_, _, ⟨rfl, rfl⟩, -, _, rfl, ptd, _, ⟨parent, rfl⟩, -, _, ⟨-, _, ⟨-, rfl⟩, rfl⟩, _, w₁, stored, _, w₂,
    committed, adopted⟩ := ran
  obtain ⟨encoded, rfl⟩ := writeBlock_ok stored
  obtain ⟨stateDb, commit, rfl⟩ := commitState_ok committed
  obtain ⟨td, head, update, log⟩ := adopt_ok adopted
  exact ⟨ptd, td, stateDb, parent, head, encoded, commit, update, log⟩

/-- A successful `WriteBlockWithState` leaves the block stored and as the head. -/
theorem writeBlockWithState_store (ran : (writeBlockWithState fuel block state).run w = .ok u w') :
    ∃ ptd stateDb, w.chain.parentTd block = some ptd ∧ block.header.Encoded ∧
      (w.chain.store block (block.header.difficulty + ptd) stateDb).SameStore w'.chain ∧
        w'.chain.currentBlock = block := by
  obtain ⟨ptd, td, stateDb, parent, -, encoded, -, adopted, -⟩ := writeBlockWithState_ok ran
  obtain ⟨bc₁, store, chain, -⟩ := BlockChain.adopted_ok adopted
  refine ⟨ptd, stateDb, parent, encoded, ?_, by rw [chain]; rfl⟩
  rw [chain]
  exact store.trans (BlockChain.sameStore_insert _ block)

/-- Everything a successful `WriteBlockWithoutState` did. -/
theorem writeBlockWithoutState_ok {td : ℤ}
    (ran : (writeBlockWithoutState block td : ChainProc B Unit).run w = .ok u w') :
    block.header.Encoded ∧ w' =
      { w with chain := w.chain.store block td w.chain.stateDb, log := ⟨w.chain, .side block⟩ :: w.log } := by
  simp only [writeBlockWithoutState, writeTd, bind_eq_ok, record_ok, mustEncode_ok, modifyDb_ok] at ran
  obtain ⟨-, _, rfl, -, _, ⟨-, _, ⟨-, rfl⟩, rfl⟩, stored⟩ := ran
  obtain ⟨encoded, rfl⟩ := writeBlock_ok stored
  exact ⟨encoded, rfl⟩

end ChainProc

end KKChain
