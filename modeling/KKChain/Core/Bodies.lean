import KKChain.Consensus.Pow
import KKChain.Core.Conditions
import KKChain.Core.StateRoot

/-! # Stored bodies and their headers

`ValidateBody` compares the transactions of a block with its header only after it found the block new and its
parent available. A block that is known but above the head, or whose parent has no state, is let through before
that. `bodies_match` says that these are the only ways to a body that does not belong to its header.
-/

namespace KKChain

open Proc

variable {B : Backend} {block : Block} {call : ChainCall} {w w' : World B}

theorem Touches.seen (touched : Touches block call w w') : w.seen ⊆ w'.seen :=
  World.seen_subset touched.genesisBlock fun _ mem => touched.log ▸ List.mem_cons_of_mem _ mem

theorem Touches.header_seen (touched : Touches block call w w')
    (about : call.header = some block.header) : block.header ∈ w'.seen :=
  .inr ⟨⟨w.chain, call⟩, touched.log ▸ (.head _), about⟩

/-- Headers are stored under their hash, bodies under the hash of a header with their root. -/
structure BodiesKeyed (w : World B) : Prop where
  headers : ∀ number hash header, w.chain.db.headers (number, hash) = some header →
    header.hashOf B.crypto = hash ∧ header.Encoded ∧ header ∈ w.seen
  bodies : ∀ number hash txs, w.chain.db.bodies (number, hash) = some txs →
    ∃ header ∈ w.seen, header.hashOf B.crypto = hash ∧ txRootOf B.crypto txs = some header.txRoot

namespace BodiesKeyed

theorem noted (keyed : BodiesKeyed w) (call : ChainCall) : BodiesKeyed (w.noted call) where
  headers number hash header stored := by
    obtain ⟨key, encoded, seen⟩ := keyed.headers number hash header stored
    exact ⟨key, encoded, w.seen_noted call seen⟩
  bodies number hash txs stored := by
    obtain ⟨header, seen, key, root⟩ := keyed.bodies number hash txs stored
    exact ⟨header, w.seen_noted call seen, key, root⟩

/-- Storing a block keeps the keys right if a header that was met has the hash and the root of the block. -/
theorem touched (keyed : BodiesKeyed w) (touches : Touches block call w w') (about : call.header = some block.header)
    (belongs : ∃ header ∈ w.seen, header.hashOf B.crypto = block.hash B.crypto ∧
      txRootOf B.crypto block.txs = some header.txRoot) : BodiesKeyed w' where
  headers number hash header stored := by
    rcases touches.headers (number, hash) with kept | ⟨key, encoded, written⟩
    · obtain ⟨key, encoded, seen⟩ := keyed.headers number hash header (kept.symm.trans stored)
      exact ⟨key, encoded, touches.seen seen⟩
    · cases written.symm.trans stored
      exact ⟨(Prod.ext_iff.mp key).2.symm, encoded, touches.header_seen about⟩
  bodies number hash txs stored := by
    rcases touches.bodies (number, hash) with kept | ⟨key, written⟩
    · obtain ⟨header, seen, key, root⟩ := keyed.bodies number hash txs (kept.symm.trans stored)
      exact ⟨header, touches.seen seen, key, root⟩
    · cases written.symm.trans stored
      obtain ⟨header, seen, hash, root⟩ := belongs
      exact ⟨header, touches.seen seen, hash.trans (Prod.ext_iff.mp key).2.symm, by rw [txRootOf_stored, root]⟩

end BodiesKeyed

/-- A block offered to the import loop that is let through without the check of its transactions has the
transactions of its header, and an executed block declares the root that execution gives. So `Finalize` writes the
root that is there, and a pointer `GetBlock` keeps in its cache shows the block that is stored. -/
def ChainEvent.BodyMatches (e : ChainEvent B) : Prop :=
  match e.call with
  | .offer block => e.before.admits block = true → (e.before.verify (block.hashed B.crypto)).isOk = false →
      txRootOf B.crypto block.txs = some block.header.txRoot
  | .execute parent block => ∀ root ∈ (e.before.executedRoot parent block).toOption, root = block.header.stateRoot
  | _ => True

instance : DecidablePred (ChainEvent.BodyMatches : ChainEvent B → Prop)
  | ⟨_, .offer _⟩ => inferInstanceAs (Decidable (_ → _ → _))
  | ⟨before, .execute parent block⟩ => decidable_of_iff
      ((before.executedRoot parent block).toOption.all (· == block.header.stateRoot) = true) <| by
        simp [ChainEvent.BodyMatches, Option.all_eq_true]
  | ⟨_, .write _ _⟩ => .isTrue trivial
  | ⟨_, .side _⟩ => .isTrue trivial
  | ⟨_, .setHead _⟩ => .isTrue trivial

/-- A block that passes all checks has the transactions of its header. -/
theorem BlockChain.txRootOf_of_verify {bc : BlockChain B} (passed : bc.verify block = .ok ()) :
    txRootOf B.crypto block.txs = some block.header.txRoot := by
  obtain ⟨-, -, passed⟩ := except_bind_eq_ok.mp passed
  unfold validateBody at passed
  split_ifs at passed with known parent missing
  cases root : txRootOf B.crypto block.txs with
  | none => simp [root] at passed
  | some root =>
    simp only [root] at passed
    split_ifs at passed with same
    push Not at same
    rw [same]

/-- An admitted block of the wire belongs to its header, if the unchecked ones do. -/
theorem World.Admitted.belongs (admitted : w.Admitted block) (matched : ∀ e ∈ w.log, e.BodyMatches) :
    block.header ∈ w.seen ∧ block.header.hashOf B.crypto = block.hash B.crypto ∧
      txRootOf B.crypto block.txs = some block.header.txRoot := by
  obtain ⟨fresh, bc, mem, admits⟩ := admitted
  refine ⟨.inr ⟨_, mem, rfl⟩, (fresh.hash B.crypto).symm, ?_⟩
  cases verdict : (bc.verify (block.hashed B.crypto)).isOk with
  | false => exact matched _ mem admits verdict
  | true =>
    have passed : bc.verify (block.hashed B.crypto) = .ok () := by
      cases outcome : bc.verify (block.hashed B.crypto) with
      | ok _ => rfl
      | error e => simp [outcome, Except.isOk, Except.toBool] at verdict
    exact BlockChain.txRootOf_of_verify passed

/-- The keys are right as long as the blocks that were let through unchecked belonged to their headers. -/
def KeyedIfMatched (w : World B) : Prop := (∀ e ∈ w.log, e.BodyMatches) → BodiesKeyed w

theorem KeyedIfMatched.of_touches {stored : Block}
    (start : KeyedIfMatched w ∧ w.Admitted block) (touches : Touches stored call w w')
    (about : call.header = some stored.header) (hash : stored.hash B.crypto = block.hash B.crypto)
    (txs : stored.txs = block.txs) : KeyedIfMatched w' := by
  intro matched
  have before : ∀ e ∈ w.log, e.BodyMatches := fun e mem =>
    matched e (touches.log ▸ List.mem_cons_of_mem _ mem)
  obtain ⟨seen, key, root⟩ := start.2.belongs before
  exact (start.1 before).touched touches about ⟨block.header, seen, key.trans hash.symm, txs ▸ root⟩

theorem importable_keyedIfMatched :
    Importable (KeyedIfMatched : World B → Prop) fun _ => KeyedIfMatched where
  fault _ _ := id
  noted _ call holds matched := (holds fun e mem => matched e (.tail _ mem)).noted call
  write fuel block root state w start := by
    have hash := block.hash_rooted B.crypto root
    exact (ChainProc.touches_writeBlockWithState fuel _ state w).mono (fun _ => id)
      (fun _ _ touches => .of_touches start touches rfl hash rfl)
      (fun _ _ touches => .of_touches start touches rfl hash rfl) w rfl
  side block ptd w start := by
    have hash := block.hash_hashed B.crypto
    exact (ChainProc.touches_writeBlockWithoutState _ _ w).mono (fun _ => id)
      (fun _ _ touches => .of_touches start.1 touches rfl hash rfl)
      (fun _ _ touches => .of_touches start.1 touches rfl hash rfl) w rfl

/-- The world after a sequence of `InsertChain` calls, each with blocks of the wire and any outcome. -/
def insertChains (fuel : ℕ) (w : World B) (calls : List (List (Header × List Transaction))) : World B :=
  calls.foldl (fun w chain => (ChainProc.call fuel (.insertChain chain)).after w) w

theorem insertChains_concat (fuel : ℕ) (w : World B) (calls : List (List (Header × List Transaction)))
    (chain : List (Header × List Transaction)) : insertChains fuel w (calls ++ [chain]) =
      (ChainProc.call fuel (.insertChain chain)).after (insertChains fuel w calls) := by
  simp [insertChains]

theorem keyedIfMatched_insertChains (fuel : ℕ) (start : KeyedIfMatched w)
    (calls : List (List (Header × List Transaction))) : KeyedIfMatched (insertChains fuel w calls) := by
  induction calls generalizing w with
  | nil => exact start
  | cons chain calls ih =>
    apply ih
    apply (importable_keyedIfMatched.insertChain_spec fuel ?_).after start
    intro block mem
    obtain ⟨-, -, rfl⟩ := List.mem_map.mp mem
    rfl

theorem Genesis.bodiesKeyed (g : Genesis B) (coins : ℕ → Bool) : BodiesKeyed (g.world coins) where
  headers number hash header stored := by
    simp only [world, chain, database, Function.update_apply] at stored
    split_ifs at stored with key
    cases stored
    exact ⟨(Prod.ext_iff.mp key).2.symm, g.encoded, .inl rfl⟩
  bodies number hash txs stored := by
    simp only [world, chain, database, Function.update_apply] at stored
    split_ifs at stored with key
    cases stored
    refine ⟨g.header, .inl rfl, (Prod.ext_iff.mp key).2.symm, ?_⟩
    rw [g.txRoot]
    rfl

/-- In every state reached from a genesis block by calls of `InsertChain`, where the blocks that are let through
unchecked belong to their headers and the executed ones declare their root, every stored body belongs to the header
stored with it. -/
theorem bodies_match (g : Genesis B) (coins : ℕ → Bool) (fuel : ℕ)
    (calls : List (List (Header × List Transaction)))
    (matched : ∀ e ∈ (insertChains fuel (g.world coins) calls).log, e.BodyMatches)
    (collisionFree : CollisionFree B.crypto (insertChains fuel (g.world coins) calls).seen)
    (number : ℕ) (hash : Hash) (txs : List Transaction) (header : Header)
    (body : (insertChains fuel (g.world coins) calls).chain.db.bodies (number, hash) = some txs)
    (stored : (insertChains fuel (g.world coins) calls).chain.db.headers (number, hash) = some header) :
    txRootOf B.crypto txs = some header.txRoot := by
  have keyed := keyedIfMatched_insertChains fuel (fun _ => g.bodiesKeyed coins) calls matched
  obtain ⟨header', seen', key', root⟩ := keyed.bodies number hash txs body
  obtain ⟨key, encoded, seen⟩ := keyed.headers number hash header stored
  rw [collisionFree.eq_of_hashOf_eq seen seen' encoded (key.trans key'.symm)]
  exact root

namespace Backend.tally

/-- The header with one transfer in the block, given its root. The receipt root is that of one receipt of 21000. -/
def transferring (h : Header) (txRoot : Hash) : Header :=
  { h with txRoot := txRoot, receiptRoot := 14376088696854303240, gasUsed := 21000 }

def payment : Transaction := InitialSigner.transfer 7 1

/-- A block on the genesis block, with a payment. -/
def main1 : Header × List Transaction :=
  (transferring (header (hash 0) 1 10 131136 5000000000000000001 1)
    101091932073538588074351792595849017809978515310797697989166172262774943547520, [payment])

/-- A block on top of it, with a transfer of nothing. -/
def main2 : Header × List Transaction :=
  (transferring (header (hash 1) 2 20 131200 10000000000000000001 3)
    101091932073538588074351792595849017809978515310797697989166172263320404394112, [InitialSigner.transfer 7 0])

/-- A lighter block on the genesis block. -/
def side1 : Header × List Transaction := (header (hash 0) 1 20 131072 5000000000000000000 2, [])

/-- The second block once more, with a transfer that its header does not know. -/
def forged2 : Header × List Transaction := (main2.1, [InitialSigner.transfer 8 0])

def headers : List Header := [genesis.header, main1.1, main2.1, side1.1]

/-- Only these headers were met. -/
abbrev Knows (w : World Backend.tally) : Prop :=
  w.chain.genesisBlock = genesis.block ∧ ∀ e ∈ w.log, ∀ h ∈ e.call.header, h ∈ headers

theorem Knows.collisionFree {w : World Backend.tally} (knows : Knows w) : CollisionFree .numeral w.seen := by
  have within : ∀ h ∈ w.seen, h ∈ headers := by
    rintro h (rfl | ⟨e, mem, isHeader⟩)
    · rw [knows.1]
      exact (.head _)
    · exact knows.2 e mem h isHeader
  have distinct : (headers.map (Header.hashOf .numeral)).Nodup ∧ ∀ h ∈ headers, h.hashOf .numeral ≠ 0 := by
    decide +kernel
  apply CollisionFree.of_injOn
  · exact fun h mem h' member' same => List.inj_on_of_nodup_map distinct.1 (within h mem) (within h' member') same
  · exact fun h mem => distinct.2 h (within h mem)

/-- The main blocks are imported, then the side block, then the forged one. -/
theorem main_side_forged : ∃ w₁ : World Backend.tally,
    ([.insertChain [main1, main2], .insertChain [side1]].forM (ChainProc.call 3)).run
      (genesis.world fun _ => false) = .ok () w₁ ∧ Knows w₁ ∧ (∀ e ∈ w₁.log, e.BodyMatches) ∧
    w₁.chain.currentBlock = (Block.fresh side1.1 []).hashed .numeral ∧
    w₁.chain.getBlockByNumber 1 = some (.fresh side1.1 []) ∧ w₁.chain.db.canonical 2 = some (hash 3) ∧
    w₁.chain.db.txLookup (payment.hashOf .numeral) = some ⟨hash 1, 1, 0⟩ ∧
    ∃ w₂, (ChainProc.call 3 (.insertChain [forged2])).run w₁ = .ok () w₂ ∧ Knows w₂ ∧
      w₂.chain.db.bodies (2, hash 3) = some ([InitialSigner.transfer 8 0].map Transaction.stored) ∧
      w₂.chain.db.headers (2, hash 3) = some main2.1 := by
  decide +kernel

theorem insertChains_eq {w₁ : World Backend.tally}
    (ran : ([.insertChain [main1, main2], .insertChain [side1]].forM (ChainProc.call 3)).run
      (genesis.world fun _ => false) = .ok () w₁) :
    insertChains 3 (genesis.world fun _ => false) [[main1, main2], [side1]] = w₁ := by
  obtain ⟨_, w, first, rest⟩ := bind_eq_ok.mp ran
  obtain ⟨_, w', second, rest⟩ := bind_eq_ok.mp rest
  obtain ⟨-, rfl⟩ := pure_eq_ok.mp rest
  rw [insertChains, List.foldl_cons, after_of_ok first, List.foldl_cons, after_of_ok second, List.foldl_nil]

end Backend.tally

open Backend.tally in
/-- After the import of three checked blocks every body belongs to its header. -/
theorem bodies_match_side : ∃ w : World Backend.tally,
    insertChains 3 (genesis.world fun _ => false) [[main1, main2], [side1]] = w ∧
    ∀ (number : ℕ) (hash : Hash) (txs : List Transaction) (header : Header),
      w.chain.db.bodies (number, hash) = some txs → w.chain.db.headers (number, hash) = some header →
      txRootOf .numeral txs = some header.txRoot := by
  obtain ⟨w₁, first, knows, matched, -⟩ := main_side_forged
  have reached := insertChains_eq first
  refine ⟨w₁, reached, ?_⟩
  have := bodies_match genesis (fun _ => false) 3 [[main1, main2], [side1]]
  rw [reached] at this
  exact this matched knows.collisionFree

open Backend.tally in
/-- A block that is known but above the head has its body replaced by any transactions. -/
theorem forged_body_stored :
    ¬ ∀ (B : Backend) (g : Genesis B) (coins : ℕ → Bool) (fuel : ℕ) (calls : List (List (Header × List Transaction))),
      CollisionFree B.crypto (insertChains fuel (g.world coins) calls).seen →
      ∀ (number : ℕ) (hash : Hash) (txs : List Transaction) (header : Header),
        (insertChains fuel (g.world coins) calls).chain.db.bodies (number, hash) = some txs →
        (insertChains fuel (g.world coins) calls).chain.db.headers (number, hash) = some header →
        txRootOf B.crypto txs = some header.txRoot := by
  intro belongs
  obtain ⟨w₁, first, -, -, -, -, -, -, w₂, second, knows, body, header⟩ := main_side_forged
  have root := belongs Backend.tally genesis (fun _ => false) 3 ([[main1, main2], [side1]] ++ [[forged2]])
  rw [insertChains_concat, insertChains_eq first, after_of_ok second] at root
  exact absurd (root knows.collisionFree 2 (hash 3) _ _ body header) (by decide +kernel)

end KKChain
