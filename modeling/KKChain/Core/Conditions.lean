import KKChain.Core.Import

/-! # Invariants under conditions on the calls

The calls of a run are on record, each with the chain it met, so a condition on a run is one on every recorded call.
`World.Kept` is an invariant that holds as long as all calls so far met the condition and none of the headers met
collides with another. It is kept by a run if the calls that change the chain keep it, one at a time.
-/

namespace KKChain

open Proc ChainProc

variable {B : Backend} {u : Unit}

/-- The header a call is about. -/
def ChainCall.header : ChainCall → Option Header
  | .offer block => some block.header
  | .execute _ block => some block.header
  | .write block _ => some block.header
  | .side block => some block.header
  | .setHead _ => none

namespace World

/-- The headers the chain has met. -/
def seen (w : World B) : Set Header :=
  {header | header = w.chain.genesisBlock.header ∨ ∃ e ∈ w.log, e.call.header = some header}

theorem seen_subset {w w' : World B} (genesisBlock : w'.chain.genesisBlock = w.chain.genesisBlock)
    (log : ∀ e ∈ w.log, e ∈ w'.log) : w.seen ⊆ w'.seen := by
  rintro header (genesis | ⟨e, mem, isHeader⟩)
  · exact .inl (genesisBlock ▸ genesis)
  · exact .inr ⟨e, log e mem, isHeader⟩

theorem seen_noted (w : World B) (call : ChainCall) : w.seen ⊆ (w.noted call).seen :=
  seen_subset rfl fun _ => List.mem_cons_of_mem _

/-- The invariant holds if every call met the condition and the headers do not collide. -/
def Kept (condition : ChainEvent B → Prop) (invariant : Set Header → BlockChain B → Prop) (w : World B) : Prop :=
  (∀ e ∈ w.log, condition e) → CollisionFree B.crypto w.seen → invariant w.seen w.chain

variable {condition : ChainEvent B → Prop} {invariant : Set Header → BlockChain B → Prop} {w w' : World B}
    {block : Block}

/-- A call that is noted may rely on its condition and on the invariant of the chain it met. -/
theorem Kept.step {e : ChainEvent B} (start : w.Kept condition invariant)
    (mono : ∀ {S S' bc}, S ⊆ S' → invariant S bc → invariant S' bc)
    (genesisBlock : w'.chain.genesisBlock = w.chain.genesisBlock) (log : w'.log = e :: w.log)
    (kept : condition e → CollisionFree B.crypto w'.seen → invariant w'.seen w.chain → invariant w'.seen w'.chain) :
    w'.Kept condition invariant := by
  intro met free
  have grown : ∀ e ∈ w.log, e ∈ w'.log := fun e mem => log ▸ List.mem_cons_of_mem _ mem
  have seen := seen_subset genesisBlock grown
  apply kept (met e (log ▸ (.head _))) free
  exact mono seen (start (fun e mem => met e (grown e mem)) (free.mono seen))

/-- The calls that store a block keep the invariant. -/
structure Stores (condition : ChainEvent B → Prop) (invariant : Set Header → BlockChain B → Prop) : Prop where
  mono : ∀ {S S' bc}, S ⊆ S' → invariant S bc → invariant S' bc
  write : ∀ {w w' : World B} {fuel : ℕ} {block : Block} {state : B.State} {u : Unit},
    (ChainProc.writeBlockWithState fuel block state).run w = .ok u w' →
    condition ⟨w.chain, .write block (w.coins 0)⟩ → CollisionFree B.crypto w'.seen → block.header ∈ w'.seen →
    invariant w'.seen w.chain → invariant w'.seen w'.chain
  side : ∀ {S : Set Header} {bc : BlockChain B} {block : Block} {td : ℤ},
    block.hash B.crypto = block.header.hashOf B.crypto → block.header.Encoded →
    condition ⟨bc, .side block⟩ → CollisionFree B.crypto S → block.header ∈ S →
    invariant S bc → invariant S (bc.store block td bc.stateDb)

namespace Stores

variable (stores : Stores condition invariant)
include stores

theorem kept_write {fuel : ℕ} {state : B.State} (start : w.Kept condition invariant)
    (ran : (writeBlockWithState fuel block state).run w = .ok u w') : w'.Kept condition invariant := by
  obtain ⟨-, -, -, -, -, -, -, -, log⟩ := writeBlockWithState_ok ran
  obtain ⟨_, _, -, -, same, -⟩ := writeBlockWithState_store ran
  refine start.step stores.mono same.genesisBlock log fun met free => stores.write ran met free ?_
  exact .inr ⟨_, log ▸ List.mem_cons_self, rfl⟩

theorem kept_side {td : ℤ} (start : w.Kept condition invariant)
    (hash : block.hash B.crypto = block.header.hashOf B.crypto)
    (ran : (writeBlockWithoutState block td).run w = .ok u w') : w'.Kept condition invariant := by
  obtain ⟨encoded, after⟩ := writeBlockWithoutState_ok ran
  have log : w'.log = ⟨w.chain, .side block⟩ :: w.log := by rw [after]
  have chain : w'.chain = w.chain.store block td w.chain.stateDb := by rw [after]
  refine start.step stores.mono (by rw [chain]; rfl) log fun met free holds => ?_
  rw [chain]
  exact stores.side hash encoded met free (.inr ⟨_, log ▸ List.mem_cons_self, rfl⟩) holds

theorem importable : Importable (Kept condition invariant) fun _ _ => True where
  fault _ _ _ := trivial
  noted _ _ start := start.step stores.mono rfl rfl fun _ _ => id
  write _ _ _ _ := Spec.of_ok fun _ _ _ start ran => stores.kept_write start.1 ran
  side block _ := Spec.of_ok fun _ _ _ start ran =>
    stores.kept_side start.1.1 ((block.hash_hashed B.crypto).trans (start.1.2.1.hash B.crypto)) ran

end Stores

end World

end KKChain
