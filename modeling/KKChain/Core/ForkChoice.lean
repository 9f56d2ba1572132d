import KKChain.Consensus.Pow
import KKChain.Core.Write
import KKChain.Machine.Run

/-! # Fork choice

`WriteBlockWithState` decides whether a block is preferred to the head, but the block becomes the head either
way. So the total difficulty of the head follows the blocks as they arrive, and it never decreases exactly if
no block arrives with a total difficulty below that of the head.
-/

namespace KKChain

open ChainProc

variable {B : Backend} {call : Block × B.State} {fuel : ℕ}

/-- A successful `WriteBlockWithState`. -/
def WriteStep (fuel : ℕ) (w : World B) (call : Block × B.State) (w' : World B) : Prop :=
  (writeBlockWithState fuel call.1 call.2).run w = .ok () w'

namespace World

/-- The total difficulty of `CurrentBlock`. -/
def headTd (w : World B) : Option ℤ := w.chain.tdOf w.chain.currentBlock

/-- The total difficulty a block gets on top of its parent. -/
def externTd (w : World B) (block : Block) : Option ℤ := (w.chain.parentTd block).map (block.header.difficulty + ·)

end World

/-- What a fork choice by total difficulty keeps. -/
structure HeadKept (w : World B) (block : Block) (w' : World B) : Prop where
  monotone : ∀ td td', w.headTd = some td → w'.headTd = some td' → td ≤ td'
  side : ∀ td td', w.headTd = some td → w.externTd block = some td' → td' < td →
    w'.chain.currentBlock = w.chain.currentBlock ∧ w'.chain.db.canonical = w.chain.db.canonical ∧
      w'.chain.db.headBlock = w.chain.db.headBlock

/-- The block is at least as heavy as the head. -/
def Outweighs (w : World B) (block : Block) : Prop :=
  ∀ td td', w.headTd = some td → w.externTd block = some td' → td ≤ td'

/-- The head after a write is the block, with the total difficulty it was given. -/
theorem WriteStep.headTd {w w' : World B} (step : WriteStep fuel w call w') :
    ∃ td td', w.headTd = some td ∧ w.externTd call.1 = some td' ∧ w'.headTd = some td' := by
  obtain ⟨ptd, td, -, parent, head, -⟩ := writeBlockWithState_ok step
  obtain ⟨ptd', stateDb, parent', -, store, current⟩ := writeBlockWithState_store step
  cases parent.symm.trans parent'
  refine ⟨td, call.1.header.difficulty + ptd, head, by rw [World.externTd, parent]; rfl, ?_⟩
  rw [World.headTd, BlockChain.tdOf, BlockChain.getTd, store.tds, current]
  exact Function.update_self ..

theorem WriteStep.headKept_iff {w w' : World B}
    (step : WriteStep fuel w call w') : HeadKept w call.1 w' ↔ Outweighs w call.1 := by
  obtain ⟨td, td', before, weighed, after⟩ := step.headTd
  constructor
  · intro kept heavy light isHead isExtern
    cases weighed.symm.trans isExtern
    exact kept.monotone heavy td' isHead after
  · intro outweighs
    constructor
    · intro heavy light isHead isHead'
      cases after.symm.trans isHead'
      exact outweighs heavy td' isHead weighed
    · intro heavy light isHead isExtern lighter
      exact absurd (outweighs heavy light isHead isExtern) (not_le.mpr lighter)

/-- In every run of writes, the head is kept as a fork choice by total difficulty should keep it exactly if
every block written is at least as heavy as the head it meets. -/
theorem headKept_iff_outweighs {fuel : ℕ} {w w' : World B} {ts : List (World B × (Block × B.State) × World B)}
    (run : Run (WriteStep fuel) w ts w') :
    (∀ t ∈ ts, HeadKept t.1 t.2.1.1 t.2.2) ↔ ∀ t ∈ ts, Outweighs t.1 t.2.1.1 :=
  Run.forall_iff (fun step => step.headKept_iff) run

namespace Backend.tally

/-- A block on the genesis block, ten seconds later. -/
def fast : Block := .fresh (header (hash 0) 1 10 131136 5000000000000000000 1) []

/-- A block on the genesis block, twenty seconds later and so of lower difficulty. -/
def slow : Block := .fresh (header (hash 0) 1 20 131072 5000000000000000000 2) []

theorem fast_then_slow : ∃ w₁ : World Backend.tally,
    WriteStep 1 (genesis.world fun _ => false) (fast, (0 : Hash)) w₁ ∧
      w₁.headTd = some 262208 ∧ w₁.externTd slow = some 262144 ∧ ∃ w₂, WriteStep 1 w₁ (slow, (0 : Hash)) w₂ := by
  unfold WriteStep
  decide +kernel

theorem outweighs_of_eq {w : World Backend.tally} {block : Block} {td td' : ℤ} (before : w.headTd = some td)
    (weighed : w.externTd block = some td') (le : td ≤ td') : Outweighs w block := by
  intro heavy light isHead isExtern
  cases before.symm.trans isHead
  cases weighed.symm.trans isExtern
  exact le

theorem slow_then_fast : ∃ w₁ : World Backend.tally,
    WriteStep 2 (genesis.world fun _ => false) (slow, (0 : Hash)) w₁ ∧
      w₁.headTd = some 262144 ∧ w₁.externTd fast = some 262208 ∧ ∃ w₂, WriteStep 2 w₁ (fast, (0 : Hash)) w₂ := by
  unfold WriteStep
  decide +kernel

end Backend.tally

open Backend.tally in
/-- The slower block on the genesis block and then the heavier one are kept as the head. -/
theorem headKept_slow_fast : ∃ w₁ w₂ : World Backend.tally,
    Run (WriteStep 2) (genesis.world fun _ => false)
      [(genesis.world fun _ => false, (slow, (0 : Hash)), w₁), (w₁, (fast, (0 : Hash)), w₂)] w₂ ∧
    HeadKept (genesis.world fun _ => false) slow w₁ ∧ HeadKept w₁ fast w₂ := by
  obtain ⟨w₁, first, before, weighed, w₂, second⟩ := slow_then_fast
  have run := Run.cons first (Run.cons second (.nil w₂))
  have facts : (genesis.world fun _ => false : World Backend.tally).headTd = some 131072 ∧
      (genesis.world fun _ => false : World Backend.tally).externTd slow = some 262144 := by decide +kernel
  have kept := (headKept_iff_outweighs run).mpr <|
    List.forall_mem_cons.mpr ⟨outweighs_of_eq facts.1 facts.2 (by decide),
    List.forall_mem_singleton.mpr (outweighs_of_eq before weighed (by decide))⟩
  rw [List.forall_mem_cons, List.forall_mem_singleton] at kept
  exact ⟨w₁, w₂, run, kept⟩

open Backend.tally in
/-- A lighter sibling of the head becomes the head. -/
theorem head_moves_to_slow :
    ¬ ∀ (B : Backend) (g : Genesis B) (coins : ℕ → Bool) (fuel : ℕ) (w' : World B)
      (ts : List (World B × (Block × B.State) × World B)), Run (WriteStep fuel) (g.world coins) ts w' →
      ∀ t ∈ ts, HeadKept t.1 t.2.1.1 t.2.2 := by
  intro kept
  obtain ⟨w₁, first, before, weighed, w₂, second⟩ := fast_then_slow
  have run := Run.cons first (Run.cons second (.nil w₂))
  have keeps := kept Backend.tally genesis (fun _ => false) 1 w₂ _ run _ (.tail _ (.head _))
  exact absurd ((second.headKept_iff).mp keeps _ _ before weighed) (by norm_num)

end KKChain
