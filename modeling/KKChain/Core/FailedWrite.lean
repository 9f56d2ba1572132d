import KKChain.Core.ForkChoice
import KKChain.Core.Reorg

/-! # Block writes that fail

`WriteBlockWithState` writes receipts and lookup entries in one batch at its end, and the database may refuse it. Before
that, a reorganisation has already written the canonical index and moved the head. So a call that returns an error
leaves the head where it was exactly if it did not get as far as a refused batch after a reorganisation that inserted
blocks.
-/

namespace KKChain

open Proc

variable {B : Backend} {f : Fault (ChainError B.Error)}

namespace ChainProc

/-- The head update of `WriteBlockWithState` where the database answers the batch with `written`. -/
def adoptWith (written : Except (Fault B.Error) Unit) (fuel : ℕ) (block : Block) (externTd : ℤ) (localTd : Option ℤ) :
    ChainProc B Unit := do
  let bc := (← get).chain
  let localTd ← Proc.orFault .panic localTd
  let coin ← flip (bc.flips externTd localTd block)
  if bc.prefers externTd localTd block coin then
    if block.header.parentHash ≠ bc.currentBlock.hash B.crypto then
      let bc ← Proc.ofExcept (bc.reorg fuel bc.currentBlock block)
      modifyChain fun _ => bc
    Proc.ofExcept (lifted written)
    modifyChain (·.writeTxLookupEntries block)
  else Proc.ofExcept (lifted written)
  modifyChain (·.insert block)

/-- `WriteBlockWithState` where the database answers the batch with `written`. -/
def writeBlockWithStateOn (written : Except (Fault B.Error) Unit) (fuel : ℕ) (block : Block) (state : B.State) :
    ChainProc B Unit := do
  let w ← get
  record (.write block (w.coins 0))
  let ptd ← Proc.orFault (.error .unknownAncestor) (w.chain.parentTd block)
  let localTd := w.chain.tdOf w.chain.currentBlock
  let externTd := block.header.difficulty + ptd
  writeTd (block.hash B.crypto) block.numberU64 externTd
  writeBlock block
  commitState state
  adoptWith written fuel block externTd localTd

end ChainProc

namespace BlockChain

/-- A preferred block that does not extend the head. -/
def Reorganises (bc : BlockChain B) (block : Block) (externTd localTd : ℤ) (coin : Bool) : Prop :=
  bc.prefers externTd localTd block coin = true ∧ block.header.parentHash ≠ bc.currentBlock.hash B.crypto

/-- The walks of `reorg` from the head find blocks to insert. -/
def Displaces (bc : BlockChain B) (fuel : ℕ) (block : Block) : Prop :=
  ∃ olds news, bc.split fuel bc.currentBlock block = .ok (olds, news) ∧ news ≠ []

variable {bc bc' : BlockChain B} {fuel target : ℕ} {old new block : Block} {last : Option Block}
  {blocks olds news : List Block}

theorem reduce_head (ran : bc.reduce target fuel block = .ok (blocks, last)) :
    blocks = [] ∧ last = some block ∧ block.numberU64 = target ∨ blocks.head? = some block ∧
      block.numberU64 ≠ target := by
  cases fuel with
  | zero => cases ran
  | succ fuel =>
    rcases reduce_ok ran with ⟨reached, rfl, rfl⟩ | ⟨apart, ⟨-, rfl, -⟩ | ⟨parent, rest, -, -, rfl⟩⟩
    · exact .inl ⟨rfl, rfl, reached⟩
    · exact .inr ⟨rfl, apart⟩
    · exact .inr ⟨rfl, apart⟩

theorem meet_head (ran : bc.meet fuel old new = .ok (olds, news)) :
    news = [] ∧ old.hash B.crypto = new.hash B.crypto ∨
      news.head? = some new ∧ old.hash B.crypto ≠ new.hash B.crypto := by
  cases fuel with
  | zero => cases ran
  | succ fuel =>
    rcases meet_ok ran with ⟨same, -, rfl⟩ | ⟨apart, _, _, _, _, -, -, -, -, rfl⟩
    · exact .inl ⟨rfl, same⟩
    · exact .inr ⟨rfl, apart⟩

/-- The blocks that `reorg` inserts start with the new block, which is another one than the old. -/
theorem split_head (ran : bc.split fuel old new = .ok (olds, news)) (some_ : news ≠ []) :
    news.head? = some new ∧ old ≠ new := by
  rcases split_ok ran with ⟨higher, _, _, _, -, met, -⟩ | ⟨-, news₁, new₁, news₂, reduced, met, rfl⟩
  · rcases meet_head met with ⟨none_, -⟩ | ⟨head, -⟩
    · exact absurd none_ some_
    · exact ⟨head, fun same => by rw [same] at higher; omega⟩
  · rcases reduce_head reduced with ⟨rfl, ⟨⟩, -⟩ | ⟨head, apart⟩
    · rcases meet_head met with ⟨rfl, -⟩ | ⟨head, apart⟩
      · exact absurd rfl some_
      · exact ⟨head, fun same => apart (by rw [same])⟩
    · refine ⟨?_, fun same => apart (by rw [same])⟩
      rw [List.head?_append, head]
      rfl

theorem reorg_of_split (walked : bc.split fuel old new = .ok (olds, news)) :
    ∃ bc', bc.reorg fuel old new = .ok bc' := by
  simp [reorg, walked, bind, Except.bind]

/-- `reorg` moves the head if and only if it finds blocks to insert; otherwise the index stays. -/
theorem reorg_moves (ran : bc.reorg fuel bc.currentBlock block = .ok bc') :
    (bc.Displaces fuel block → bc'.currentBlock ≠ bc.currentBlock) ∧
    (¬ bc.Displaces fuel block → bc'.currentBlock = bc.currentBlock ∧ bc'.db.headBlock = bc.db.headBlock ∧
      bc'.db.canonical = bc.db.canonical) := by
  obtain ⟨olds, news, walked, rfl⟩ := reorg_ok _ ran
  cases news with
  | nil =>
    refine ⟨?_, fun _ => ⟨rfl, rfl, rfl⟩⟩
    rintro ⟨olds', news', walked', some_⟩
    rw [walked] at walked'
    cases walked'
    exact absurd rfl some_
  | cons b news =>
    obtain ⟨head, apart⟩ := split_head walked (List.cons_ne_nil b news)
    cases head
    exact ⟨fun _ same => apart same.symm, fun stays => absurd ⟨olds, _, walked, List.cons_ne_nil _ _⟩ stays⟩

end BlockChain

namespace ChainProc

variable {w w' : World B} {fuel : ℕ} {block : Block} {externTd : ℤ} {localTd : Option ℤ} {e : ChainError B.Error}
  {written : Except (Fault B.Error) Unit}

theorem flip_no_error {drawn : Bool} : (flip drawn : ChainProc B Bool).run w ≠ .error f w' := by
  intro ran
  rcases bind_eq_error.mp ran with ⟨⟨⟩⟩ | ⟨_, _, -, ran⟩
  cases drawn <;> cases ran

/-- What follows the answer to the batch does not fail. -/
theorem batch_error {rest : Unit → ChainProc B Unit}
    (ran : (Proc.ofExcept (lifted written) >>= rest).run w = .error f w')
    (never : ∀ w w' f, (rest ()).run w ≠ .error f w') : (∃ f, written = .error f) ∧ w' = w := by
  rcases bind_eq_error.mp ran with failed | ⟨_, _, -, ran⟩
  · obtain ⟨refused, rfl⟩ := ofExcept_eq_error.mp failed
    exact ⟨lifted_eq_error refused, rfl⟩
  · exact (never _ _ _ ran).elim

/-- A head update that returns an error failed in `reorg` or at the batch, and changed nothing but what `reorg` did. -/
theorem adoptWith_error (ran : (adoptWith written fuel block externTd localTd).run w = .error (.error e) w') :
    ∃ td, localTd = some td ∧
      (w'.chain = w.chain ∧ (w.chain.Reorganises block externTd td (w.coins 0) →
          ∃ f, w.chain.reorg fuel w.chain.currentBlock block = .error f) ∨
        (∃ f, written = .error f) ∧ w.chain.Reorganises block externTd td (w.coins 0) ∧
          w.chain.reorg fuel w.chain.currentBlock block = .ok w'.chain) := by
  rcases bind_eq_error.mp ran with ⟨⟨⟩⟩ | ⟨_, _, read, ran⟩
  obtain ⟨rfl, rfl⟩ := get_eq_ok.mp read
  cases localTd with
  | none => cases ran
  | some td =>
    refine ⟨td, rfl, ?_⟩
    rcases bind_eq_error.mp ran with ⟨⟨⟩⟩ | ⟨_, _, found, ran⟩
    obtain ⟨⟨⟩, rfl⟩ := orFault_eq_ok.mp found
    rcases bind_eq_error.mp ran with failed | ⟨coin, w₁, flipped, ran⟩
    · exact (flip_no_error failed).elim
    obtain ⟨rfl, chain, -⟩ := flip_ok flipped
    by_cases preferred : w.chain.prefers externTd td block (w.coins 0) = true
    · by_cases apart : block.header.parentHash ≠ w.chain.currentBlock.hash B.crypto
      · rw [if_pos preferred, if_pos apart] at ran
        rcases bind_eq_error.mp ran with failed | ⟨bc, _, reorged, ran⟩
        · obtain ⟨broken, rfl⟩ := ofExcept_eq_error.mp failed
          exact .inl ⟨chain, fun _ => ⟨_, broken⟩⟩
        · obtain ⟨walked, rfl⟩ := ofExcept_eq_ok.mp reorged
          rcases bind_eq_error.mp ran with ⟨⟨⟩⟩ | ⟨_, _, moved, ran⟩
          obtain rfl := modifyChain_ok.mp moved
          obtain ⟨refused, rfl⟩ := batch_error ran (by rintro _ _ _ ⟨⟩)
          exact .inr ⟨refused, ⟨preferred, apart⟩, walked⟩
      · rw [if_pos preferred, if_neg apart] at ran
        obtain ⟨-, rfl⟩ := batch_error ran (by rintro _ _ _ ⟨⟩)
        exact .inl ⟨chain, fun reorganises => absurd reorganises.2 apart⟩
    · rw [if_neg preferred] at ran
      obtain ⟨-, rfl⟩ := batch_error ran (by rintro _ _ _ ⟨⟩)
      exact .inl ⟨chain, fun reorganises => absurd reorganises.1 preferred⟩

end ChainProc

/-- The current block, the last-block pointer and the canonical index are the same. -/
def World.SameHead (w w' : World B) : Prop :=
  w'.chain.currentBlock = w.chain.currentBlock ∧ w'.chain.db.headBlock = w.chain.db.headBlock ∧
    w'.chain.db.canonical = w.chain.db.canonical

/-- The state is committed, the block is preferred and not on the head, `reorg` finds blocks to insert, and the database
refuses the batch. -/
def World.RefusedAfterReorg (w : World B) (written : Except (Fault B.Error) Unit) (fuel : ℕ) (block : Block)
    (state : B.State) : Prop :=
  (∃ f, written = .error f) ∧ ∃ ptd td stateDb, w.chain.parentTd block = some ptd ∧
    w.chain.tdOf w.chain.currentBlock = some td ∧ B.commit state w.chain.stateDb = (.ok (), stateDb) ∧
    (w.chain.store block (block.header.difficulty + ptd) stateDb).Reorganises block (block.header.difficulty + ptd) td
      (w.coins 0) ∧
    (w.chain.store block (block.header.difficulty + ptd) stateDb).Displaces fuel block

/-- A `WriteBlockWithState` that returns an error leaves the head and the canonical index as they were, unless the
database refused the batch after a reorganisation. -/
theorem sameHead_iff_not_refusedAfterReorg {w w' : World B} {written : Except (Fault B.Error) Unit} {fuel : ℕ}
    {block : Block} {state : B.State} {e : ChainError B.Error}
    (ran : (ChainProc.writeBlockWithStateOn written fuel block state).run w = .error (.error e) w') :
    w.SameHead w' ↔ ¬ w.RefusedAfterReorg written fuel block state := by
  rcases ChainProc.writeThen_error ran with ⟨parent, rfl⟩ |
    ⟨ptd, outcome, stateDb, w₁, parent, -, commit, start, ⟨⟨f, rfl⟩, rfl⟩ | ⟨rfl, ran⟩⟩
  · refine iff_of_true ⟨rfl, rfl, rfl⟩ ?_
    rintro ⟨-, ptd, -, -, found, -⟩
    rw [parent] at found
    cases found
  · rw [start]
    refine iff_of_true ⟨rfl, rfl, rfl⟩ ?_
    rintro ⟨-, -, -, stateDb', -, -, committed, -⟩
    rw [commit] at committed
    cases committed
  · obtain ⟨td, head, outcome⟩ := ChainProc.adoptWith_error ran
    rw [start] at outcome
    -- what a refusal would have found is what the call has found
    have refused_iff : w.RefusedAfterReorg written fuel block state ↔ (∃ f, written = .error f) ∧
        (w.chain.store block (block.header.difficulty + ptd) stateDb).Reorganises block
          (block.header.difficulty + ptd) td (w.coins 0) ∧
        (w.chain.store block (block.header.difficulty + ptd) stateDb).Displaces fuel block := by
      simp [World.RefusedAfterReorg, parent, head, commit]
    rw [refused_iff]
    rcases outcome with ⟨kept, broken⟩ | ⟨refused, reorganises, reorged⟩
    · refine iff_of_true ⟨by rw [kept]; rfl, by rw [kept]; rfl, by rw [kept]; rfl⟩ ?_
      rintro ⟨-, reorganises, olds, news, walked, -⟩
      obtain ⟨f, failed⟩ := broken reorganises
      obtain ⟨chain', done⟩ := BlockChain.reorg_of_split walked
      exact absurd (failed.symm.trans done) nofun
    · obtain ⟨moves, stays⟩ := BlockChain.reorg_moves reorged
      rw [not_and, not_and]
      constructor
      · exact fun same _ _ displaces => moves displaces same.1
      · exact fun holds => stays (holds refused reorganises)

namespace Backend.tally

/-- A block beside `fast` of the same difficulty. -/
def rival : Block := .fresh (header (hash 0) 1 10 131136 5000000000000000000 2) []

/-- The database refuses a batch. -/
def refused : Except (Fault Backend.tally.Error) Unit := .error (.error none)

/-- After the first block, its rival wins the toss and is refused. -/
theorem rival_refused : ∃ w₁ : World Backend.tally,
    (ChainProc.writeBlockWithState 2 fast (0 : Hash)).run (genesis.world fun _ => true) = .ok () w₁ ∧
    w₁.chain.currentBlock = fast ∧
    ∃ e w₂, (ChainProc.writeBlockWithStateOn refused 2 rival (0 : Hash)).run w₁ = .error (.error e) w₂ ∧
      w₂.chain.currentBlock = rival := by
  decide +kernel

end Backend.tally

open Backend.tally in
/-- A refused block on the genesis block leaves the head. -/
theorem sameHead_fast : ∃ (w' : World Backend.tally) (e : ChainError Backend.tally.Error),
    (ChainProc.writeBlockWithStateOn refused 2 fast (0 : Hash)).run (genesis.world fun _ => true) =
      .error (.error e) w' ∧
    (World.SameHead (genesis.world fun _ => true) w' ↔
      ¬ World.RefusedAfterReorg (genesis.world fun _ => true) refused 2 fast (0 : Hash)) := by
  obtain ⟨e, w', ran, -⟩ : ∃ e w', (ChainProc.writeBlockWithStateOn refused 2 fast (0 : Hash)).run
      (genesis.world fun _ => true : World Backend.tally) = .error (.error e) w' ∧
        w'.chain.currentBlock = genesis.block := by
    decide +kernel
  exact ⟨w', e, ran, sameHead_iff_not_refusedAfterReorg ran⟩

open Backend.tally in
/-- A block that is refused after a reorganisation is the head all the same, also on a chain that was just begun. -/
theorem head_moves_to_refused :
    ¬ ∀ (B : Backend) (g : Genesis B) (coins : ℕ → Bool) (fuel : ℕ) (first block : Block) (state : B.State)
      (written : Except (Fault B.Error) Unit) (w w' : World B) (e : ChainError B.Error),
      (ChainProc.writeBlockWithState fuel first state).run (g.world coins) = .ok () w →
      (ChainProc.writeBlockWithStateOn written fuel block state).run w = .error (.error e) w' → w.SameHead w' := by
  intro stays
  obtain ⟨w₁, first, head, e, w₂, second, head'⟩ := rival_refused
  have same := (stays _ _ _ _ _ _ _ _ _ _ _ first second).1
  rw [head, head'] at same
  exact absurd same (by decide +kernel)

end KKChain
