import KKChain.Core.Write

/-! # The import loop

What `InsertChain` does to the database happens in the two calls that store a block. `Touches` says what such a
call can have changed when it returns or fails at any point, and `insertChain_spec` is the rule for the whole loop:
a property of the world that recording keeps, and that storing a block keeps if the loop was offered the block
and admitted it, is kept by `InsertChain`, with its nested imports, whatever the outcome.
-/

namespace KKChain

open Rlp Proc

variable {B : Backend} {state : B.State} {bc : BlockChain B} {externTd td : ℤ} {α β : Type} {hash : Hash} {v : Value}

namespace World

def noted (w : World B) (call : ChainCall) : World B := { w with log := ⟨w.chain, call⟩ :: w.log }

end World

/-- The changes a call that stores `block` can have made, completed or not. -/
structure Touches (block : Block) (call : ChainCall) (w w' : World B) : Prop where
  log : w'.log = ⟨w.chain, call⟩ :: w.log
  genesisBlock : w'.chain.genesisBlock = w.chain.genesisBlock
  bodies : ∀ key, w'.chain.db.bodies key = w.chain.db.bodies key ∨
    key = (block.numberU64, block.hash B.crypto) ∧
      w'.chain.db.bodies key = some (block.txs.map Transaction.stored)
  headers : ∀ key, w'.chain.db.headers key = w.chain.db.headers key ∨
    key = (block.numberU64, block.header.hashOf B.crypto) ∧ block.header.Encoded ∧
      w'.chain.db.headers key = some block.header

namespace Touches

variable {block : Block} {call : ChainCall} {w w₁ w' : World B}

/-- Further changes that leave headers, bodies and the log alone. -/
theorem trans (touched : Touches block call w w₁) (log : w'.log = w₁.log)
    (genesisBlock : w'.chain.genesisBlock = w₁.chain.genesisBlock)
    (bodies : w'.chain.db.bodies = w₁.chain.db.bodies) (headers : w'.chain.db.headers = w₁.chain.db.headers) :
    Touches block call w w' where
  log := log.trans touched.log
  genesisBlock := genesisBlock.trans touched.genesisBlock
  bodies key := by
    rw [bodies]
    exact touched.bodies key
  headers key := by
    rw [headers]
    exact touched.headers key

end Touches

namespace ChainProc

/-- A call keeps what it can have changed within the changes of storing `block`. -/
abbrev Within {α : Type} (block : Block) (call : ChainCall) (w : World B) (x : ChainProc B α) : Prop :=
  Spec (Touches block call w) x (fun _ => Touches block call w) fun _ => Touches block call w

variable {block b : Block} {call : ChainCall} {w w' : World B} {e : ChainError B.Error} {fuel number : ℕ}
    {localTd : Option ℤ}

theorem within_mustEncode : Within block call w (mustEncode v) := by
  unfold mustEncode
  rcases encodeToBytes v with _ | _ | enc
  · exact .throw fun _ => id
  · exact .throw fun _ => id
  · exact .pure fun _ => id

theorem Within.bind {x : ChainProc B α} {f : α → ChainProc B β} (first : Within block call w x)
    (rest : ∀ a, Within block call w (f a)) : Within block call w (x >>= f) := Spec.bind first rest

theorem within_modifyChain {f : BlockChain B → BlockChain B}
    (kept : ∀ w₁, Touches block call w w₁ → Touches block call w { w₁ with chain := f w₁.chain }) :
    Within block call w (modifyChain f) := .update kept

theorem within_writeBody :
    Within block call w (writeBody (block.hash B.crypto) block.numberU64 block.txs) := by
  refine within_mustEncode.bind fun _ => within_modifyChain fun w₁ touched => ?_
  refine ⟨touched.log, touched.genesisBlock, fun key => ?_, touched.headers⟩
  by_cases same : key = (block.numberU64, block.hash B.crypto)
  · exact .inr ⟨same, same ▸ Function.update_self ..⟩
  · rcases touched.bodies key with kept | ⟨target, -⟩
    · exact .inl ((Function.update_of_ne same ..).trans kept)
    · exact absurd target same

theorem within_writeHeader : Within block call w (writeHeader block.header) := by
  refine .bind (within_modifyChain fun w₁ touched => touched.trans rfl rfl rfl rfl) fun _ => ?_
  refine Spec.bind (Q := fun _ w₁ => block.header.Encoded ∧ Touches block call w w₁) ?_ fun _ => Spec.update ?_
  · unfold mustEncode
    cases ran : encodeToBytes block.header.value with
    | none => exact Spec.throw fun _ => id
    | some result =>
      cases result with
      | error e => exact .throw fun _ => id
      | ok enc => exact .pure fun _ touched => ⟨⟨enc, ran⟩, touched⟩
  · rintro w₁ ⟨encoded, touched⟩
    refine ⟨touched.log, touched.genesisBlock, touched.bodies, fun key => ?_⟩
    by_cases same : key = (block.numberU64, block.header.hashOf B.crypto)
    · exact .inr ⟨same, encoded, same ▸ Function.update_self ..⟩
    · rcases touched.headers key with kept | ⟨target, -⟩
      · exact .inl ((Function.update_of_ne same ..).trans kept)
      · exact absurd target same

theorem within_writeBlock : Within block call w (writeBlock block) :=
  within_writeBody.bind fun _ => within_writeHeader

theorem within_writeTd : Within block call w (writeTd hash number td) :=
  within_mustEncode.bind fun _ => within_modifyChain fun _ touched => touched.trans rfl rfl rfl rfl

theorem within_ofExcept {x : Except (Fault (ChainError B.Error)) α} :
    Within block call w (Proc.ofExcept x) := .ofExcept (fun _ _ _ => id) fun _ _ _ => id

theorem within_orFault {e : Fault (ChainError B.Error)} {x : Option α} :
    Within block call w (Proc.orFault e x) := .orFault (fun _ _ _ => id) fun _ _ => id

theorem Within.get_bind {f : World B → ChainProc B β} (rest : ∀ w₁, Within block call w (f w₁)) :
    Within block call w (get >>= f) :=
  Spec.get_bind fun w₁ => (rest w₁).pre (fun _ => And.right)

theorem within_commitState : Within block call w (commitState state) :=
  .get_bind fun _ => .bind (within_modifyChain fun _ touched => touched.trans rfl rfl rfl rfl) fun _ => within_ofExcept

/-- Whatever its outcome, the head update leaves the store and the log alone. -/
theorem adopt_sameStore (fuel : ℕ) (b : Block) (externTd : ℤ) (localTd : Option ℤ) (t : World B) :
    Spec (fun w => w = t) (adopt fuel b externTd localTd) (fun _ w => t.chain.SameStore w.chain ∧ w.log = t.log)
      fun _ w => t.chain.SameStore w.chain ∧ w.log = t.log := by
  have kept : ∀ {f : BlockChain B → BlockChain B}, (∀ bc : BlockChain B, bc.SameStore (f bc)) →
      Spec (fun w => t.chain.SameStore w.chain ∧ w.log = t.log) (modifyChain f)
        (fun _ w => t.chain.SameStore w.chain ∧ w.log = t.log) fun _ w => t.chain.SameStore w.chain ∧ w.log = t.log :=
    fun same => Spec.update fun w start => ⟨start.1.trans (same w.chain), start.2⟩
  have settle := kept (fun bc => bc.sameStore_insert b)
  have lookup := Spec.bind (kept fun bc => bc.sameStore_writeTxLookupEntries b) fun _ => settle
  have refl : t.chain.SameStore t.chain := ⟨rfl, rfl, rfl, rfl, rfl, rfl⟩
  refine Spec.get_bind fun t' => ?_
  refine Spec.bind (Q := fun _ w => w.chain = t.chain ∧ w.log = t.log ∧ t' = t) ?_ fun td => ?_
  · refine Spec.orFault (fun _ _ w => ?_) fun _ w => ?_
    · rintro ⟨rfl, rfl⟩
      exact ⟨rfl, rfl, rfl⟩
    · rintro ⟨rfl, rfl⟩
      exact ⟨refl, rfl⟩
  refine Spec.bind (Q := fun _ w => w.chain = t.chain ∧ w.log = t.log ∧ t' = t) ?_ fun coin => ?_
  · rintro w ⟨chain, log, same⟩
    cases t'.chain.flips externTd td b <;> exact ⟨chain, log, same⟩
  have start : ∀ w : World B, w.chain = t.chain ∧ w.log = t.log ∧ t' = t →
      t.chain.SameStore w.chain ∧ w.log = t.log := by
    rintro w ⟨chain, log, -⟩
    exact ⟨chain ▸ refl, log⟩
  refine Spec.ite (fun _ => Spec.ite (fun _ => ?_) fun _ => lookup.pre start)
    fun _ => settle.pre start
  refine Spec.bind (Q := fun bc w => t.chain.SameStore bc ∧ w.log = t.log) ?_ fun bc => ?_
  · refine Spec.ofExcept (fun bc reorged w => ?_) fun _ _ w => start w
    rintro ⟨-, log, rfl⟩
    exact ⟨BlockChain.sameStore_reorg reorged, log⟩
  · exact Spec.bind (Spec.update fun w kept => kept) fun _ => lookup

theorem sameStore_of_adopt_error {t : World B}
    {e : Fault (ChainError B.Error)} (ran : (adopt fuel b externTd localTd).run t = .error e w') :
    t.chain.SameStore w'.chain ∧ w'.log = t.log := by
  have same := adopt_sameStore fuel b externTd localTd t t rfl
  rwa [ran] at same

theorem mustEncode_no_error : (mustEncode v : ChainProc B Unit).run w ≠ .error (.error e) w' := by
  unfold mustEncode
  rcases encodeToBytes v with _ | _ | enc
  · rintro ⟨⟩
  · rintro ⟨⟩
  · rintro ⟨⟩

theorem writeTd_no_error : (writeTd hash number td : ChainProc B Unit).run w ≠ .error (.error e) w' := by
  intro ran
  rcases bind_eq_error.mp ran with ran | ⟨-, _, -, ⟨⟩⟩
  exact mustEncode_no_error ran

/-- A block that does not encode ends the process; there is no error to return. -/
theorem writeBlock_no_error : (writeBlock block : ChainProc B Unit).run w ≠ .error (.error e) w' := by
  intro ran
  rcases bind_eq_error.mp ran with ran | ⟨-, w₁, -, ran⟩
  · rcases bind_eq_error.mp ran with ran | ⟨-, _, -, ⟨⟩⟩
    exact mustEncode_no_error ran
  · rcases bind_eq_error.mp ran with ⟨⟨⟩⟩ | ⟨-, _, -, ran⟩
    rcases bind_eq_error.mp ran with ran | ⟨-, _, -, ⟨⟩⟩
    exact mustEncode_no_error ran

/-- The block is stored with the total difficulty of its parent and its own difficulty. -/
def Stored (block : Block) (w w' : World B) : Prop :=
  ∃ ptd stateDb, w.chain.parentTd block = some ptd ∧ block.header.Encoded ∧
    (w.chain.store block (block.header.difficulty + ptd) stateDb).SameStore w'.chain

theorem commitState_error {e : Fault (ChainError B.Error)} (ran : (commitState state).run w = .error e w') :
    ∃ f stateDb, B.commit state w.chain.stateDb = (.error f, stateDb) ∧
      w' = { w with chain := { w.chain with stateDb } } := by
  rcases bind_eq_error.mp ran with ⟨⟨⟩⟩ | ⟨_, w₁, read, ran⟩
  obtain ⟨rfl, rfl⟩ := get_eq_ok.mp read
  rcases bind_eq_error.mp ran with ⟨⟨⟩⟩ | ⟨_, w₂, modified, ran⟩
  obtain rfl := modifyChain_ok.mp modified
  obtain ⟨failed, rfl⟩ := ofExcept_eq_error.mp ran
  obtain ⟨f, outcome⟩ := lifted_eq_error failed
  exact ⟨f, (B.commit state w.chain.stateDb).2, Prod.ext outcome rfl, rfl⟩

/-- `WriteBlockWithState` up to a head update. -/
def writeThen (block : Block) (state : B.State) (update : ℤ → Option ℤ → ChainProc B Unit) : ChainProc B Unit := do
  let w ← get
  record (.write block (w.coins 0))
  let ptd ← Proc.orFault (.error .unknownAncestor) (w.chain.parentTd block)
  writeTd (block.hash B.crypto) block.numberU64 (block.header.difficulty + ptd)
  writeBlock block
  commitState state
  update (block.header.difficulty + ptd) (w.chain.tdOf w.chain.currentBlock)

/-- Where a call that returns an error stopped: at a parent without total difficulty, at the commit of the state, or in
the head update. -/
theorem writeThen_error {update : ℤ → Option ℤ → ChainProc B Unit}
    (ran : (writeThen block state update).run w = .error (.error e) w') :
    w.chain.parentTd block = none ∧ w' = w.noted (.write block (w.coins 0)) ∨
    ∃ ptd outcome stateDb w₁, w.chain.parentTd block = some ptd ∧ block.header.Encoded ∧
      B.commit state w.chain.stateDb = (outcome, stateDb) ∧ w₁ = { w.noted (.write block (w.coins 0)) with
        chain := w.chain.store block (block.header.difficulty + ptd) stateDb } ∧
      ((∃ f, outcome = .error f) ∧ w' = w₁ ∨ outcome = .ok () ∧
        (update (block.header.difficulty + ptd) (w.chain.tdOf w.chain.currentBlock)).run w₁ =
          .error (.error e) w') := by
  rcases bind_eq_error.mp ran with ⟨⟨⟩⟩ | ⟨_, _, read, ran⟩
  obtain ⟨rfl, rfl⟩ := get_eq_ok.mp read
  rcases bind_eq_error.mp ran with ⟨⟨⟩⟩ | ⟨_, _, recorded, ran⟩
  obtain rfl := record_ok.mp recorded
  cases parent : w.chain.parentTd block with
  | none =>
    rw [parent] at ran
    cases ran
    exact .inl ⟨rfl, rfl⟩
  | some ptd =>
    rw [parent] at ran
    rcases bind_eq_error.mp ran with ⟨⟨⟩⟩ | ⟨_, _, found, ran⟩
    obtain ⟨⟨⟩, rfl⟩ := orFault_eq_ok.mp found
    rcases bind_eq_error.mp ran with failed | ⟨_, _, written, ran⟩
    · exact (writeTd_no_error failed).elim
    obtain ⟨_, _, encoded, written⟩ := bind_eq_ok.mp written
    obtain ⟨-, rfl⟩ := mustEncode_ok.mp encoded
    obtain rfl := modifyDb_ok.mp written
    rcases bind_eq_error.mp ran with failed | ⟨_, _, stored, ran⟩
    · exact (writeBlock_no_error failed).elim
    obtain ⟨encoded, rfl⟩ := writeBlock_ok stored
    right
    rcases bind_eq_error.mp ran with failed | ⟨_, _, committed, ran⟩
    · obtain ⟨f, stateDb, commit, rfl⟩ := commitState_error failed
      exact ⟨ptd, _, stateDb, _, rfl, encoded, commit, rfl, .inl ⟨⟨f, rfl⟩, rfl⟩⟩
    · obtain ⟨stateDb, commit, rfl⟩ := commitState_ok committed
      exact ⟨ptd, _, stateDb, _, rfl, encoded, commit, rfl, .inr ⟨rfl, ran⟩⟩

/-- A `WriteBlockWithState` that returns an error stored nothing, or it stored the block and left the head. -/
theorem writeBlockWithState_error (ran : (writeBlockWithState fuel block state).run w = .error (.error e) w') :
    w' = w.noted (.write block (w.coins 0)) ∨ Stored block w w' ∧
      w'.log = ⟨w.chain, .write block (w.coins 0)⟩ :: w.log := by
  rcases writeThen_error ran with ⟨-, same⟩ | ⟨ptd, -, stateDb, w₁, parent, encoded, -, rfl, ⟨-, rfl⟩ | ⟨-, ran⟩⟩
  · exact .inl same
  · exact .inr ⟨⟨ptd, stateDb, parent, encoded, rfl, rfl, rfl, rfl, rfl, rfl⟩, rfl⟩
  · obtain ⟨same, log⟩ := sameStore_of_adopt_error ran
    exact .inr ⟨⟨ptd, stateDb, parent, encoded, same⟩, log⟩

theorem within_adopt : Within block call w (adopt fuel b externTd localTd) := by
  intro t touched
  have kept : ∀ w' : World B, t.chain.SameStore w'.chain ∧ w'.log = t.log → Touches block call w w' :=
    fun w' same => touched.trans same.2 same.1.genesisBlock same.1.bodies same.1.headers
  exact (adopt_sameStore fuel b externTd localTd t).mono (fun _ => id) (fun _ => kept) (fun _ => kept) t rfl

/-- Whatever its outcome, `WriteBlockWithState` noted the call and stored at most its block. -/
theorem touches_writeBlockWithState (fuel : ℕ) (block : Block) (state : B.State) (w : World B) :
    Spec (fun w₁ => w₁ = w) (writeBlockWithState fuel block state)
      (fun _ => Touches block (.write block (w.coins 0)) w) fun _ => Touches block (.write block (w.coins 0)) w := by
  refine .get_bind fun t => .bind (Q := fun _ => Touches block (.write block (w.coins 0)) w) ?_ fun _ => ?_
  · refine .update ?_
    rintro _ ⟨rfl, rfl⟩
    exact ⟨rfl, rfl, fun _ => .inl rfl, fun _ => .inl rfl⟩
  · exact within_orFault.bind fun ptd => within_writeTd.bind fun _ => within_writeBlock.bind fun _ =>
      within_commitState.bind fun _ => within_adopt

/-- Whatever its outcome, `WriteBlockWithoutState` noted the call and stored at most its block. -/
theorem touches_writeBlockWithoutState (block : Block) (td : ℤ) (w : World B) :
    Spec (fun w₁ => w₁ = w) (writeBlockWithoutState block td)
      (fun _ => Touches block (.side block) w) fun _ => Touches block (.side block) w := by
  refine .bind (Q := fun _ => Touches block (.side block) w) (.update ?_) fun _ => ?_
  · rintro _ rfl
    exact ⟨rfl, rfl, fun _ => .inl rfl, fun _ => .inl rfl⟩
  · exact within_writeTd.bind fun _ => within_writeBlock

end ChainProc

/-- The checks of the import loop let a block through to be stored. -/
def BlockChain.admits (bc : BlockChain B) (block : Block) : Bool :=
  match bc.verify (block.hashed B.crypto) with
  | .ok () => true
  | .error (.error .knownBlock) => bc.currentBlock.numberU64 < block.numberU64
  | .error (.error .prunedAncestor) => true
  | .error _ => false

/-- The import loop was offered a block and admitted it. -/
def World.Admitted (w : World B) (block : Block) : Prop :=
  block.Fresh ∧ ∃ bc : BlockChain B, ⟨bc, .offer block⟩ ∈ w.log ∧ bc.admits block = true

/-- A block after its execution: the root is the one `Finalize` wrote. -/
def Block.rooted (block : Block) (root : Hash) : Block :=
  { block with header := { block.header with stateRoot := root } }

/-- The hash was taken before the root was written. -/
theorem Block.hash_rooted (C : Crypto) (block : Block) (root : Hash) :
    ((block.hashed C).rooted root).hash C = block.hash C := by
  rw [Block.hash, Block.rooted, Block.hashed, Option.getD_some]

theorem BlockChain.process_ok {block executed : Block} {final : B.State} {receipts : List B.Receipt}
    {usedGas : UInt64} (ran : bc.process block state = .ok (receipts, usedGas, final, executed)) :
    executed = block.rooted executed.header.stateRoot := by
  obtain ⟨⟨receipts', usedGas', state'⟩, -, ran⟩ := except_bind_eq_ok.mp ran
  obtain ⟨⟨state'', block'⟩, finalized, ran⟩ := except_bind_eq_ok.mp ran
  obtain ⟨⟨root, state'''⟩, -, finalized⟩ := except_bind_eq_ok.mp finalized
  cases finalized
  cases ran
  rfl

/-- What `InsertChain` keeps: faults allow it, notes keep it, and so does storing an admitted block, with the total
difficulty of its parent and its own difficulty where it is not executed. -/
structure Importable (J : World B → Prop) (E : Fault (ChainError B.Error) → World B → Prop) : Prop where
  fault : ∀ e w, J w → E e w
  noted : ∀ w call, J w → J (w.noted call)
  write : ∀ (fuel : ℕ) (block : Block) (root : Hash) (state : B.State),
    Spec (fun w => J w ∧ w.Admitted block)
      (ChainProc.writeBlockWithState fuel ((block.hashed B.crypto).rooted root) state) (fun _ => J) E
  side : ∀ (block : Block) (ptd : ℤ), Spec (fun w => (J w ∧ w.Admitted block) ∧ w.chain.parentTd block = some ptd)
    (ChainProc.writeBlockWithoutState (block.hashed B.crypto) (ptd + block.header.difficulty)) (fun _ => J) E

theorem World.Admitted.of_log {w w' : World B} {block : Block} (admitted : w.Admitted block)
    (grown : ∀ e ∈ w.log, e ∈ w'.log) : w'.Admitted block := by
  obtain ⟨fresh, bc, mem, admits⟩ := admitted
  exact ⟨fresh, bc, grown _ mem, admits⟩

/-- A call that stores a block at most keeps what was admitted. -/
theorem World.Admitted.of_touches {block b : Block} {call : World B → ChainCall} {x : ChainProc B Unit}
    (touches : ∀ w, Spec (fun w₁ => w₁ = w) x (fun _ => Touches b (call w) w) fun _ => Touches b (call w) w) :
    Spec (fun w => w.Admitted block) x (fun _ w => w.Admitted block) fun _ _ => True := by
  intro w admitted
  have := touches w w rfl
  cases ran : x.run w with
  | ok _ w' =>
    rw [ran] at this
    refine admitted.of_log fun e mem => ?_
    rw [this.log]
    exact .tail _ mem
  | error e w' => trivial

namespace Importable

variable {J : World B → Prop} {E : Fault (ChainError B.Error) → World B → Prop} {chain : List Block} {block : Block}

/-- A block that was admitted stays so. -/
theorem and_admitted (keeps : Importable J E) (block : Block) : Importable (fun w => J w ∧ w.Admitted block) E where
  fault e w holds := keeps.fault e w holds.1
  noted w call holds := ⟨keeps.noted w call holds.1, holds.2.of_log fun _ => List.mem_cons_of_mem _⟩
  write fuel b root state :=
    ((keeps.write fuel b root state).and
      (World.Admitted.of_touches (ChainProc.touches_writeBlockWithState fuel _ state))).mono
      (fun _ start => ⟨⟨start.1.1, start.2⟩, start.1.2⟩) (fun _ _ => id) fun _ _ => And.left
  side b ptd :=
    ((keeps.side b ptd).and (World.Admitted.of_touches (ChainProc.touches_writeBlockWithoutState _ _))).mono
      (fun _ start => ⟨⟨⟨start.1.1.1, start.1.2⟩, start.2⟩, start.1.1.2⟩) (fun _ _ => id) fun _ _ => And.left

/-- The rule of the import loop, for the nested imports. -/
def Nests (insertChain : List Block → ChainProc B Unit) (E : Fault (ChainError B.Error) → World B → Prop) : Prop :=
  ∀ {J : World B → Prop}, Importable J E → ∀ {chain : List Block}, (∀ block ∈ chain, block.Fresh) →
    Spec J (insertChain chain) (fun _ => J) E

theorem fresh_of_pruned {fuel : ℕ} {last : Option Block} {blocks : List Block}
    (found : ∀ block ∈ last, block.Fresh) (ran : bc.pruned fuel last = .ok blocks) : ∀ block ∈ blocks, block.Fresh := by
  induction fuel generalizing last blocks with
  | zero => cases ran
  | succ fuel ih =>
    cases last with
    | none => cases ran
    | some block =>
      unfold BlockChain.pruned at ran
      split_ifs at ran with state
      · cases ran
        simp
      · cases rest : bc.pruned fuel (bc.parentOf block) with
        | error e =>
          rw [rest] at ran
          cases ran
        | ok blocks' =>
          rw [rest] at ran
          cases ran
          intro b mem
          rcases List.mem_cons.mp mem with rfl | mem
          · exact found _ rfl
          · exact ih (fun _ read => Database.fresh_of_readBlock read) rest b mem

section Loop

variable {fuel : ℕ} {insertChain : List Block → ChainProc B Unit}

theorem parentFor_spec {P : World B → Prop} (fault : ∀ e w, P w → E e w) (previous : Option Block) (block : Block) :
    Spec P (ChainProc.parentFor previous block) (fun _ => P) E := by
  cases previous with
  | some parent => exact .pure fun _ => id
  | none => exact .get_bind fun _ => .orFault (fun _ _ _ => And.right) fun _ w start => fault _ w start.2

/-- The parent that a route ends with, if the block was admitted. -/
theorem some_parentFor_spec (keeps : Importable J E) (previous : Option Block) (block offered : Block) :
    Spec (fun w => J w ∧ w.Admitted offered)
      (do return some (← ChainProc.parentFor previous block))
      (fun parent w => J w ∧ (parent.isSome → w.Admitted offered)) E :=
  .bind (parentFor_spec (keeps.and_admitted offered).fault previous block) fun _ =>
    Spec.pure fun _ holds => ⟨holds.1, fun _ => holds.2⟩

theorem importPruned_spec (keeps : Importable J E)
    (nested : Nests insertChain E)
    (previous : Option Block) (block : Block) :
    Spec (fun w => J w ∧ w.Admitted block)
      (ChainProc.importPruned fuel insertChain previous (block.hashed B.crypto))
      (fun parent w => J w ∧ (parent.isSome → w.Admitted block)) E := by
  have admitted := keeps.and_admitted block
  refine .get_bind fun t => ?_
  refine .bind (Q := fun ptd w => (J w ∧ w.Admitted block) ∧ w.chain.parentTd block = some ptd) ?_ fun ptd => ?_
  · refine .orFault (fun ptd read w holds => ?_) fun _ w holds => keeps.fault _ w holds.2.1
    exact ⟨holds.2, by rw [holds.1]; exact read⟩
  refine .bind (.orFault (fun _ _ _ => id) fun _ w holds => keeps.fault _ w holds.1.1) fun localTd => ?_
  refine .ite (fun _ => ?_) fun _ => ?_
  · refine .bind (keeps.side block ptd) fun _ => ?_
    exact .pure fun _ holds => ⟨holds, by simp⟩
  · refine .bind (Q := fun winner w => (∀ b ∈ winner, b.Fresh) ∧ J w ∧ w.Admitted block) ?_ fun winner => ?_
    · refine .ofExcept (fun winner ran w holds => ⟨?_, holds.1⟩) fun _ _ w holds => keeps.fault _ w holds.1.1
      exact fresh_of_pruned (fun _ read => Database.fresh_of_readBlock read) ran
    · rintro w ⟨fresh, holds⟩
      have rest := Spec.bind (nested admitted fun b mem => fresh b (List.mem_reverse.mp mem)) fun _ =>
        keeps.some_parentFor_spec previous (block.hashed B.crypto) block
      exact rest w holds

theorem route_spec (keeps : Importable J E) (nested : Nests insertChain E) (previous : Option Block)
    (fresh : block.Fresh) :
    Spec (fun w => J w ∧ ⟨w.chain, .offer block⟩ ∈ w.log)
      (ChainProc.route fuel insertChain previous (block.hashed B.crypto))
      (fun parent w => J w ∧ (parent.isSome → w.Admitted block)) E := by
  refine .get_bind fun t => ?_
  have admits : t.chain.admits block = true → ∀ w : World B, w = t ∧ J w ∧ ⟨w.chain, .offer block⟩ ∈ w.log →
      J w ∧ w.Admitted block := by
    rintro admits w ⟨rfl, holds, mem⟩
    exact ⟨holds, fresh, w.chain, mem, admits⟩
  have parent := keeps.some_parentFor_spec previous (block.hashed B.crypto) block
  dsimp only
  split
  · exact parent.pre (admits (by simp [BlockChain.admits, *]))
  · refine .ite (fun _ => .pure fun w holds => ⟨holds.2.1, by simp⟩) fun above => ?_
    exact parent.pre (admits (by simpa [BlockChain.admits, *] using above))
  · exact (keeps.importPruned_spec nested previous block).pre (admits (by simp [BlockChain.admits, *]))
  · exact .throw fun w holds => keeps.fault _ w holds.2.1

theorem executeBlock_spec (keeps : Importable J E) (parent block : Block) :
    Spec (fun w => J w ∧ w.Admitted block) (ChainProc.executeBlock fuel parent (block.hashed B.crypto))
      (fun _ => J) E := by
  have admitted := keeps.and_admitted block
  refine .bind (Q := fun _ w => J w ∧ w.Admitted block) (.update fun w => admitted.noted w _) fun _ => ?_
  refine .get_bind fun t => ?_
  refine .bind (Q := fun _ w => J w ∧ w.Admitted block) ?_ fun state => ?_
  · exact .ofExcept (fun _ _ _ => And.right) fun _ _ w holds => keeps.fault _ w holds.2.1
  refine .bind (Q := fun done w => (J w ∧ w.Admitted block) ∧
    done.2.2.2 = (block.hashed B.crypto).rooted done.2.2.2.header.stateRoot) ?_
      fun ⟨receipts, usedGas, final, executed⟩ => ?_
  · refine .ofExcept (fun done ran w holds => ⟨holds, ?_⟩) fun _ _ => admitted.fault _
    exact BlockChain.process_ok (lifted_eq_ok.mp ran)
  · refine .bind (Q := fun _ w => (J w ∧ w.Admitted block) ∧
      executed = (block.hashed B.crypto).rooted executed.header.stateRoot) ?_ fun committed => ?_
    · exact .ofExcept (fun _ _ _ => id) fun _ _ w holds => admitted.fault _ w holds.1
    · refine .bind (Q := fun _ => J) ?_ fun _ => .pure fun _ => id
      intro w holds
      have := keeps.write fuel block executed.header.stateRoot committed w holds.1
      rwa [← holds.2] at this

theorem importBlock_spec (keeps : Importable J E) (nested : Nests insertChain E)
    (previous : Option Block) (fresh : block.Fresh) :
    Spec J (ChainProc.importBlock fuel insertChain previous block) (fun _ => J) E := by
  refine .bind (Q := fun _ w => J w ∧ ⟨w.chain, .offer block⟩ ∈ w.log) ?_ fun _ => ?_
  · exact .update fun w holds => ⟨keeps.noted w _ holds, .head _⟩
  refine .bind (keeps.route_spec nested previous fresh) fun parent => ?_
  cases parent with
  | none => exact .pure fun _ => And.left
  | some parent =>
    exact (keeps.executeBlock_spec parent block).pre (fun _ holds => ⟨holds.1, holds.2 rfl⟩)

theorem importAll_spec (keeps : Importable J E) (nested : Nests insertChain E)
    (previous : Option Block) (fresh : ∀ block ∈ chain, block.Fresh) :
    Spec J (ChainProc.importAll fuel insertChain previous chain) (fun _ => J) E := by
  induction chain generalizing previous with
  | nil => exact .pure fun _ => id
  | cons block chain ih =>
    obtain ⟨first, rest⟩ := List.forall_mem_cons.mp fresh
    exact .bind (keeps.importBlock_spec nested previous first) fun block => ih (some block) rest

end Loop

/-- The rule of the import loop. The nested imports are those of a smaller fuel. -/
theorem insertChain_spec (keeps : Importable J E) (fuel : ℕ) (fresh : ∀ block ∈ chain, block.Fresh) :
    Spec J (ChainProc.insertChain fuel chain) (fun _ => J) E := by
  induction fuel generalizing J chain with
  | zero => exact .throw (keeps.fault _)
  | succ fuel ih =>
    unfold ChainProc.insertChain
    split
    · exact .throw (keeps.fault _)
    · exact keeps.importAll_spec (fun keeps _ fresh => ih keeps fresh) none fresh

end Importable

end KKChain
