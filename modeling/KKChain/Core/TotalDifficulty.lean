import KKChain.Core.SetHead
import KKChain.Machine.PathWeight
import KKChain.Machine.Run

/-! # Total difficulties

The total difficulty of a block is recorded when the block is stored, from the record of its parent. `TdKeyed` says
that every record is the weight of its block along the parents, down to the record of the genesis block. A record is
found by number and hash, a cached one by the hash alone; the weight depends on the hash only, so both agree. The
record of the genesis block is written from the specification and not from the header, which has a default in its
place.
-/

namespace KKChain

open Proc Rlp List Option Function

variable {B : Backend}

namespace Header

theorem length_encodeStr_hash (hash : Hash) : (encodeStr hash.bytes).length = 33 := by
  have length : hash.bytes.length = 32 := BigEndian.length_fixed ..
  rw [encodeStr, if_neg (by omega), length_append, length_puthead, length]
  rfl

/-- The root of a header does not decide whether the header fits. -/
theorem length_encode_rooted (h : Header) (root : Hash) :
    { h with stateRoot := root }.item.encode.length = h.item.encode.length := by
  simp only [item, Item.encode, Item.encodeAll, length_append, length_puthead, length_encodeStr_hash]

theorem encoded_iff (h : Header) : h.Encoded ↔ h.Encodes ∧ h.item.encode.length ≤ maxAlloc := by
  rw [Encoded, encodeToBytes_eq, value_item]
  by_cases encodes : h.Encodes
  · by_cases fits : h.item.encode.length ≤ maxAlloc <;> simp [encodes, fits]
  · simp [encodes]

theorem encoded_rooted {h : Header} {root : Hash} : { h with stateRoot := root }.Encoded ↔ h.Encoded := by
  rw [encoded_iff, encoded_iff, length_encode_rooted]
  rfl

/-- A header that was met links its hash to its parent. -/
def Links (C : Crypto) (S : Set Header) (hash parent : Hash) (difficulty : ℤ) : Prop :=
  ∃ h ∈ S, h.Encoded ∧ h.hashOf C = hash ∧ h.parentHash = parent ∧ h.difficulty = difficulty

end Header

/-- The recorded genesis total difficulty with the difficulties of all headers on the way to the genesis block. -/
abbrev Genesis.Weighs (g : Genesis B) (S : Set Header) : Hash → ℤ → Prop :=
  PathWeight (Header.Links B.crypto S) g.hash (g.difficulty.getD 0)

theorem Genesis.Weighs.mono {g : Genesis B} {S S' : Set Header} {hash : Hash} {td : ℤ} (weight : g.Weighs S hash td)
    (within : S ⊆ S') : g.Weighs S' hash td := by
  apply PathWeight.mono weight
  rintro _ _ _ ⟨h, mem, linked⟩
  exact ⟨h, within mem, linked⟩

theorem Genesis.getTd_world (g : Genesis B) (coins : ℕ → Bool) :
    (g.world coins).chain.getTd g.hash 0 = some (g.difficulty.getD 0) := by
  simp [BlockChain.getTd, world, chain, database]

/-- Every total difficulty on record is the weight of its block. -/
structure TdKeyed (g : Genesis B) (w : World B) : Prop where
  genesisBlock : w.chain.genesisBlock = g.block
  headers : ∀ {number hash header}, w.chain.db.headers (number, hash) = some header →
    header.hashOf B.crypto = hash ∧ header.numberU64 = number ∧ header.Encoded ∧ header ∈ w.seen
  tds : ∀ {number hash td}, w.chain.db.tds (number, hash) = some td → g.Weighs w.seen hash td
  genesis : w.chain.db.tds (0, g.hash) ≠ none

namespace TdKeyed

variable {g : Genesis B} {w w' : World B} {block : Block}

/-- A chain with no more headers and total difficulties than before. -/
theorem of_subset (keyed : TdKeyed g w) (grown : w.seen ⊆ w'.seen)
    (genesisBlock : w'.chain.genesisBlock = w.chain.genesisBlock)
    (headers : ∀ {key header}, w'.chain.db.headers key = some header → w.chain.db.headers key = some header)
    (tds : ∀ {key td}, w'.chain.db.tds key = some td → w.chain.db.tds key = some td)
    (genesis : w'.chain.db.tds (0, g.hash) ≠ none) : TdKeyed g w' where
  genesisBlock := genesisBlock.trans keyed.genesisBlock
  headers stored := by
    obtain ⟨hash, number, encoded, seen⟩ := keyed.headers (headers stored)
    exact ⟨hash, number, encoded, grown seen⟩
  tds recorded := (keyed.tds (tds recorded)).mono grown
  genesis := genesis

theorem noted (keyed : TdKeyed g w) (call : ChainCall) : TdKeyed g (w.noted call) :=
  keyed.of_subset (w.seen_noted call) rfl id id keyed.genesis

/-- A stored block has its weight on record, if it was stored under the hash of a header that was met. -/
theorem store (keyed : TdKeyed g w) {ptd : ℤ} {stateDb : B.StateDb} (grown : w.seen ⊆ w'.seen)
    (met : block.header ∈ w'.seen) (encoded : block.header.Encoded)
    (parent : g.Weighs w.seen block.header.parentHash ptd)
    (same : (w.chain.store block (block.header.difficulty + ptd) stateDb).SameStore w'.chain)
    (linked : Header.Links B.crypto w'.seen (block.hash B.crypto) block.header.parentHash block.header.difficulty) :
    TdKeyed g w' where
  genesisBlock := same.genesisBlock.trans keyed.genesisBlock
  headers {number hash header} stored := by
    rw [same.headers, BlockChain.headers_store, update_apply] at stored
    split_ifs at stored with key
    · cases key
      cases stored
      exact ⟨rfl, rfl, encoded, met⟩
    · obtain ⟨isHash, isNumber, encoded, seen⟩ := keyed.headers stored
      exact ⟨isHash, isNumber, encoded, grown seen⟩
  tds {number hash td} recorded := by
    rw [same.tds, BlockChain.tds_store, update_apply] at recorded
    split_ifs at recorded with key
    · cases key
      cases recorded
      exact .step linked (parent.mono grown)
    · exact (keyed.tds recorded).mono grown
  genesis := by
    rw [same.tds, BlockChain.tds_store, update_apply]
    split_ifs
    · exact some_ne_none _
    · exact keyed.genesis

/-- A block of the import loop, executed or not, belongs to the header it was offered with. -/
theorem links_of_admitted {b : Block} (stored : Block) (admitted : w.Admitted b) (encoded : b.header.Encoded)
    (hash : stored.hash B.crypto = b.hash B.crypto) (parent : b.header.parentHash = stored.header.parentHash)
    (difficulty : b.header.difficulty = stored.header.difficulty) :
    Header.Links B.crypto w.seen (stored.hash B.crypto) stored.header.parentHash stored.header.difficulty := by
  obtain ⟨fresh, bc, mem, -⟩ := admitted
  exact ⟨b.header, .inr ⟨_, mem, rfl⟩, encoded, by rw [hash, fresh.hash B.crypto], parent, difficulty⟩

/-- A header with the hash, parent and difficulty of the block was met, or is met with the block. -/
def Linked (block : Block) (w : World B) : Prop :=
  block.header.Encoded → ∀ S : Set Header, w.seen ⊆ S → block.header ∈ S →
    Header.Links B.crypto S (block.hash B.crypto) block.header.parentHash block.header.difficulty

/-- `WriteBlockWithState` keeps the law, whether it returns or fails with an error. -/
theorem writeBlockWithState_spec (fuel : ℕ) (block : Block) (state : B.State) :
    Spec (fun w => TdKeyed g w ∧ Linked block w) (ChainProc.writeBlockWithState fuel block state)
      (fun _ => TdKeyed g) fun e w => ∀ err, e = .error err → TdKeyed g w := by
  rintro w ⟨keyed, linked⟩
  have stored : ∀ w', ChainProc.Stored block w w' → w'.log = ⟨w.chain, .write block (w.coins 0)⟩ :: w.log →
      TdKeyed g w' := by
    rintro w' ⟨ptd, stateDb, parent, encoded, same⟩ log
    have grown : w.seen ⊆ w'.seen :=
      World.seen_subset same.genesisBlock fun _ mem => log ▸ mem_cons_of_mem _ mem
    have met : block.header ∈ w'.seen := .inr ⟨_, log ▸ mem_cons_self, rfl⟩
    exact keyed.store grown met encoded (keyed.tds parent) same (linked encoded _ grown met)
  cases ran : (ChainProc.writeBlockWithState fuel block state).run w with
  | ok u w' =>
    obtain ⟨-, -, -, -, -, -, -, -, log⟩ := ChainProc.writeBlockWithState_ok ran
    obtain ⟨ptd, stateDb, parent, encoded, same, -⟩ := ChainProc.writeBlockWithState_store ran
    exact stored w' ⟨ptd, stateDb, parent, encoded, same⟩ log
  | error e w' =>
    rintro err rfl
    rcases ChainProc.writeBlockWithState_error ran with rfl | ⟨isStored, log⟩
    · exact keyed.noted _
    · exact stored w' isStored log

/-- The import loop keeps the law, also where it fails with an error. -/
theorem importable : Importable (TdKeyed g) fun e w => ∀ err, e = .error err → TdKeyed g w where
  fault _ _ keyed _ _ := keyed
  noted _ call keyed := keyed.noted call
  write fuel b root state := by
    refine (writeBlockWithState_spec fuel _ state).pre (fun w start => ⟨start.1, ?_⟩)
    intro encoded S grown _
    obtain ⟨h, mem, linked⟩ := links_of_admitted ((b.hashed B.crypto).rooted root) start.2
      (Header.encoded_rooted.mp encoded) (b.hash_rooted B.crypto root) rfl rfl
    exact ⟨h, grown mem, linked⟩
  side b ptd w start := by
    obtain ⟨⟨keyed, admitted⟩, parent⟩ := start
    cases ran : (ChainProc.writeBlockWithoutState (b.hashed B.crypto) (ptd + b.header.difficulty)).run w with
    | ok u w' =>
      obtain ⟨encoded, after⟩ := ChainProc.writeBlockWithoutState_ok ran
      have log : w'.log = ⟨w.chain, .side (b.hashed B.crypto)⟩ :: w.log := by rw [after]
      have chain : w'.chain = w.chain.store (b.hashed B.crypto) (b.header.difficulty + ptd) w.chain.stateDb := by
        rw [after, add_comm]
      have same : (w.chain.store (b.hashed B.crypto) (b.header.difficulty + ptd) w.chain.stateDb).SameStore
          w'.chain := by
        rw [chain]
        exact ⟨rfl, rfl, rfl, rfl, rfl, rfl⟩
      have grown : w.seen ⊆ w'.seen :=
        World.seen_subset same.genesisBlock fun _ mem => log ▸ mem_cons_of_mem _ mem
      obtain ⟨h, mem, linked⟩ := links_of_admitted (b.hashed B.crypto) admitted encoded
        (b.hash_hashed B.crypto) rfl rfl
      have met : b.header ∈ w'.seen := .inr ⟨_, log ▸ mem_cons_self, rfl⟩
      exact keyed.store grown met encoded (keyed.tds parent) same ⟨h, grown mem, linked⟩
    | error e w' =>
      rintro err rfl
      rcases bind_eq_error.mp ran with ⟨⟨⟩⟩ | ⟨_, _, -, ran⟩
      rcases bind_eq_error.mp ran with ran | ⟨_, _, -, ran⟩
      · exact (ChainProc.writeTd_no_error ran).elim
      · exact (ChainProc.writeBlock_no_error ran).elim

/-- `SetHead` deletes blocks above its target, so never the genesis block. -/
theorem setHead {bc : BlockChain B} {fuel target : ℕ} (keyed : TdKeyed g w) (ran : w.chain.setHead fuel target = .ok bc)
    (chain : w'.chain = bc) (grown : w.seen ⊆ w'.seen) : TdKeyed g w' := by
  obtain ⟨blocks, last, -, walked, -, -, same, -⟩ := BlockChain.setHead_ok ran
  subst chain
  have tables := fun entry => BlockChain.deleteAll (B := B) blocks w.chain.db entry
  have tds : ∀ entry, w'.chain.db.tds entry =
      if entry ∈ blocks.map (BlockChain.key B) then none else w.chain.db.tds entry :=
    fun entry => (congrFun same.tds entry).trans (tables entry).2.2
  refine keyed.of_subset grown same.genesisBlock (fun {key header} stored => ?_) (fun {key td} recorded => ?_) ?_
  · rw [same.headers] at stored
    exact (BlockChain.of_headers_deleteAbove stored).2
  · rw [tds] at recorded
    split_ifs at recorded
    exact recorded
  · rw [tds, if_neg]
    · exact keyed.genesis
    · intro deleted
      obtain ⟨block, mem, same⟩ := mem_map.mp deleted
      have above := BlockChain.rewind_above walked block mem
      have zero : block.numberU64 = 0 := (Prod.mk.inj same).1
      omega

end TdKeyed

/-- A call of a node that returns, or fails with an error. -/
def NodeStep (fuel : ℕ) (w : World B) (call : NodeCall B) (w' : World B) : Prop :=
  (ChainProc.call fuel call).run w = .ok () w' ∨ ∃ e, (ChainProc.call fuel call).run w = .error (.error e) w'

/-- A block that is written directly has the hash of its header. -/
def NodeCall.Sealed : NodeCall B → Prop
  | .writeBlockWithState block _ => block.hash B.crypto = block.header.hashOf B.crypto
  | _ => True

namespace TdKeyed

variable {g : Genesis B} {w w' : World B} {fuel : ℕ} {call : NodeCall B}

theorem call_spec (fuel : ℕ) (isSealed : call.Sealed) :
    Spec (TdKeyed g) (ChainProc.call fuel call) (fun _ => TdKeyed g) fun e w => ∀ err, e = .error err →
      TdKeyed g w := by
  cases call with
  | writeBlockWithState block state =>
    refine (writeBlockWithState_spec fuel block state).pre (fun w keyed => ⟨keyed, ?_⟩)
    exact fun encoded S _ mem => ⟨block.header, mem, encoded, Eq.symm isSealed, rfl, rfl⟩
  | insertChain chain =>
    apply importable.insertChain_spec
    intro block mem
    obtain ⟨-, -, rfl⟩ := mem_map.mp mem
    rfl
  | setHead target =>
    refine .bind (Q := fun _ => TdKeyed g) (.update fun w keyed => keyed.noted (.setHead target)) fun _ => ?_
    refine .get_bind fun t => ?_
    refine .bind (Q := fun bc w => t = w ∧ TdKeyed g w ∧ w.chain.setHead fuel target = .ok bc) ?_ fun bc => ?_
    · refine .ofExcept (fun bc ran w start => ?_) fun _ _ w start _ _ => start.2
      obtain ⟨rfl, keyed⟩ := start
      exact ⟨rfl, keyed, ran⟩
    · refine .update fun w start => ?_
      obtain ⟨-, keyed, ran⟩ := start
      refine keyed.setHead ran rfl (World.seen_subset ?_ fun _ => id)
      obtain ⟨_, _, _, -, -, -, same, -⟩ := BlockChain.setHead_ok ran
      exact same.genesisBlock

theorem step (taken : NodeStep fuel w call w') (isSealed : call.Sealed) (keyed : TdKeyed g w) : TdKeyed g w' := by
  have spec := call_spec fuel isSealed w keyed
  rcases taken with ran | ⟨e, ran⟩
  · rwa [ran] at spec
  · rw [ran] at spec
    exact spec e rfl

theorem genesis_world (g : Genesis B) (coins : ℕ → Bool) : TdKeyed g (g.world coins) where
  genesisBlock := rfl
  headers {number hash header} stored := by
    simp only [Genesis.world, Genesis.chain, Genesis.database, update_apply] at stored
    split_ifs at stored with key
    cases key
    cases stored
    exact ⟨rfl, by rw [Header.numberU64, g.number]; rfl, g.encoded, .inl rfl⟩
  tds {number hash td} recorded := by
    simp only [Genesis.world, Genesis.chain, Genesis.database, update_apply] at recorded
    split_ifs at recorded with key
    cases key
    cases recorded
    exact .root
  genesis := ne_none_iff_exists'.mpr ⟨_, g.getTd_world coins⟩

theorem run {ts : List (World B × NodeCall B × World B)} {coins : ℕ → Bool}
    (run : Run (NodeStep fuel) (g.world coins) ts w) (isSealed : ∀ u ∈ ts, u.2.1.Sealed) : TdKeyed g w :=
  run.keeps (fun u mem taken keyed => keyed.step taken (isSealed u mem)) (genesis_world g coins)

section Unique

variable (keyed : TdKeyed g w) (free : CollisionFree B.crypto w.seen)
  (rootless : ∀ h ∈ w.seen, h.Encoded → h.hashOf B.crypto ≠ g.header.parentHash)
include keyed

theorem header_seen : g.header ∈ w.seen := .inl (by rw [keyed.genesisBlock]; rfl)

include free rootless

/-- A hash has one weight: its header is known by it, and the parent of the genesis block has none. -/
theorem unique {hash : Hash} {td td' : ℤ} (first : g.Weighs w.seen hash td) (second : g.Weighs w.seen hash td') :
    td = td' := by
  refine PathWeight.unique ?_ ?_ first second
  · rintro _ _ _ _ _ ⟨h, seen, encoded, isHash, rfl, rfl⟩ ⟨h', seen', -, isHash', rfl, rfl⟩
    obtain rfl := free.eq_of_hashOf_eq seen seen' encoded (isHash.trans isHash'.symm)
    exact ⟨rfl, rfl⟩
  · rintro _ _ total ⟨h, seen, encoded, isHash, rfl, rfl⟩ weight
    obtain rfl := free.eq_of_hashOf_eq seen keyed.header_seen encoded isHash
    rcases weight.cases_eq with ⟨root, -⟩ | ⟨_, _, _, ⟨h', seen', encoded', isHash', -⟩, -⟩
    · exact rootless g.header seen encoded root.symm
    · exact rootless h' seen' encoded' isHash'

end Unique

end TdKeyed

/-- `GetTd` through `tdCache`, which is looked up by the hash alone. -/
def BlockChain.getTdCached (bc : BlockChain B) (cache : Hash → Option ℤ) (hash : Hash) (number : ℕ) : Option ℤ :=
  (cache hash).or (bc.getTd hash number)

namespace TdKeyed

variable {g : Genesis B} {w : World B} {cache : Hash → Option ℤ} {hash : Hash} {number : ℕ} {td : ℤ}

/-- As long as the cache holds weights, a read through it gives a weight, so what is computed from it and added to the
cache again is one. -/
theorem weighs_getTdCached (keyed : TdKeyed g w) (cached : ∀ hash td, cache hash = some td → g.Weighs w.seen hash td)
    (read : w.chain.getTdCached cache hash number = some td) : g.Weighs w.seen hash td := by
  rcases or_eq_some_iff.mp read with hit | ⟨-, recorded⟩
  · exact cached hash td hit
  · exact keyed.tds recorded

/-- The cache does not hide what is on record. -/
theorem getTdCached_eq (keyed : TdKeyed g w) (free : CollisionFree B.crypto w.seen)
    (rootless : ∀ h ∈ w.seen, h.Encoded → h.hashOf B.crypto ≠ g.header.parentHash)
    (cached : ∀ hash td, cache hash = some td → g.Weighs w.seen hash td)
    (recorded : w.chain.getTd hash number = some td) :
    w.chain.getTdCached cache hash number = some td := by
  cases hit : cache hash with
  | none => rw [BlockChain.getTdCached, hit, none_or, recorded]
  | some td' =>
    rw [BlockChain.getTdCached, hit, some_or]
    exact congrArg some (keyed.unique free rootless (cached hash td' hit) (keyed.tds recorded))

end TdKeyed

/-- Every stored block that has a total difficulty has that of its parent and its own difficulty, and the genesis
block has the difficulty of its header. -/
structure TdLaw (g : Genesis B) (bc : BlockChain B) : Prop where
  child : ∀ number hash header td ptd, bc.db.headers (number, hash) = some header → (number, hash) ≠ (0, g.hash) →
    bc.getTd hash number = some td → bc.getTd header.parentHash (pred64 number) = some ptd →
    td = ptd + header.difficulty
  genesis : ∀ td, bc.getTd g.hash 0 = some td → td = g.header.difficulty

/-- In every state reached by calls of a node that return or fail with an error, the total difficulties are right
exactly if the specification of the genesis block has a difficulty. A cache of weights gives weights, and gives what is
on record. -/
theorem tdLaw_iff (g : Genesis B) (coins : ℕ → Bool) (fuel : ℕ) (ts : List (World B × NodeCall B × World B))
    (w : World B) (run : Run (NodeStep fuel) (g.world coins) ts w) (isSealed : ∀ u ∈ ts, u.2.1.Sealed)
    (collisionFree : CollisionFree B.crypto w.seen)
    (rootless : ∀ h ∈ w.seen, h.Encoded → h.hashOf B.crypto ≠ g.header.parentHash) :
    (TdLaw g w.chain ↔ g.difficulty.isSome) ∧
    ∀ cache : Hash → Option ℤ, (∀ hash td, cache hash = some td → g.Weighs w.seen hash td) → ∀ hash number td,
      (w.chain.getTdCached cache hash number = some td → g.Weighs w.seen hash td) ∧
      (w.chain.getTd hash number = some td → w.chain.getTdCached cache hash number = some td) := by
  have keyed : TdKeyed g w := TdKeyed.run run isSealed
  refine ⟨?_, fun cache cached hash number td => ⟨keyed.weighs_getTdCached cached,
    keyed.getTdCached_eq collisionFree rootless cached⟩⟩
  constructor
  · intro law
    obtain ⟨td, recorded⟩ := ne_none_iff_exists'.mp keyed.genesis
    have base := keyed.unique collisionFree rootless (keyed.tds recorded) .root
    have header := law.genesis td recorded
    rw [base, g.difficulty_header] at header
    cases given : g.difficulty with
    | none => simp [given, genesisDifficulty] at header
    | some difficulty => rfl
  · intro given
    obtain ⟨difficulty, given⟩ := isSome_iff_exists.mp given
    constructor
    · intro number hash header td ptd stored _ recorded parent
      obtain ⟨isHash, -, encoded, seen⟩ := keyed.headers stored
      have weight := PathWeight.step ⟨header, seen, encoded, isHash, rfl, rfl⟩ (keyed.tds parent)
      rw [keyed.unique collisionFree rootless (keyed.tds recorded) weight, add_comm]
    · intro td recorded
      rw [keyed.unique collisionFree rootless (keyed.tds recorded) .root, g.difficulty_header, given]
      rfl

namespace Backend.tally

theorem Knows.rootless {w : World Backend.tally} (knows : Knows w) :
    ∀ h ∈ w.seen, h.Encoded → h.hashOf .numeral ≠ genesis.header.parentHash :=
  fun _ seen encoded => knows.collisionFree.hashOf_ne_zero seen encoded

/-- The genesis block of a specification without a difficulty. -/
def unset : Genesis Backend.tally := { genesis with difficulty := none, difficulty_header := rfl }

end Backend.tally

open Backend.tally in
/-- The law holds after two blocks and a side block on a genesis block with a difficulty. -/
theorem tdLaw_side : ∃ ts w, Run (NodeStep 3) (genesis.world fun _ => false) ts w ∧ ts.length = 2 ∧
    TdLaw genesis w.chain := by
  obtain ⟨w₂, ran, knows, -⟩ := main_side_forged
  obtain ⟨_, w₁, first, rest⟩ := bind_eq_ok.mp ran
  obtain ⟨_, _, second, rest⟩ := bind_eq_ok.mp rest
  obtain ⟨-, rfl⟩ := pure_eq_ok.mp rest
  have run : Run (NodeStep 3) (genesis.world fun _ => false)
      [(_, .insertChain [main1, main2], w₁), (w₁, .insertChain [side1], _)] _ :=
    .cons (.inl first) (.cons (.inl second) (.nil _))
  refine ⟨_, _, run, rfl, (tdLaw_iff genesis _ 3 _ _ run ?_ knows.collisionFree knows.rootless).1.mpr rfl⟩
  rw [forall_mem_cons, forall_mem_singleton]
  exact ⟨trivial, trivial⟩

open Backend.tally in
/-- A genesis block without a difficulty in its specification has a total difficulty of zero, not that of its header. -/
theorem tdLaw_unset :
    ¬ ∀ (B : Backend) (g : Genesis B) (coins : ℕ → Bool) (fuel : ℕ) (ts : List (World B × NodeCall B × World B))
        (w : World B), Run (NodeStep fuel) (g.world coins) ts w → (∀ u ∈ ts, u.2.1.Sealed) →
      CollisionFree B.crypto w.seen → (∀ h ∈ w.seen, h.Encoded → h.hashOf B.crypto ≠ g.header.parentHash) →
      TdLaw g w.chain := by
  intro law
  have knows : Knows (unset.world fun _ => false) := ⟨rfl, by simp [Genesis.world]⟩
  have holds := law _ unset _ 0 [] _ (.nil _) (by simp) knows.collisionFree knows.rootless
  exact absurd (holds.genesis _ (unset.getTd_world _)) (by decide)

end KKChain
