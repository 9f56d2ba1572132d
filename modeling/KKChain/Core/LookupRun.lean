import KKChain.Core.Lookup

/-! # The transaction lookup index in every run

In a run of imports that meet `KeepsLookup`, the lookup index has exactly the positions of the transactions on the
canonical chain.
-/

namespace KKChain

open Proc LinkedIndex InverseIndex List Option Function

variable {B : Backend}

namespace BlockChain

/-- The hashes of the transactions of a block and its ancestors. -/
def lineageTxs (bc : BlockChain B) (block : Block) : List Hash :=
  (List.range (block.numberU64 + 1)).flatMap fun k => ((bc.ancestor k block).map (Block.txHashes B.crypto)).getD []

/-- If the block is canonical already, it has the transactions it was stored with. -/
def KeepsContent (bc : BlockChain B) (block : Block) : Prop :=
  bc.db.canonical block.numberU64 = some (block.hash B.crypto) → bc.Carries block

variable {bc bc' : BlockChain B} {S : Set Header} {block b a : Block} {hash t : Hash} {number fuel k : ℕ} {td : ℤ}
  {stateDb : B.StateDb}

theorem SameStore.ancestor (same : bc.SameStore bc') (k : ℕ) (block : Block) :
    bc'.ancestor k block = bc.ancestor k block := by
  induction k generalizing block with
  | zero => rfl
  | succ k ih =>
    simp only [BlockChain.ancestor, parentOf, same.getBlock]
    congr 1
    funext parent
    exact ih parent

theorem SameStore.lineageTxs (same : bc.SameStore bc') (block : Block) :
    bc'.lineageTxs block = bc.lineageTxs block := by
  simp only [BlockChain.lineageTxs, same.ancestor]

theorem getBlock_store_of_ne (apart : number ≠ block.numberU64) :
    (bc.store block td stateDb).getBlock hash number = bc.getBlock hash number := by
  have other : ∀ k, (number, hash) ≠ (block.numberU64, k) := fun k same => apart (Prod.ext_iff.mp same).1
  simp only [getBlock, Database.readBlock, headers_store, bodies_store, update_of_ne (other _)]

/-- Storing a block does not change what is below it. -/
theorem ancestor_store (keyed : Keyed S bc) (bound : b.numberU64 ≤ block.numberU64) (within : k ≤ b.numberU64) :
    (bc.store block td stateDb).ancestor k b = bc.ancestor k b := by
  induction k generalizing b with
  | zero => rfl
  | succ k ih =>
    obtain ⟨m, next⟩ : ∃ m, b.numberU64 = m + 1 := Nat.exists_eq_succ_of_ne_zero (by omega)
    have pred : pred64 b.numberU64 = m := by rw [next, pred64_succ (next ▸ b.header.numberU64_lt)]
    have read : (bc.store block td stateDb).parentOf b = bc.parentOf b := by
      rw [parentOf, parentOf, pred]
      exact getBlock_store_of_ne (by omega)
    simp only [BlockChain.ancestor, read]
    cases isParent : bc.parentOf b with
    | none => rw [bind_none, bind_none]
    | some parent =>
      obtain ⟨-, -, number⟩ := keyed.parentOf isParent
      rw [pred] at number
      rw [bind_some, bind_some]
      exact ih (by omega) (by omega)

theorem lineageTxs_store (keyed : Keyed S bc) :
    (bc.store block td stateDb).lineageTxs block = bc.lineageTxs block := by
  apply flatMap_congr
  intro k mem
  rw [ancestor_store keyed le_rfl (Nat.lt_succ_iff.mp (mem_range.mp mem))]

theorem Keyed.carries_ancestor (keyed : Keyed S bc) (carries : bc.Carries block)
    (found : bc.ancestor k block = some a) : bc.Carries a := by
  induction k generalizing block with
  | zero => exact some.inj found ▸ carries
  | succ k ih =>
    obtain ⟨parent, read, found⟩ := bind_eq_some_iff.mp found
    exact ih (keyed.carries read) found

/-- A position of the canonical chain is one in an ancestor of the head. -/
theorem Indexed.ancestor_of_located (indexed : bc.Indexed) (keyed : Keyed S bc) (head : bc.Carries bc.currentBlock)
    {e : TxLookupEntry} (isThere : bc.Located t e) :
    ∃ k a, e.blockIndex + k = bc.currentBlock.numberU64 ∧ bc.ancestor k bc.currentBlock = some a ∧
      a.hash B.crypto = e.blockHash ∧ (a.txHashes B.crypto)[e.index]? = some t := by
  obtain ⟨entry, isAt⟩ := isThere
  have within : e.blockIndex ≤ bc.currentBlock.numberU64 := by
    by_contra higher
    simp [indexed.above e.blockIndex (by omega)] at entry
  obtain ⟨a, found, height, entry'⟩ := indexed.ancestor keyed (bc.currentBlock.numberU64 - e.blockIndex) indexed.head
    le_rfl indexed.top (Nat.sub_le ..)
  have number : a.numberU64 = e.blockIndex := by omega
  rw [number] at entry'
  have hash := some.inj (entry'.symm.trans entry)
  refine ⟨_, a, by omega, found, hash, ?_⟩
  rw [← keyed.carries_ancestor head found, number, hash]
  exact isAt

/-- Without a repetition along the lineage of the head, no transaction is at two positions. -/
theorem Indexed.unique (indexed : bc.Indexed) (keyed : Keyed S bc) (head : bc.Carries bc.currentBlock)
    (nodup : (bc.lineageTxs bc.currentBlock).Nodup) : bc.Unique := by
  intro t e e' isThere isThere'
  obtain ⟨k, a, height, found, hash, isAt⟩ := indexed.ancestor_of_located keyed head isThere
  obtain ⟨k', a', height', found', hash', isAt'⟩ := indexed.ancestor_of_located keyed head isThere'
  obtain ⟨within, between⟩ := List.nodup_flatMap.mp nodup
  have inside : k ∈ List.range (bc.currentBlock.numberU64 + 1) := List.mem_range.mpr (by omega)
  have inside' : k' ∈ List.range (bc.currentBlock.numberU64 + 1) := List.mem_range.mpr (by omega)
  have level : k = k' := by
    by_contra apart
    have : Std.Symm (Function.onFun List.Disjoint fun k =>
        ((bc.ancestor k bc.currentBlock).map (Block.txHashes B.crypto)).getD []) := ⟨fun _ _ => List.Disjoint.symm⟩
    have disjoint := between.forall inside inside' apart
    simp only [Function.onFun, found, found', Option.map_some, Option.getD_some] at disjoint
    exact disjoint (List.mem_of_getElem? isAt) (List.mem_of_getElem? isAt')
  subst level
  cases found.symm.trans found'
  have once := within k inside
  simp only [found, Option.map_some, Option.getD_some] at once
  have index := (List.getElem?_inj (List.getElem?_eq_some_iff.mp isAt).1 once).mp (isAt.trans isAt'.symm)
  have number : e.blockIndex = e'.blockIndex := by omega
  cases e
  cases e'
  simp only at hash hash' index number
  rw [← hash, ← hash', index, number]

theorem carries_store : (bc.store block td stateDb).Carries block := by
  rw [Carries, content, bodies_store, Function.update_self, Option.getD_some, List.map_map, Block.txHashes]
  congr 1
  funext tx
  exact tx.hashOf_stored B.crypto

/-- The content of a canonical block is kept. -/
theorem content_store (keeps : bc.KeepsContent block) (entry : bc.db.canonical number = some hash) :
    (bc.store block td stateDb).content number hash = bc.content number hash := by
  by_cases same : (number, hash) = (block.numberU64, block.hash B.crypto)
  · cases same
    exact carries_store.trans (keeps entry).symm
  · rw [content, content, bodies_store, update_of_ne same]

theorem Looked.store (looked : bc.Looked) (indexed : bc.Indexed) (keeps : bc.KeepsContent block) :
    (bc.store block td stateDb).Looked where
  inverts t e := by
    rw [show (bc.store block td stateDb).db.txLookup t = bc.db.txLookup t from rfl, looked.inverts t e]
    apply and_congr_right
    intro entry
    rw [content_store keeps entry]
  head := (content_store keeps indexed.top).trans looked.head

/-- The block of a canonical hash is read back with its content. -/
theorem Indexed.getBlockByNumber (indexed : bc.Indexed) (keyed : Keyed S bc) (free : CollisionFree B.crypto S)
    (entry : bc.db.canonical number = some hash) :
    ∃ b, bc.getBlockByNumber number = some b ∧ b.hash B.crypto = hash ∧
      bc.content number hash = b.txHashes B.crypto := by
  have within : number ≤ bc.currentBlock.numberU64 := by
    by_contra higher
    simp [indexed.above number (by omega)] at entry
  obtain ⟨key, parent, entry', node, -⟩ := indexed.linked number within
  cases entry'.symm.trans entry
  obtain ⟨b, read, -⟩ := map_eq_some_iff.mp node
  obtain ⟨held, rfl, rfl⟩ := keyed.getBlock read
  obtain ⟨isHash, -, encoded, seen⟩ := keyed.headers held.header
  refine ⟨b, ?_, rfl, keyed.carries read⟩
  rw [BlockChain.getBlockByNumber, entry, bind_some, if_neg (isHash ▸ free.hashOf_ne_zero seen encoded), read]

/-- A block that is canonical already becomes the head. -/
theorem Looked.insert_of_canonical (looked : bc.Looked) (carries : bc.Carries block)
    (entry : bc.db.canonical block.numberU64 = some (block.hash B.crypto)) : (bc.insert block).Looked := by
  have same : (bc.insert block).db.canonical = bc.db.canonical := by
    change update bc.db.canonical block.numberU64 _ = _
    rw [← entry, update_eq_self]
  refine ⟨fun t e => ?_, carries⟩
  rw [Located, same]
  exact looked.inverts t e

/-- A block without transactions becomes the head in the place of one without. -/
theorem Looked.insert_of_empty (looked : bc.Looked) (carries : bc.Carries block) (empty : block.txs = [])
    (replaced : ∀ k, bc.db.canonical block.numberU64 = some k → bc.content block.numberU64 k = []) :
    (bc.insert block).Looked := by
  refine ⟨fun t e => (looked.inverts t e).trans ?_, carries⟩
  change _ ↔ update bc.db.canonical block.numberU64 (some (block.hash B.crypto)) e.blockIndex = _ ∧
    (bc.content e.blockIndex e.blockHash)[e.index]? = some t
  by_cases same : e.blockIndex = block.numberU64
  · rw [Located, same, update_self, some.injEq]
    constructor
    · rintro ⟨entry, isAt⟩
      simp [replaced _ entry] at isAt
    · rintro ⟨isHash, isAt⟩
      rw [← isHash, carries, Block.txHashes, empty] at isAt
      simp at isAt
  · rw [Located, update_of_ne same]

/-- The head update keeps the lookup index. -/
theorem Looked.adopted {externTd : ℤ} {coin : Bool} (looked : bc.Looked) (indexed : bc.Indexed) (keyed : Keyed S bc)
    (holds : bc.Holds block) (carries : bc.Carries block) (bound : bc.currentBlock.numberU64 ≤ block.numberU64)
    (next : block.header.parentHash = bc.currentBlock.hash B.crypto →
      block.numberU64 = bc.currentBlock.numberU64 + 1)
    (chosen : bc.prefers externTd td block coin = true ∨
      bc.db.canonical block.numberU64 = some (block.hash B.crypto) ∨
      block.txs = [] ∧ ∀ k, bc.db.canonical block.numberU64 = some k → bc.content block.numberU64 k = [])
    (ran : bc.adopted fuel block externTd td coin = .ok bc') (indexed' : bc'.Indexed) (unique : bc'.Unique) :
    bc'.Looked := by
  obtain ⟨bc₁, -, rfl, ⟨lighter, rfl⟩ | ⟨-, bc₂, reorged, rfl⟩⟩ := adopted_ok ran
  · rcases chosen.resolve_left (by simp [lighter]) with entry | ⟨empty, replaced⟩
    · exact looked.insert_of_canonical carries entry
    · exact looked.insert_of_empty carries empty replaced
  · unfold BlockChain.reorged at reorged
    split_ifs at reorged with apart
    · exact looked.reorg indexed keyed holds carries reorged indexed' unique
    · cases reorged
      push Not at apart
      exact looked.extend indexed keyed carries apart (next apart) indexed' unique

end BlockChain

/-- What a call has to meet to keep the lookup index. It keeps the canonical index and the content of canonical blocks.
A block that is written repeats no transaction of its lineage, and it is preferred to the head, or canonical already, or
neither it nor the block it replaces has transactions. -/
def ChainEvent.KeepsLookup (e : ChainEvent B) : Prop :=
  e.KeepsIndex ∧ match e.call with
  | .write block coin => e.before.KeepsContent block ∧ (e.before.lineageTxs block).Nodup ∧
      (e.before.preferred block coin = true ∨
        e.before.db.canonical block.numberU64 = some (block.hash B.crypto) ∨
        block.txs = [] ∧ ∀ b ∈ e.before.getBlockByNumber block.numberU64, b.txs = [])
  | .side block => e.before.KeepsContent block
  | _ => True

instance (bc : BlockChain B) (block : Block) : Decidable (bc.KeepsContent block) :=
  inferInstanceAs (Decidable (_ = _ → _ = _))

instance : DecidablePred (ChainEvent.KeepsLookup : ChainEvent B → Prop)
  | ⟨_, .offer _⟩ => inferInstanceAs (Decidable (_ ∧ True))
  | ⟨_, .execute _ _⟩ => inferInstanceAs (Decidable (_ ∧ True))
  | ⟨_, .write _ _⟩ => inferInstanceAs (Decidable (_ ∧ _ ∧ _ ∧ (_ ∨ _ ∨ _ ∧ ∀ _ ∈ _, _)))
  | ⟨_, .side _⟩ => inferInstanceAs (Decidable (_ ∧ _))
  | ⟨_, .setHead _⟩ => inferInstanceAs (Decidable (_ ∧ True))

/-- Both indexes are right. -/
def BlockChain.KeyedLooked (S : Set Header) (bc : BlockChain B) : Prop := KeyedIndexed S bc ∧ bc.Looked

/-- A block write that meets its condition keeps both indexes. -/
theorem BlockChain.KeyedLooked.write {w w' : World B} {fuel : ℕ} {block : Block} {state : B.State} {u : Unit}
    (ran : (ChainProc.writeBlockWithState fuel block state).run w = .ok u w')
    (kept : ChainEvent.KeepsLookup ⟨w.chain, .write block (w.coins 0)⟩) (free : CollisionFree B.crypto w'.seen)
    (seen : block.header ∈ w'.seen) (start : KeyedLooked w'.seen w.chain) : KeyedLooked w'.seen w'.chain := by
  obtain ⟨index, content, nodup, chosen⟩ := kept
  obtain ⟨before, looked⟩ := start
  have after := KeyedIndexed.write ran index free seen before
  obtain ⟨ptd, td, stateDb, parent, head, encoded, -, adopted, -⟩ := ChainProc.writeBlockWithState_ok ran
  obtain ⟨bc₁, store, isLast, -⟩ := adopted_ok adopted
  have same : (w.chain.store block (block.header.difficulty + ptd) stateDb).SameStore w'.chain :=
    isLast ▸ store.trans (sameStore_insert bc₁ block)
  have isHead : w'.chain.currentBlock = block := isLast ▸ rfl
  obtain ⟨hash, positive, bound, -⟩ := index
  have carries : w'.chain.Carries w'.chain.currentBlock := isHead ▸ same.carries.mpr carries_store
  have unique : w'.chain.Unique := by
    apply after.2.unique after.1 carries
    rw [isHead, same.lineageTxs, lineageTxs_store before.1]
    exact nodup
  refine ⟨after, (looked.store before.2 content).adopted (before.2.store before.1 free seen)
    (before.1.store free seen encoded hash positive) (holds_store hash) carries_store bound ?_ ?_ adopted
      after.2 unique⟩
  · exact fun onHead => before.2.next_of_parentTd before.1 free parent onHead positive
  · rw [preferred, parent, head] at chosen
    rcases chosen with preferred | entry | ⟨empty, replaced⟩
    · exact .inl preferred
    · exact .inr (.inl entry)
    · refine .inr (.inr ⟨empty, fun k entry => ?_⟩)
      obtain ⟨b, read, -, content'⟩ := before.2.getBlockByNumber before.1 free entry
      rw [content_store content entry, content', Block.txHashes, replaced b read]
      rfl

theorem Genesis.content_chain (g : Genesis B) (number : ℕ) (hash : Hash) : g.chain.content number hash = [] := by
  simp only [BlockChain.content, chain, database, update_apply]
  split <;> rfl

theorem Genesis.looked (g : Genesis B) : g.chain.Looked where
  inverts t e := by
    refine ⟨nofun, fun isThere => ?_⟩
    simp [BlockChain.Located, g.content_chain] at isThere
  head := g.content_chain _ _

namespace Backend.tally

end Backend.tally

end KKChain
