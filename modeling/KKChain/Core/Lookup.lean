import KKChain.Core.CanonicalRun
import KKChain.Machine.InverseIndex

/-! # The transaction lookup index

The lookup index gives the position of a transaction on the canonical chain. It is written where the head moves to a
preferred block and where a reorganisation inserts blocks, and the entries of transactions that only the old branch held
are deleted. A block that becomes the head without being preferred is not entered. `KeepsLookup` says of a call that
this does not show, and that no transaction occurs twice on the branch that becomes canonical.
-/

namespace KKChain

open Proc LinkedIndex InverseIndex List

variable {B : Backend}

namespace Block

def txHashes (C : Crypto) (block : Block) : List Hash := block.txs.map (Transaction.hashOf C)

end Block

namespace BlockChain

/-- The hashes of the transactions that are stored under a number and a hash. -/
def content (bc : BlockChain B) (number : ℕ) (hash : Hash) : List Hash :=
  ((bc.db.bodies (number, hash)).getD []).map (Transaction.hashOf B.crypto)

/-- A transaction is at a position of the canonical chain. -/
def Located (bc : BlockChain B) (t : Hash) (e : TxLookupEntry) : Prop :=
  bc.db.canonical e.blockIndex = some e.blockHash ∧ (bc.content e.blockIndex e.blockHash)[e.index]? = some t

/-- The block has the transactions that are stored for it. -/
def Carries (bc : BlockChain B) (block : Block) : Prop :=
  bc.content block.numberU64 (block.hash B.crypto) = block.txHashes B.crypto

/-- Lookups find every transaction of the canonical chain where it is. -/
structure Looked (bc : BlockChain B) : Prop where
  inverts : Inverts bc.Located bc.db.txLookup
  head : bc.Carries bc.currentBlock

/-- The blocks are those of the canonical chain above a number. -/
structure Segment (bc : BlockChain B) (number : ℕ) (blocks : List Block) : Prop where
  placed : ∀ b ∈ blocks, number < b.numberU64 ∧ bc.db.canonical b.numberU64 = some (b.hash B.crypto) ∧ bc.Carries b
  covers : ∀ n k, number < n → bc.db.canonical n = some k → ∃ b ∈ blocks, b.numberU64 = n ∧ b.hash B.crypto = k

variable {bc bc' : BlockChain B} {S : Set Header} {block parent last : Block} {blocks olds news : List Block}
  {hash t : Hash} {number fuel : ℕ}

theorem Keyed.carries (keyed : Keyed S bc) (read : bc.getBlock hash number = some block) : bc.Carries block := by
  obtain ⟨-, rfl, rfl⟩ := keyed.getBlock read
  obtain ⟨header, txs, -, body, isBlock⟩ := getBlock_eq_some.mp read
  rw [Carries, content, body, isBlock]
  rfl

theorem SameStore.content (same : bc.SameStore bc') : bc'.content = bc.content := by
  funext number hash
  simp only [BlockChain.content, same.bodies]

theorem SameStore.carries (same : bc.SameStore bc') : bc'.Carries block ↔ bc.Carries block := by
  rw [Carries, Carries, same.content]

theorem Segment.mem_iff (segment : Segment bc number blocks) :
    t ∈ (blocks.flatMap Block.txs).map (Transaction.hashOf B.crypto) ↔ ∃ e, number < e.blockIndex ∧ bc.Located t e := by
  rw [map_flatMap, mem_flatMap]
  constructor
  · rintro ⟨b, mem, inside⟩
    obtain ⟨above, entry, carries⟩ := segment.placed b mem
    obtain ⟨i, isAt⟩ := getElem?_of_mem inside
    exact ⟨⟨b.hash B.crypto, b.numberU64, i⟩, above, entry, by rw [carries]; exact isAt⟩
  · rintro ⟨⟨k, n, i⟩, above, entry, isAt⟩
    obtain ⟨b, mem, rfl, rfl⟩ := segment.covers n k above entry
    obtain ⟨-, -, carries⟩ := segment.placed b mem
    rw [carries] at isAt
    exact ⟨b, mem, mem_of_getElem? isAt⟩

/-- The blocks of a walk from a canonical block are the canonical ones down to its end. -/
theorem Descends.placed (descends : Descends bc last blocks block) (keyed : Keyed S bc) (holds : bc.Holds block)
    (carries : bc.Carries block) {top : ℕ} (linked : Linked bc.parentAt bc.db.canonical top)
    (within : block.numberU64 ≤ top) (entry : bc.db.canonical block.numberU64 = some (block.hash B.crypto)) :
    (∀ b ∈ blocks, last.numberU64 < b.numberU64 ∧ bc.db.canonical b.numberU64 = some (b.hash B.crypto) ∧
      bc.Carries b) ∧
    ∀ n k, last.numberU64 < n → n ≤ block.numberU64 → bc.db.canonical n = some k →
      ∃ b ∈ blocks, b.numberU64 = n ∧ b.hash B.crypto = k := by
  induction descends with
  | nil => exact ⟨by simp, fun n k above below => absurd above (by omega)⟩
  | @cons block parent blocks read next rest ih =>
    obtain ⟨holds', hash, -⟩ := keyed.parentOf read
    have entry' : bc.db.canonical parent.numberU64 = some (parent.hash B.crypto) := by
      rw [hash]
      exact linked.below (next ▸ within) (next ▸ entry) (next ▸ holds.parentAt)
    obtain ⟨placed, covers⟩ := ih holds' (keyed.carries read) (by omega) entry'
    have bound := rest.number_le
    constructor
    · rintro b (_ | ⟨_, mem⟩)
      · exact ⟨by omega, entry, carries⟩
      · exact placed b mem
    · intro n k above below isAt
      rcases below.eq_or_lt with rfl | lower
      · exact ⟨block, .head _, rfl, Option.some.inj (entry.symm.trans isAt)⟩
      · obtain ⟨b, mem, place⟩ := covers n k above (by omega) isAt
        exact ⟨b, .tail _ mem, place⟩

theorem Indexed.segment (indexed : bc.Indexed) (keyed : Keyed S bc) (carries : bc.Carries bc.currentBlock)
    (descends : Descends bc last blocks bc.currentBlock) : Segment bc last.numberU64 blocks := by
  obtain ⟨placed, covers⟩ := descends.placed keyed indexed.head carries indexed.linked le_rfl indexed.top
  refine ⟨placed, fun n k above isAt => covers n k above ?_ isAt⟩
  by_contra higher
  simp [indexed.above n (by omega)] at isAt

/-- The loop of `WriteTxLookupEntries`: a transaction of the list gets one of its positions. -/
theorem entries_spec (C : Crypto) (hash : Hash) (number i : ℕ) (txs : List Transaction)
    (table : Hash → Option TxLookupEntry) (t : Hash) :
    t ∉ txs.map (Transaction.hashOf C) ∧ Database.entries C hash number i txs table t = table t ∨
      ∃ j, (txs.map (Transaction.hashOf C))[j]? = some t ∧
        Database.entries C hash number i txs table t = some ⟨hash, number, i + j⟩ := by
  induction txs generalizing i table with
  | nil => exact .inl ⟨by simp, rfl⟩
  | cons tx txs ih =>
    rcases ih (i + 1) (Function.update table (tx.hashOf C) (some ⟨hash, number, i⟩)) with ⟨absent, kept⟩ |
      ⟨j, isAt, set⟩
    · by_cases same : t = tx.hashOf C
      · subst same
        exact .inr ⟨0, rfl, kept.trans (Function.update_self ..)⟩
      · refine .inl ⟨by simp_all, kept.trans (Function.update_of_ne same ..)⟩
    · refine .inr ⟨j + 1, isAt, set.trans ?_⟩
      rw [Nat.add_assoc, Nat.add_comm 1 j]

theorem txLookup_writeTxLookupEntries (bc : BlockChain B) (block : Block) (t : Hash) :
    t ∉ block.txHashes B.crypto ∧ (bc.writeTxLookupEntries block).db.txLookup t = bc.db.txLookup t ∨
      ∃ j, (block.txHashes B.crypto)[j]? = some t ∧
        (bc.writeTxLookupEntries block).db.txLookup t = some ⟨block.hash B.crypto, block.numberU64, j⟩ := by
  have written := entries_spec B.crypto (block.hash B.crypto) block.numberU64 0 block.txs bc.db.txLookup t
  simp only [Nat.zero_add] at written
  exact written

/-- A transaction of the inserted blocks gets one of its positions. -/
theorem txLookup_insertAll (bc : BlockChain B) (blocks : List Block) (t : Hash) :
    t ∉ (blocks.flatMap Block.txs).map (Transaction.hashOf B.crypto) ∧
        (bc.insertAll blocks).db.txLookup t = bc.db.txLookup t ∨
      ∃ b ∈ blocks, ∃ j, (b.txHashes B.crypto)[j]? = some t ∧
        (bc.insertAll blocks).db.txLookup t = some ⟨b.hash B.crypto, b.numberU64, j⟩ := by
  induction blocks with
  | nil => exact .inl ⟨by simp, rfl⟩
  | cons block blocks ih =>
    rcases txLookup_writeTxLookupEntries ((bc.insertAll blocks).insert block) block t with ⟨absent, kept⟩ |
      ⟨j, isAt, set⟩
    · rcases ih with ⟨absent', kept'⟩ | ⟨b, mem, j, isAt, set⟩
      · refine .inl ⟨?_, kept.trans kept'⟩
        rw [flatMap_cons, map_append, mem_append]
        exact not_or.mpr ⟨absent, absent'⟩
      · exact .inr ⟨b, .tail _ mem, j, isAt, kept.trans set⟩
    · exact .inr ⟨block, .head _, j, isAt, set⟩

theorem mem_txDifference (C : Crypto) (a b : List Transaction) (t : Hash) :
    t ∈ (txDifference C a b).map (Transaction.hashOf C) ↔
      t ∈ a.map (Transaction.hashOf C) ∧ t ∉ b.map (Transaction.hashOf C) := by
  simp only [txDifference, mem_map, mem_filter, decide_eq_true_eq]
  constructor
  · rintro ⟨tx, ⟨mem, apart⟩, rfl⟩
    exact ⟨⟨tx, mem, rfl⟩, apart⟩
  · rintro ⟨⟨tx, mem, rfl⟩, apart⟩
    exact ⟨tx, ⟨mem, apart⟩, rfl⟩

theorem mem_txs_iff : t ∈ (blocks.flatMap Block.txs).map (Transaction.hashOf B.crypto) ↔
    ∃ b ∈ blocks, ∃ j : ℕ, (b.txHashes B.crypto)[j]? = some t := by
  rw [map_flatMap, mem_flatMap]
  exact exists_congr fun b => and_congr_right fun _ => mem_iff_getElem?

/-- What becomes of a transaction in `reorg`: it gets a position of the new branch, it is deleted if only the old one
has it, or its entry is left. -/
theorem txLookup_reorg (done : bc'.db = (bc.insertAll news).db.deleteTxLookupEntries B.crypto
      (txDifference B.crypto (olds.flatMap Block.txs) (news.flatMap Block.txs))) (t : Hash) :
    t ∉ (news.flatMap Block.txs).map (Transaction.hashOf B.crypto) ∧ bc'.db.txLookup t =
        (if t ∈ (olds.flatMap Block.txs).map (Transaction.hashOf B.crypto) then none else bc.db.txLookup t) ∨
      ∃ b ∈ news, ∃ j, (b.txHashes B.crypto)[j]? = some t ∧
        bc'.db.txLookup t = some ⟨b.hash B.crypto, b.numberU64, j⟩ := by
  rw [done]
  simp only [Database.deleteTxLookupEntries, mem_txDifference]
  rcases txLookup_insertAll bc news t with ⟨notNew, before⟩ | ⟨b, mem, j, isAt, entered⟩
  · refine .inl ⟨notNew, ?_⟩
    simp only [notNew, not_false_eq_true, and_true, before]
  · refine .inr ⟨b, mem, j, isAt, ?_⟩
    rw [if_neg (fun removed => removed.2 (mem_txs_iff.mpr ⟨b, mem, j, isAt⟩)), entered]

/-- No transaction is at two positions of the canonical chain. -/
def Unique (bc : BlockChain B) : Prop := ∀ t e e', bc.Located t e → bc.Located t e' → e = e'

/-- The canonical chain above a number is replaced, the transactions of the new segment are entered and those only in
the old one are deleted. -/
theorem Looked.replace (looked : bc.Looked) (same : bc.SameStore bc') (old : Segment bc number olds)
    (new : Segment bc' number news) (agree : ∀ n ≤ number, bc'.db.canonical n = bc.db.canonical n)
    (unique : bc'.Unique) (head : bc'.Carries bc'.currentBlock)
    (lookup : ∀ t, (∃ e, bc'.db.txLookup t = some e ∧ bc'.Located t e) ∨
      t ∉ (news.flatMap Block.txs).map (Transaction.hashOf B.crypto) ∧ bc'.db.txLookup t =
        if t ∈ (olds.flatMap Block.txs).map (Transaction.hashOf B.crypto) then none else bc.db.txLookup t) :
    bc'.Looked := by
  refine ⟨looked.inverts.replace (fun e => e.blockIndex ≤ number) ?_ unique fun t => ?_, head⟩
  · intro t e kept
    rw [Located, Located, agree _ kept, same.content]
  · rcases lookup t with ⟨e, found, isThere⟩ | ⟨notNew, found⟩
    · exact .entered e found isThere
    · have onlyNew : ∀ e, bc'.Located t e → e.blockIndex ≤ number := fun e isThere =>
        not_lt.mp fun above => notNew (new.mem_iff.mpr ⟨e, above, isThere⟩)
      split_ifs at found with isOld
      · obtain ⟨e, above, was⟩ := old.mem_iff.mp isOld
        exact .erased e found was (not_le.mpr above) onlyNew
      · exact .left found (fun e was => not_lt.mp fun above => isOld (old.mem_iff.mpr ⟨e, above, was⟩)) onlyNew

theorem SameStore.descends (same : bc.SameStore bc') (descends : Descends bc last blocks block) :
    Descends bc' last blocks block := by
  induction descends with
  | nil => exact .nil
  | cons read next rest ih => exact .cons (by rw [parentOf, same.getBlock]; exact read) next ih

/-- A transaction of the new head is found there. -/
theorem Indexed.located_head (indexed : bc.Indexed) (head : bc.Carries bc.currentBlock) {j : ℕ}
    (isAt : (bc.currentBlock.txHashes B.crypto)[j]? = some t) :
    bc.Located t ⟨bc.currentBlock.hash B.crypto, bc.currentBlock.numberU64, j⟩ := by
  refine ⟨indexed.top, ?_⟩
  rw [head]
  exact isAt

/-- A block on the head becomes the new one. -/
theorem Looked.extend (looked : bc.Looked) (indexed : bc.Indexed) (keyed : Keyed S bc) (carries : bc.Carries block)
    (onHead : block.header.parentHash = bc.currentBlock.hash B.crypto)
    (next : block.numberU64 = bc.currentBlock.numberU64 + 1)
    (indexed' : ((bc.writeTxLookupEntries block).insert block).Indexed)
    (unique : ((bc.writeTxLookupEntries block).insert block).Unique) :
    ((bc.writeTxLookupEntries block).insert block).Looked := by
  have same := (sameStore_writeTxLookupEntries bc block).trans (sameStore_insert _ block)
  have carries' := same.carries.mpr carries
  obtain ⟨txs, body⟩ := Option.isSome_iff_exists.mp indexed.head.body
  have read : bc.parentOf block = some (.fresh bc.currentBlock.header txs) := by
    rw [parentOf, onHead, next, pred64_succ (next ▸ block.header.numberU64_lt)]
    exact getBlock_eq_some.mpr ⟨_, _, indexed.head.header, body, rfl⟩
  have old := indexed.segment keyed looked.head .nil
  have step : Descends bc (.fresh bc.currentBlock.header txs) [block] block := .cons read next .nil
  have new := indexed'.segment (same.keyed keyed) carries' (same.descends step)
  change Segment _ bc.currentBlock.numberU64 [block] at new
  apply looked.replace same old new _ unique carries'
  · intro t
    rcases txLookup_writeTxLookupEntries bc block t with ⟨absent, kept⟩ | ⟨j, isAt, set⟩
    · exact .inr ⟨by simpa [Block.txHashes] using absent, kept⟩
    · exact .inl ⟨_, set, indexed'.located_head carries' isAt⟩
  · intro n bound
    exact Function.update_of_ne (by omega) ..

/-- The head moves to another branch. -/
theorem Looked.reorg (looked : bc.Looked) (indexed : bc.Indexed) (keyed : Keyed S bc) (holds : bc.Holds block)
    (carries : bc.Carries block) (ran : bc.reorg fuel bc.currentBlock block = .ok bc')
    (indexed' : ((bc'.writeTxLookupEntries block).insert block).Indexed)
    (unique : ((bc'.writeTxLookupEntries block).insert block).Unique) :
    ((bc'.writeTxLookupEntries block).insert block).Looked := by
  have same := (sameStore_reorg ran).trans
    ((sameStore_writeTxLookupEntries bc' block).trans (sameStore_insert _ block))
  have carries' := same.carries.mpr carries
  obtain ⟨olds, news, walked, chain⟩ := reorg_ok _ ran
  obtain ⟨old', new', left, right, sameHash, sameNumber⟩ := keyed.walkable.split indexed.head holds walked
  have right' := same.descends right
  have old := indexed.segment keyed looked.head left
  have new := indexed'.segment (same.keyed keyed) carries' right'
  rw [← sameNumber] at new
  apply looked.replace same old new _ unique carries'
  · intro t
    rcases txLookup_writeTxLookupEntries bc' block t with ⟨absent, kept⟩ | ⟨j, isAt, set⟩
    · rcases txLookup_reorg (congrArg BlockChain.db chain) t with ⟨notNew, before⟩ | ⟨b, mem, j, isAt, entered⟩
      · exact .inr ⟨notNew, kept.trans before⟩
      · obtain ⟨-, entry, carried⟩ := new.placed b mem
        exact .inl ⟨⟨b.hash B.crypto, b.numberU64, j⟩, kept.trans entered, entry, by rw [carried]; exact isAt⟩
    · exact .inl ⟨_, set, indexed'.located_head carries' isAt⟩
  · have entry := left.indexed keyed indexed.head indexed.linked le_rfl indexed.top
    have entry' := right'.indexed (same.keyed keyed) indexed'.head indexed'.linked le_rfl indexed'.top
    rw [← sameHash, ← sameNumber] at entry'
    have linked' := indexed'.linked
    rw [same.parentAt] at linked'
    have agreed := linked'.agree indexed.linked (sameNumber ▸ right.number_le) left.number_le
      (entry'.trans entry.symm)
    exact agreed

end BlockChain

end KKChain
