import KKChain.Core.Ancestors
import KKChain.Core.Lookup

/-! # Reorganisations

`reorg` takes a chain from one block to another. Both chains are followed down to the block they share; the new one is
inserted over the index from there, and the lookup entries of transactions that only the old one held are deleted. So an
index and a lookup that are exact for the old block become exact for the new one. Nothing is said about the index above
the new block, where entries of a longer old chain stay.
-/

namespace KKChain

open Proc Lineage InverseIndex List

variable {B : Backend}

namespace BlockChain

/-- The blocks reached from a block by `GetBlock` of the parent. -/
abbrev AncestorOf (bc : BlockChain B) (x block : Block) : Prop := Ancestor bc.parentOf x block

/-- Under number and hash of a block, its header and its transactions are stored. -/
def Recorded (bc : BlockChain B) (block : Block) : Prop :=
  ∃ stored, bc.getBlock (block.hash B.crypto) block.numberU64 = some stored ∧ stored.header = block.header ∧
    stored.txHashes B.crypto = block.txHashes B.crypto

/-- The chain of a block is stored and linked down to number zero. -/
structure Rooted (bc : BlockChain B) (block : Block) : Prop where
  recorded : ∀ {x}, bc.AncestorOf x block → bc.Recorded x
  parent : ∀ {x}, bc.AncestorOf x block → x.numberU64 ≠ 0 →
    ∃ p, bc.parentOf x = some p ∧ x.numberU64 = p.numberU64 + 1
  root : ∀ {x}, bc.AncestorOf x block → x.numberU64 = 0 → bc.parentOf x = none

/-- A transaction has a position on the chain of a block. -/
def Placed (bc : BlockChain B) (block : Block) (t : Hash) (e : TxLookupEntry) : Prop :=
  ∃ x, bc.AncestorOf x block ∧ e.blockHash = x.hash B.crypto ∧ e.blockIndex = x.numberU64 ∧
    (x.txHashes B.crypto)[e.index]? = some t

/-- The canonical index and the lookup index are exact for the chain of a block. -/
structure ExactFor (bc : BlockChain B) (block : Block) : Prop where
  index : ∀ {x}, bc.AncestorOf x block → bc.db.canonical x.numberU64 = some (x.hash B.crypto)
  lookup : Inverts (bc.Placed block) bc.db.txLookup

/-- No transaction occurs twice on the chain of a block. -/
def NoRepeat (bc : BlockChain B) (block : Block) : Prop :=
  ∀ t e e', bc.Placed block t e → bc.Placed block t e' → e = e'

variable {bc bc' : BlockChain B} {block old new last x : Block} {blocks olds news : List Block} {t : Hash}
  {e : TxLookupEntry} {fuel : ℕ}

theorem SameStore.parentOf (same : bc.SameStore bc') : bc'.parentOf = bc.parentOf := by
  funext block
  rw [BlockChain.parentOf, same.getBlock, BlockChain.parentOf]

theorem SameStore.placed (same : bc.SameStore bc') : bc'.Placed = bc.Placed := by
  funext block t e
  simp only [Placed, AncestorOf, same.parentOf]

namespace Rooted

theorem below (rooted : bc.Rooted block) (ancestor : bc.AncestorOf x block) : bc.Rooted x where
  recorded lower := rooted.recorded (ancestor.trans lower)
  parent lower := rooted.parent (ancestor.trans lower)
  root lower := rooted.root (ancestor.trans lower)

theorem graded (rooted : bc.Rooted block) : Graded bc.parentOf Block.numberU64 {x | bc.AncestorOf x block} where
  closed inside step := inside.trans (.up step .refl)
  height {x p} inside step := by
    have positive : x.numberU64 ≠ 0 := fun zero => by
      rw [rooted.root inside zero] at step
      cases step
    obtain ⟨p', read, number⟩ := rooted.parent inside positive
    rw [number, Option.some.inj (step.symm.trans read)]

/-- Every number up to that of the block has its ancestor. -/
theorem exists_ancestor (rooted : bc.Rooted block) {n : ℕ} (bound : n ≤ block.numberU64) :
    ∃ x, bc.AncestorOf x block ∧ x.numberU64 = n := by
  obtain ⟨k, height⟩ := Nat.le.dest bound
  induction k generalizing block with
  | zero => exact ⟨block, .refl, height.symm⟩
  | succ k ih =>
    obtain ⟨p, read, number⟩ := rooted.parent .refl (by omega)
    obtain ⟨x, ancestor, isNumber⟩ := ih (rooted.below (.up read .refl)) (by omega) (by omega)
    exact ⟨x, .up read ancestor, isNumber⟩

theorem walkable (first : bc.Rooted old) (second : bc.Rooted new) :
    Walkable bc fun x => bc.AncestorOf x old ∨ bc.AncestorOf x new where
  parent inside read _ := by
    rcases inside with inside | inside
    · exact ⟨.inl (first.graded.closed inside read), first.graded.height inside read⟩
    · exact ⟨.inr (second.graded.closed inside read), second.graded.height inside read⟩
  zero inside _ zero _ read _ := by
    rcases inside with inside | inside
    · rw [first.root inside zero] at read
      cases read
    · rw [second.root inside zero] at read
      cases read

end Rooted

namespace Descends

/-- The ancestors of the start of a walk are the blocks it passed and the ancestors of its end. -/
theorem ancestor_iff (descends : Descends bc last blocks block) :
    bc.AncestorOf x block ↔ x ∈ blocks ∨ bc.AncestorOf x last := by
  induction descends with
  | nil => simp
  | @cons block parent blocks read number rest ih =>
    rw [mem_cons, or_assoc, ← ih]
    constructor
    · intro ancestor
      by_cases same : x = block
      · exact .inl same
      · exact .inr (ancestor.of_parent read same)
    · rintro (rfl | ancestor)
      · exact .refl
      · exact .up read ancestor

theorem number_lt (descends : Descends bc last blocks block) :
    ∀ b ∈ blocks, last.numberU64 < b.numberU64 ∧ b.numberU64 ≤ block.numberU64 := by
  induction descends with
  | nil => simp
  | @cons block parent blocks read number rest ih =>
    have bound := rest.number_le
    rintro b (_ | ⟨_, mem⟩)
    · exact ⟨by omega, le_rfl⟩
    · exact ⟨(ih b mem).1, by have := (ih b mem).2; omega⟩

/-- Inserting the blocks of a walk enters each of them and leaves the index up to its end. -/
theorem canonical_insertAll (descends : Descends bc last blocks block) :
    (∀ b ∈ blocks, (bc.insertAll blocks).db.canonical b.numberU64 = some (b.hash B.crypto)) ∧
      ∀ n ≤ last.numberU64, (bc.insertAll blocks).db.canonical n = bc.db.canonical n := by
  induction descends with
  | nil => exact ⟨by simp, fun _ _ => rfl⟩
  | @cons block parent blocks read number rest ih =>
    have index : (bc.insertAll (block :: blocks)).db.canonical =
        Function.update (bc.insertAll blocks).db.canonical block.numberU64 (some (block.hash B.crypto)) := rfl
    have bound := rest.number_le
    rw [index]
    constructor
    · rintro b (_ | ⟨_, mem⟩)
      · exact Function.update_self ..
      · have := (rest.number_lt b mem).2
        rw [Function.update_of_ne (by omega)]
        exact ih.1 b mem
    · intro n under
      rw [Function.update_of_ne (by omega)]
      exact ih.2 n under

/-- The last block inserted is the head. -/
theorem head_insertAll (descends : Descends bc last blocks block) (some_ : blocks ≠ []) :
    (bc.insertAll blocks).currentBlock = block ∧ (bc.insertAll blocks).db.headBlock = some (block.hash B.crypto) := by
  cases descends with
  | nil => exact absurd rfl some_
  | cons read number rest => exact ⟨rfl, rfl⟩

end Descends

/-- A position on the chain of a block is in one of the blocks that a walk passed, or on the chain of its end. -/
theorem Descends.placed_iff (descends : Descends bc last blocks block) : bc.Placed block t e ↔
    (∃ b ∈ blocks, e.blockHash = b.hash B.crypto ∧ e.blockIndex = b.numberU64 ∧
      (b.txHashes B.crypto)[e.index]? = some t) ∨ bc.Placed last t e := by
  simp only [Placed, descends.ancestor_iff, or_and_right, exists_or]

theorem Rooted.blockIndex_le (rooted : bc.Rooted block) (placed : bc.Placed block t e) :
    e.blockIndex ≤ block.numberU64 := by
  obtain ⟨x, ancestor, -, number, -⟩ := placed
  rw [number]
  exact ancestor.height_le rooted.graded .refl

/-- Which positions are on the chain below the end of a walk. -/
theorem Descends.placed_below (descends : Descends bc last blocks block) (rooted : bc.Rooted block) :
    bc.Placed last t e ↔ e.blockIndex ≤ last.numberU64 ∧ bc.Placed block t e := by
  have lower : bc.Rooted last := rooted.below (descends.ancestor_iff.mpr (.inr .refl))
  rw [descends.placed_iff]
  constructor
  · exact fun placed => ⟨lower.blockIndex_le placed, .inr placed⟩
  · rintro ⟨under, ⟨b, mem, -, number, -⟩ | placed⟩
    · have := (descends.number_lt b mem).1
      omega
    · exact placed

/-- Blocks recorded under one number and hash have the same header and transactions. -/
theorem Recorded.eq (first : bc.Recorded old) (second : bc.Recorded new)
    (hash : old.hash B.crypto = new.hash B.crypto) (number : old.numberU64 = new.numberU64) :
    old.header = new.header ∧ old.txHashes B.crypto = new.txHashes B.crypto := by
  obtain ⟨stored, read, header, txs⟩ := first
  obtain ⟨stored', read', header', txs'⟩ := second
  rw [hash, number, read'] at read
  cases read
  exact ⟨header.symm.trans header', txs.symm.trans txs'⟩

/-- The chains of two blocks of one number and hash are the same below them. -/
theorem Rooted.ancestor_iff (first : bc.Rooted old) (second : bc.Rooted new)
    (hash : old.hash B.crypto = new.hash B.crypto) (number : old.numberU64 = new.numberU64) :
    bc.AncestorOf x new ↔ x = new ∨ x ≠ old ∧ bc.AncestorOf x old := by
  have header := ((first.recorded .refl).eq (second.recorded .refl) hash number).1
  have parents : bc.parentOf new = bc.parentOf old := by
    rw [BlockChain.parentOf, ← header, ← number, BlockChain.parentOf]
  constructor
  · intro ancestor
    rcases ancestor.eq_or_parent with same | ⟨p, step, rest⟩
    · exact .inl same
    · refine .inr ⟨?_, .up (parents ▸ step) rest⟩
      rintro rfl
      have below := second.graded.height .refl step
      have bound := rest.height_le second.graded (second.graded.closed .refl step)
      omega
  · rintro (rfl | ⟨apart, ancestor⟩)
    · exact .refl
    · rcases ancestor.eq_or_parent with same | ⟨p, step, rest⟩
      · exact absurd same apart
      · exact .up (parents.trans step) rest

theorem Rooted.placed_of_same (first : bc.Rooted old) (second : bc.Rooted new)
    (hash : old.hash B.crypto = new.hash B.crypto) (number : old.numberU64 = new.numberU64)
    (placed : bc.Placed new t e) : bc.Placed old t e := by
  obtain ⟨x, ancestor, isHash, isNumber, isAt⟩ := placed
  rcases (first.ancestor_iff second hash number).mp ancestor with rfl | ⟨-, ancestor⟩
  · have txs := ((first.recorded .refl).eq (second.recorded .refl) hash number).2
    exact ⟨old, .refl, isHash.trans hash.symm, isNumber.trans number.symm, txs ▸ isAt⟩
  · exact ⟨x, ancestor, isHash, isNumber, isAt⟩

/-- `reorg` makes the indexes exact for the new block. -/
theorem ExactFor.reorg (exact_ : bc.ExactFor old) (first : bc.Rooted old) (second : bc.Rooted new)
    (unique : bc.NoRepeat new) (ran : bc.reorg fuel old new = .ok bc') : bc'.ExactFor new := by
  have same := sameStore_reorg ran
  obtain ⟨olds, news, walked, chain⟩ := reorg_ok _ ran
  obtain ⟨old', new', left, right, hash, number⟩ :=
    (first.walkable second).split (.inl .refl) (.inr .refl) walked
  have first' : bc.Rooted old' := first.below (left.ancestor_iff.mpr (.inr .refl))
  have second' : bc.Rooted new' := second.below (right.ancestor_iff.mpr (.inr .refl))
  have index : bc'.db.canonical = (bc.insertAll news).db.canonical := by
    rw [chain]
    rfl
  constructor
  · intro x ancestor
    rw [AncestorOf, same.parentOf] at ancestor
    rw [index]
    rcases right.ancestor_iff.mp ancestor with mem | ancestor
    · exact right.canonical_insertAll.1 x mem
    · rw [right.canonical_insertAll.2 _ (ancestor.height_le second'.graded .refl)]
      rcases (first'.ancestor_iff second' hash number).mp ancestor with rfl | ⟨-, ancestor⟩
      · rw [← number, ← hash]
        exact exact_.index (left.ancestor_iff.mpr (.inr .refl))
      · exact exact_.index (left.ancestor_iff.mpr (.inr ancestor))
  · rw [same.placed]
    refine exact_.lookup.replace (fun e => e.blockIndex ≤ old'.numberU64) ?_ unique fun t => ?_
    · -- up to the common block both chains have the same positions
      intro t e kept
      have atOld : bc.Placed old' t e ↔ bc.Placed old t e := by
        rw [left.placed_below first]
        exact and_iff_right kept
      have atNew : bc.Placed new' t e ↔ bc.Placed new t e := by
        rw [right.placed_below second]
        exact and_iff_right (number ▸ kept)
      rw [← atOld, ← atNew]
      exact ⟨first'.placed_of_same second' hash number, second'.placed_of_same first' hash.symm number.symm⟩
    · rcases txLookup_reorg (congrArg BlockChain.db chain) t with ⟨notNew, found⟩ | ⟨b, mem, j, isAt, entered⟩
      · have onlyNew : ∀ e, bc.Placed new t e → e.blockIndex ≤ old'.numberU64 := by
          intro e placed
          rcases right.placed_iff.mp placed with ⟨b, mem, -, -, isAt⟩ | placed
          · exact absurd (mem_txs_iff.mpr ⟨b, mem, _, isAt⟩) notNew
          · exact number ▸ second'.blockIndex_le placed
        split_ifs at found with isOld
        · obtain ⟨b, mem, j, isAt⟩ := mem_txs_iff.mp isOld
          refine .erased ⟨b.hash B.crypto, b.numberU64, j⟩ found
            (left.placed_iff.mpr (.inl ⟨b, mem, rfl, rfl, isAt⟩)) ?_
            onlyNew
          exact not_le.mpr (left.number_lt b mem).1
        · refine .left found (fun e placed => ?_) onlyNew
          rcases left.placed_iff.mp placed with ⟨b, mem, -, -, isAt⟩ | placed
          · exact absurd (mem_txs_iff.mpr ⟨b, mem, _, isAt⟩) isOld
          · exact first'.blockIndex_le placed
      · exact .entered _ entered (right.placed_iff.mpr (.inl ⟨b, mem, rfl, rfl, isAt⟩))

/-- The chains of two blocks share a block. -/
def ShareBlock (bc : BlockChain B) (old new : Block) : Prop := ∃ x y, bc.AncestorOf x old ∧ bc.AncestorOf y new ∧
  x.hash B.crypto = y.hash B.crypto ∧ x.numberU64 = y.numberU64

/-- The first block is not on the chain of the second. -/
def OffChain (bc : BlockChain B) (new old : Block) : Prop :=
  ∀ x, bc.AncestorOf x old → x.hash B.crypto = new.hash B.crypto → x.numberU64 ≠ new.numberU64

/-- A block that is not on the old chain is the head after `reorg`. -/
theorem OffChain.head_reorg (off : bc.OffChain new old) (first : bc.Rooted old) (second : bc.Rooted new)
    (ran : bc.reorg fuel old new = .ok bc') :
    bc'.currentBlock = new ∧ bc'.db.headBlock = some (new.hash B.crypto) := by
  obtain ⟨olds, news, walked, rfl⟩ := reorg_ok _ ran
  obtain ⟨old', new', left, right, hash, number⟩ :=
    (first.walkable second).split (.inl .refl) (.inr .refl) walked
  apply right.head_insertAll
  rintro rfl
  cases right
  exact off old' (left.ancestor_iff.mpr (.inr .refl)) hash number

/-- The first loop of `reorg` finds its target. -/
theorem Rooted.reduce_ok (rooted : bc.Rooted block) {target : ℕ} (bound : target ≤ block.numberU64)
    (enough : block.numberU64 < fuel) :
    ∃ blocks last, bc.reduce target fuel block = .ok (blocks, some last) := by
  induction fuel generalizing block with
  | zero => omega
  | succ fuel ih =>
    rw [BlockChain.reduce]
    by_cases reached : block.numberU64 = target
    · exact ⟨[], block, if_pos reached⟩
    · obtain ⟨p, read, number⟩ := rooted.parent .refl (by omega)
      obtain ⟨blocks, last, ran⟩ := ih (rooted.below (.up read .refl)) (by omega) (by omega)
      rw [if_neg reached, read]
      exact ⟨block :: blocks, last, by simp only [ran, Except.map]⟩

/-- The second loop of `reorg` finds a shared block. -/
theorem Rooted.meet_ok (first : bc.Rooted old) (second : bc.Rooted new) (level : old.numberU64 = new.numberU64)
    (share : bc.ShareBlock old new) (enough : old.numberU64 < fuel) :
    ∃ olds news, bc.meet fuel old new = .ok (olds, news) := by
  induction fuel generalizing old new with
  | zero => omega
  | succ fuel ih =>
    rw [BlockChain.meet]
    by_cases same : old.hash B.crypto = new.hash B.crypto
    · exact ⟨[], [], if_pos same⟩
    · rw [if_neg same]
      obtain ⟨x, y, left, right, hash, number⟩ := share
      -- the shared block is below both
      have lower : x.numberU64 < old.numberU64 := by
        refine lt_of_le_of_ne (left.height_le first.graded .refl) fun top => same ?_
        rw [← left.eq_of_height_le first.graded .refl top.ge, hash,
          right.eq_of_height_le second.graded .refl (by omega)]
      obtain ⟨p, readOld, oldNumber⟩ := first.parent .refl (by omega)
      obtain ⟨q, readNew, newNumber⟩ := second.parent .refl (by omega)
      have left' := left.of_parent readOld (by rintro rfl; omega)
      have right' := right.of_parent readNew (by rintro rfl; omega)
      obtain ⟨olds, news, ran⟩ := ih (first.below (.up readOld .refl)) (second.below (.up readNew .refl)) (by omega)
        ⟨x, y, left', right', hash, number⟩ (by omega)
      rw [readOld, readNew]
      exact ⟨old :: olds, new :: news, by simp only [ran, Except.map]⟩

/-- Both walks of `reorg` end. -/
theorem Rooted.split_ok (first : bc.Rooted old) (second : bc.Rooted new) (share : bc.ShareBlock old new)
    (enough : max old.numberU64 new.numberU64 < fuel) : ∃ olds news, bc.split fuel old new = .ok (olds, news) := by
  obtain ⟨x, y, left, right, hash, number⟩ := share
  obtain ⟨enoughOld, enoughNew⟩ := max_lt_iff.mp enough
  rw [BlockChain.split]
  by_cases higher : new.numberU64 < old.numberU64
  · rw [if_pos higher]
    obtain ⟨olds, last, reduced⟩ := first.reduce_ok higher.le enoughOld
    obtain ⟨descends, level, -⟩ := (first.walkable second).reduce (.inl .refl) higher.le reduced
    have inside : bc.AncestorOf last old := descends.ancestor_iff.mpr (.inr .refl)
    have under : y.numberU64 ≤ new.numberU64 := right.height_le second.graded .refl
    obtain ⟨olds', news, met⟩ := (first.below inside).meet_ok second level
      ⟨x, y, left.chain inside first.graded .refl (by omega), right, hash, number⟩ (by omega : last.numberU64 < fuel)
    exact ⟨olds ++ olds', news, by simp only [reduced, met, bind, Except.bind]⟩
  · rw [if_neg higher]
    obtain ⟨news, last, reduced⟩ := second.reduce_ok (not_lt.mp higher) enoughNew
    obtain ⟨descends, level, -⟩ := (first.walkable second).reduce (.inr .refl) (not_lt.mp higher) reduced
    have inside : bc.AncestorOf last new := descends.ancestor_iff.mpr (.inr .refl)
    have under : x.numberU64 ≤ old.numberU64 := left.height_le first.graded .refl
    obtain ⟨olds, news', met⟩ := first.meet_ok (second.below inside) level.symm
      ⟨x, y, left, right.chain inside second.graded .refl (by omega), hash, number⟩ enoughOld
    exact ⟨olds, news ++ news', by simp only [reduced, met, bind, Except.bind]⟩

/-- From indexes that are exact for the old block, `reorg` succeeds; and whenever it does, the canonical index names the
ancestors of the new block, the new block is the head, and lookups find exactly the transactions of its chain. -/
theorem reorg_exact (first : bc.Rooted old) (second : bc.Rooted new) (share : bc.ShareBlock old new)
    (off : bc.OffChain new old) (unique : bc.NoRepeat new) (exact_ : bc.ExactFor old) :
    (∀ fuel, max old.numberU64 new.numberU64 < fuel → (bc.reorg fuel old new).isOk) ∧
    ∀ fuel bc', bc.reorg fuel old new = .ok bc' →
      (∀ n ≤ new.numberU64, ∃ x, bc.AncestorOf x new ∧ x.numberU64 = n ∧
        bc'.db.canonical n = some (x.hash B.crypto)) ∧
      bc'.currentBlock = new ∧ bc'.db.headBlock = some (new.hash B.crypto) ∧
      ∀ t e, bc'.db.txLookup t = some e ↔ bc.Placed new t e := by
  constructor
  · intro fuel enough
    obtain ⟨olds, news, walked⟩ := first.split_ok second share enough
    simp only [reorg, walked, bind, Except.bind]
    rfl
  · intro fuel bc' ran
    have after := exact_.reorg first second unique ran
    have same := sameStore_reorg ran
    refine ⟨fun n bound => ?_, (off.head_reorg first second ran).1, (off.head_reorg first second ran).2, ?_⟩
    · obtain ⟨x, ancestor, rfl⟩ := second.exists_ancestor bound
      refine ⟨x, ancestor, rfl, after.index ?_⟩
      rw [AncestorOf, same.parentOf]
      exact ancestor
    · rw [← same.placed]
      exact after.lookup

section Evaluate

variable (descends : Descends bc last blocks block) (orphan : bc.parentOf last = none)

include descends orphan

theorem Descends.ancestor_iff_mem : bc.AncestorOf x block ↔ x ∈ blocks ∨ x = last := by
  rw [descends.ancestor_iff]
  exact or_congr_right ⟨fun ancestor => ancestor.eq_of_orphan orphan, fun same => same ▸ .refl⟩

/-- A walk down to number zero over recorded blocks roots its start. -/
theorem Descends.rooted (zero : last.numberU64 = 0) (recorded : ∀ b ∈ blocks, bc.Recorded b)
    (base : bc.Recorded last) : bc.Rooted block := by
  induction descends with
  | nil =>
    constructor <;> intro x ancestor <;> obtain rfl := ancestor.eq_of_orphan orphan
    · exact base
    · exact fun positive => absurd zero positive
    · exact fun _ => orphan
  | @cons block parent blocks read number rest ih =>
    obtain ⟨head, others⟩ := forall_mem_cons.mp recorded
    have lower := ih others
    constructor <;> intro x ancestor <;> by_cases same : x = block
    · exact same ▸ head
    · exact lower.recorded (ancestor.of_parent read same)
    · exact fun _ => ⟨parent, same ▸ read, same ▸ number⟩
    · exact lower.parent (ancestor.of_parent read same)
    · intro isZero
      rw [same] at isZero
      omega
    · exact lower.root (ancestor.of_parent read same)

end Evaluate

end BlockChain

namespace Backend.tally

/-- A block with transactions. -/
def paying (parent : Hash) (number : ℕ) (nonce : BitVec 64) (txs : List Transaction) : Block :=
  .fresh (header parent number (10 * number) 131072 0 nonce) txs

/-- The old head, which holds a transfer. -/
def oldHead : Block := paying (hash 0) 1 1 [InitialSigner.transfer 7 0]

/-- A block beside it, with another transfer. -/
def newParent : Block := paying (hash 0) 1 2 [InitialSigner.transfer 8 0]

/-- The new head, which holds the transfer of the old one. -/
def newHead : Block := paying (hash 2) 2 3 [InitialSigner.transfer 7 0]

/-- The chain with the old head and exact indexes. -/
def beforeReorg : BlockChain Backend.tally where
  db := { Database.ofEntries [(hash 0, genesis.block), (hash 1, oldHead), (hash 2, newParent), (hash 3, newHead)]
      [(hash 1, oldHead), (hash 0, genesis.block)] with
    txLookup := fun t => if t = (InitialSigner.transfer 7 0).hashOf .numeral then some ⟨hash 1, 1, 0⟩ else none }
  stateDb := ([0] : List Hash)
  currentBlock := oldHead
  genesisBlock := genesis.block

theorem hash_heads : genesis.block.hash .numeral = hash 0 ∧ oldHead.hash .numeral = hash 1 ∧
    newParent.hash .numeral = hash 2 ∧ newHead.hash .numeral = hash 3 := by
  decide +kernel

theorem transfers_differ :
    (InitialSigner.transfer 8 0).hashOf .numeral ≠ (InitialSigner.transfer 7 0).hashOf .numeral := by
  decide +kernel

theorem reads_beforeReorg : beforeReorg.parentOf genesis.block = none ∧
    beforeReorg.parentOf oldHead = some genesis.block ∧ beforeReorg.parentOf newParent = some genesis.block ∧
    beforeReorg.parentOf newHead = some newParent ∧ beforeReorg.getBlock (hash 0) 0 = some genesis.block ∧
    beforeReorg.getBlock (hash 1) 1 = some oldHead ∧ beforeReorg.getBlock (hash 2) 1 = some newParent ∧
    beforeReorg.getBlock (hash 3) 2 = some newHead ∧ beforeReorg.db.canonical 0 = some (hash 0) ∧
    beforeReorg.db.canonical 1 = some (hash 1) := by
  decide +kernel

theorem recorded_beforeReorg : beforeReorg.Recorded genesis.block ∧ beforeReorg.Recorded oldHead ∧
    beforeReorg.Recorded newParent ∧ beforeReorg.Recorded newHead := by
  obtain ⟨-, -, -, -, g, o, p, n, -⟩ := reads_beforeReorg
  obtain ⟨hashG, hashO, hashP, hashN⟩ := hash_heads
  exact ⟨⟨_, hashG ▸ g, rfl, rfl⟩, ⟨_, hashO ▸ o, rfl, rfl⟩, ⟨_, hashP ▸ p, rfl, rfl⟩, ⟨_, hashN ▸ n, rfl, rfl⟩⟩

theorem descends_oldHead : beforeReorg.Descends genesis.block [oldHead] oldHead :=
  .cons reads_beforeReorg.2.1 rfl .nil

theorem descends_newHead : beforeReorg.Descends genesis.block [newHead, newParent] newHead :=
  .cons reads_beforeReorg.2.2.2.1 rfl (.cons reads_beforeReorg.2.2.1 rfl .nil)

theorem rooted_oldHead : beforeReorg.Rooted oldHead := by
  obtain ⟨g, o, -, -⟩ := recorded_beforeReorg
  exact descends_oldHead.rooted reads_beforeReorg.1 rfl (forall_mem_singleton.mpr o) g

theorem rooted_newHead : beforeReorg.Rooted newHead := by
  obtain ⟨g, -, p, n⟩ := recorded_beforeReorg
  exact descends_newHead.rooted reads_beforeReorg.1 rfl
    (forall_mem_cons.mpr ⟨n, forall_mem_singleton.mpr p⟩) g

variable {e : TxLookupEntry} {t : Hash}

theorem not_placed_genesis : ¬ beforeReorg.Placed genesis.block t e := by
  rintro ⟨x, ancestor, -, -, isAt⟩
  obtain rfl := ancestor.eq_of_orphan reads_beforeReorg.1
  simp [Block.txHashes, genesis, Genesis.block] at isAt

theorem eq_of_getElem?_paying {parent : Hash} {number i : ℕ} {nonce : BitVec 64} {tx : Transaction}
    (isAt : ((paying parent number nonce [tx]).txHashes .numeral)[i]? = some t) : i = 0 ∧ t = tx.hashOf .numeral := by
  cases i with
  | zero => exact ⟨rfl, (Option.some.inj isAt).symm⟩
  | succ i => simp [paying, Block.txHashes] at isAt

theorem placed_oldHead : beforeReorg.Placed oldHead t e ↔
    t = (InitialSigner.transfer 7 0).hashOf .numeral ∧ e = ⟨hash 1, 1, 0⟩ := by
  rw [descends_oldHead.placed_iff, or_iff_left not_placed_genesis]
  constructor
  · rintro ⟨b, mem, isHash, isNumber, isAt⟩
    obtain rfl := mem_singleton.mp mem
    obtain ⟨isFirst, isTx⟩ := eq_of_getElem?_paying isAt
    obtain ⟨k, n, i⟩ := e
    obtain rfl : k = hash 1 := isHash.trans hash_heads.2.1
    obtain rfl : n = 1 := isNumber
    obtain rfl : i = 0 := isFirst
    exact ⟨isTx, rfl⟩
  · rintro ⟨rfl, rfl⟩
    exact ⟨oldHead, mem_singleton_self _, hash_heads.2.1.symm, rfl, rfl⟩

theorem noRepeat_newHead : beforeReorg.NoRepeat newHead := by
  have positions : ∀ {t e}, beforeReorg.Placed newHead t e →
      t = (InitialSigner.transfer 7 0).hashOf .numeral ∧ e = ⟨newHead.hash .numeral, 2, 0⟩ ∨
      t = (InitialSigner.transfer 8 0).hashOf .numeral ∧ e = ⟨newParent.hash .numeral, 1, 0⟩ := by
    rintro t ⟨k, n, i⟩ placed
    rw [descends_newHead.placed_iff, or_iff_left not_placed_genesis] at placed
    obtain ⟨b, mem, rfl, rfl, isAt⟩ := placed
    rcases mem_pair.mp mem with rfl | rfl
    · obtain ⟨rfl, isTx⟩ := eq_of_getElem?_paying isAt
      exact .inl ⟨isTx, rfl⟩
    · obtain ⟨rfl, isTx⟩ := eq_of_getElem?_paying isAt
      exact .inr ⟨isTx, rfl⟩
  intro t e e' placed placed'
  rcases positions placed with ⟨rfl, rfl⟩ | ⟨rfl, rfl⟩ <;> rcases positions placed' with ⟨same, rfl⟩ | ⟨same, rfl⟩
  · rfl
  · exact absurd same.symm transfers_differ
  · exact absurd same transfers_differ
  · rfl

theorem exactFor_oldHead : beforeReorg.ExactFor oldHead where
  index {x} ancestor := by
    obtain ⟨-, -, -, -, -, -, -, -, zero, one⟩ := reads_beforeReorg
    rcases (descends_oldHead.ancestor_iff_mem reads_beforeReorg.1).mp ancestor with mem | rfl
    · obtain rfl := mem_singleton.mp mem
      rw [show Backend.tally.crypto = .numeral from rfl, hash_heads.2.1]
      exact one
    · rw [show Backend.tally.crypto = .numeral from rfl, hash_heads.1]
      exact zero
  lookup t e := by
    rw [placed_oldHead]
    change (if t = _ then _ else none) = some e ↔ _
    split_ifs with found
    · simp [found, eq_comm]
    · exact iff_of_false nofun fun located => found located.1

end Backend.tally

open Backend.tally BlockChain in
/-- A reorganisation from a block to a longer chain beside it that holds the same transfer higher up. -/
theorem reorg_exact_newHead : beforeReorg.ExactFor oldHead ∧
    (∀ fuel, max oldHead.numberU64 newHead.numberU64 < fuel → (beforeReorg.reorg fuel oldHead newHead).isOk) ∧
    ∀ fuel bc', beforeReorg.reorg fuel oldHead newHead = .ok bc' →
      (∀ n ≤ newHead.numberU64, ∃ x, beforeReorg.AncestorOf x newHead ∧ x.numberU64 = n ∧
        bc'.db.canonical n = some (x.hash .numeral)) ∧
      bc'.currentBlock = newHead ∧ bc'.db.headBlock = some (newHead.hash .numeral) ∧
      ∀ t e, bc'.db.txLookup t = some e ↔ beforeReorg.Placed newHead t e := by
  have share : beforeReorg.ShareBlock oldHead newHead :=
    ⟨genesis.block, genesis.block, descends_oldHead.ancestor_iff.mpr (.inr .refl),
      descends_newHead.ancestor_iff.mpr (.inr .refl), rfl, rfl⟩
  have off : beforeReorg.OffChain newHead oldHead := by
    intro x ancestor _
    rcases (descends_oldHead.ancestor_iff_mem reads_beforeReorg.1).mp ancestor with member | rfl
    · obtain rfl := mem_singleton.mp member
      decide
    · decide
  exact ⟨exactFor_oldHead, reorg_exact rooted_oldHead rooted_newHead share off noRepeat_newHead exactFor_oldHead⟩

end KKChain
