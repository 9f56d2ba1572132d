import KKChain.Core.Bodies
import KKChain.Machine.LinkedIndex

/-! # The canonical index

Under which conditions the canonical index names the ancestors of the head and nothing above it. `Keyed` is what
holds of the stored blocks, `Indexed` what holds of the index and the head. The walks of `reorg` and `SetHead` go down
along parents (`Descends`), and a branch that ends in the index can be inserted over it. Every call that stores a
block or moves the head keeps both if it meets `KeepsIndex`.
-/

namespace KKChain

open Proc LinkedIndex Option Function

variable {B : Backend}

namespace BlockChain

/-- The block is stored under the hash of its header. -/
structure Holds (bc : BlockChain B) (block : Block) : Prop where
  hash : block.hash B.crypto = block.header.hashOf B.crypto
  header : bc.db.headers (block.numberU64, block.hash B.crypto) = some block.header
  body : (bc.db.bodies (block.numberU64, block.hash B.crypto)).isSome

/-- The parent that a stored block names. -/
def parentAt (bc : BlockChain B) (number : ℕ) (hash : Hash) : Option Hash :=
  (bc.getBlock hash number).map (·.header.parentHash)

/-- Headers are stored under their number and hash and were met before; the only one of number zero is that
of the genesis block. -/
structure Keyed (S : Set Header) (bc : BlockChain B) : Prop where
  headers : ∀ {number hash header}, bc.db.headers (number, hash) = some header →
    header.hashOf B.crypto = hash ∧ header.numberU64 = number ∧ header.Encoded ∧ header ∈ S
  numbers : ∀ {number hash header}, bc.db.headers (number, hash) = some header →
    bc.db.headerNumber hash = some number
  tds : ∀ {number hash td}, bc.db.tds (number, hash) = some td →
    ∃ header ∈ S, header.hashOf B.crypto = hash ∧ header.numberU64 = number
  zero : ∀ {hash header}, bc.db.headers (0, hash) = some header → header = bc.genesisBlock.header

/-- The index names the ancestors of the head and nothing above it. -/
structure Indexed (bc : BlockChain B) : Prop where
  head : bc.Holds bc.currentBlock
  top : bc.db.canonical bc.currentBlock.numberU64 = some (bc.currentBlock.hash B.crypto)
  linked : Linked bc.parentAt bc.db.canonical bc.currentBlock.numberU64
  above : ∀ n, bc.currentBlock.numberU64 < n → bc.db.canonical n = none

variable {bc bc' : BlockChain B} {S S' : Set Header} {block parent : Block} {hash : Hash} {number : ℕ}

theorem getBlock_eq_some : bc.getBlock hash number = some block ↔
    ∃ header txs, bc.db.headers (number, hash) = some header ∧ bc.db.bodies (number, hash) = some txs ∧
      block = .fresh header txs := by
  simp only [getBlock, Database.readBlock, bind_eq_bind, bind_eq_some_iff, some.injEq]
  constructor
  · rintro ⟨header, stored, txs, body, rfl⟩
    exact ⟨header, txs, stored, body, rfl⟩
  · rintro ⟨header, txs, stored, body, rfl⟩
    exact ⟨header, stored, txs, body, rfl⟩

theorem Keyed.getBlock (keyed : Keyed S bc) (read : bc.getBlock hash number = some block) :
    bc.Holds block ∧ block.hash B.crypto = hash ∧ block.numberU64 = number := by
  obtain ⟨header, txs, stored, body, rfl⟩ := getBlock_eq_some.mp read
  obtain ⟨key, isNumber, -, -⟩ := keyed.headers stored
  subst key isNumber
  exact ⟨⟨rfl, stored, by rw [isSome_iff_exists]; exact ⟨txs, body⟩⟩, rfl, rfl⟩

theorem Keyed.parentOf (keyed : Keyed S bc) (read : bc.parentOf block = some parent) :
    bc.Holds parent ∧ parent.hash B.crypto = block.header.parentHash ∧ parent.numberU64 = pred64 block.numberU64 :=
  keyed.getBlock read

theorem Holds.parentAt (holds : bc.Holds block) :
    bc.parentAt block.numberU64 (block.hash B.crypto) = some block.header.parentHash := by
  obtain ⟨txs, body⟩ := isSome_iff_exists.mp holds.body
  rw [BlockChain.parentAt, getBlock_eq_some.mpr ⟨_, _, holds.header, body, rfl⟩]
  rfl

/-- Chains with the same store hold the same blocks. -/
theorem SameStore.getBlock (same : bc.SameStore bc') : bc'.getBlock = bc.getBlock := by
  funext hash number
  simp only [BlockChain.getBlock, Database.readBlock, same.headers, same.bodies]

theorem SameStore.parentAt (same : bc.SameStore bc') : bc'.parentAt = bc.parentAt := by
  funext number hash
  simp only [BlockChain.parentAt, same.getBlock]

theorem SameStore.holds (same : bc.SameStore bc') (holds : bc.Holds block) : bc'.Holds block :=
  ⟨holds.hash, same.headers ▸ holds.header, same.bodies ▸ holds.body⟩

theorem SameStore.keyed (same : bc.SameStore bc') (keyed : Keyed S bc) : Keyed S bc' where
  headers stored := keyed.headers (same.headers ▸ stored)
  numbers stored := same.headerNumber ▸ keyed.numbers (same.headers ▸ stored)
  tds stored := keyed.tds (same.tds ▸ stored)
  zero stored := same.genesisBlock ▸ keyed.zero (same.headers ▸ stored)

/-- Walking down from a block along stored parents: the blocks passed, and where the walk ends. -/
inductive Descends (bc : BlockChain B) (last : Block) : List Block → Block → Prop
  | nil : Descends bc last [] last
  | cons {block parent : Block} {blocks : List Block} : bc.parentOf block = some parent →
      block.numberU64 = parent.numberU64 + 1 → Descends bc last blocks parent →
      Descends bc last (block :: blocks) block

/-- The parent of a block above number zero is one below it. -/
theorem Keyed.number_parentOf (keyed : Keyed S bc) (read : bc.parentOf block = some parent)
    (positive : block.numberU64 ≠ 0) : block.numberU64 = parent.numberU64 + 1 := by
  obtain ⟨-, -, number⟩ := keyed.parentOf read
  obtain ⟨m, next⟩ : ∃ m, block.numberU64 = m + 1 := Nat.exists_eq_succ_of_ne_zero positive
  have bound : block.numberU64 < 2 ^ 64 := block.header.numberU64_lt
  rw [next, pred64_succ (next ▸ bound)] at number
  rw [next, number]

namespace Descends

variable {last mid : Block} {blocks blocks' : List Block}

theorem trans (lower : Descends bc last blocks' mid) (upper : Descends bc mid blocks block) :
    Descends bc last (blocks ++ blocks') block := by
  induction upper with
  | nil => exact lower
  | cons read number rest ih => exact .cons read number ih

theorem number_le (descends : Descends bc last blocks block) : last.numberU64 ≤ block.numberU64 := by
  induction descends with
  | nil => exact le_rfl
  | cons read number rest ih => omega

theorem holds (descends : Descends bc last blocks block) (keyed : Keyed S bc) (start : bc.Holds block) :
    bc.Holds last := by
  induction descends with
  | nil => exact start
  | cons read number rest ih => exact ih (keyed.parentOf read).1

/-- A walk from a block of the index stays in the index. -/
theorem indexed (descends : Descends bc last blocks block) (keyed : Keyed S bc) (start : bc.Holds block)
    {index : ℕ → Option Hash} {top : ℕ} (linked : Linked bc.parentAt index top) (within : block.numberU64 ≤ top)
    (entry : index block.numberU64 = some (block.hash B.crypto)) :
    index last.numberU64 = some (last.hash B.crypto) := by
  induction descends with
  | nil => exact entry
  | @cons block parent blocks read number rest ih =>
    obtain ⟨holds, hash, -⟩ := keyed.parentOf read
    apply ih holds (by omega)
    rw [hash]
    apply linked.below (number ▸ within) (number ▸ entry)
    rw [← number]
    exact start.parentAt

/-- Inserting the blocks of a walk that ends in the index links the index up to its start. -/
theorem insertAll (descends : Descends bc last blocks block) (keyed : Keyed S bc) (start : bc.Holds block)
    (linked : Linked bc.parentAt bc.db.canonical last.numberU64)
    (entry : bc.db.canonical last.numberU64 = some (last.hash B.crypto)) :
    Linked bc.parentAt (bc.insertAll blocks).db.canonical block.numberU64 ∧
      (bc.insertAll blocks).db.canonical block.numberU64 = some (block.hash B.crypto) ∧
      ∀ n, block.numberU64 < n → (bc.insertAll blocks).db.canonical n = bc.db.canonical n := by
  induction descends with
  | nil => exact ⟨linked, entry, fun _ _ => rfl⟩
  | @cons block parent blocks read number rest ih =>
    obtain ⟨holds, hash, -⟩ := keyed.parentOf read
    obtain ⟨linked', entry', above⟩ := ih holds
    have index : (bc.insertAll (block :: blocks)).db.canonical =
        update (bc.insertAll blocks).db.canonical block.numberU64 (some (block.hash B.crypto)) := rfl
    rw [index]
    refine ⟨linked'.insert number.le start.parentAt ?_, update_self .., fun n higher => ?_⟩
    · intro m next
      rw [show m = parent.numberU64 by omega, entry', hash]
    · rw [update_of_ne higher.ne']
      exact above n (by omega)

end Descends

/-- Blocks that the walks may pass: the parent of one above number zero is again one and is one below it, and those of
number zero that have a parent have one hash. -/
structure Walkable (bc : BlockChain B) (P : Block → Prop) : Prop where
  parent : ∀ {block parent}, P block → bc.parentOf block = some parent → block.numberU64 ≠ 0 →
    P parent ∧ block.numberU64 = parent.numberU64 + 1
  zero : ∀ {old new old' new'}, P old → P new → old.numberU64 = 0 → new.numberU64 = 0 →
    bc.parentOf old = some old' → bc.parentOf new = some new' → old.hash B.crypto = new.hash B.crypto

theorem Keyed.walkable (keyed : Keyed S bc) : Walkable bc bc.Holds where
  parent holds read positive := ⟨(keyed.parentOf read).1, keyed.number_parentOf read positive⟩
  zero {old new old' new'} first second oldZero newZero _ _ := by
    have oldHeader := first.header
    have newHeader := second.header
    rw [oldZero] at oldHeader
    rw [newZero] at newHeader
    rw [first.hash, second.hash, keyed.zero oldHeader, keyed.zero newHeader]

variable {fuel target : ℕ} {last old new : Block} {blocks olds news : List Block} {P : Block → Prop}

/-- A round of the first loop of `reorg`. -/
theorem reduce_ok {end' : Option Block} (ran : bc.reduce target (fuel + 1) block = .ok (blocks, end')) :
    block.numberU64 = target ∧ blocks = [] ∧ end' = some block ∨
      block.numberU64 ≠ target ∧ (bc.parentOf block = none ∧ blocks = [block] ∧ end' = none ∨ ∃ parent rest,
        bc.parentOf block = some parent ∧ bc.reduce target fuel parent = .ok (rest, end') ∧
          blocks = block :: rest) := by
  rw [reduce] at ran
  split_ifs at ran with reached
  · cases ran
    exact .inl ⟨reached, rfl, rfl⟩
  · refine .inr ⟨reached, ?_⟩
    cases read : bc.parentOf block with
    | none =>
      rw [read] at ran
      cases ran
      exact .inl ⟨rfl, rfl, rfl⟩
    | some parent =>
      rw [read] at ran
      obtain ⟨⟨rest, _⟩, walked, ran⟩ := except_map_eq_ok.mp ran
      cases ran
      exact .inr ⟨parent, rest, rfl, walked, rfl⟩

/-- A round of the second loop of `reorg`. -/
theorem meet_ok (ran : bc.meet (fuel + 1) old new = .ok (olds, news)) :
    old.hash B.crypto = new.hash B.crypto ∧ olds = [] ∧ news = [] ∨
      old.hash B.crypto ≠ new.hash B.crypto ∧ ∃ old₁ new₁ olds₁ news₁, bc.parentOf old = some old₁ ∧
        bc.parentOf new = some new₁ ∧ bc.meet fuel old₁ new₁ = .ok (olds₁, news₁) ∧ olds = old :: olds₁ ∧
          news = new :: news₁ := by
  rw [meet] at ran
  split_ifs at ran with same
  · cases ran
    exact .inl ⟨same, rfl, rfl⟩
  · refine .inr ⟨same, ?_⟩
    split at ran
    · cases ran
    · cases ran
    · rename_i old₁ new₁ readOld readNew
      obtain ⟨⟨olds₁, news₁⟩, walked, ran⟩ := except_map_eq_ok.mp ran
      cases ran
      exact ⟨old₁, new₁, olds₁, news₁, readOld, readNew, walked, rfl, rfl⟩

/-- The higher of the two chains is walked down to the level of the other one first. -/
theorem split_ok (ran : bc.split fuel old new = .ok (olds, news)) :
    (new.numberU64 < old.numberU64 ∧ ∃ olds₁ old₁ olds₂, bc.reduce new.numberU64 fuel old = .ok (olds₁, some old₁) ∧
      bc.meet fuel old₁ new = .ok (olds₂, news) ∧ olds = olds₁ ++ olds₂) ∨
    (old.numberU64 ≤ new.numberU64 ∧ ∃ news₁ new₁ news₂, bc.reduce old.numberU64 fuel new = .ok (news₁, some new₁) ∧
      bc.meet fuel old new₁ = .ok (olds, news₂) ∧ news = news₁ ++ news₂) := by
  unfold BlockChain.split at ran
  split_ifs at ran with higher
  · obtain ⟨⟨olds₁, old₁⟩, reduced, ran⟩ := except_bind_eq_ok.mp ran
    cases old₁ with
    | none => cases ran
    | some old₁ =>
      obtain ⟨⟨olds₂, _⟩, met, ran⟩ := except_bind_eq_ok.mp ran
      cases ran
      exact .inl ⟨higher, olds₁, old₁, olds₂, reduced, met, rfl⟩
  · obtain ⟨⟨news₁, new₁⟩, reduced, ran⟩ := except_bind_eq_ok.mp ran
    cases new₁ with
    | none => cases ran
    | some new₁ =>
      obtain ⟨⟨_, news₂⟩, met, ran⟩ := except_bind_eq_ok.mp ran
      cases ran
      exact .inr ⟨not_lt.mp higher, news₁, new₁, news₂, reduced, met, rfl⟩

/-- The first loop of `reorg` goes down to its target, which is not above its start. -/
theorem Walkable.reduce (walkable : Walkable bc P) (start : P block) (bound : target ≤ block.numberU64)
    (ran : bc.reduce target fuel block = .ok (blocks, some last)) :
    Descends bc last blocks block ∧ last.numberU64 = target ∧ P last := by
  induction fuel generalizing block blocks with
  | zero => cases ran
  | succ fuel ih =>
    rcases reduce_ok ran with ⟨reached, rfl, ⟨⟩⟩ | ⟨apart, ⟨-, -, ⟨⟩⟩ | ⟨parent, rest, read, walked, rfl⟩⟩
    · exact ⟨.nil, reached, start⟩
    · obtain ⟨passes, number⟩ := walkable.parent start read (by omega)
      obtain ⟨descends, atTarget⟩ := ih passes (by omega) walked
      exact ⟨.cons read number descends, atTarget⟩

/-- The second loop of `reorg` goes down both chains in step, to blocks of one hash. It does not go below number zero.
-/
theorem Walkable.meet (walkable : Walkable bc P) (first : P old) (second : P new)
    (level : old.numberU64 = new.numberU64) (ran : bc.meet fuel old new = .ok (olds, news)) :
    ∃ old' new', Descends bc old' olds old ∧ Descends bc new' news new ∧
      old'.hash B.crypto = new'.hash B.crypto ∧ old'.numberU64 = new'.numberU64 := by
  induction fuel generalizing old new olds news with
  | zero => cases ran
  | succ fuel ih =>
    rcases meet_ok ran with ⟨same, rfl, rfl⟩ | ⟨apart, old₁, new₁, olds₁, news₁, readOld, readNew, walked, rfl, rfl⟩
    · exact ⟨old, new, .nil, .nil, same, level⟩
    · have positive : old.numberU64 ≠ 0 := fun zero =>
        apart (walkable.zero first second zero (level ▸ zero) readOld readNew)
      obtain ⟨passesOld, oldNumber⟩ := walkable.parent first readOld positive
      obtain ⟨passesNew, newNumber⟩ := walkable.parent second readNew (level ▸ positive)
      obtain ⟨old', new', left, right, meets⟩ := ih passesOld passesNew (by omega) walked
      exact ⟨old', new', .cons readOld oldNumber left, .cons readNew newNumber right, meets⟩

/-- The walks of `reorg` go down to blocks of one number and hash. -/
theorem Walkable.split (walkable : Walkable bc P) (first : P old) (second : P new)
    (ran : bc.split fuel old new = .ok (olds, news)) :
    ∃ old' new', Descends bc old' olds old ∧ Descends bc new' news new ∧
      old'.hash B.crypto = new'.hash B.crypto ∧ old'.numberU64 = new'.numberU64 := by
  rcases split_ok ran with ⟨higher, olds₁, old₁, olds₂, reduced, met, rfl⟩ |
    ⟨lower, news₁, new₁, news₂, reduced, met, rfl⟩
  · obtain ⟨upper, level, passes⟩ := walkable.reduce first higher.le reduced
    obtain ⟨old', new', left, right, meets⟩ := walkable.meet passes second level met
    exact ⟨old', new', left.trans upper, right, meets⟩
  · obtain ⟨upper, level, passes⟩ := walkable.reduce second lower reduced
    obtain ⟨old', new', left, right, meets⟩ := walkable.meet first passes level.symm met
    exact ⟨old', new', left, right.trans upper, meets⟩

section Store

variable {td : ℤ} {stateDb : B.StateDb}

theorem headers_store : (bc.store block td stateDb).db.headers =
    update bc.db.headers (block.numberU64, block.header.hashOf B.crypto) (some block.header) := rfl

theorem bodies_store : (bc.store block td stateDb).db.bodies = update bc.db.bodies
    (block.numberU64, block.hash B.crypto) (some (block.txs.map Transaction.stored)) := rfl

theorem headerNumber_store : (bc.store block td stateDb).db.headerNumber =
    update bc.db.headerNumber (block.header.hashOf B.crypto) (some block.numberU64) := rfl

theorem tds_store : (bc.store block td stateDb).db.tds =
    update bc.db.tds (block.numberU64, block.hash B.crypto) (some td) := rfl

theorem holds_store (hash : block.hash B.crypto = block.header.hashOf B.crypto) :
    (bc.store block td stateDb).Holds block where
  hash := hash
  header := by
    rw [headers_store, hash]
    exact update_self ..
  body := by
    rw [bodies_store, update_self]
    rfl

namespace Keyed

theorem mono (keyed : Keyed S bc) (within : S ⊆ S') : Keyed S' bc where
  headers stored := by
    obtain ⟨hash, number, encoded, seen⟩ := keyed.headers stored
    exact ⟨hash, number, encoded, within seen⟩
  numbers := keyed.numbers
  tds stored := by
    obtain ⟨header, seen, key⟩ := keyed.tds stored
    exact ⟨header, within seen, key⟩
  zero := keyed.zero

/-- A header that is stored under the hash of another one is that header. -/
theorem eq_of_hash (keyed : Keyed S bc) (free : CollisionFree B.crypto S) {header header' : Header}
    (stored : bc.db.headers (number, hash) = some header) (seen : header' ∈ S)
    (same : header'.hashOf B.crypto = hash) : header' = header := by
  obtain ⟨hash, -, encoded, seen'⟩ := keyed.headers stored
  exact (free.eq_of_hashOf_eq seen' seen encoded (hash.trans same.symm)).symm

theorem holds_store (keyed : Keyed S bc) (free : CollisionFree B.crypto S) (seen : block.header ∈ S)
    {b : Block} (holds : bc.Holds b) : (bc.store block td stateDb).Holds b where
  hash := holds.hash
  header := by
    rw [headers_store]
    by_cases same : (b.numberU64, b.hash B.crypto) = (block.numberU64, block.header.hashOf B.crypto)
    · rw [same, update_self, keyed.eq_of_hash free holds.header seen (Prod.ext_iff.mp same).2.symm]
    · rw [update_of_ne same]
      exact holds.header
  body := by
    rw [bodies_store, update_apply]
    split
    · rfl
    · exact holds.body

theorem parentAt_store (keyed : Keyed S bc) (free : CollisionFree B.crypto S) (seen : block.header ∈ S) {p : Hash}
    (names : bc.parentAt number hash = some p) : (bc.store block td stateDb).parentAt number hash = some p := by
  obtain ⟨b, read, rfl⟩ := map_eq_some_iff.mp names
  obtain ⟨holds, rfl, rfl⟩ := keyed.getBlock read
  exact (keyed.holds_store free seen holds).parentAt

theorem store (keyed : Keyed S bc) (free : CollisionFree B.crypto S) (seen : block.header ∈ S)
    (encoded : block.header.Encoded) (hash : block.hash B.crypto = block.header.hashOf B.crypto)
    (positive : block.numberU64 ≠ 0) : Keyed S (bc.store block td stateDb) where
  headers {number key header} stored := by
    rw [headers_store, update_apply] at stored
    split at stored
    · rename_i same
      cases stored
      exact ⟨(Prod.ext_iff.mp same).2.symm, (Prod.ext_iff.mp same).1.symm, encoded, seen⟩
    · exact keyed.headers stored
  numbers {number key header} stored := by
    rw [headers_store, update_apply] at stored
    rw [headerNumber_store, update_apply]
    split at stored
    · rename_i same
      rw [if_pos (Prod.ext_iff.mp same).2]
      exact congrArg some (Prod.ext_iff.mp same).1.symm
    · split
      · rename_i same
        have header := keyed.eq_of_hash free stored seen same.symm
        rw [Block.numberU64, header, (keyed.headers stored).2.1]
      · exact keyed.numbers stored
  tds {number key td'} stored := by
    rw [tds_store, update_apply] at stored
    split at stored
    · rename_i same
      exact ⟨block.header, seen, hash.symm.trans (Prod.ext_iff.mp same).2.symm, (Prod.ext_iff.mp same).1.symm⟩
    · exact keyed.tds stored
  zero {key header} stored := by
    rw [headers_store, update_of_ne (fun same => positive (Prod.ext_iff.mp same).1.symm)] at stored
    exact keyed.zero stored

end Keyed

theorem Indexed.store (indexed : bc.Indexed) (keyed : Keyed S bc) (free : CollisionFree B.crypto S)
    (seen : block.header ∈ S) : (bc.store block td stateDb).Indexed where
  head := keyed.holds_store free seen indexed.head
  top := indexed.top
  linked := indexed.linked.mono fun _ _ _ _ _ names => keyed.parentAt_store free seen names
  above := indexed.above

end Store

namespace Indexed

/-- The index and the head of a chain, seen from another one with the same store. -/
theorem of_sameStore (same : bc.SameStore bc') (holds : bc.Holds bc'.currentBlock)
    (top : bc'.db.canonical bc'.currentBlock.numberU64 = some (bc'.currentBlock.hash B.crypto))
    (linked : Linked bc.parentAt bc'.db.canonical bc'.currentBlock.numberU64)
    (above : ∀ n, bc'.currentBlock.numberU64 < n → bc'.db.canonical n = none) : bc'.Indexed where
  head := same.holds holds
  top := top
  linked := same.parentAt ▸ linked
  above := above

/-- A block on top of an entry of the index, not below the head, becomes the head. -/
theorem insert (indexed : bc.Indexed) (holds : bc.Holds block) (bound : bc.currentBlock.numberU64 ≤ block.numberU64)
    {n : ℕ} (next : block.numberU64 = n + 1) (parent : bc.db.canonical n = some block.header.parentHash) :
    (bc.insert block).Indexed := by
  have within : n ≤ bc.currentBlock.numberU64 := by
    by_contra above
    simp [indexed.above n (by omega)] at parent
  apply of_sameStore (sameStore_insert bc block) holds (update_self ..)
  · refine indexed.linked.insert (by omega) holds.parentAt fun m isNext => ?_
    rw [show m = n by omega, parent]
  · intro n higher
    change block.numberU64 < n at higher
    change update bc.db.canonical block.numberU64 _ n = none
    rw [update_of_ne higher.ne']
    exact indexed.above n (by omega)

/-- A reorganisation to a block that is not below the head. -/
theorem reorg (indexed : bc.Indexed) (keyed : Keyed S bc) (holds : bc.Holds block)
    (bound : bc.currentBlock.numberU64 ≤ block.numberU64)
    (ran : bc.reorg fuel bc.currentBlock block = .ok bc') :
    ((bc'.writeTxLookupEntries block).insert block).Indexed := by
  have same := (sameStore_reorg ran).trans
    ((sameStore_writeTxLookupEntries bc' block).trans (sameStore_insert _ block))
  obtain ⟨olds, news, walked, chain⟩ := reorg_ok _ ran
  obtain ⟨old', new', left, right, sameHash, sameNumber⟩ := keyed.walkable.split indexed.head holds walked
  have entry := left.indexed keyed indexed.head indexed.linked le_rfl indexed.top
  rw [sameHash, sameNumber] at entry
  have within : new'.numberU64 ≤ bc.currentBlock.numberU64 := sameNumber ▸ left.number_le
  obtain ⟨linked, top, above⟩ := right.insertAll keyed holds (indexed.linked.lower within) entry
  have kept : bc'.db.canonical = (bc.insertAll news).db.canonical := by
    rw [chain]
    rfl
  -- the last insert writes the entry that is there already
  have index : ((bc'.writeTxLookupEntries block).insert block).db.canonical = (bc.insertAll news).db.canonical := by
    change update bc'.db.canonical block.numberU64 _ = _
    rw [kept, ← top, update_eq_self]
  apply of_sameStore same holds (update_self ..)
  · rw [index]
    exact linked
  · intro n higher
    rw [index, above n higher]
    exact indexed.above n (bound.trans_lt higher)

end Indexed

end BlockChain

end KKChain
