import KKChain.Core.Canonical

/-! # Rewinding the head

`SetHead` walks down from the head, deletes the blocks it passes and their entries of the canonical index, and
reloads the head from the database. What is stored at or below the block it reaches is untouched, so the index
stays right if the state of that block can be opened. If it cannot, the head falls back to the genesis block and
the entries between them stay.
-/

namespace KKChain

open Proc LinkedIndex List

variable {B : Backend}

namespace BlockChain

variable {bc bc' : BlockChain B} {S : Set Header} {block last : Block} {blocks : List Block} {fuel target number : ℕ}
  {hash : Hash} {header : Header}

/-- A round of the walk of `SetHead`. -/
theorem rewind_ok (ran : bc.rewind target (fuel + 1) block = .ok (blocks, last)) :
    block.numberU64 ≤ target ∧ blocks = [] ∧ last = block ∨ target < block.numberU64 ∧ ∃ parent rest,
      bc.parentOf block = some parent ∧ bc.rewind target fuel parent = .ok (rest, last) ∧ blocks = block :: rest := by
  rw [rewind] at ran
  split_ifs at ran with reached
  · cases ran
    exact .inl ⟨reached, rfl, rfl⟩
  · refine .inr ⟨not_le.mp reached, ?_⟩
    cases read : bc.parentOf block with
    | none =>
      rw [read] at ran
      cases ran
    | some parent =>
      rw [read] at ran
      obtain ⟨⟨rest, _⟩, walked, ran⟩ := except_map_eq_ok.mp ran
      cases ran
      exact ⟨parent, rest, rfl, walked, rfl⟩

/-- The walk of `SetHead` ends at its target, or at once if the head is not above it. -/
theorem Walkable.rewind {P : Block → Prop} (walkable : Walkable bc P) (start : P block)
    (ran : bc.rewind target fuel block = .ok (blocks, last)) :
    Descends bc last blocks block ∧ last.numberU64 = min target block.numberU64 := by
  induction fuel generalizing block blocks with
  | zero => cases ran
  | succ fuel ih =>
    rcases rewind_ok ran with ⟨reached, rfl, rfl⟩ | ⟨above, parent, rest, read, walked, rfl⟩
    · exact ⟨.nil, (min_eq_right reached).symm⟩
    · obtain ⟨passes, next⟩ := walkable.parent start read (by omega)
      obtain ⟨descends, atTarget⟩ := ih passes walked
      exact ⟨.cons read next descends, by omega⟩

/-- The walk of `SetHead` passes only blocks above its target. -/
theorem rewind_above (ran : bc.rewind target fuel block = .ok (blocks, last)) : ∀ b ∈ blocks, target < b.numberU64 := by
  induction fuel generalizing block blocks with
  | zero => cases ran
  | succ fuel ih =>
    rcases rewind_ok ran with ⟨-, rfl, -⟩ | ⟨above, parent, rest, -, walked, rfl⟩
    · simp
    · exact forall_mem_cons.mpr ⟨above, ih walked⟩

/-- The blocks of a walk are held and above its end. -/
theorem Descends.above (descends : Descends bc last blocks block) (keyed : Keyed S bc) (start : bc.Holds block) :
    ∀ b ∈ blocks, bc.Holds b ∧ last.numberU64 < b.numberU64 := by
  induction descends with
  | nil => simp
  | @cons block parent blocks read next rest ih =>
    have bound := rest.number_le
    rintro b (_ | ⟨_, mem⟩)
    · exact ⟨start, by omega⟩
    · exact ih (keyed.parentOf read).1 b mem

section Delete

variable (bc) (target) (blocks)

/-- The key of a block in the tables. -/
def key (B : Backend) (block : Block) : ℕ × Hash := (block.numberU64, block.header.hashOf B.crypto)

theorem deleteAll (db : Database) (entry : ℕ × Hash) :
    let db' := blocks.foldl (fun db block => db.deleteBlock (block.header.hashOf B.crypto) block.numberU64) db
    db'.headers entry = (if entry ∈ blocks.map (key B) then none else db.headers entry) ∧
    db'.bodies entry = (if entry ∈ blocks.map (key B) then none else db.bodies entry) ∧
    db'.tds entry = (if entry ∈ blocks.map (key B) then none else db.tds entry) := by
  induction blocks generalizing db with
  | nil => simp
  | cons block blocks ih =>
    simp only [foldl_cons, map_cons, mem_cons]
    obtain ⟨headers, bodies, tds⟩ := ih (db.deleteBlock (block.header.hashOf B.crypto) block.numberU64)
    rw [headers, bodies, tds]
    simp only [Database.deleteBlock, Function.update_apply, key]
    grind

theorem headerNumber_deleteAll (db : Database) (hash : Hash) :
    (blocks.foldl (fun db block => db.deleteBlock (block.header.hashOf B.crypto) block.numberU64)
      db).headerNumber hash =
      if hash ∈ blocks.map (·.header.hashOf B.crypto) then none else db.headerNumber hash := by
  induction blocks generalizing db with
  | nil => simp
  | cons block blocks ih =>
    simp only [foldl_cons, map_cons, mem_cons]
    rw [ih]
    simp only [Database.deleteBlock, Function.update_apply]
    grind

theorem canonical_deleteAll (db : Database) :
    (blocks.foldl (fun db block => db.deleteBlock (block.header.hashOf B.crypto) block.numberU64) db).canonical =
      db.canonical := by
  induction blocks generalizing db with
  | nil => rfl
  | cons block blocks ih => exact ih _

theorem canonical_deleteAbove (n : ℕ) : (bc.deleteAbove target blocks).db.canonical n =
    if target < n ∧ n ≤ bc.currentBlock.numberU64 then none else bc.db.canonical n := by
  rw [← canonical_deleteAll (B := B) blocks bc.db]
  rfl

end Delete

/-- The loop of `repair` ends at once at a block whose state can be opened. -/
theorem repair_of_hasState (ran : bc.repair fuel (some block) = .ok last)
    (opens : bc.hasState block.header.stateRoot = true) : last = block := by
  cases fuel with
  | zero => cases ran
  | succ fuel =>
    rw [repair, if_pos opens] at ran
    exact (Except.ok.inj ran).symm

/-- Everything a successful `SetHead` did. The head is loaded from what the deletions left. -/
theorem setHead_ok (ran : bc.setHead fuel target = .ok bc') :
    ∃ blocks last block, bc.rewind target fuel bc.currentBlock = .ok (blocks, last) ∧
      (bc.deleteAbove target blocks).getBlockByHash (((bc.deleteAbove target blocks).settle last).hash B.crypto) =
        some block ∧
      (bc.hasState block.header.stateRoot = true → bc'.currentBlock = block) ∧
      (bc.deleteAbove target blocks).SameStore bc' ∧
      bc'.db.canonical = (bc.deleteAbove target blocks).db.canonical := by
  obtain ⟨⟨blocks, last⟩, walked, ran⟩ := except_bind_eq_ok.mp ran
  refine ⟨blocks, last, ?_⟩
  dsimp only [loadLastState] at ran
  split_ifs at ran with absent
  split at ran
  · cases ran
  · rename_i block read
    obtain ⟨head, repaired, ran⟩ := except_bind_eq_ok.mp ran
    cases ran
    exact ⟨block, walked, read, fun opens => repair_of_hasState repaired opens, ⟨rfl, rfl, rfl, rfl, rfl, rfl⟩, rfl⟩

section DeleteAbove

variable (keyed : Keyed S bc) (held : ∀ b ∈ blocks, bc.Holds b)

theorem headers_deleteAbove (bc : BlockChain B) (target : ℕ) (blocks : List Block) (entry : ℕ × Hash) :
    (bc.deleteAbove target blocks).db.headers entry =
      if entry ∈ blocks.map (key B) then none else bc.db.headers entry := (deleteAll blocks bc.db entry).1

/-- What is left was there before. -/
theorem of_headers_deleteAbove {entry : ℕ × Hash}
    (stored : (bc.deleteAbove target blocks).db.headers entry = some header) :
    entry ∉ blocks.map (key B) ∧ bc.db.headers entry = some header := by
  rw [headers_deleteAbove] at stored
  split_ifs at stored with deleted
  exact ⟨deleted, stored⟩

include keyed held

/-- The number of a hash is deleted only with the block it belongs to. -/
theorem headerNumber_deleteAbove (stored : bc.db.headers (number, hash) = some header)
    (left : (number, hash) ∉ blocks.map (key B)) :
    (bc.deleteAbove target blocks).db.headerNumber hash = some number := by
  have kept : (bc.deleteAbove target blocks).db.headerNumber hash = _ := headerNumber_deleteAll blocks bc.db hash
  rw [kept, if_neg, keyed.numbers stored]
  rintro deleted
  obtain ⟨b, mem, rfl⟩ := mem_map.mp deleted
  have holds := held b mem
  have number' := keyed.numbers holds.header
  rw [holds.hash, keyed.numbers stored] at number'
  exact left (mem_map.mpr ⟨b, mem, by rw [key, ← Option.some.inj number']⟩)

theorem Keyed.deleteAbove : Keyed S (bc.deleteAbove target blocks) where
  headers stored := keyed.headers (of_headers_deleteAbove stored).2
  numbers stored :=
    headerNumber_deleteAbove keyed held (of_headers_deleteAbove stored).2 (of_headers_deleteAbove stored).1
  tds {number hash td} stored := by
    have kept : (bc.deleteAbove target blocks).db.tds _ = _ := (deleteAll blocks bc.db (number, hash)).2.2
    rw [kept] at stored
    split_ifs at stored
    exact keyed.tds stored
  zero stored := keyed.zero (of_headers_deleteAbove stored).2

omit keyed held in
/-- Blocks below the deleted ones are still there. -/
theorem getBlock_deleteAbove (bc : BlockChain B) (target : ℕ) (under : ∀ b ∈ blocks, number < b.numberU64)
    (hash : Hash) : (bc.deleteAbove target blocks).getBlock hash number = bc.getBlock hash number := by
  have left : (number, hash) ∉ blocks.map (key B) := by
    intro deleted
    obtain ⟨b, mem, same⟩ := mem_map.mp deleted
    exact (under b mem).ne (Prod.ext_iff.mp same).1.symm
  have headers := headers_deleteAbove bc target blocks (number, hash)
  have bodies : (bc.deleteAbove target blocks).db.bodies _ = _ := (deleteAll blocks bc.db (number, hash)).2.1
  rw [if_neg left] at headers bodies
  simp only [getBlock, Database.readBlock, headers, bodies]

end DeleteAbove

/-- The blocks a walk from the head passes are deleted, and its end, whose state can be opened, is the new head. -/
theorem head_setHead (indexed : bc.Indexed) (keyed : Keyed S bc) (free : CollisionFree B.crypto S)
    (opens : ∀ block ∈ bc.getBlockByNumber (min target bc.currentBlock.numberU64),
      bc.hasState block.header.stateRoot = true)
    (ran : bc.setHead fuel target = .ok bc') :
    ∃ blocks last, Descends bc last blocks bc.currentBlock ∧ last.numberU64 = min target bc.currentBlock.numberU64 ∧
      (bc.deleteAbove target blocks).SameStore bc' ∧
      bc'.db.canonical = (bc.deleteAbove target blocks).db.canonical ∧
      bc.getBlock (last.hash B.crypto) last.numberU64 = some bc'.currentBlock := by
  obtain ⟨blocks, last, block, walked, read, head, same, index⟩ := setHead_ok ran
  obtain ⟨descends, number⟩ := keyed.walkable.rewind indexed.head walked
  have above := descends.above keyed indexed.head
  have holds := descends.holds keyed indexed.head
  have entry := descends.indexed keyed indexed.head indexed.linked le_rfl indexed.top
  obtain ⟨txs, body⟩ := Option.isSome_iff_exists.mp holds.body
  have stored : bc.getBlock (last.hash B.crypto) last.numberU64 = some (.fresh last.header txs) :=
    getBlock_eq_some.mpr ⟨_, _, holds.header, body, rfl⟩
  have state : bc.hasState last.header.stateRoot = true := by
    obtain ⟨hash, -, encoded, seen⟩ := keyed.headers holds.header
    apply opens (.fresh last.header txs)
    rw [getBlockByNumber, ← number, entry, Option.bind_some, if_neg (hash ▸ free.hashOf_ne_zero seen encoded)]
    exact stored
  have kept : (bc.deleteAbove target blocks).getBlock (last.hash B.crypto) last.numberU64 =
      some (.fresh last.header txs) := by
    rw [getBlock_deleteAbove bc target (fun b mem => (above b mem).2), stored]
  -- the number of the block is found again, and the block by it
  obtain ⟨header, -, left, -⟩ := getBlock_eq_some.mp kept
  have keyed' : Keyed S (bc.deleteAbove target blocks) := keyed.deleteAbove fun b mem => (above b mem).1
  rw [show (bc.deleteAbove target blocks).settle last = last from if_pos state, getBlockByHash,
    keyed'.numbers left] at read
  cases kept.symm.trans read
  exact ⟨blocks, last, descends, number, same, index, stored.trans (congrArg some (head state).symm)⟩

/-- `SetHead` keeps the index right if the state of the canonical block it goes to can be opened. -/
theorem Indexed.setHead (indexed : bc.Indexed) (keyed : Keyed S bc) (free : CollisionFree B.crypto S)
    (opens : ∀ block ∈ bc.getBlockByNumber (min target bc.currentBlock.numberU64),
      bc.hasState block.header.stateRoot = true)
    (ran : bc.setHead fuel target = .ok bc') : Keyed S bc' ∧ bc'.Indexed := by
  obtain ⟨blocks, last, descends, reached, same, index, read⟩ := head_setHead indexed keyed free opens ran
  have above := descends.above keyed indexed.head
  have kept : ∀ n ≤ last.numberU64, ∀ hash, (bc.deleteAbove target blocks).getBlock hash n = bc.getBlock hash n :=
    fun n bound => getBlock_deleteAbove bc target fun b mem => bound.trans_lt (above b mem).2
  have keyed' : Keyed S (bc.deleteAbove target blocks) := keyed.deleteAbove fun b mem => (above b mem).1
  obtain ⟨holds, hash, number⟩ := keyed'.getBlock ((kept _ le_rfl _).trans read)
  have entries : ∀ n ≤ last.numberU64, bc'.db.canonical n = bc.db.canonical n := by
    intro n bound
    rw [index, canonical_deleteAbove, if_neg (by omega)]
  refine ⟨same.keyed keyed', of_sameStore same holds ?_ ?_ ?_⟩
  · rw [number, hash, entries _ le_rfl]
    exact descends.indexed keyed indexed.head indexed.linked le_rfl indexed.top
  · rw [number]
    intro n bound
    obtain ⟨k, p, entry, parent, below⟩ := indexed.linked n (by omega)
    refine ⟨k, p, by rw [entries n bound, entry], ?_, fun m next => ?_⟩
    · rw [parentAt, kept n bound]
      exact parent
    · rw [entries m (by omega), below m next]
  · rw [number, index]
    intro n higher
    rw [canonical_deleteAbove]
    split_ifs with removed
    · rfl
    · exact indexed.above n (by omega)

end BlockChain

end KKChain
