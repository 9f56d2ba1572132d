import KKChain.Core.Caches
import KKChain.Core.Reorg

/-! # Rewinding the head, with the caches

On a chain that is stored and indexed down to its genesis block, `SetHead` reaches the canonical block at its target,
deletes what it passed and leaves none of it in the caches. If the state of the block it reached cannot be opened, the
genesis block becomes the head while the index between them is kept, so the index is right after `SetHead` exactly if
that state opens.
-/

namespace KKChain

open Proc Lineage List

variable {B : Backend}

/-- Two blocks have the same header, hash and transactions. -/
structure Block.Like (C : Crypto) (b x : Block) : Prop where
  header : b.header = x.header
  hash : b.hash C = x.hash C
  txs : b.txHashes C = x.txHashes C

namespace BlockChain

/-- The blocks of the head's chain are stored under their numbers and hashes down to the genesis block, whose state can
be opened, and the canonical index names them and nothing above them. -/
structure Sound (bc : BlockChain B) : Prop where
  rooted : bc.Rooted bc.currentBlock
  hashed : ∀ {x}, bc.AncestorOf x bc.currentBlock → x.hash B.crypto = x.header.hashOf B.crypto
  linked : ∀ {x p}, bc.AncestorOf x bc.currentBlock → bc.parentOf x = some p → p.hash B.crypto = x.header.parentHash
  numbered : ∀ {x}, bc.AncestorOf x bc.currentBlock → bc.db.headerNumber (x.hash B.crypto) = some x.numberU64
  index : ∀ {x}, bc.AncestorOf x bc.currentBlock → bc.db.canonical x.numberU64 = some (x.hash B.crypto)
  above : ∀ n, bc.currentBlock.numberU64 < n → bc.db.canonical n = none
  genesis : ∀ {x}, bc.AncestorOf x bc.currentBlock → x.numberU64 = 0 → bc.genesisBlock.Like B.crypto x
  opens : bc.hasState bc.genesisBlock.header.stateRoot = true

end BlockChain

/-- What the cache may hold under a hash: a block of that hash whose header is stored under it. -/
structure BlockChain.MayCache (bc : BlockChain B) (key : Hash) (b : Block) : Prop where
  hash : b.hash B.crypto = key
  number : bc.db.headerNumber key = some b.numberU64
  header : bc.db.headers (b.numberU64, key) = some b.header

namespace Caches

/-- The cached blocks are those of the database. -/
def Coherent (bc : BlockChain B) (c : Caches) : Prop := c.block.All bc.MayCache

/-- No getter finds the block. -/
structure Unreadable (bc : BlockChain B) (c : Caches) (x : Block) : Prop where
  getHeader : (c.getHeader bc (x.hash B.crypto) x.numberU64).1 = none
  getHeaderByHash : (c.getHeaderByHash bc (x.hash B.crypto)).1 = none
  getHeaderByNumber : (c.getHeaderByNumber bc x.numberU64).1 = none
  hasBlock : c.hasBlock bc (x.hash B.crypto) x.numberU64 = false
  getBlock : (c.getBlock bc (x.hash B.crypto) x.numberU64).1 = none
  getBlockByHash : (c.getBlockByHash bc (x.hash B.crypto)).1 = none
  getBlockByNumber : (c.getBlockByNumber bc x.numberU64).1 = none
  getBlockNumber : (c.getBlockNumber bc (x.hash B.crypto)).1 = none
  getTd : (c.getTd bc (x.hash B.crypto) x.numberU64).1 = none
  getTdByHash : (c.getTdByHash bc (x.hash B.crypto)).1 = none

variable {bc bc' : BlockChain B} {c c' : Caches} {block last x y p : Block} {blocks : List Block} {fuel target : ℕ}

section Walk

variable (sound : bc.Sound)

include sound

/-- The parent of a canonical block is read alike from the caches and from the database. -/
theorem Coherent.parent (coherent : c.Coherent bc) (ancestor : bc.AncestorOf x bc.currentBlock)
    (read : bc.parentOf x = some p) : ∃ b c',
      c.getBlock bc x.header.parentHash (pred64 x.numberU64) = (some b, c') ∧ c'.Coherent bc ∧
      b.header = p.header ∧ b.hash B.crypto = p.hash B.crypto := by
  have inside : bc.AncestorOf p bc.currentBlock := ancestor.trans (.up read .refl)
  have link := sound.linked ancestor read
  have number := link ▸ sound.numbered inside
  have position : pred64 x.numberU64 = p.numberU64 := by
    have next := sound.rooted.graded.height ancestor read
    rw [next, pred64_succ (next ▸ x.header.numberU64_lt)]
  obtain ⟨header, txs, stored, -, rfl⟩ := BlockChain.getBlock_eq_some.mp read
  rw [position] at stored
  have entry : bc.MayCache x.header.parentHash ((Block.fresh header txs).hashed B.crypto) := ⟨link, number, stored⟩
  obtain ⟨b, blocks, fetched, all, found⟩ := Lru.All.fetch_some coherent entry
  refine ⟨b, { c with block := blocks }, ?_, all, ?_⟩
  · rw [BlockChain.parentOf] at read
    rw [Caches.getBlock, read, Option.map_some, link, fetched]
  · rcases found with held | rfl
    · have level := Option.some.inj (held.number.symm.trans number)
      have header' := held.header
      rw [level] at header'
      exact ⟨Option.some.inj (header'.symm.trans stored), held.hash.trans link.symm⟩
    · exact ⟨rfl, rfl⟩

/-- The walk through the caches passes blocks with the headers of the walk through the database. -/
theorem Coherent.rewind (coherent : c.Coherent bc) (ancestor : bc.AncestorOf x bc.currentBlock)
    (header : block.header = x.header) (hash : block.hash B.crypto = x.hash B.crypto)
    (ran : Caches.rewind bc target fuel block c = .ok (blocks, last, c')) :
    ∃ blocks' last', bc.rewind target fuel x = .ok (blocks', last') ∧
      blocks.map Block.header = blocks'.map Block.header ∧ last.header = last'.header ∧
      last.hash B.crypto = last'.hash B.crypto := by
  induction fuel generalizing block x c blocks with
  | zero => cases ran
  | succ fuel ih =>
    have number : block.numberU64 = x.numberU64 := congrArg Header.numberU64 header
    unfold Caches.rewind at ran
    unfold BlockChain.rewind
    by_cases reached : x.numberU64 ≤ target
    · rw [if_pos (number ▸ reached)] at ran
      obtain ⟨rfl, rfl, rfl⟩ := by simpa using ran
      exact ⟨[], x, if_pos reached, rfl, header, hash⟩
    · obtain ⟨p, read, next⟩ := sound.rooted.parent ancestor (by omega)
      obtain ⟨b, c₁, found, kept, header', hash'⟩ := coherent.parent sound ancestor read
      rw [if_neg (number ▸ reached), header, number, found] at ran
      obtain ⟨result, rest, ran⟩ := except_map_eq_ok.mp ran
      cases ran
      obtain ⟨blocks', last', walked, headers, same⟩ := ih kept (ancestor.trans (.up read .refl)) header' hash' rest
      refine ⟨x :: blocks', last', ?_, by rw [map_cons, map_cons, headers, header], same⟩
      rw [if_neg reached, read]
      simp only [walked, Except.map]

end Walk

section Load

variable {K : Set Hash} {head noted : Hash} {number number' : ℕ} {header : Header}

/-- The header `loadLastState` reports has a hash that may be cached, and only hashes that may be are. -/
theorem lastHeader_within (within : c.Within K) (known : c.number.All fun hash n => bc.db.headerNumber hash = some n)
    (isEmpty : c.header.All fun hash _ => hash ∈ (∅ : Set Hash)) (own : block.header.hashOf B.crypto ∈ K)
    (isNoted : bc.db.headHeader = some noted) (isNumber : bc.db.headerNumber noted = some number)
    (stored : bc.getHeader noted number = some header) (own' : header.hashOf B.crypto = noted) (inside : noted ∈ K) :
    (lastHeader bc c block).1.hashOf B.crypto ∈ K ∧ (lastHeader bc c block).2.Within K := by
  have within₁ := within.getBlockNumber bc inside
  have within₂ := within₁.getHeader bc inside number
  have found : c.getBlockNumber bc noted = (some number, (c.getBlockNumber bc noted).2) :=
    Prod.ext ((known.fetch_eq noted).trans isNumber) rfl
  have read : (c.getBlockNumber bc noted).2.getHeader bc noted number =
      (some header, ((c.getBlockNumber bc noted).2.getHeader bc noted number).2) := by
    refine Prod.ext ((isEmpty.fetch_of_not (Set.notMem_empty noted) _).trans ?_) rfl
    rw [stored]
    rfl
  unfold lastHeader
  simp only [isNoted, Option.getD_some]
  by_cases zero : noted = 0
  · rw [if_pos zero]
    exact ⟨own, within⟩
  · rw [if_neg zero, getHeaderByHash, byHash, found]
    dsimp only
    rw [read]
    exact ⟨own' ▸ inside, within₂⟩

/-- `loadLastState` from empty caches: the block that is noted as the head becomes it if its state opens, and only its
hash and that of the noted header are cached. -/
theorem loadLastState_ok (ran : loadLastState bc fuel c.purge = .ok (bc', c'))
    (isHead : bc.db.headBlock = some head) (isNumber : bc.db.headerNumber head = some number)
    (stored : bc.getBlock head number = some block) (own : block.header.hashOf B.crypto = head)
    (opens : bc.hasState block.header.stateRoot = true)
    (isNoted : bc.db.headHeader = some noted) (isNumber' : bc.db.headerNumber noted = some number')
    (stored' : bc.getHeader noted number' = some header) (own' : header.hashOf B.crypto = noted) :
    bc' = { bc with currentBlock := block.hashed B.crypto } ∧ c'.Within {head, noted} := by
  have here : head ∈ ({head, noted} : Set Hash) := .inl rfl
  have kept : block.hash B.crypto = head := by
    rw [(Database.fresh_of_readBlock stored).hash, own]
  have purged := within_purge {head, noted} c
  generalize loaded : ({ c.purge with
    number := c.number.purge.add head number
    block := c.block.purge.add head (block.hashed B.crypto) } : Caches) = c₁
  have read : c.purge.getBlockByHash bc head = (some (block.hashed B.crypto), c₁) := by
    rw [← loaded]
    simp [getBlockByHash, byHash, getBlockNumber, Caches.getBlock, Caches.purge, isNumber, stored, kept]
  have within : c₁.Within {head, noted} := by
    rw [← loaded]
    exact ⟨purged.header, purged.td, purged.number.add here, purged.block.add here⟩
  have known : c₁.number.All fun hash n => bc.db.headerNumber hash = some n := by
    rw [← loaded]
    exact Lru.all_purge.add isNumber
  have isEmpty : c₁.header.All fun hash _ => hash ∈ (∅ : Set Hash) := by
    rw [← loaded]
    exact Lru.all_purge
  have own₁ : (block.hashed B.crypto).header.hashOf B.crypto ∈ ({head, noted} : Set Hash) := own ▸ here
  obtain ⟨reported, within₂⟩ := lastHeader_within within known isEmpty own₁ isNoted isNumber' stored' own' (.inr rfl)
  unfold loadLastState at ran
  simp only [isHead, Option.getD_some, read] at ran
  split_ifs at ran
  obtain ⟨⟨b, c₂⟩, repaired, ended⟩ := except_bind_eq_ok.mp ran
  have same : b = block.hashed B.crypto ∧ c₂ = c₁ := by
    cases fuel with
    | zero => cases repaired
    | succ fuel =>
      rw [repair, Block.header_hashed, if_pos opens] at repaired
      exact Prod.mk.inj (Except.ok.inj repaired).symm
  obtain ⟨rfl, rfl⟩ := same
  cases ended
  refine ⟨rfl, (within₂.getTd bc reported _).getTd bc ?_ _⟩
  rw [Block.hash_hashed, kept]
  exact here

end Load

end Caches

namespace BlockChain

variable {bc bc' : BlockChain B} {c c' : Caches} {block last x y : Block} {blocks : List Block} {fuel target : ℕ}

/-- What is deleted depends on the headers only. -/
theorem deleteAbove_congr {blocks' : List Block} (headers : blocks.map Block.header = blocks'.map Block.header) :
    bc.deleteAbove target blocks = bc.deleteAbove target blocks' := by
  have fold : ∀ (l : List Block) (db : Database),
      l.foldl (fun db block => db.deleteBlock (block.header.hashOf B.crypto) block.numberU64) db =
        (l.map Block.header).foldl (fun db header => db.deleteBlock (header.hashOf B.crypto) header.numberU64) db :=
    fun l db => by rw [foldl_map]; rfl
  simp only [deleteAbove, fold, headers]

namespace Sound

variable (sound : bc.Sound) (walked : bc.rewind target fuel bc.currentBlock = .ok (blocks, last))

include sound walked

theorem rewind : Descends bc last blocks bc.currentBlock ∧ last.numberU64 = min target bc.currentBlock.numberU64 ∧
    bc.AncestorOf last bc.currentBlock := by
  obtain ⟨descends, number⟩ := (sound.rooted.walkable sound.rooted).rewind (.inl .refl) walked
  exact ⟨descends, number, descends.ancestor_iff.mpr (.inr .refl)⟩

theorem ancestor_of_mem (mem : x ∈ blocks) : bc.AncestorOf x bc.currentBlock :=
  (sound.rewind walked).1.ancestor_iff.mpr (.inl mem)

/-- The canonical blocks above the target are those that are passed. -/
theorem mem_of_above (ancestor : bc.AncestorOf x bc.currentBlock) (above : target < x.numberU64) : x ∈ blocks := by
  obtain ⟨descends, number, reached⟩ := sound.rewind walked
  rcases descends.ancestor_iff.mp ancestor with mem | lower
  · exact mem
  · have bound := lower.height_le (sound.rooted.below reached).graded .refl
    omega

/-- The canonical blocks up to the target are still found. -/
theorem kept (ancestor : bc.AncestorOf x bc.currentBlock) (below : x.numberU64 ≤ target) :
    (bc.deleteAbove target blocks).db.headerNumber (x.hash B.crypto) = some x.numberU64 ∧
      (bc.deleteAbove target blocks).getBlock (x.hash B.crypto) x.numberU64 =
        bc.getBlock (x.hash B.crypto) x.numberU64 := by
  have above := rewind_above walked
  constructor
  · have number : (bc.deleteAbove target blocks).db.headerNumber (x.hash B.crypto) = _ :=
      headerNumber_deleteAll blocks bc.db (x.hash B.crypto)
    rw [number, if_neg, sound.numbered ancestor]
    intro deleted
    obtain ⟨b, mem, same⟩ := mem_map.mp deleted
    have inside := sound.ancestor_of_mem walked mem
    have numbered := sound.numbered inside
    rw [sound.hashed inside, same, sound.numbered ancestor] at numbered
    have := above b mem
    have := Option.some.inj numbered
    omega
  · exact getBlock_deleteAbove bc target (fun b mem => below.trans_lt (above b mem)) _

/-- The canonical blocks above the target are gone from all tables. -/
theorem deleted (ancestor : bc.AncestorOf x bc.currentBlock) (above : target < x.numberU64) :
    let db := (bc.deleteAbove target blocks).db
    db.headers (x.numberU64, x.hash B.crypto) = none ∧ db.bodies (x.numberU64, x.hash B.crypto) = none ∧
      db.tds (x.numberU64, x.hash B.crypto) = none ∧ db.headerNumber (x.hash B.crypto) = none ∧
      db.canonical x.numberU64 = none := by
  have mem := sound.mem_of_above walked ancestor above
  have entry : (x.numberU64, x.hash B.crypto) ∈ blocks.map (key B) :=
    mem_map.mpr ⟨x, mem, by rw [key, sound.hashed ancestor]⟩
  have hash : x.hash B.crypto ∈ blocks.map (·.header.hashOf B.crypto) :=
    mem_map.mpr ⟨x, mem, (sound.hashed ancestor).symm⟩
  obtain ⟨headers, bodies, tds⟩ := deleteAll (B := B) blocks bc.db (x.numberU64, x.hash B.crypto)
  have number := headerNumber_deleteAll (B := B) blocks bc.db (x.hash B.crypto)
  rw [if_pos entry] at headers bodies tds
  rw [if_pos hash] at number
  refine ⟨headers, bodies, tds, number, ?_⟩
  rw [canonical_deleteAbove, if_pos ⟨above, ancestor.height_le sound.rooted.graded .refl⟩]

end Sound

/-- A canonical block as it is stored. -/
theorem Sound.stored (sound : bc.Sound) (ancestor : bc.AncestorOf x bc.currentBlock) :
    ∃ b, bc.getBlock (x.hash B.crypto) x.numberU64 = some b ∧ b.header.hashOf B.crypto = x.hash B.crypto ∧
      (b.hashed B.crypto).Like B.crypto x := by
  obtain ⟨b, read, header, txs⟩ := sound.rooted.recorded ancestor
  have own : b.header.hashOf B.crypto = x.hash B.crypto := by rw [header, sound.hashed ancestor]
  refine ⟨b, read, own, header, ?_, txs⟩
  rw [Block.hash_hashed, (Database.fresh_of_readBlock read).hash, own]

/-- The head `SetHead` settles on is a canonical block whose state opens: the block reached, or the one of number
zero if the state of that block does not open. -/
theorem Sound.settle (sound : bc.Sound) (walked : bc.rewind target fuel bc.currentBlock = .ok (blocks, last))
    (header : block.header = last.header) (hash : block.hash B.crypto = last.hash B.crypto) :
    ∃ y, bc.AncestorOf y bc.currentBlock ∧ y.numberU64 ≤ target ∧ bc.hasState y.header.stateRoot = true ∧
      ((bc.deleteAbove target blocks).settle block).hash B.crypto = y.hash B.crypto ∧
      (bc.hasState last.header.stateRoot = true ∧ y = last ∨
        bc.hasState last.header.stateRoot = false ∧ y.numberU64 = 0 ∧ bc.genesisBlock.Like B.crypto y) := by
  obtain ⟨descends, number, reached⟩ := sound.rewind walked
  have state : (bc.deleteAbove target blocks).hasState block.header.stateRoot = bc.hasState last.header.stateRoot := by
    rw [header]
    rfl
  cases opens : bc.hasState last.header.stateRoot with
  | true =>
    refine ⟨last, reached, by omega, opens, ?_, .inl ⟨rfl, rfl⟩⟩
    rw [BlockChain.settle, if_pos (state.trans opens), hash]
  | false =>
    obtain ⟨y, ancestor, zero⟩ := sound.rooted.exists_ancestor (Nat.zero_le _)
    have like := sound.genesis ancestor zero
    refine ⟨y, ancestor, by omega, ?_, ?_, .inr ⟨rfl, zero, like⟩⟩
    · rw [← like.header]
      exact sound.opens
    · rw [BlockChain.settle, if_neg (by rw [state, opens]; exact Bool.false_ne_true)]
      exact like.hash

/-- Everything a successful `SetHead` did on a sound chain. -/
theorem Sound.setHead (sound : bc.Sound) (coherent : c.Coherent bc)
    (ran : Caches.setHead bc fuel target c = .ok (bc', c')) :
    ∃ blocks last y, bc.rewind target fuel bc.currentBlock = .ok (blocks, last) ∧
      bc.AncestorOf y bc.currentBlock ∧ y.numberU64 ≤ target ∧
      (bc.hasState last.header.stateRoot = true ∧ y = last ∨
        bc.hasState last.header.stateRoot = false ∧ y.numberU64 = 0 ∧ bc.genesisBlock.Like B.crypto y) ∧
      bc'.currentBlock.Like B.crypto y ∧ (bc.deleteAbove target blocks).SameStore bc' ∧
      bc'.db.canonical = (bc.deleteAbove target blocks).db.canonical ∧
      c'.Within {y.hash B.crypto, last.hash B.crypto} := by
  obtain ⟨⟨blocks₁, last₁, c₁⟩, walked₁, ended⟩ := except_bind_eq_ok.mp ran
  obtain ⟨blocks, last, walked, headers, header, hash⟩ := coherent.rewind sound .refl rfl rfl walked₁
  obtain ⟨descends, number, reached⟩ := sound.rewind walked
  obtain ⟨y, ancestor, below, opens, settled, which⟩ := sound.settle walked header hash
  obtain ⟨b, read, own, like⟩ := sound.stored ancestor
  obtain ⟨b', read', own', -⟩ := sound.stored reached
  obtain ⟨isNumber, kept⟩ := sound.kept walked ancestor below
  obtain ⟨isNumber', kept'⟩ := sound.kept walked reached (by omega)
  obtain ⟨header', txs', stored', -, rfl⟩ := getBlock_eq_some.mp (kept'.trans read')
  have noted : last₁.header.hashOf B.crypto = last.hash B.crypto := by rw [header, sound.hashed reached]
  have opens' : (bc.deleteAbove target blocks).hasState b.header.stateRoot = true := by
    rw [show b.header = y.header from like.header]
    exact opens
  dsimp only at ended
  rw [deleteAbove_congr headers] at ended
  obtain ⟨rfl, within⟩ := Caches.loadLastState_ok ended (congrArg some settled) isNumber (kept.trans read) own opens'
    (congrArg some noted) isNumber' stored' own'
  exact ⟨blocks, last, y, walked, ancestor, below, which, like, ⟨rfl, rfl, rfl, rfl, rfl, rfl⟩, rfl, within⟩

/-- What `SetHead` is for. The head is the canonical block at the target, or the old head if that is lower, and the
genesis block if its state cannot be opened; the index ends at the head, and nothing above the target can be read. -/
structure Rewound (bc : BlockChain B) (target : ℕ) (bc' : BlockChain B) (c' : Caches) : Prop where
  head : ∀ {x}, bc.AncestorOf x bc.currentBlock → x.numberU64 = min target bc.currentBlock.numberU64 →
    if bc.hasState x.header.stateRoot then bc'.currentBlock.Like B.crypto x
    else bc'.currentBlock.Like B.crypto bc.genesisBlock
  index : ∀ n, bc'.currentBlock.numberU64 < n → bc'.db.canonical n = none
  gone : ∀ {x}, bc.AncestorOf x bc.currentBlock → target < x.numberU64 → c'.Unreadable bc' x

/-- A block that is in none of the tables and under none of the cached hashes cannot be read. -/
theorem unreadable_of_deleted {K : Set Hash} (within : c.Within K) (outside : x.hash B.crypto ∉ K)
    (header : bc.db.headers (x.numberU64, x.hash B.crypto) = none)
    (body : bc.db.bodies (x.numberU64, x.hash B.crypto) = none)
    (td : bc.db.tds (x.numberU64, x.hash B.crypto) = none) (number : bc.db.headerNumber (x.hash B.crypto) = none)
    (canonical : bc.db.canonical x.numberU64 = none) : c.Unreadable bc x where
  getHeader := (within.getHeader_fst bc outside _).trans header
  getHeaderByHash := within.byHash_fst bc outside _ number
  getHeaderByNumber := c.byNumber_fst bc _ canonical
  hasBlock := by rw [within.hasBlock bc outside, hasBlock, body, Option.isSome_none]
  getBlock := by
    rw [within.getBlock_fst bc outside, getBlock, Database.readBlock, header]
    rfl
  getBlockByHash := within.byHash_fst bc outside _ number
  getBlockByNumber := c.byNumber_fst bc _ canonical
  getBlockNumber := (within.getBlockNumber_fst bc outside).trans number
  getTd := (within.getTd_fst bc outside _).trans td
  getTdByHash := within.byHash_fst bc outside _ number

/-- Canonical blocks of different numbers have different hashes. -/
theorem Sound.hash_ne (sound : bc.Sound) (first : bc.AncestorOf x bc.currentBlock)
    (second : bc.AncestorOf y bc.currentBlock) (lower : y.numberU64 < x.numberU64) :
    x.hash B.crypto ≠ y.hash B.crypto := by
  intro same
  have number := sound.numbered first
  rw [same, sound.numbered second] at number
  have := Option.some.inj number
  omega

/-- The canonical block of a number is one. -/
theorem Sound.eq_of_number (sound : bc.Sound) (first : bc.AncestorOf x bc.currentBlock)
    (second : bc.AncestorOf y bc.currentBlock) (level : x.numberU64 = y.numberU64) : x = y :=
  (first.chain second sound.rooted.graded .refl level.le).eq_of_height_le (sound.rooted.below second).graded .refl
    level.ge

/-- Whatever becomes the head, no canonical block above the target can be read any more. -/
theorem Sound.gone (sound : bc.Sound) (coherent : c.Coherent bc)
    (ran : Caches.setHead bc fuel target c = .ok (bc', c')) (inside : bc.AncestorOf x bc.currentBlock)
    (above : target < x.numberU64) : c'.Unreadable bc' x := by
  obtain ⟨blocks, last, y, walked, ancestor, below, -, -, same, index, within⟩ := sound.setHead coherent ran
  obtain ⟨descends, number, reached⟩ := sound.rewind walked
  obtain ⟨header, body, td, isNumber, canonical⟩ := sound.deleted walked inside above
  refine unreadable_of_deleted within ?_ (same.headers ▸ header) (same.bodies ▸ body) (same.tds ▸ td)
    (same.headerNumber ▸ isNumber) (index ▸ canonical)
  rintro (isHead | isLast)
  · exact sound.hash_ne inside ancestor (by omega) isHead
  · exact sound.hash_ne inside reached (by omega) isLast

/-- `SetHead` does what it is for exactly if the state of the canonical block at the target, or of the head if that is
lower, can be opened. -/
theorem rewound_iff_opens (sound : bc.Sound) (coherent : c.Coherent bc)
    (ran : Caches.setHead bc fuel target c = .ok (bc', c')) :
    bc.Rewound target bc' c' ↔ ∀ x, bc.AncestorOf x bc.currentBlock →
      x.numberU64 = min target bc.currentBlock.numberU64 → bc.hasState x.header.stateRoot = true := by
  obtain ⟨blocks, last, y, walked, ancestor, below, which, like, same, index, within⟩ := sound.setHead coherent ran
  obtain ⟨descends, number, reached⟩ := sound.rewind walked
  have headNumber : bc'.currentBlock.numberU64 = y.numberU64 := congrArg Header.numberU64 like.header
  constructor
  · -- without its state the head is the genesis block, and the entry above it is still there
    intro rewound x inside isNumber
    obtain rfl := sound.eq_of_number inside reached (by omega)
    rcases which with ⟨opens, -⟩ | ⟨fails, zero, -⟩
    · exact opens
    · have positive : x.numberU64 ≠ 0 := by
        intro isZero
        rw [← (sound.genesis inside isZero).header, sound.opens] at fails
        cases fails
      obtain ⟨z, canonical, isOne⟩ := sound.rooted.exists_ancestor (show 1 ≤ bc.currentBlock.numberU64 by omega)
      have entry := rewound.index 1 (by omega)
      rw [index, canonical_deleteAbove, if_neg (by omega), ← isOne, sound.index canonical] at entry
      cases entry
  · intro opens
    rcases which with ⟨-, rfl⟩ | ⟨fails, -⟩
    · refine ⟨fun inside isNumber => ?_, fun n higher => ?_, fun inside above => sound.gone coherent ran inside above⟩
      · obtain rfl := sound.eq_of_number inside reached (by omega)
        rw [if_pos (opens _ inside isNumber)]
        exact like
      · rw [index, canonical_deleteAbove]
        split_ifs with removed
        · rfl
        · exact sound.above n (by omega)
    · rw [opens last reached number] at fails
      cases fails

end BlockChain

namespace Backend.tally

open BlockChain

/-- A block whose state was not committed. -/
def dangling : Block := .fresh (header (hash 0) 1 10 131072 7 1) []

/-- Two blocks on the genesis block, where the state of the lower one is missing. -/
def danglingChain : List (Hash × Block) :=
  [(hash 2, plain (hash 1) 2 2), (hash 1, dangling), (hash 0, genesis.block)]

def withDangling : BlockChain Backend.tally where
  db := .ofEntries danglingChain danglingChain
  stateDb := ([0] : List Hash)
  currentBlock := plain (hash 1) 2 2
  genesisBlock := genesis.block

theorem evaluated_dangling :
    (genesis.block.hash .numeral = hash 0 ∧ dangling.hash .numeral = hash 1 ∧
      (plain (hash 1) 2 2).hash .numeral = hash 2) ∧
    (withDangling.parentOf genesis.block = none ∧
      withDangling.parentOf dangling = some genesis.block ∧ withDangling.parentOf (plain (hash 1) 2 2) = some dangling ∧
      withDangling.getBlock (hash 0) 0 = some genesis.block ∧ withDangling.getBlock (hash 1) 1 = some dangling ∧
      withDangling.getBlock (hash 2) 2 = some (plain (hash 1) 2 2)) ∧
    (withDangling.db.headerNumber (hash 0) = some 0 ∧
      withDangling.db.headerNumber (hash 1) = some 1 ∧ withDangling.db.headerNumber (hash 2) = some 2 ∧
      withDangling.db.canonical 0 = some (hash 0) ∧ withDangling.db.canonical 1 = some (hash 1) ∧
      withDangling.db.canonical 2 = some (hash 2)) ∧
    (Caches.setHead withDangling 4 0 .empty).toOption.isSome = true ∧
    (Caches.setHead withDangling 4 1 .empty).toOption.any (fun (bc', _) =>
      bc'.currentBlock.numberU64 = 0 ∧ bc'.db.canonical 1 = some (hash 1)) = true := by
  decide +kernel

theorem descends_dangling :
    withDangling.Descends genesis.block [plain (hash 1) 2 2, dangling] withDangling.currentBlock :=
  .cons evaluated_dangling.2.1.2.2.1 rfl (.cons evaluated_dangling.2.1.2.1 rfl .nil)

theorem ancestor_dangling {x : Block} (ancestor : withDangling.AncestorOf x withDangling.currentBlock) :
    x = plain (hash 1) 2 2 ∨ x = dangling ∨ x = genesis.block := by
  simpa [or_assoc] using (descends_dangling.ancestor_iff_mem evaluated_dangling.2.1.1).mp ancestor

theorem rooted_dangling : withDangling.Rooted withDangling.currentBlock := by
  obtain ⟨⟨hash₀, hash₁, hash₂⟩, ⟨orphan, -, -, stored₀, stored₁, stored₂⟩, -⟩ := evaluated_dangling
  refine descends_dangling.rooted orphan rfl ?_ ⟨_, hash₀ ▸ stored₀, rfl, rfl⟩
  exact forall_mem_cons.mpr ⟨⟨_, hash₂ ▸ stored₂, rfl, rfl⟩, forall_mem_singleton.mpr
    ⟨_, hash₁ ▸ stored₁, rfl, rfl⟩⟩

theorem sound_dangling : withDangling.Sound where
  rooted := rooted_dangling
  hashed ancestor := by
    obtain rfl | rfl | rfl := ancestor_dangling ancestor <;> exact Block.hash_fresh ..
  linked ancestor read := by
    obtain ⟨⟨hash₀, hash₁, -⟩, ⟨orphan, read₁, read₂, -⟩, -⟩ := evaluated_dangling
    obtain rfl | rfl | rfl := ancestor_dangling ancestor
    · rw [Option.some.inj (read.symm.trans read₂)]
      exact hash₁
    · rw [Option.some.inj (read.symm.trans read₁)]
      exact hash₀
    · rw [orphan] at read
      cases read
  numbered ancestor := by
    obtain ⟨⟨hash₀, hash₁, hash₂⟩, -, ⟨number₀, number₁, number₂, -⟩, -⟩ := evaluated_dangling
    obtain rfl | rfl | rfl := ancestor_dangling ancestor
    · exact hash₂ ▸ number₂
    · exact hash₁ ▸ number₁
    · exact hash₀ ▸ number₀
  index ancestor := by
    obtain ⟨⟨hash₀, hash₁, hash₂⟩, -, ⟨-, -, -, entry₀, entry₁, entry₂⟩, -⟩ := evaluated_dangling
    obtain rfl | rfl | rfl := ancestor_dangling ancestor
    · exact hash₂ ▸ entry₂
    · exact hash₁ ▸ entry₁
    · exact hash₀ ▸ entry₀
  above n higher := by
    have absent : danglingChain.find? (·.2.numberU64 = n) = none := by
      rw [find?_eq_none]
      intro e mem
      have low : ∀ e ∈ danglingChain, e.2.numberU64 ≤ 2 := by decide
      have high : 2 < n := higher
      have := low e mem
      simp only [decide_eq_true_eq]
      omega
    exact congrArg (Option.map Prod.fst) absent
  genesis ancestor zero := by
    obtain rfl | rfl | rfl := ancestor_dangling ancestor
    · cases zero
    · cases zero
    · exact ⟨rfl, rfl, rfl⟩
  opens := rfl

theorem coherent_empty : Caches.empty.Coherent withDangling := Lru.all_empty _

end Backend.tally

theorem eq_ok_of_toOption {ε α : Type} {x : Except ε α} {a : α} (returned : x.toOption = some a) : x = .ok a := by
  cases x with
  | ok b => exact congrArg _ (Option.some.inj returned)
  | error e => cases returned

open Backend.tally BlockChain in
/-- A rewind to the genesis block. -/
theorem rewound_dangling : ∃ bc' c', Caches.setHead withDangling 4 0 .empty = .ok (bc', c') ∧
    withDangling.Rewound 0 bc' c' := by
  obtain ⟨⟨bc', c'⟩, returned⟩ := Option.isSome_iff_exists.mp evaluated_dangling.2.2.2.1
  have ran := eq_ok_of_toOption returned
  refine ⟨bc', c', ran, (rewound_iff_opens sound_dangling coherent_empty ran).mpr ?_⟩
  intro x ancestor zero
  rw [← (sound_dangling.genesis ancestor zero).header]
  rfl

open Backend.tally BlockChain in
/-- A rewind by one, to a block without state: the genesis block becomes the head, and the entry of the block stays in
the index. -/
theorem not_rewound_dangling : ¬ ∀ (B : Backend) (bc bc' : BlockChain B) (c c' : Caches) (fuel target : ℕ),
    bc.Sound → c.Coherent bc → Caches.setHead bc fuel target c = .ok (bc', c') → bc.Rewound target bc' c' := by
  intro always
  obtain ⟨⟨bc', c'⟩, returned, facts⟩ := (Option.any_eq_true _ _).mp evaluated_dangling.2.2.2.2
  obtain ⟨number, entry⟩ := of_decide_eq_true facts
  have rewound := always _ _ _ _ _ _ _ sound_dangling coherent_empty (eq_ok_of_toOption returned)
  rw [rewound.index 1 (by omega)] at entry
  cases entry

end KKChain
