import KKChain.Types.Block
import Mathlib.Logic.Function.Basic

/-! # Blocks and the chain database

A block computes its hash once and keeps it, also when its header is written to afterwards. The database
keeps headers, bodies and total difficulties under number and hash, and the indexes of the canonical
chain. A body is written under the hash the block kept, a header under the hash it has when it is written.
Numbers are the 64 bit words they are encoded as.
-/

namespace KKChain

open Rlp BigEndian

theorem Bloom.bytes_injective : Function.Injective Bloom.bytes := by
  intro first second same
  have fits : ∀ (w : ℕ) (b : BitVec w), w = 8 * 256 → b.toNat < (2 ^ 8) ^ 256 := by
    intro w b width
    rw [← pow_mul, ← width]
    exact b.isLt
  exact BitVec.eq_of_toNat_eq (fixed_inj (fits _ first rfl) (fits _ second rfl) same)

namespace Header

/-- `Hash` of a header that fits into memory. -/
def hashOf (C : Crypto) (h : Header) : Hash := (h.hash C).getD 0

def Encodes (h : Header) : Prop := 0 ≤ h.difficulty ∧ 0 ≤ h.number ∧ 0 ≤ h.time

instance (h : Header) : Decidable h.Encodes := inferInstanceAs (Decidable (_ ∧ _ ∧ _))

def item (h : Header) : Item :=
  .list [.str h.parentHash.bytes, .str h.miner.bytes, .str h.stateRoot.bytes, .str h.txRoot.bytes,
    .str h.receiptRoot.bytes, .str h.bloom.bytes, .str (BigEndian.minimal h.difficulty.natAbs),
    .str (BigEndian.minimal h.number.natAbs), .str (BigEndian.minimal h.gasLimit.toNat),
    .str (BigEndian.minimal h.gasUsed.toNat), .str (BigEndian.minimal h.time.natAbs), .str h.extra,
    .str h.mixDigest.bytes, .str (BigEndian.fixed 8 h.nonce.toNat)]

theorem value_item (h : Header) :
    h.value.item = if h.Encodes then .ok h.item else .error .negativeBigInt := by
  simp only [value, Value.item_list, Value.items_cons, Value.items_nil, Value.item_uint, Value.item_bytes,
    bigInt_item, Encodable, Option.getD_some, Encodes, item]
  by_cases difficulty : 0 ≤ h.difficulty <;> by_cases number : 0 ≤ h.number <;>
    by_cases time : 0 ≤ h.time <;> simp [difficulty, number, time, Except.map]

theorem item_inj {h h' : Header} (first : h.Encodes) (second : h'.Encodes) (same : h.item = h'.item) :
    h = h' := by
  simp only [item, Item.list.injEq, List.cons.injEq, Item.str.injEq] at same
  obtain ⟨parentHash, miner, stateRoot, txRoot, receiptRoot, bloom, difficulty, number, gasLimit, gasUsed, time,
    extra, mixDigest, nonce, -⟩ := same
  obtain ⟨difficulty₁, number₁, time₁⟩ := first
  obtain ⟨difficulty₂, number₂, time₂⟩ := second
  have absolute : ∀ {i j : ℤ}, 0 ≤ i → 0 ≤ j → BigEndian.minimal i.natAbs = BigEndian.minimal j.natAbs → i = j := by
    intro i j first second same
    have := minimal_injective same
    omega
  cases h
  cases h'
  simp only [Header.mk.injEq]
  exact ⟨Hash.bytes_injective parentHash, Address.bytes_injective miner, Hash.bytes_injective stateRoot,
    Hash.bytes_injective txRoot, Hash.bytes_injective receiptRoot, Bloom.bytes_injective bloom,
    absolute difficulty₁ difficulty₂ difficulty, absolute number₁ number₂ number,
    UInt64.toNat_inj.mp (minimal_injective gasLimit),
    UInt64.toNat_inj.mp (minimal_injective gasUsed),
    absolute time₁ time₂ time, extra, Hash.bytes_injective mixDigest,
    BitVec.eq_of_toNat_eq (fixed_inj (by exact BitVec.isLt _) (by exact BitVec.isLt _) nonce)⟩

/-- The header can be written to the database. -/
def Encoded (h : Header) : Prop := ∃ enc, encodeToBytes h.value = some (.ok enc)

theorem encoded_of_isOk {h : Header} (returned : (encodeToBytes h.value).any Except.isOk = true) : h.Encoded := by
  unfold Encoded
  revert returned
  rcases encodeToBytes h.value with _ | _ | enc
  · rintro ⟨⟩
  · rintro ⟨⟩
  · exact fun _ => ⟨enc, rfl⟩

end Header

/-- No two headers of `S` collide under Keccak, and none hashes to the hash that stands for absence. -/
structure CollisionFree (C : Crypto) (S : Set Header) : Prop where
  injOn : Set.InjOn C.keccak {input | ∃ h ∈ S, encodeUnchecked h.value = some input}
  nonzero : ∀ h ∈ S, ∀ input, encodeUnchecked h.value = some input → C.keccak input ≠ 0

namespace CollisionFree

variable {C : Crypto} {S T : Set Header}

theorem mono (free : CollisionFree C T) (within : S ⊆ T) : CollisionFree C S where
  injOn := by
    apply free.injOn.mono
    rintro input ⟨h, mem, hashed⟩
    exact ⟨h, within mem, hashed⟩
  nonzero h mem := free.nonzero h (within mem)

theorem hashOf_eq {h : Header} {input : Bytes} (hashed : encodeUnchecked h.value = some input) :
    h.hashOf C = C.keccak input := by
  simp [Header.hashOf, Header.hash, rlpHash, hashed]

/-- Headers that their hashes tell apart do not collide. -/
theorem of_injOn (injective : Set.InjOn (Header.hashOf C) S) (nonzero : ∀ h ∈ S, h.hashOf C ≠ 0) :
    CollisionFree C S := by
  constructor
  · rintro input ⟨h, mem, hashed⟩ input' ⟨h', member', hashed'⟩ same
    obtain rfl : h = h' := injective mem member' (by rw [hashOf_eq hashed, hashOf_eq hashed', same])
    exact Option.some.inj (hashed.symm.trans hashed')
  · intro h mem input hashed
    rw [← hashOf_eq hashed]
    exact nonzero h mem

theorem hashOf_ne_zero (free : CollisionFree C S) {h : Header} (mem : h ∈ S) (encoded : h.Encoded) :
    h.hashOf C ≠ 0 := by
  obtain ⟨enc, ran⟩ := encoded
  have input : encodeUnchecked h.value = some enc := by simp [encodeUnchecked, ran]
  rw [hashOf_eq input]
  exact free.nonzero h mem enc input

/-- A header that can be written is told apart by its hash. -/
theorem eq_of_hashOf_eq (free : CollisionFree C S) {h h' : Header} (mem : h ∈ S) (member' : h' ∈ S)
    (encoded : h.Encoded) (same : h.hashOf C = h'.hashOf C) : h = h' := by
  have nonzero := free.hashOf_ne_zero mem encoded
  obtain ⟨enc, ran⟩ := encoded
  have input : encodeUnchecked h.value = some enc := by simp [encodeUnchecked, ran]
  cases input' : encodeUnchecked h'.value with
  | none => exact absurd (same.trans (by simp [Header.hashOf, Header.hash, rlpHash, input'])) nonzero
  | some enc' =>
    rw [hashOf_eq input, hashOf_eq input'] at same
    obtain rfl : enc = enc' := free.injOn ⟨h, mem, input⟩ ⟨h', member', input'⟩ same
    rcases encodeUnchecked_inj input input' with ⟨item, shape, shape'⟩ | ⟨⟨e, failed⟩, -⟩
    · rw [Header.value_item] at shape shape'
      split_ifs at shape shape' with encodes encodes'
      exact Header.item_inj encodes encodes' (Except.ok.inj (shape.trans shape'.symm))
    · rw [encodeToBytes_eq, failed] at ran
      cases ran

end CollisionFree

namespace Transaction

/-- `Hash` of a transaction that fits into memory. -/
def hashOf (C : Crypto) (tx : Transaction) : Hash := (tx.hash C).getD 0

/-- A transaction as it is decoded from its encoding: what was absent is zero or empty. -/
def stored (tx : Transaction) : Transaction where
  nonce := tx.nonce
  gasPrice := some (tx.gasPrice.getD 0)
  gasLimit := tx.gasLimit
  receiver := tx.receiver
  amount := some (tx.amount.getD 0)
  payload := some (tx.payload.getD [])
  v := some (tx.v.getD 0)
  r := some (tx.r.getD 0)
  s := some (tx.s.getD 0)

theorem encodeUnchecked_stored (tx : Transaction) : encodeUnchecked tx.stored.value = encodeUnchecked tx.value := by
  have items : tx.stored.value.item = tx.value.item := by
    rw [value_item, value_item]
    rfl
  simp only [encodeUnchecked, encodeToBytes_eq, items]

@[simp] theorem hashOf_stored (C : Crypto) (tx : Transaction) : tx.stored.hashOf C = tx.hashOf C := by
  simp only [hashOf, hash, rlpHash, encodeUnchecked_stored]

end Transaction

theorem deriveTrie_stored (i : ℕ) (txs : List Transaction) (t : Trie Bytes) :
    deriveTrie i ((txs.map Transaction.stored).map Transaction.value) t =
      deriveTrie i (txs.map Transaction.value) t := by
  induction txs generalizing i t with
  | nil => rfl
  | cons tx txs ih =>
    simp only [List.map_cons, deriveTrie, Transaction.encodeUnchecked_stored, ih]

/-- `DeriveSha` of a list of transactions. -/
def txRootOf (C : Crypto) (txs : List Transaction) : Option Hash := deriveSha C (txs.map Transaction.value)

/-- Storing a body does not change its root. -/
@[simp] theorem txRootOf_stored (C : Crypto) (txs : List Transaction) :
    txRootOf C (txs.map Transaction.stored) = txRootOf C txs := by
  simp only [txRootOf, deriveSha, deriveTrie_stored, List.length_map]

/-- A block. The hash is kept once it was computed. -/
structure Block where
  header : Header
  txs : List Transaction
  hashCache : Option Hash
deriving DecidableEq, Repr

namespace Block

/-- A block whose hash nobody asked for yet: decoded from the wire or read from the database. -/
def fresh (header : Header) (txs : List Transaction) : Block := ⟨header, txs, none⟩

/-- Nobody asked for the hash yet. -/
def Fresh (b : Block) : Prop := b.hashCache = none

/-- `Hash`: the hash that was kept, or that of the header. -/
def hash (C : Crypto) (b : Block) : Hash := b.hashCache.getD (b.header.hashOf C)

/-- The block after a call of `Hash`. -/
def hashed (C : Crypto) (b : Block) : Block := { b with hashCache := some (b.hash C) }

def numberU64 (b : Block) : ℕ := b.header.numberU64

variable (C : Crypto) (b : Block) (header : Header) (txs : List Transaction)

theorem Fresh.hash {b : Block} (fresh : b.Fresh) : b.hash C = b.header.hashOf C := by
  rw [Block.hash, fresh]
  rfl

@[simp] theorem hash_fresh : (fresh header txs).hash C = header.hashOf C := rfl
@[simp] theorem header_fresh : (fresh header txs).header = header := rfl
@[simp] theorem txs_fresh : (fresh header txs).txs = txs := rfl
@[simp] theorem numberU64_fresh : (fresh header txs).numberU64 = header.numberU64 := rfl
@[simp] theorem hash_hashed : (b.hashed C).hash C = b.hash C := rfl
@[simp] theorem header_hashed : (b.hashed C).header = b.header := rfl
@[simp] theorem txs_hashed : (b.hashed C).txs = b.txs := rfl
@[simp] theorem numberU64_hashed : (b.hashed C).numberU64 = b.numberU64 := rfl

end Block

/-- `number - 1` on 64 bit words. -/
def pred64 (n : ℕ) : ℕ := (n + (2 ^ 64 - 1)) % 2 ^ 64

theorem pred64_succ {n : ℕ} (bound : n + 1 < 2 ^ 64) : pred64 (n + 1) = n := by
  unfold pred64
  omega

theorem Header.numberU64_lt (h : Header) : h.numberU64 < 2 ^ 64 := Nat.mod_lt _ (by norm_num)

/-- `TxLookupEntry`: the position of a transaction. -/
structure TxLookupEntry where
  blockHash : Hash
  blockIndex : ℕ
  index : ℕ
deriving DecidableEq, Repr

/-- The tables of the chain database. -/
structure Database where
  headers : ℕ × Hash → Option Header
  headerNumber : Hash → Option ℕ
  bodies : ℕ × Hash → Option (List Transaction)
  tds : ℕ × Hash → Option ℤ
  canonical : ℕ → Option Hash
  headBlock : Option Hash
  headHeader : Option Hash
  txLookup : Hash → Option TxLookupEntry

namespace Database

open Function (update)

variable (C : Crypto) (db : Database)

/-- `ReadBlock`: there if both the header and the body are. -/
def readBlock (hash : Hash) (number : ℕ) : Option Block := do
  let header ← db.headers (number, hash)
  let txs ← db.bodies (number, hash)
  some (.fresh header txs)

/-- A block that is read is assembled anew. -/
theorem fresh_of_readBlock {db : Database} {hash : Hash} {number : ℕ} {block : Block}
    (read : db.readBlock hash number = some block) : block.Fresh := by
  obtain ⟨header, -, read⟩ := Option.bind_eq_some_iff.mp read
  obtain ⟨txs, -, read⟩ := Option.bind_eq_some_iff.mp read
  exact congrArg Block.hashCache (Option.some.inj read).symm

def putTd (hash : Hash) (number : ℕ) (td : ℤ) : Database :=
  { db with tds := update db.tds (number, hash) (some td) }

def putBody (hash : Hash) (number : ℕ) (txs : List Transaction) : Database :=
  { db with bodies := update db.bodies (number, hash) (some (txs.map Transaction.stored)) }

def putHeaderNumber (hash : Hash) (number : ℕ) : Database :=
  { db with headerNumber := update db.headerNumber hash (some number) }

def putHeader (hash : Hash) (number : ℕ) (header : Header) : Database :=
  { db with headers := update db.headers (number, hash) (some header) }

/-- `DeleteBody`, `DeleteHeader` and `DeleteTd` of one block. -/
def deleteBlock (hash : Hash) (number : ℕ) : Database :=
  { db with
    bodies := update db.bodies (number, hash) none
    headers := update db.headers (number, hash) none
    headerNumber := update db.headerNumber hash none
    tds := update db.tds (number, hash) none }

/-- `DeleteCanonicalHash` of all numbers from `height` down to above `head`. -/
def deleteCanonical (head height : ℕ) : Database :=
  { db with canonical := fun n => if head < n ∧ n ≤ height then none else db.canonical n }

/-- The loop of `WriteTxLookupEntries` from index `i` on. -/
def entries (hash : Hash) (number : ℕ) : ℕ → List Transaction → (Hash → Option TxLookupEntry) →
    Hash → Option TxLookupEntry
  | _, [], table => table
  | i, tx :: txs, table =>
    entries hash number (i + 1) txs (update table (tx.hashOf C) (some ⟨hash, number, i⟩))

def writeTxLookupEntries (block : Block) : Database :=
  { db with txLookup := entries C (block.hash C) block.numberU64 0 block.txs db.txLookup }

/-- `DeleteTxLookupEntry` of every transaction of a list. -/
def deleteTxLookupEntries (txs : List Transaction) : Database :=
  { db with txLookup := fun t => if t ∈ txs.map (Transaction.hashOf C) then none else db.txLookup t }

end Database

/-- `TxDifference`: the transactions of the first list whose hash is none of the second's. -/
def txDifference (C : Crypto) (a b : List Transaction) : List Transaction :=
  a.filter fun tx => tx.hashOf C ∉ b.map (Transaction.hashOf C)

end KKChain
