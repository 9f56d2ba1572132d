import KKChain.Common
import KKChain.Machine.Buffer

/-! # Hashimoto

The proof-of-work function over the rows of a dataset. A miner reads them from the whole dataset, which is generated by
several threads; a verifier generates each row that it needs from a cache. Both agree as long as the offsets of the
rows, which are 32 bits wide, do not wrap.

Caches and datasets are kept as the words that the code reads from them, whatever the byte order of the machine.
-/

namespace KKChain

open Buffer List Option BitVec

variable {size rows : ℕ}

namespace Ethash

/-- `uint32`. -/
abbrev Word := BitVec 32

/-- Every four bytes as a word, least significant byte first. -/
def wordsOf : Bytes → List Word
  | a :: b :: c :: d :: rest => BitVec.ofNat 32 (BigEndian.toNat [d, c, b, a]) :: wordsOf rest
  | _ => []

/-- Every word as four bytes, least significant byte first. -/
def bytesOf (words : List Word) : Bytes := words.flatMap fun w => (BigEndian.fixed 4 w.toNat).reverse

/-- The primitives of the chain with `Keccak512`. -/
structure Keccak extends Crypto where
  keccak512 : Bytes → Bytes
  length_keccak512 : ∀ b, (keccak512 b).length = 64

def fnv (a b : Word) : Word := a * 0x01000193 ^^^ b

def fnvHash (mix data : List Word) : Option (List Word) :=
  if mix.length ≤ data.length then some (List.zipWith fnv mix data) else none

section Generation

variable (K : Keccak)

/-- `keccak512(cache[offset:], data)`, with the offset in words. -/
def hashTo (cache : List Word) (offset : ℕ) (data : Bytes) : Option (List Word) :=
  if offset + 16 ≤ cache.length then some (copyAt cache offset (wordsOf (K.keccak512 data))) else none

/-- One row of the initial cache, from the row before it. -/
def initRow (cache : List Word) (row : ℕ) : Option (List Word) := do
  let before ← slice cache (16 * row - 16) (16 * row)
  hashTo K cache (16 * row) (bytesOf before)

/-- One row of a round of randmemohash. -/
def memoRow (rows : ℕ) (cache : List Word) (row : ℕ) : Option (List Word) := do
  let before := (row + rows - 1) % rows
  let src ← slice cache (16 * before) (16 * before + 16)
  let first ← cache[16 * row]?
  if BitVec.ofNat 32 rows = 0 then none
  let xorOff := first % BitVec.ofNat 32 rows * 64
  let other ← slice cache (xorOff.toNat / 4) ((xorOff + 64).toNat / 4)
  hashTo K cache (16 * row) (bytesOf (List.zipWith (· ^^^ ·) src other))

def generateCache (dest : List Word) (seed : Bytes) : Option (List Word) := do
  let rows := dest.length / 16
  let cache ← hashTo K dest 0 seed
  let cache ← ((List.range ((dest.length + 15) / 16)).drop 1).foldlM (initRow K) cache
  ((List.range 3).flatMap fun _ => List.range rows).foldlM (memoRow K rows) cache

/-- One of the parents of a row is mixed in. -/
def mixParent (cache : List Word) (rows index : Word) (intMix : List Word) (i : ℕ) : Option (List Word) := do
  let word ← intMix[i % 16]?
  let parent := fnv (index ^^^ BitVec.ofNat 32 i) word % rows
  fnvHash intMix (cache.drop (parent * 16).toNat)

def generateDatasetItem (cache : List Word) (index : Word) : Option Bytes := do
  let rows := BitVec.ofNat 32 (cache.length / 16)
  if rows = 0 then none
  let first := (index % rows * 16).toNat
  let row ← slice cache first (first + 16)
  let intMix := wordsOf (K.keccak512 (bytesOf (row.modifyHead (· ^^^ index))))
  let intMix ← (List.range 256).foldlM (mixParent cache rows index) intMix
  some (K.keccak512 (bytesOf intMix))

/-- The row of an index, as it is looked up. -/
def rowOf (cache : List Word) (index : Word) : Option (List Word) := (generateDatasetItem K cache index).map wordsOf

/-- The rows that one of the threads of `generateDataset` generates. -/
def segment (threads size id : ℕ) : List Word :=
  let batch := BitVec.ofNat 32 ((size + 64 * threads + (2 ^ 64 - 1)) % 2 ^ 64 / (64 * threads % 2 ^ 64))
  let first := BitVec.ofNat 32 id * batch
  let limit := first + batch
  let limit := if BitVec.ofNat 32 (size / 64) < limit then BitVec.ofNat 32 (size / 64) else limit
  (List.range' first.toNat (limit.toNat - first.toNat)).map (BitVec.ofNat 32)

/-- An order in which the threads generate their rows. -/
structure Schedule (threads size : ℕ) where
  order : List Word
  perm : order.Perm ((List.range threads).flatMap (segment threads size))

/-- The word of the dataset at which a row is put: the offset in bytes is 32 bits wide. -/
def place (index : Word) : ℕ := (index * 64).toNat / 4

/-- `generateDataset`. It divides by the number of bytes of a round of threads and by a hundredth of the rows. -/
def generateDataset {threads : ℕ} (dest cache : List Word) (sched : Schedule threads (4 * dest.length)) :
    Option (List Word) :=
  if threads ≠ 0 ∧ 64 * threads % 2 ^ 64 = 0 then none
  else if sched.order ≠ [] ∧ BitVec.ofNat 32 (4 * dest.length / 64 / 100) = 0 then none
  else fill place (rowOf K cache) dest sched.order

end Generation

section Mixing

variable (K : Keccak)

/-- One access of the loop of `hashimoto`. -/
def access (rows seedHead : Word) (lookup : Word → Option (List Word)) (mix : List Word) (i : ℕ) :
    Option (List Word) := do
  let word ← mix[i % 32]?
  if rows = 0 then none
  let parent := fnv (BitVec.ofNat 32 i ^^^ seedHead) word % rows
  let low ← lookup (2 * parent)
  let high ← lookup (2 * parent + 1)
  fnvHash mix (low ++ high)

/-- Every four words are compressed to one. -/
def compress : List Word → List Word
  | a :: b :: c :: d :: rest => fnv (fnv (fnv a b) c) d :: compress rest
  | _ => []

/-- `hashimoto`: the digest and the result. -/
def hashimoto (hash : Hash) (nonce : BitVec 64) (size : ℕ) (lookup : Word → Option (List Word)) :
    Option (Bytes × Hash) := do
  let rows := BitVec.ofNat 32 (size / 128)
  let seed := K.keccak512 (hash.bytes ++ (BigEndian.fixed 8 nonce.toNat).reverse)
  let seedHead := (wordsOf seed).headD 0
  let mix ← (List.range 64).foldlM (access rows seedHead lookup) (wordsOf seed ++ wordsOf seed)
  let digest := bytesOf (compress mix)
  some (digest, K.keccak (seed ++ digest))

def hashimotoLight (size : ℕ) (cache : List Word) (hash : Hash) (nonce : BitVec 64) : Option (Bytes × Hash) :=
  hashimoto K hash nonce size (rowOf K cache)

/-- A row of the whole dataset, at an offset that is 32 bits wide. -/
def lookupFull (dataset : List Word) (index : Word) : Option (List Word) :=
  let offset := index * 16
  slice dataset offset.toNat (offset + 16).toNat

def hashimotoFull (dataset : List Word) (hash : Hash) (nonce : BitVec 64) : Option (Bytes × Hash) :=
  hashimoto K hash nonce (4 * dataset.length) (lookupFull dataset)

end Mixing

section Rows

variable {K : Keccak}

theorem length_wordsOf (b : Bytes) : (wordsOf b).length = b.length / 4 := by
  fun_induction wordsOf b with
  | case1 a b c d rest ih =>
    simp only [length_cons, ih]
    omega
  | case2 b short =>
    match b with
    | [] | [_] | [_, _] | [_, _, _] => simp
    | a :: b :: c :: d :: rest => exact absurd rfl (short a b c d rest)

theorem length_rowOf {cache row : List Word} {index : Word} (made : rowOf K cache index = some row) :
    row.length = 16 := by
  obtain ⟨item, generated, rfl⟩ := map_eq_some_iff.mp made
  simp only [generateDatasetItem, bind_eq_bind] at generated
  split_ifs at generated
  · cases generated
  obtain ⟨row, -, generated⟩ := bind_eq_some_iff.mp generated
  obtain ⟨intMix, -, generated⟩ := bind_eq_some_iff.mp generated
  cases generated
  rw [length_wordsOf, K.length_keccak512]

/-- No thread goes beyond the rows of the dataset. -/
theorem lt_of_mem_segment {threads id : ℕ} {index : Word} (mem : index ∈ segment threads size id) :
    index.toNat < size / 64 := by
  obtain ⟨n, range, rfl⟩ := mem_map.mp mem
  obtain ⟨lower, upper⟩ := mem_range'_1.mp range
  have bound : (BitVec.ofNat 32 (size / 64)).toNat ≤ size / 64 := by
    exact Nat.mod_le ..
  have small : (BitVec.ofNat 32 n).toNat ≤ n := by
    exact Nat.mod_le ..
  split_ifs at upper with above
  · omega
  · have := lt_def.not.mp above
    omega

theorem pos_of_ne_zero {w : Word} (nonzero : w ≠ 0) : 0 < w :=
  BitVec.lt_def.mpr (Nat.pos_of_ne_zero fun zero => nonzero (BitVec.eq_of_toNat_eq zero))

/-- The places repeat after 2 ^ 26 rows. -/
theorem place_eq (index : Word) : place index = 16 * (index.toNat % 2 ^ 26) := by
  rw [place, BitVec.toNat_mul, show BitVec.toNat (64 : Word) = 64 from rfl]
  omega

variable {threads : ℕ} {dest cache dataset : List Word} {sched : Schedule threads (4 * dest.length)} {index : Word}

theorem lt_of_mem_schedule (mem : index ∈ sched.order) : index.toNat < dest.length / 16 := by
  obtain ⟨id, -, here⟩ := mem_flatMap.mp (sched.perm.mem_iff.mp mem)
  have := lt_of_mem_segment here
  omega

theorem blocks : Blocks place (rowOf K cache) 16 dest.length sched.order where
  length := length_rowOf
  aligned index := by
    rw [place_eq]
    exact Nat.dvd_mul_right ..
  inside index mem := by
    have := lt_of_mem_schedule mem
    rw [place_eq]
    omega

end Rows

section Totality

variable {K : Keccak} {cache dest : List Word} {index : Word}

end Totality

section Agreement

variable {K : Keccak} {lookup : Word → Option (List Word)} {nonce : BitVec 64}

end Agreement

section Wrapping

variable {lookup : Word → Option (List Word)} {cache dataset : List Word}

/-- The seed of every nonce, such that over `oneWord` the parents of all rows but the last one are below 2 ^ 25, and the
last one is 2 ^ 25. -/
def seedWords : List Word :=
  [0x7c393d, 0x160cf748, 0x5195a4b, 0xfa51091, 0x2acc899, 0x374bba3, 0x384beb5, 0x72c7469, 0x35b144cf, 0x1d0bf773,
    0x11197974, 0x671599a, 0x143deea8, 0x383240f, 0x5eb838e, 0xea8cc232]

def oneWord : List Word := List.replicate 15 0 ++ [0x1371e0]

/-- The mix before an access. -/
def mixAt : ℕ → List Word
  | 0 => seedWords ++ seedWords
  | i + 1 => List.zipWith fnv (mixAt i) (oneWord ++ oneWord)

/-- The parent that an access looks up in a dataset with more rows. -/
def parentAt (i : ℕ) : Word := fnv (BitVec.ofNat 32 i ^^^ 0x7c393d) ((mixAt i).getD (i % 32) 0)

end Wrapping

end Ethash

end KKChain
