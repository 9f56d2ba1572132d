import KKChain.Consensus.Hashimoto
import KKChain.Consensus.Sizes
import KKChain.Machine.Proc
import KKChain.Types.Block

/-! # Seals

`mine` tries one nonce after the other over the dataset of the epoch, and `verifySeal` checks what it found over the
cache of the epoch. Caches and datasets are kept on disk if there is a directory for them.
-/

namespace KKChain

open Rlp Buffer List Option

/-- The fields that `HashNoNonce` encodes. -/
def Header.valueNoNonce (h : Header) : Value :=
  .list [.bytes h.parentHash.bytes, .bytes h.miner.bytes, .bytes h.stateRoot.bytes, .bytes h.txRoot.bytes,
    .bytes h.receiptRoot.bytes, .bytes h.bloom.bytes, .bigInt (some h.difficulty), .bigInt (some h.number),
    .uint h.gasLimit, .uint h.gasUsed, .bigInt (some h.time), .bytes h.extra]

/-- `HashNoNonce` of a header that fits into memory. -/
def Header.hashNoNonce (C : Crypto) (h : Header) : Hash := (rlpHash C h.valueNoNonce).getD 0

variable {size epoch fakeFail rows : ℕ} {digest : Bytes} {result : Hash} {seed : BitVec 64}

namespace Ethash

/-- `Mode`. An engine in shared mode is the engine that it delegates to. -/
inductive Mode where
  | normal
  | test
  | fake
  | fullFake
deriving DecidableEq

/-- What the disk operations of `generate` come to. -/
inductive Disk where
  /-- There is no directory. -/
  | none
  /-- A file with this content was there. -/
  | loaded (content : List Word)
  /-- A file was generated and mapped. -/
  | mapped
  /-- No file could be generated. -/
  | failed

/-- The threads of `generateDataset` and the order in which they generate their rows. -/
structure Workers where
  threads : ℕ
  schedule : ∀ size, Schedule threads size

section Generate

variable (K : Keccak) (mode : Mode)

def seedHash (block : ℕ) : Bytes := (fun seed => (K.keccak seed).bytes)^[block / epochLength] (List.replicate 32 0)

def Mode.cacheSize (block : ℕ) : Option ℕ := if mode = .test then some 1024 else Ethash.cacheSize block

def Mode.datasetSize (block : ℕ) : Option ℕ := if mode = .test then some (32 * 1024) else Ethash.datasetSize block

/-- The cache of an epoch, generated. -/
def buildCache (epoch : ℕ) : Option (List Word) := do
  let size ← mode.cacheSize (epoch * epochLength + 1)
  generateCache K (List.replicate (size / 4) 0) (seedHash K (epoch * epochLength + 1))

/-- The dataset of an epoch, generated in a buffer of as many words as the given part of its size. -/
def buildDataset (workers : Workers) (part epoch : ℕ) : Option (List Word) := do
  let size ← mode.datasetSize (epoch * epochLength + 1)
  let cache ← buildCache K mode epoch
  generateDataset K (List.replicate (size / part) 0) cache (workers.schedule _)

def Cache.generate (disk : Disk) (epoch : ℕ) : Option (List Word) :=
  match disk with
  | .loaded content => some content
  | .none | .mapped | .failed => buildCache K mode epoch

/-- `generate` of a dataset. If no file can be generated, the buffer has half as many words as the dataset has bytes. -/
def Dataset.generate (workers : Workers) (disk : Disk) (epoch : ℕ) : Option (List Word) :=
  match disk with
  | .loaded content => some content
  | .none | .mapped => buildDataset K mode workers 4 epoch
  | .failed => buildDataset K mode workers 2 epoch

end Generate

section Sealing

variable (K : Keccak)

/-- The loop of `mine`, which is told to end after a number of attempts. -/
def search (dataset : List Word) (header : Header) (target : ℤ) : ℕ → BitVec 64 → Option (Option Header)
  | 0, _ => some none
  | attempts + 1, nonce => do
    let (digest, result) ← hashimotoFull K dataset (header.hashNoNonce K.toCrypto) nonce
    if (result.toNat : ℤ) ≤ target then some (some { header with nonce := nonce, mixDigest := .ofBytes digest })
    else search dataset header target attempts (nonce + 1)

/-- `mine`, over the dataset of the epoch: the header that was found, if any. -/
def mine (dataset : List Word) (header : Header) (attempts : ℕ) (seed : BitVec 64) : Option (Option Header) :=
  if header.difficulty = 0 then none else search K dataset header (2 ^ 256 / header.difficulty) attempts seed

/-- The errors of `verifySeal`. -/
inductive SealError where
  | invalidPoW
  | invalidDifficulty
  | invalidMixDigest
deriving DecidableEq

/-- `verifySeal`. The dataset is given if the full one is asked for and was generated already. -/
def verifySeal (mode : Mode) (fakeFail : ℕ) (dataset : Option (List Word)) (disk : Disk) (header : Header) :
    Except (Fault SealError) Unit :=
  if mode = .fake ∨ mode = .fullFake then
    if fakeFail = header.numberU64 then .error (.error .invalidPoW) else .ok ()
  else if header.difficulty ≤ 0 then .error (.error .invalidDifficulty)
  else
    let computed := match dataset with
      | some dataset => hashimotoFull K dataset (header.hashNoNonce K.toCrypto) header.nonce
      | none => do
        let cache ← Cache.generate K mode disk (header.numberU64 / epochLength)
        let size ← mode.datasetSize header.numberU64
        hashimotoLight K size cache (header.hashNoNonce K.toCrypto) header.nonce
    match computed with
    | none => .error .panic
    | some (digest, result) =>
      if header.mixDigest.bytes ≠ digest then .error (.error .invalidMixDigest)
      else if 2 ^ 256 / header.difficulty < (result.toNat : ℤ) then .error (.error .invalidPoW)
      else .ok ()

end Sealing

section Verification

variable {K : Keccak} {mode : Mode} {workers : Workers} {disk cacheDisk : Disk} {header found : Header}

/-- A file that is loaded holds what would be generated. -/
def Disk.Intact (disk : Disk) (built : Option (List Word)) : Prop :=
  ∀ content, disk = .loaded content → built = some content

/-- There are threads, but not so many that their rows are counted wrong, a file for the dataset can be generated if
there is none, and one that is there holds the dataset. -/
structure Sound (K : Keccak) (mode : Mode) (workers : Workers) (disk : Disk) (epoch : ℕ) : Prop where
  some_ : 0 < workers.threads
  few : workers.threads < 2 ^ 57
  written : disk ≠ .failed
  intact : disk.Intact (buildDataset K mode workers 4 epoch)

/-- What is found passes the check of the digest and of the target. -/
theorem search_spec {dataset : List Word} {target : ℤ} {attempts : ℕ}
    (ran : search K dataset header target attempts seed = some (some found)) :
    ∃ nonce digest result, hashimotoFull K dataset (header.hashNoNonce K.toCrypto) nonce = some (digest, result) ∧
      (result.toNat : ℤ) ≤ target ∧ found = { header with nonce := nonce, mixDigest := .ofBytes digest } := by
  induction attempts generalizing seed with
  | zero => cases some.inj ran
  | succ attempts ih =>
    obtain ⟨⟨digest, result⟩, computed, ran⟩ := bind_eq_some_iff.mp ran
    dsimp only at ran
    split_ifs at ran with low
    · exact ⟨seed, digest, result, computed, low, (some.inj (some.inj ran)).symm⟩
    · exact ih ran

end Verification

section Examples

/-- One thread. -/
def single : Workers := ⟨1, fun _ => ⟨_, .refl _⟩⟩

end Examples

end Ethash

end KKChain
