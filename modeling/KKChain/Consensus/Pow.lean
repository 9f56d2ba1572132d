import KKChain.Core.BlockChain

/-! # The proof-of-work engine

The header rules of `Ethash`: the Frontier difficulty, and `VerifyHeader` with the check of the seal left as
a parameter.
-/

namespace KKChain

namespace Pow

def minimumDifficulty : ℤ := 131072

/-- `calcDifficultyFrontier`: the difficulty of a block created at `time` on `parent`. -/
def calcDifficulty (time : ℕ) (parent : Header) : ℤ :=
  let adjust := parent.difficulty / 2048
  let diff := if (time : ℤ) - parent.time < 13 then parent.difficulty + adjust else parent.difficulty - adjust
  let diff := if diff < minimumDifficulty then minimumDifficulty else diff
  let periodCount := (parent.number + 1) / 100000
  if 1 < periodCount then max (diff + 2 ^ (periodCount - 2).toNat) minimumDifficulty else diff

/-- The errors of `VerifyHeader`, with the data of their messages. -/
inductive HeaderError where
  | unknownAncestor
  | zeroBlockTime
  | invalidDifficulty (got want : ℤ)
  | invalidGasLimit (got : UInt64)
  | invalidGasUsed (got gasLimit : UInt64)
  | invalidNumber
  | invalidSeal
deriving DecidableEq, Repr

/-- `VerifyHeader`. A header that is stored passes at once. -/
def verifyHeader (C : Crypto) (verifySeal : Header → Bool) (reader : ℕ → Hash → Option Header) (header : Header) :
    Except (Fault HeaderError) Unit :=
  if (reader header.numberU64 (header.hashOf C)).isSome then .ok ()
  else match reader (pred64 header.numberU64) header.parentHash with
    | none => .error (.error .unknownAncestor)
    | some parent =>
      let expected := calcDifficulty (header.time.natAbs % 2 ^ 64) parent
      if header.time ≤ parent.time then .error (.error .zeroBlockTime)
      else if expected ≠ header.difficulty then .error (.error (.invalidDifficulty header.difficulty expected))
      else if 0x7fffffffffffffff < header.gasLimit then .error (.error (.invalidGasLimit header.gasLimit))
      else if header.gasLimit < header.gasUsed then
        .error (.error (.invalidGasUsed header.gasUsed header.gasLimit))
      else if header.number - parent.number ≠ 1 then .error (.error .invalidNumber)
      else if !verifySeal header then .error (.error .invalidSeal)
      else .ok ()

def frontierBlockReward : ℤ := 5000000000000000000

end Pow

/-- A backend to evaluate the chain with. The state is a tally of all amounts and rewards and its own root; the
state database lists the roots that were committed. A transaction takes 21000 gas, and its receipt is the gas used
so far. Every seal is accepted, as in `ModeFake`. -/
def Backend.tally : Backend where
  crypto := .numeral
  State := Hash
  StateDb := List Hash
  Receipt := UInt64
  Error := Option Pow.HeaderError
  verifyHeader reader header :=
    (Pow.verifyHeader .numeral (fun _ => true) reader header).mapError (Fault.map some)
  openState roots root := if root ∈ roots then .ok root else .error (.error none)
  prepare state _ _ _ := state
  applyTransaction _ _ tx pool usedGas state :=
    if pool < 21000 then .error (.error none)
    else .ok (usedGas + 21000, pool - 21000, usedGas + 21000, state + BitVec.ofInt 256 (tx.amount.getD 0))
  accumulateRewards state _ := state + BitVec.ofInt 256 Pow.frontierBlockReward
  intermediateRoot state := .ok (state, state)
  commit state roots := (.ok (), state :: roots)
  createBloom _ := 0
  receiptRoot receipts := deriveSha .numeral (receipts.map Rlp.Value.uint)

namespace Backend.tally

/-- The header of a block without transactions. -/
def header (parent : Hash) (number time : ℕ) (difficulty : ℤ) (stateRoot : Hash) (nonce : BitVec 64) : Header where
  parentHash := parent
  miner := 0
  stateRoot := stateRoot
  txRoot := emptyRoot
  receiptRoot := emptyRoot
  bloom := 0
  difficulty := difficulty
  number := number
  gasLimit := 21000
  gasUsed := 0
  time := time
  extra := []
  mixDigest := 0
  nonce := nonce

/-- The hash of a header with this nonce, where the mix digest is zero. -/
def hash (nonce : ℕ) : Hash := BitVec.ofNat 256 (0x880000000000000000 + nonce)

/-- A genesis block at the minimum difficulty over an empty tally. -/
def genesis : Genesis Backend.tally where
  header := header 0 0 0 131072 0 0
  stateDb := ([0] : List Hash)
  difficulty := some 131072
  difficulty_header := rfl
  number := rfl
  encoded := Header.encoded_of_isOk (by decide +kernel)
  txRoot := rfl
  opens := rfl

end Backend.tally

end KKChain
