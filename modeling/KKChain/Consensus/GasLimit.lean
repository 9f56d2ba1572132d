import KKChain.Consensus.Pow
import KKChain.Machine.Run

/-! # The gas limit along a chain of headers

`VerifyHeader` bounds the gas limit from above and the gas used by it. Under the comment that announces the check of
the drift it computes the difference to the parent and compares it with nothing, so a header may name any limit.
The limit `CalcGasLimit` proposes to the miner keeps to the announced bounds.
-/

namespace KKChain

open UInt64

namespace Pow

def minGasLimit : UInt64 := 5000

def gasLimitBoundDivisor : UInt64 := 1024

/-- `TargetGasLimit`, the gas limit of the default genesis block. -/
def targetGasLimit : UInt64 := 4712388

def calcGasLimit (parent : Header) : UInt64 :=
  let contrib := (parent.gasUsed + parent.gasUsed / 2) / gasLimitBoundDivisor
  let decay := parent.gasLimit / gasLimitBoundDivisor - 1
  let limit := parent.gasLimit - decay + contrib
  let limit := if limit < minGasLimit then minGasLimit else limit
  if limit < targetGasLimit then
    let limit := parent.gasLimit + decay
    if targetGasLimit < limit then targetGasLimit else limit
  else limit

/-- The gas fields of a header on its own: used within the limit, the limit within a signed word. -/
structure GasBounded (header : Header) : Prop where
  used : header.gasUsed ≤ header.gasLimit
  cap : header.gasLimit ≤ 0x7fffffffffffffff

/-- The limit is not below the minimum and is within a 1024th of that of the parent. -/
structure Drifts (parent header : Header) : Prop where
  minimum : minGasLimit ≤ header.gasLimit
  drift : (parent.gasLimit.toNat - header.gasLimit.toNat : ℤ).natAbs < parent.gasLimit.toNat / 1024

/-- What `CalcGasLimit` is for: a limit within its bounds and its drift, or one that is not lower if the limit of the
parent is below the minimum. -/
def WellProposed (parent : Header) (limit : UInt64) : Prop :=
  if minGasLimit ≤ parent.gasLimit then
    minGasLimit ≤ limit ∧ limit ≤ 0x7fffffffffffffff ∧
      (parent.gasLimit.toNat - limit.toNat : ℤ).natAbs < parent.gasLimit.toNat / 1024
  else parent.gasLimit ≤ limit

instance (parent : Header) (limit : UInt64) : Decidable (WellProposed parent limit) :=
  inferInstanceAs (Decidable (if minGasLimit ≤ parent.gasLimit then minGasLimit ≤ limit ∧ limit ≤ 0x7fffffffffffffff ∧
    (parent.gasLimit.toNat - limit.toNat : ℤ).natAbs < parent.gasLimit.toNat / 1024 else parent.gasLimit ≤ limit))

section CalcGasLimit

variable {parent : Header} (bounded : GasBounded parent)
include bounded

theorem toNat_bounds : parent.gasUsed.toNat ≤ parent.gasLimit.toNat ∧ parent.gasLimit.toNat ≤ 0x7fffffffffffffff :=
  ⟨UInt64.le_iff_toNat_le.mp bounded.used, UInt64.le_iff_toNat_le.mp bounded.cap⟩

theorem toNat_contrib : ((parent.gasUsed + parent.gasUsed / 2) / gasLimitBoundDivisor).toNat =
    (parent.gasUsed.toNat + parent.gasUsed.toNat / 2) / 1024 := by
  obtain ⟨used, cap⟩ := toNat_bounds bounded
  have half : (parent.gasUsed / 2).toNat = parent.gasUsed.toNat / 2 := UInt64.toNat_div ..
  have sum : (parent.gasUsed + parent.gasUsed / 2).toNat = parent.gasUsed.toNat + parent.gasUsed.toNat / 2 := by
    rw [UInt64.toNat_add, half, Nat.mod_eq_of_lt (by omega)]
  rw [UInt64.toNat_div, sum]
  rfl

omit bounded in
theorem toNat_quotient : (parent.gasLimit / gasLimitBoundDivisor).toNat = parent.gasLimit.toNat / 1024 :=
  UInt64.toNat_div ..

/-- The three ways out, where the decay does not wrap around. -/
theorem toNat_calcGasLimit (large : 1024 ≤ parent.gasLimit.toNat) {proposed raised : ℕ}
    (isProposed : proposed = parent.gasLimit.toNat - (parent.gasLimit.toNat / 1024 - 1) +
      (parent.gasUsed.toNat + parent.gasUsed.toNat / 2) / 1024)
    (isRaised : raised = parent.gasLimit.toNat + (parent.gasLimit.toNat / 1024 - 1)) :
    (calcGasLimit parent).toNat =
      if max 5000 proposed < 4712388 then min 4712388 raised else max 5000 proposed := by
  obtain ⟨used, cap⟩ := toNat_bounds bounded
  have decay : (parent.gasLimit / gasLimitBoundDivisor - 1).toNat = parent.gasLimit.toNat / 1024 - 1 := by
    rw [UInt64.toNat_sub_of_le, toNat_quotient]
    · rfl
    · rw [le_iff_toNat_le, toNat_quotient, toNat_one]
      omega
  have raises : (parent.gasLimit + (parent.gasLimit / gasLimitBoundDivisor - 1)).toNat = raised := by
    rw [UInt64.toNat_add, decay, Nat.mod_eq_of_lt (by omega), isRaised]
  have proposes : (parent.gasLimit - (parent.gasLimit / gasLimitBoundDivisor - 1) +
      (parent.gasUsed + parent.gasUsed / 2) / gasLimitBoundDivisor).toNat = proposed := by
    rw [UInt64.toNat_add, UInt64.toNat_sub_of_le, toNat_contrib bounded, decay, Nat.mod_eq_of_lt (by omega), isProposed]
    rw [le_iff_toNat_le, decay]
    omega
  have target : targetGasLimit.toNat = 4712388 := rfl
  have least : minGasLimit.toNat = 5000 := rfl
  rw [calcGasLimit]
  dsimp only
  split_ifs <;> simp only [lt_iff_toNat_lt] at * <;> omega

/-- Below 1024 the decay wraps around to minus one, so that the limit goes down by one, or from zero to the target. -/
theorem toNat_calcGasLimit_small (small : parent.gasLimit.toNat < 1024) :
    (calcGasLimit parent).toNat = if parent.gasLimit.toNat = 0 then 4712388 else parent.gasLimit.toNat - 1 := by
  obtain ⟨used, -⟩ := toNat_bounds bounded
  have contrib := toNat_contrib bounded
  have zero : parent.gasLimit / gasLimitBoundDivisor = 0 := by
    rw [← UInt64.toNat_inj, toNat_quotient]
    exact Nat.div_eq_of_lt small
  have decay : (0 - 1 : UInt64).toNat = 18446744073709551615 := rfl
  have raises : (parent.gasLimit + (0 - 1)).toNat =
      if parent.gasLimit.toNat = 0 then 18446744073709551615 else parent.gasLimit.toNat - 1 := by
    rw [UInt64.toNat_add, decay]
    split_ifs with zero
    · rw [zero]
    · rw [show parent.gasLimit.toNat + 18446744073709551615 = parent.gasLimit.toNat - 1 + 2 ^ 64 by omega,
        Nat.add_mod_right, Nat.mod_eq_of_lt (by omega)]
  have proposes : (parent.gasLimit - (0 - 1) + (parent.gasUsed + parent.gasUsed / 2) / gasLimitBoundDivisor).toNat =
      parent.gasLimit.toNat + 1 + (parent.gasUsed.toNat + parent.gasUsed.toNat / 2) / 1024 := by
    rw [UInt64.toNat_add, UInt64.toNat_sub, contrib, decay]
    omega
  have target : targetGasLimit.toNat = 4712388 := rfl
  have least : minGasLimit.toNat = 5000 := rfl
  rw [calcGasLimit, zero]
  dsimp only
  split_ifs at raises ⊢ <;> simp only [lt_iff_toNat_lt] at * <;> omega

/-- The limit `CalcGasLimit` proposes keeps to the bounds. -/
theorem drifts_calcGasLimit (minimum : minGasLimit ≤ parent.gasLimit) {header : Header}
    (proposed : header.gasLimit = calcGasLimit parent) : Drifts parent header := by
  obtain ⟨used, cap⟩ := toNat_bounds bounded
  have low : 5000 ≤ parent.gasLimit.toNat := le_iff_toNat_le.mp minimum
  have limit := toNat_calcGasLimit bounded (by omega) rfl rfl
  rw [← proposed] at limit
  suffices 5000 ≤ header.gasLimit.toNat ∧
      (parent.gasLimit.toNat - header.gasLimit.toNat : ℤ).natAbs < parent.gasLimit.toNat / 1024 from
    ⟨le_iff_toNat_le.mpr this.1, this.2⟩
  split_ifs at limit <;> omega

/-- `CalcGasLimit` does what it is for unless the limit of the parent is between 1 and 1023, where the decay wraps
around, or so near to the top that the contribution takes the result beyond a signed word. -/
theorem wellProposed_iff : WellProposed parent (calcGasLimit parent) ↔
    (parent.gasLimit = 0 ∨ 1024 ≤ parent.gasLimit) ∧
      parent.gasLimit.toNat + 1 + (parent.gasUsed.toNat + parent.gasUsed.toNat / 2) / 1024 ≤
        0x7fffffffffffffff + parent.gasLimit.toNat / 1024 := by
  obtain ⟨used, cap⟩ := toNat_bounds bounded
  have lowest : parent.gasLimit = 0 ↔ parent.gasLimit.toNat = 0 := by rw [← UInt64.toNat_inj, UInt64.toNat_zero]
  have divisor : (1024 : UInt64).toNat = 1024 := rfl
  have top : (0x7fffffffffffffff : UInt64).toNat = 0x7fffffffffffffff := rfl
  have least : minGasLimit.toNat = 5000 := rfl
  simp only [WellProposed, le_iff_toNat_le, lowest, divisor, top, least]
  by_cases small : parent.gasLimit.toNat < 1024
  · have limit := toNat_calcGasLimit_small bounded small
    rw [if_neg (by omega), limit]
    split_ifs <;> omega
  · have limit := toNat_calcGasLimit bounded (by omega) rfl rfl
    rw [limit]
    split_ifs <;> omega

end CalcGasLimit

/-- A header with these gas fields. -/
def withGas (gasLimit gasUsed : UInt64) : Header where
  parentHash := 0
  miner := 0
  stateRoot := 0
  txRoot := 0
  receiptRoot := 0
  bloom := 0
  difficulty := 131072
  number := 1
  gasLimit := gasLimit
  gasUsed := gasUsed
  time := 1
  extra := []
  mixDigest := 0
  nonce := 0

/-- A parent with the limit of the default genesis block. -/
theorem wellProposed_target : GasBounded (withGas 4712388 4000000) ∧
    WellProposed (withGas 4712388 4000000) (calcGasLimit (withGas 4712388 4000000)) :=
  ⟨⟨by decide, by decide⟩, (wellProposed_iff ⟨by decide, by decide⟩).mpr ⟨by decide, by decide⟩⟩

/-- A limit of 1000 goes down to 999, and with all its gas used the highest limit goes up. -/
theorem not_wellProposed : GasBounded (withGas 1000 0) ∧ calcGasLimit (withGas 1000 0) = 999 ∧
    ¬WellProposed (withGas 1000 0) (calcGasLimit (withGas 1000 0)) ∧
    GasBounded (withGas 0x7fffffffffffffff 0x7fffffffffffffff) ∧
    ¬WellProposed (withGas 0x7fffffffffffffff 0x7fffffffffffffff)
      (calcGasLimit (withGas 0x7fffffffffffffff 0x7fffffffffffffff)) :=
  ⟨⟨by decide, by decide⟩, by decide, by decide, ⟨by decide, by decide⟩, by decide⟩

/-- The headers of a chain by number and hash. -/
abbrev Headers := ℕ → Hash → Option Header

/-- A new header is accepted and stored. -/
def AcceptStep (C : Crypto) (verifySeal : Header → Bool) (headers : Headers) (header : Header) (headers' : Headers) :
    Prop :=
  headers header.numberU64 (header.hashOf C) = none ∧ verifyHeader C verifySeal headers header = .ok () ∧
    headers' = Function.update headers header.numberU64
      (Function.update (headers header.numberU64) (header.hashOf C) (some header))

/-- The header a new one is verified against. -/
def parentOf (headers : Headers) (header : Header) : Option Header :=
  headers (pred64 header.numberU64) header.parentHash

variable {C : Crypto} {verifySeal : Header → Bool} {headers headers' : Headers} {header : Header}

/-- What is known of a header that was accepted. -/
theorem AcceptStep.checks (step : AcceptStep C verifySeal headers header headers') :
    ∃ parent, parentOf headers header = some parent ∧ GasBounded header ∧ header.number = parent.number + 1 ∧
      parent.time < header.time ∧ calcDifficulty (header.time.natAbs % 2 ^ 64) parent = header.difficulty := by
  obtain ⟨unknown, accepted, -⟩ := step
  unfold verifyHeader at accepted
  rw [unknown] at accepted
  simp only [Option.isSome_none, Bool.false_eq_true, if_false] at accepted
  split at accepted
  · cases accepted
  · rename_i parent read
    split_ifs at accepted with time difficulty cap used number sealed
    exact ⟨parent, read, ⟨UInt64.not_lt.mp used, UInt64.not_lt.mp cap⟩, by omega, not_le.mp time, not_not.mp difficulty⟩

/-- All headers are within their bounds and not below the minimum. -/
def AllBounded (headers : Headers) : Prop :=
  ∀ number hash header, headers number hash = some header → GasBounded header ∧ minGasLimit ≤ header.gasLimit

theorem AcceptStep.allBounded (step : AcceptStep C verifySeal headers header headers') (start : AllBounded headers)
    (minimum : minGasLimit ≤ header.gasLimit) : AllBounded headers' := by
  obtain ⟨parent, -, bounded, -⟩ := step.checks
  obtain ⟨-, -, rfl⟩ := step
  intro number hash stored read
  rw [Function.update_apply] at read
  split_ifs at read with same
  · rw [Function.update_apply] at read
    split_ifs at read with same'
    · cases read
      exact ⟨bounded, minimum⟩
    · exact start _ _ _ read
  · exact start _ _ _ read

/-- A header names the limit `CalcGasLimit` proposes for its parent. -/
def ProposedLimit (headers : Headers) (header : Header) : Prop :=
  ∀ parent ∈ parentOf headers header, header.gasLimit = calcGasLimit parent

/-- In every chain of accepted headers, gas used and gas limit are bounded; and if the headers name the limits
`CalcGasLimit` proposes, from headers that are not below the minimum, every limit is within its drift. -/
theorem gasLimit_drift {ts : List (Headers × Header × Headers)}
    (run : Run (AcceptStep C verifySeal) headers ts headers') (start : AllBounded headers)
    (proposed : ∀ t ∈ ts, ProposedLimit t.1 t.2.1) :
    ∀ t ∈ ts, ∃ parent, parentOf t.1 t.2.1 = some parent ∧ Drifts parent t.2.1 ∧ GasBounded t.2.1 := by
  induction run with
  | nil => simp
  | @cons headers headers₁ headers' header ts step rest ih =>
    obtain ⟨first, others⟩ := List.forall_mem_cons.mp proposed
    obtain ⟨parent, read, bounded, -⟩ := step.checks
    obtain ⟨parentBounded, parentMinimum⟩ := start _ _ _ read
    have drifts := drifts_calcGasLimit parentBounded parentMinimum (first parent read)
    rw [List.forall_mem_cons]
    exact ⟨⟨parent, read, drifts, bounded⟩, ih (step.allBounded start drifts.minimum) others⟩

/-- A header stored under its number and hash, and no other. -/
def only (C : Crypto) (header : Header) : Headers := fun number hash =>
  if number = header.numberU64 ∧ hash = header.hashOf C then some header else none

theorem allBounded_only {header : Header} (bounded : GasBounded header) (minimum : minGasLimit ≤ header.gasLimit) :
    AllBounded (only C header) := by
  intro number hash stored read
  unfold only at read
  split_ifs at read with same
  cases read
  exact ⟨bounded, minimum⟩

end Pow

namespace Backend.tally

/-- A header on the genesis header, with a gas limit of its own. -/
def limited (gasLimit : UInt64) : Header := { header (hash 0) 1 10 131136 0 1 with gasLimit := gasLimit }

theorem acceptStep_of_isOk (headers : Pow.Headers) (h : Header)
    (unknown : headers h.numberU64 (h.hashOf .numeral) = none)
    (passed : (Pow.verifyHeader .numeral (fun _ => true) headers h).isOk = true) :
    Pow.AcceptStep .numeral (fun _ => true) headers h (Function.update headers h.numberU64
      (Function.update (headers h.numberU64) (h.hashOf .numeral) (some h))) := by
  refine ⟨unknown, ?_, rfl⟩
  cases outcome : Pow.verifyHeader .numeral (fun _ => true) headers h with
  | ok _ => rfl
  | error e => simp [outcome, Except.isOk, Except.toBool] at passed

/-- A header on that one, with the limit that is proposed for it. -/
def second : Header := { header (hash 1) 2 20 131200 0 2 with gasLimit := 21038 }

/-- Both headers are accepted one after the other. -/
theorem two_accepted : ∃ headers₁ headers₂, Run (Pow.AcceptStep .numeral fun _ => true)
      (Pow.only .numeral genesis.header)
      [(Pow.only .numeral genesis.header, limited 21019, headers₁), (headers₁, second, headers₂)] headers₂ ∧
    Pow.parentOf (Pow.only .numeral genesis.header) (limited 21019) = some genesis.header ∧
    Pow.parentOf headers₁ second = some (limited 21019) :=
  ⟨_, _, .cons (acceptStep_of_isOk _ _ (by decide +kernel) (by decide +kernel))
    (.cons (acceptStep_of_isOk _ _ (by decide +kernel) (by decide +kernel)) (.nil _)), by decide +kernel,
    by decide +kernel⟩

theorem allBounded_genesis : Pow.AllBounded (Pow.only .numeral genesis.header) :=
  Pow.allBounded_only ⟨by decide, by decide⟩ (by decide)

end Backend.tally

open Backend.tally in
/-- Two headers on the genesis header with the proposed limits. -/
theorem gasLimit_drift_proposed : ∃ headers₁ headers₂, Run (Pow.AcceptStep .numeral fun _ => true)
      (Pow.only .numeral genesis.header)
      [(Pow.only .numeral genesis.header, limited 21019, headers₁), (headers₁, second, headers₂)] headers₂ ∧
    (∃ parent, Pow.parentOf (Pow.only .numeral genesis.header) (limited 21019) = some parent ∧
      Pow.Drifts parent (limited 21019) ∧ Pow.GasBounded (limited 21019)) ∧
    ∃ parent, Pow.parentOf headers₁ second = some parent ∧ Pow.Drifts parent second ∧ Pow.GasBounded second := by
  obtain ⟨headers₁, headers₂, run, first, next⟩ := two_accepted
  have proposed : ∀ {headers header parent}, Pow.parentOf headers header = some parent →
      header.gasLimit = Pow.calcGasLimit parent → Pow.ProposedLimit headers header := by
    intro headers header parent isParent same parent' read
    rw [same, Option.some.inj (isParent.symm.trans read)]
  have drift := Pow.gasLimit_drift run allBounded_genesis (List.forall_mem_cons.mpr
    ⟨proposed first rfl, List.forall_mem_singleton.mpr (proposed next rfl)⟩)
  rw [List.forall_mem_cons, List.forall_mem_singleton] at drift
  exact ⟨headers₁, headers₂, run, drift⟩

open Backend.tally in
/-- A header with a gas limit of one is accepted. -/
theorem gasLimit_unchecked :
    ¬ ∀ (C : Crypto) (verifySeal : Header → Bool) (headers headers' : Pow.Headers)
      (ts : List (Pow.Headers × Header × Pow.Headers)), Run (Pow.AcceptStep C verifySeal) headers ts headers' →
      Pow.AllBounded headers →
      ∀ t ∈ ts, ∃ parent, Pow.parentOf t.1 t.2.1 = some parent ∧ Pow.Drifts parent t.2.1 ∧ Pow.GasBounded t.2.1 := by
  intro always
  have step := acceptStep_of_isOk (Pow.only .numeral genesis.header) (limited 1) (by decide +kernel)
    (by decide +kernel)
  obtain ⟨parent, -, drifts, -⟩ := always _ _ _ _ _ (Run.cons step (.nil _)) allBounded_genesis _ (.head _)
  exact absurd drifts.minimum (by decide : ¬ Pow.minGasLimit ≤ (limited 1).gasLimit)

end KKChain
