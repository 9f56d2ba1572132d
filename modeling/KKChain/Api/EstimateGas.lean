import KKChain.Machine.Proc
import Mathlib.Algebra.Group.Nat.Defs
import Mathlib.Order.Bounds.Basic

/-! # The estimate of gas

`EstimateGas` searches for the least gas a call can be executed with, between the gas of any transaction and a cap. The
midpoint is half of a sum of words: with a cap above 2 ^ 63 the sum may wrap, and the lower bound of the search then
falls again, forever if nothing can be executed.
-/

namespace KKChain.Api

def txGas : ℕ := 21000

inductive EstimateError (ε : Type) where
  | backend (e : ε)
  | exceedsAllowance
deriving DecidableEq

section Search

variable {ε : Type} (runs : ℕ → Bool)

/-- Whether `doCall` succeeds, if a message of some gas does. A call without gas gets half of all there is. -/
def executable (gas : ℕ) : Bool := runs (if gas = 0 then (2 ^ 64 - 1) / 2 else gas)

/-- The loop of `EstimateGas`, whose sums are words. -/
def search : ℕ → ℕ → ℕ → Except (Fault (EstimateError ε)) ℕ
  | 0, _, _ => .error .diverges
  | fuel + 1, lo, hi =>
    if (lo + 1) % 2 ^ 64 < hi then
      let mid := (hi + lo) % 2 ^ 64 / 2
      if executable runs mid then search fuel lo mid else search fuel mid hi
    else .ok hi

/-- The cap: the gas of the call, or that of the pending block. -/
def ceiling (gas : UInt64) (pending : Except ε UInt64) : Except ε UInt64 :=
  if txGas ≤ gas.toNat then .ok gas else pending

/-- `EstimateGas`, for a pending block that may be missing. -/
def estimateGas (fuel : ℕ) (gas : UInt64) (pending : Except ε UInt64) : Except (Fault (EstimateError ε)) ℕ :=
  match ceiling gas pending with
  | .error e => .error (.error (.backend e))
  | .ok cap => do
    let hi ← search runs fuel (txGas - 1) cap.toNat
    if hi = cap.toNat ∧ executable runs hi = false then .error (.error .exceedsAllowance) else .ok hi

/-- The call returns; an estimate is executable, and is the least one within the bounds if, from the gas of
any transaction on, more gas does no harm. -/
structure Estimates (cap : UInt64) (result : Except (Fault (EstimateError ε)) ℕ) : Prop where
  returns : result ≠ .error .diverges
  executable : ∀ {g}, result = .ok g → executable runs g = true
  least : ∀ {g}, result = .ok g →
    (∀ a b, txGas ≤ a → a ≤ b → b < 2 ^ 64 → Api.executable runs a = true → Api.executable runs b = true) →
    IsLeast {g | txGas ≤ g ∧ g ≤ cap.toNat ∧ Api.executable runs g = true} g

end Search

variable {runs : ℕ → Bool} {ε : Type} {lo hi cap : ℕ}

/-- The loop ends with neighbours; its bounds have moved only to what was tried. -/
theorem search_spec (runs : ℕ → Bool) (half : hi ≤ 2 ^ 63) {fuel : ℕ} (enough : hi - lo < fuel)
    (start : txGas - 1 ≤ lo) (order : lo < hi) (bound : hi ≤ cap)
    (low : lo = txGas - 1 ∨ executable runs lo = false) (high : hi = cap ∨ executable runs hi = true) :
    ∃ lo' g, search (ε := ε) runs fuel lo hi = .ok g ∧ txGas - 1 ≤ lo' ∧ lo' + 1 = g ∧ g ≤ cap ∧
      (lo' = txGas - 1 ∨ executable runs lo' = false) ∧ (g = cap ∨ executable runs g = true) := by
  induction fuel generalizing lo hi with
  | zero => omega
  | succ fuel ih =>
    -- the sum of the bounds is a word
    simp only [search, Nat.mod_eq_of_lt (show lo + 1 < 2 ^ 64 by omega),
      Nat.mod_eq_of_lt (show hi + lo < 2 ^ 64 by omega)]
    split_ifs with wide found
    · exact ih (by omega) (by omega) start (by omega) (by omega) low (.inr found)
    · exact ih half (by omega) (by omega) (by omega) bound (.inr (by simpa using found)) high
    · exact ⟨lo, hi, rfl, start, by omega, bound, low, high⟩

/-- With an upper bound above 2 ^ 63 and nothing executable, the lower bound stays below 2 ^ 63. -/
theorem search_diverges (large : 2 ^ 63 < hi) (small : lo < 2 ^ 63) (fuel : ℕ) :
    search (ε := ε) (fun _ => false) fuel lo hi = .error .diverges := by
  induction fuel generalizing lo with
  | zero => rfl
  | succ fuel ih =>
    rw [search, if_pos (by omega)]
    exact ih (by omega)

/-- What was found, with the last lower bound, is an estimate. -/
theorem estimates_of_found {cap : UInt64} {g : ℕ} (start : txGas - 1 ≤ lo) (next : lo + 1 = g) (bound : g ≤ cap.toNat)
    (low : lo = txGas - 1 ∨ executable runs lo = false) (found : executable runs g = true) :
    Estimates (ε := ε) runs cap (.ok g) := by
  refine ⟨nofun, fun same => ?_, fun same mono => ?_⟩
  · cases same
    exact found
  · cases same
    refine ⟨⟨by omega, bound, found⟩, fun x ⟨large, _, runsX⟩ => ?_⟩
    by_contra less
    rcases low with rfl | fails
    · have : 0 < txGas := by decide
      omega
    · have := cap.toNat_lt
      simp [mono x lo large (by omega) (by omega) runsX] at fails

/-- For which caps the estimate is right, whatever the call. -/
theorem estimates_iff {gas limit cap : UInt64} (isCap : ceiling gas (.ok limit : Except Empty UInt64) = .ok cap) :
    (∀ runs, ∃ fuel, Estimates runs cap (estimateGas runs fuel gas (.ok limit : Except Empty UInt64))) ↔
      txGas ≤ cap.toNat ∧ cap.toNat ≤ 2 ^ 63 := by
  refine ⟨fun always => ⟨?_, ?_⟩, fun ⟨low, half⟩ runs => ?_⟩
  · by_contra small
    obtain ⟨fuel, right⟩ := always fun _ => true
    -- the search does not start, and its upper bound is executable
    have narrow : ¬ (txGas - 1 + 1) % 2 ^ 64 < cap.toNat := by simp only [txGas] at small ⊢; omega
    cases fuel with
    | zero => exact right.returns (by simp only [estimateGas, isCap, search, bind, Except.bind])
    | succ fuel =>
      have result : estimateGas (fun _ => true) (fuel + 1) gas (.ok limit : Except Empty UInt64) = .ok cap.toNat := by
        simp only [estimateGas, isCap, search, if_neg narrow, bind, Except.bind, executable,
          Bool.true_eq_false, and_false, if_false]
      exact small (right.least result fun _ _ _ _ _ _ => rfl).1.1
  · by_contra large
    obtain ⟨fuel, right⟩ := always fun _ => false
    refine right.returns ?_
    have diverges := search_diverges (ε := Empty) (not_le.mp large) (show txGas - 1 < 2 ^ 63 by decide) fuel
    simp only [estimateGas, isCap, diverges, bind, Except.bind]
  · obtain ⟨fuel, enough⟩ : ∃ fuel, cap.toNat - (txGas - 1) < fuel := ⟨_, Nat.lt_succ_self _⟩
    obtain ⟨lo, g, ran, start, next, bound, below, above⟩ := search_spec (ε := Empty) runs half enough le_rfl
      (Nat.lt_of_lt_of_le (by decide) low) le_rfl (.inl rfl) (.inl rfl)
    refine ⟨fuel, ?_⟩
    simp only [estimateGas, isCap, ran, bind, Except.bind]
    split_ifs with fails
    · exact ⟨nofun, nofun, nofun⟩
    · exact estimates_of_found start next bound below (above.elim (fun top => by simpa [top] using fails) id)

/-- A call that needs 53000 gas is estimated right with a million. -/
theorem estimates_million : ∃ fuel, Estimates (fun gas => 53000 ≤ gas) 1000000
    (estimateGas (fun gas => 53000 ≤ gas) fuel 1000000 (.ok 0 : Except Empty UInt64)) :=
  (estimates_iff rfl).mpr ⟨by decide, by decide⟩ _

/-- With all the gas there is and nothing executable, the search does not end. -/
theorem not_returns_max : ¬ ∃ fuel,
    estimateGas (fun _ => false) fuel 0xFFFFFFFFFFFFFFFF (.ok 0 : Except Empty UInt64) ≠ .error .diverges := by
  rintro ⟨fuel, returns⟩
  have diverges := search_diverges (ε := Empty) (show 2 ^ 63 < 2 ^ 64 - 1 by decide)
    (show txGas - 1 < 2 ^ 63 by decide) fuel
  exact returns (congrArg (· >>= _) diverges)

end KKChain.Api
