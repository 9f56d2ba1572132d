import KKChain.Consensus.GasLimit

/-! # The difficulty along a chain of headers

`VerifyHeader` compares times as they are, but computes the difficulty with the lowest 64 bits of the time. The numbers
and times of accepted headers increase, and no difficulty is below the minimum. The difficulty is that of the Frontier
rule exactly if the cut leaves the time on the same side of the duration limit.
-/

namespace KKChain

namespace Pow

/-- The exponential term of the Frontier rule. -/
def periodTerm (parent : Header) : ℤ :=
  if 1 < (parent.number + 1) / 100000 then 2 ^ ((parent.number + 1) / 100000 - 2).toNat else 0

/-- The Frontier rule on the exact time. -/
def frontierDifficulty (time : ℤ) (parent : Header) : ℤ :=
  max (if time - parent.time < 13 then parent.difficulty + parent.difficulty / 2048
    else parent.difficulty - parent.difficulty / 2048) minimumDifficulty + periodTerm parent

/-- What the header rules are for: the number is the next one, the time is later, and the difficulty is that of the
Frontier rule. -/
structure Follows (parent header : Header) : Prop where
  number : header.number = parent.number + 1
  time : parent.time < header.time
  difficulty : header.difficulty = frontierDifficulty header.time parent
  minimum : minimumDifficulty ≤ header.difficulty

/-- `Uint64` of the time of a header. -/
def cutTime (header : Header) : ℕ := header.time.natAbs % 2 ^ 64

/-- The lowest bits of the time are on the same side of the duration limit as the time, or the difficulty of the parent
is so low that the side does not matter. -/
def SameSide (parent header : Header) : Prop :=
  ((cutTime header : ℤ) - parent.time < 13 ↔ header.time - parent.time < 13) ∨
    max (parent.difficulty + parent.difficulty / 2048) minimumDifficulty =
      max (parent.difficulty - parent.difficulty / 2048) minimumDifficulty

theorem periodTerm_nonneg (parent : Header) : 0 ≤ periodTerm parent := by
  unfold periodTerm
  split_ifs
  · exact pow_nonneg (by decide) _
  · exact le_rfl

/-- `calcDifficultyFrontier` is the Frontier rule of the time it is given. -/
theorem calcDifficulty_eq (time : ℕ) (parent : Header) :
    calcDifficulty time parent = frontierDifficulty time parent := by
  have least := periodTerm_nonneg parent
  have clamp : ∀ d : ℤ, (if d < minimumDifficulty then minimumDifficulty else d) = max d minimumDifficulty := by
    intro d
    split_ifs with low
    · exact (max_eq_right low.le).symm
    · exact (max_eq_left (not_lt.mp low)).symm
  rw [calcDifficulty, frontierDifficulty]
  simp only [clamp]
  generalize (if (time : ℤ) - parent.time < 13 then _ else _) = diff
  rw [periodTerm] at least ⊢
  split_ifs at least ⊢
  · exact max_eq_left ((le_max_right ..).trans (le_add_of_nonneg_right least))
  · rw [add_zero]

theorem minimum_le_frontierDifficulty (time : ℤ) (parent : Header) :
    minimumDifficulty ≤ frontierDifficulty time parent := by
  have least := periodTerm_nonneg parent
  rw [frontierDifficulty]
  exact (le_max_right ..).trans (le_add_of_nonneg_right least)

/-- The rule on the cut time and on the exact one agree on the same side only. -/
theorem frontierDifficulty_cut_iff (parent header : Header) :
    frontierDifficulty (cutTime header) parent = frontierDifficulty header.time parent ↔ SameSide parent header := by
  rw [frontierDifficulty, frontierDifficulty, add_left_inj, SameSide]
  by_cases cut : (cutTime header : ℤ) - parent.time < 13 <;> by_cases whole : header.time - parent.time < 13
  all_goals simp only [cut, whole, if_true, if_false, true_or, iff_self, iff_true, iff_false, not_true_eq_false,
    false_or]
  exact eq_comm

variable {C : Crypto} {verifySeal : Header → Bool} {headers headers' : Headers} {header : Header}

/-- All that the rules say of a new header. -/
theorem AcceptStep.rules (step : AcceptStep C verifySeal headers header headers') :
    ∃ parent, parentOf headers header = some parent ∧ header.number = parent.number + 1 ∧ parent.time < header.time ∧
      header.difficulty = frontierDifficulty (cutTime header) parent := by
  obtain ⟨parent, read, -, number, time, difficulty⟩ := step.checks
  refine ⟨parent, read, number, time, ?_⟩
  rw [← difficulty, calcDifficulty_eq]
  rfl

/-- A new header follows its parent exactly if the cut leaves its time on the same side. -/
theorem AcceptStep.follows_iff (step : AcceptStep C verifySeal headers header headers') :
    (∃ parent, parentOf headers header = some parent ∧ Follows parent header) ↔
      ∀ parent ∈ parentOf headers header, SameSide parent header := by
  obtain ⟨parent, read, number, time, difficulty⟩ := step.rules
  rw [read]
  simp only [Option.some.injEq, exists_eq_left', Option.mem_def, forall_eq']
  rw [← frontierDifficulty_cut_iff]
  refine ⟨fun follows => difficulty.symm.trans follows.difficulty,
    fun same => ⟨number, time, difficulty.trans same, ?_⟩⟩
  rw [difficulty]
  exact minimum_le_frontierDifficulty ..

/-- In every chain of accepted headers the numbers increase by one, the times increase and no difficulty is below the
minimum; and all difficulties are those of the Frontier rule exactly if the cut leaves every time on the same side. -/
theorem difficulty_rule {ts : List (Headers × Header × Headers)}
    (run : Run (AcceptStep C verifySeal) headers ts headers') :
    (∀ t ∈ ts, ∃ parent, parentOf t.1 t.2.1 = some parent ∧ t.2.1.number = parent.number + 1 ∧
      parent.time < t.2.1.time ∧ minimumDifficulty ≤ t.2.1.difficulty) ∧
    ((∀ t ∈ ts, ∃ parent, parentOf t.1 t.2.1 = some parent ∧ Follows parent t.2.1) ↔
      ∀ t ∈ ts, ∀ parent ∈ parentOf t.1 t.2.1, SameSide parent t.2.1) := by
  refine ⟨fun t member => ?_, forall₂_congr fun t member => (run.step_of_mem member).follows_iff⟩
  obtain ⟨parent, read, number, time, difficulty⟩ := (run.step_of_mem member).rules
  exact ⟨parent, read, number, time, difficulty ▸ minimum_le_frontierDifficulty ..⟩

/-- A time that is a word is on its own side. -/
theorem sameSide_of_word {parent header : Header} (low : 0 ≤ header.time) (high : header.time < 2 ^ 64) :
    SameSide parent header := by
  have same : (cutTime header : ℤ) = header.time := by
    rw [cutTime]
    omega
  rw [SameSide, same]
  exact .inl Iff.rfl

end Pow

namespace Backend.tally

/-- A header on the genesis header that was created at this time. -/
def timed (time : ℕ) : Header := header (hash 0) 1 time 131136 0 1

end Backend.tally

open Backend.tally in
/-- Two headers, each ten seconds after the one before. -/
theorem difficulty_rule_timed : ∃ headers₁ headers₂, Run (Pow.AcceptStep .numeral fun _ => true)
      (Pow.only .numeral genesis.header)
      [(Pow.only .numeral genesis.header, limited 21019, headers₁), (headers₁, second, headers₂)] headers₂ ∧
    (∃ parent, Pow.parentOf (Pow.only .numeral genesis.header) (limited 21019) = some parent ∧
      Pow.Follows parent (limited 21019)) ∧
    ∃ parent, Pow.parentOf headers₁ second = some parent ∧ Pow.Follows parent second := by
  obtain ⟨headers₁, headers₂, run, -, -⟩ := two_accepted
  have words : (0 ≤ (limited 21019).time ∧ (limited 21019).time < 2 ^ 64) ∧ 0 ≤ second.time ∧ second.time < 2 ^ 64 := by
    decide
  have follows := (Pow.difficulty_rule run).2.mpr <| List.forall_mem_cons.mpr
    ⟨fun parent _ => Pow.sameSide_of_word words.1.1 words.1.2,
      List.forall_mem_singleton.mpr fun parent _ => Pow.sameSide_of_word words.2.1 words.2.2⟩
  rw [List.forall_mem_cons, List.forall_mem_singleton] at follows
  exact ⟨headers₁, headers₂, run, follows⟩

open Backend.tally in
/-- A header at time 2 ^ 64 is accepted with a difficulty that has gone up, as if no time had passed. -/
theorem difficulty_cut : ∃ headers', Run (Pow.AcceptStep .numeral fun _ => true)
      (Pow.only .numeral genesis.header) [(Pow.only .numeral genesis.header, timed (2 ^ 64), headers')] headers' ∧
    Pow.parentOf (Pow.only .numeral genesis.header) (timed (2 ^ 64)) = some genesis.header ∧
    (timed (2 ^ 64)).difficulty = 131136 ∧
    Pow.frontierDifficulty (timed (2 ^ 64)).time genesis.header = 131072 := by
  have step := acceptStep_of_isOk (Pow.only .numeral genesis.header) (timed (2 ^ 64)) (by decide +kernel)
    (by decide +kernel)
  exact ⟨_, Run.cons step (.nil _), by decide +kernel, rfl, by decide⟩

end KKChain
