import KKChain.Common
import Mathlib.Data.Nat.Size
import Mathlib.Tactic.Linarith

/-! # Modular exponentiation

The precompiled contract reads three lengths of 256 bits, cuts them to 64 bits and slices the input with them. The gas
bounds the lengths of the base and of the modulus, but hardly that of the exponent.
-/

namespace KKChain.Vm

open Rlp BigEndian List

/-- `int` of a `uint64`. -/
def toInt64 (n : ℕ) : ℤ := if n < 2 ^ 63 then n else n - 2 ^ 64

/-- `RightPadBytes`. A slice that does not fit is a run-time error. -/
def rightPadBytes (slice : Bytes) (l : ℤ) : Option Bytes :=
  if l ≤ slice.length then some slice
  else if l ≤ maxAlloc then some (slice ++ List.replicate (l.toNat - slice.length) 0) else none

def leftPadBytes (slice : Bytes) (l : ℤ) : Option Bytes :=
  if l ≤ slice.length then some slice
  else if l ≤ maxAlloc then some (List.replicate (l.toNat - slice.length) 0 ++ slice) else none

/-- `getData`, with 64-bit numbers. -/
def getData (data : Bytes) (start size : ℕ) : Option Bytes :=
  let length := data.length
  let start := if length < start then length else start
  let stop := (start + size) % 2 ^ 64
  let stop := if length < stop then length else stop
  if start ≤ stop then rightPadBytes ((data.drop start).take (stop - start)) (toInt64 size) else none

namespace BigModExp

/-- A number of the header. -/
def word (input : Bytes) (start : ℕ) : Option ℕ := (getData input start 32).map BigEndian.toNat

/-- The input behind the header. -/
def payload (input : Bytes) : Bytes := if 96 < input.length then input.drop 96 else input.take 0

def expHead (input : Bytes) (baseLen expLen : ℕ) : Option ℕ :=
  if input.length ≤ baseLen then some 0
  else if 32 < expLen then (getData input (baseLen % 2 ^ 64) 32).map BigEndian.toNat
  else (getData input (baseLen % 2 ^ 64) (expLen % 2 ^ 64)).map BigEndian.toNat

/-- The price of a multiplication of numbers of a length. -/
def complexity (x : ℕ) : ℕ :=
  if x ≤ 64 then x * x
  else if x ≤ 1024 then x * x / 4 + (96 * x - 3072)
  else x * x / 16 + (480 * x - 199680)

/-- The gas for the lengths and the head of the exponent, before it is cut to 64 bits. -/
def gasFor (baseLen expLen modLen head : ℕ) : ℕ :=
  let msb := head.size - 1
  let adjExpLen := (if 32 < expLen then 8 * (expLen - 32) else 0) + msb
  complexity (max modLen baseLen) * max adjExpLen 1 / 20

def requiredGas (input : Bytes) : Option ℕ := do
  let baseLen ← word input 0
  let expLen ← word input 32
  let modLen ← word input 64
  let head ← expHead (payload input) baseLen expLen
  let gas := gasFor baseLen expLen modLen head
  return if 64 < gas.size then 2 ^ 64 - 1 else gas

/-- `Run`, once the lengths are cut to 64 bits. -/
def runWith (input : Bytes) (baseLen expLen modLen : ℕ) : Option Bytes :=
  if baseLen = 0 ∧ modLen = 0 then some []
  else do
    let base ← getData input 0 baseLen
    let exp ← getData input baseLen expLen
    let mod ← getData input ((baseLen + expLen) % 2 ^ 64) modLen
    let mod := BigEndian.toNat mod
    if mod = 0 then leftPadBytes [] (toInt64 modLen)
    else leftPadBytes (BigEndian.minimal (BigEndian.toNat base ^ BigEndian.toNat exp % mod)) (toInt64 modLen)

def run (input : Bytes) : Option Bytes := do
  let baseLen ← word input 0
  let expLen ← word input 32
  let modLen ← word input 64
  runWith (payload input) (baseLen % 2 ^ 64) (expLen % 2 ^ 64) (modLen % 2 ^ 64)

/-- The bytes of the input extended by zeros. -/
def extended (data : Bytes) (start size : ℕ) : Bytes := (List.range size).map fun i => data.getD (start + i) 0

/-- A number of the input extended by zeros. -/
def number (data : Bytes) (start size : ℕ) : ℕ := BigEndian.toNat (extended data start size)

/-- What the contract computes, for lengths. -/
def power (input : Bytes) (baseLen expLen modLen : ℕ) : ℕ :=
  let mod := number input (96 + baseLen + expLen) modLen
  if mod = 0 then 0 else number input 96 baseLen ^ number input (96 + baseLen) expLen % mod

/-- The input is priced, and for enough gas the result is the power in as many bytes as the modulus has. -/
def Handles (input : Bytes) (baseLen expLen modLen gas : ℕ) : Prop :=
  ∃ required, requiredGas input = some required ∧
    (required ≤ gas → run input = some (BigEndian.fixed modLen (power input baseLen expLen modLen)))

/-- The lengths that the header of an input announces. -/
def Announces (input : Bytes) (baseLen expLen modLen : ℕ) : Prop :=
  number input 0 32 = baseLen ∧ number input 32 32 = expLen ∧ number input 64 32 = modLen

instance (input : Bytes) (baseLen expLen modLen : ℕ) : Decidable (Announces input baseLen expLen modLen) :=
  inferInstanceAs (Decidable (_ ∧ _ ∧ _))

/-- The lengths for which all goes well: nothing to compute, an exponent that can be allocated, lengths that cost too
much, an exponent so long that its length is negative and no sum overflows, or one whose length is cut and whose modulus
is outside of every input. -/
def Sliceable (baseLen expLen modLen : ℕ) : Prop :=
  baseLen = 0 ∧ modLen = 0 ∨ expLen ≤ maxAlloc ∨ 2 ^ 63 ≤ gasFor baseLen expLen modLen 0 ∨
    2 ^ 63 ≤ expLen ∧ baseLen + expLen < 2 ^ 64 ∨
    2 ^ 64 ≤ expLen ∧ expLen - 2 ^ 64 ≤ maxAlloc ∧ (modLen = 0 ∨ maxAlloc < 96 + baseLen + (expLen - 2 ^ 64) + 1)

section Slices

variable {data : Bytes} {start size : ℕ}

@[simp] theorem length_extended : (extended data start size).length = size := by simp [extended]

theorem getElem?_extended (i : ℕ) :
    (extended data start size)[i]? = if i < size then some (data.getD (start + i) 0) else none := by
  simp only [extended, getElem?_map]
  split_ifs with inside
  · simp [inside]
  · simp [inside]

/-- The slice with its padding is the part of the extended input, whenever it has its length. -/
theorem slice_append_replicate {stop : ℕ} (order : start ≤ stop) (inside : stop ≤ data.length)
    (short : stop - start ≤ size) (whole : stop = data.length ∨ stop - start = size) :
    (data.drop start).take (stop - start) ++ replicate (size - (stop - start)) 0 = extended data start size := by
  refine ext_getElem? fun i => ?_
  rw [getElem?_extended, getElem?_append, getElem?_take, getElem?_drop, getElem?_replicate,
    length_take, length_drop, Nat.min_eq_left (by omega)]
  by_cases inSlice : i < stop - start
  · rw [if_pos inSlice, if_pos inSlice, if_pos (by omega), getD_eq_getElem?_getD,
      getElem?_eq_getElem (by omega : start + i < data.length)]
    rfl
  · rw [if_neg inSlice]
    by_cases within : i < size
    · rw [if_pos (by omega), if_pos within, getD_eq_getElem?_getD, getElem?_eq_none (by omega)]
      rfl
    · rw [if_neg (by omega), if_neg within]

theorem extended_eq_replicate (beyond : data.length ≤ start) : extended data start size = replicate size 0 := by
  refine ext_getElem? fun i => ?_
  rw [getElem?_extended, getElem?_replicate, getD_eq_getElem?_getD, getElem?_eq_none (by omega)]
  rfl

/-- Padding to a length that can be allocated. -/
theorem rightPadBytes_eq {slice : Bytes} (short : slice.length ≤ size) (fits : size ≤ maxAlloc) :
    rightPadBytes slice (toInt64 size) = some (slice ++ replicate (size - slice.length) 0) := by
  have small : toInt64 size = size := if_pos (by simp only [maxAlloc] at fits; omega)
  unfold rightPadBytes
  rw [small]
  split_ifs with whole enough
  · have same : size = slice.length := by omega
    simp [same]
  · simp
  · exact absurd (by exact_mod_cast fits) enough

/-- `getData` reads the extended input if what it reads can be allocated. -/
theorem getData_eq (held : data.length ≤ maxAlloc) (fits : size ≤ maxAlloc) :
    getData data start size = some (extended data start size) := by
  have alloc : maxAlloc = 2 ^ 48 := rfl
  unfold getData
  by_cases beyond : data.length < start
  · have stop : (if data.length < (data.length + size) % 2 ^ 64 then data.length else (data.length + size) % 2 ^ 64) =
        data.length := by
      split_ifs <;> omega
    simp only [if_pos beyond, stop, le_refl, if_true, Nat.sub_self, take_zero]
    rw [rightPadBytes_eq (by simp) fits, extended_eq_replicate beyond.le]
    simp
  · obtain ⟨stop, isStop, order, inside, short, whole⟩ : ∃ stop,
        (if data.length < (start + size) % 2 ^ 64 then data.length else (start + size) % 2 ^ 64) = stop ∧ start ≤ stop ∧
          stop ≤ data.length ∧ stop - start ≤ size ∧ (stop = data.length ∨ stop - start = size) := by
      refine ⟨_, rfl, ?_⟩
      split_ifs <;> omega
    have length : ((data.drop start).take (stop - start)).length = stop - start := by simp; omega
    simp only [if_neg beyond, isStop, if_pos order]
    rw [rightPadBytes_eq (by omega) fits, length, slice_append_replicate order inside short whole]

end Slices

section Numbers

variable {data input : Bytes} {start size : ℕ}

theorem number_lt : number data start size < 256 ^ size := by
  have bound := toNat_lt (extended data start size)
  rwa [length_extended] at bound

theorem toNat_replicate_append (k : ℕ) (rest : Bytes) :
    BigEndian.toNat (replicate k 0 ++ rest) = BigEndian.toNat rest := by
  induction k with
  | zero => rfl
  | succ k ih =>
    rw [replicate_succ, cons_append, toNat_cons, ih]
    simp

theorem number_eq_zero (beyond : data.length ≤ start) : number data start size = 0 := by
  have zeros := toNat_replicate_append size []
  rwa [append_nil, ← extended_eq_replicate beyond] at zeros

/-- A number that fits is padded to its width. -/
theorem leftPadBytes_minimal {x width : ℕ} (fits : width ≤ maxAlloc) (small : x < 256 ^ width) :
    leftPadBytes (minimal x) (toInt64 width) = some (fixed width x) := by
  have same : toInt64 width = width := if_pos (by simp only [maxAlloc] at fits; omega)
  have short : (minimal x).length ≤ width := minimal_length_le_iff.mpr small
  have padded : replicate (width - (minimal x).length) 0 ++ minimal x = fixed width x := by
    refine eq_of_toNat_eq (by simp; omega) ?_
    rw [toNat_replicate_append, toNat_minimal, toNat_fixed, Nat.mod_eq_of_lt small]
  unfold leftPadBytes
  rw [same, ← padded]
  split_ifs with whole enough
  · have equal : width - (minimal x).length = 0 := by omega
    simp [equal]
  · simp
  · exact absurd (by exact_mod_cast fits) enough

theorem payload_eq (input : Bytes) : payload input = input.drop 96 := by
  unfold payload
  split_ifs with long
  · rfl
  · simp [drop_eq_nil_of_le (not_lt.mp long)]

theorem length_payload (input : Bytes) : (payload input).length = input.length - 96 := by
  rw [payload_eq, length_drop]

theorem number_payload (input : Bytes) (start size : ℕ) :
    number (payload input) start size = number input (96 + start) size := by
  unfold number extended
  rw [payload_eq]
  congr 2
  simp [getD_eq_getElem?_getD, Nat.add_assoc]

theorem word_eq (held : input.length ≤ maxAlloc) (start : ℕ) : word input start = some (number input start 32) := by
  rw [word, getData_eq held (by decide)]
  rfl

end Numbers

section Gas

variable {b e m head g x : ℕ}

/-- The head of the exponent can always be read. -/
theorem expHead_eq {data : Bytes} (held : data.length ≤ maxAlloc) (b e : ℕ) :
    ∃ head, expHead data b e = some head ∧ head < 256 ^ 32 ∧ (data.length ≤ b → head = 0) := by
  have alloc : maxAlloc = 2 ^ 48 := rfl
  unfold expHead
  split_ifs with outside long
  · exact ⟨0, rfl, by decide, fun _ => rfl⟩
  · exact ⟨_, by rw [getData_eq held (by decide)]; rfl, number_lt, fun beyond => absurd beyond outside⟩
  · refine ⟨_, by rw [getData_eq held (by omega)]; rfl, ?_, fun beyond => absurd beyond outside⟩
    exact number_lt.trans_le (Nat.pow_le_pow_right (by decide) (by omega))

/-- `RequiredGas` does not panic. -/
theorem requiredGas_eq {input : Bytes} (held : input.length ≤ maxAlloc) (announces : Announces input b e m) :
    ∃ head, head < 256 ^ 32 ∧ (input.length - 96 ≤ b → head = 0) ∧
      requiredGas input = some (if 64 < (gasFor b e m head).size then 2 ^ 64 - 1 else gasFor b e m head) := by
  obtain ⟨rfl, rfl, rfl⟩ := announces
  have inner : (payload input).length ≤ maxAlloc := by rw [length_payload]; omega
  obtain ⟨head, read, small, zero⟩ := expHead_eq inner (number input 0 32) (number input 32 32)
  rw [length_payload] at zero
  exact ⟨head, small, zero, by simp [requiredGas, word_eq held, read]⟩

/-- Gas below `2^63` is not cut. -/
theorem gas_lt_of_le {gas : ℕ} (enough : (if 64 < g.size then 2 ^ 64 - 1 else g) ≤ gas) (bound : gas < 2 ^ 63) :
    g < 2 ^ 63 := by
  split_ifs at enough with large
  · omega
  · omega

theorem gas_le_of_lt (bound : g < 2 ^ 63) : (if 64 < g.size then 2 ^ 64 - 1 else g) = g := by
  refine if_neg (not_lt.mpr (Nat.size_le.mpr ?_))
  exact bound.trans (by decide)

theorem gasFor_zero_le (b e m head : ℕ) : gasFor b e m 0 ≤ gasFor b e m head := by
  refine Nat.div_le_div_right (Nat.mul_le_mul_left _ (max_le_max ?_ le_rfl))
  simp

theorem sq_le_complexity (x : ℕ) : x * x / 16 ≤ complexity x := by
  unfold complexity
  split_ifs <;> omega

theorem four_le_complexity (two : 2 ≤ x) : 4 ≤ complexity x := by
  unfold complexity
  split_ifs
  · nlinarith
  · omega
  · omega

/-- What can be paid for bounds the lengths of the base and of the modulus. -/
theorem max_lt_of_gas (paid : gasFor b e m head < 2 ^ 63) : max m b < maxAlloc := by
  refine not_le.mp fun large => ?_
  have square : 2 ^ 96 / 16 ≤ complexity (max m b) := by
    refine le_trans (Nat.div_le_div_right ?_) (sq_le_complexity _)
    simp only [maxAlloc] at large
    nlinarith
  have least : complexity (max m b) ≤ complexity (max m b) * max
      ((if 32 < e then 8 * (e - 32) else 0) + (head.size - 1)) 1 :=
    Nat.le_mul_of_pos_right _ (by simp)
  unfold gasFor at paid
  simp only at paid
  omega

/-- What can be paid for with a long exponent has a base and a modulus of one byte at most. -/
theorem max_le_one_of_gas (paid : gasFor b e m head < 2 ^ 63) (long : 2 ^ 63 ≤ e) : max m b ≤ 1 := by
  refine not_lt.mp fun large => ?_
  have four := four_le_complexity large
  have adjusted : 8 * (2 ^ 63 - 32) ≤ max ((if 32 < e then 8 * (e - 32) else 0) + (head.size - 1)) 1 := by
    rw [if_pos (by omega)]
    omega
  have product := Nat.mul_le_mul four adjusted
  unfold gasFor at paid
  simp only at paid
  omega

/-- And its exponent is at most a quarter longer than 64 bits can say. -/
theorem exp_lt_of_gas (paid : gasFor b e m head < 2 ^ 63) (busy : ¬(b = 0 ∧ m = 0)) (long : 32 < e) :
    8 * (e - 32) < 20 * 2 ^ 63 := by
  have one : 1 ≤ complexity (max m b) := by
    by_cases two : 2 ≤ max m b
    · exact le_trans (by decide) (four_le_complexity two)
    · have single : max m b = 1 := by omega
      rw [single]
      decide
  have adjusted : 8 * (e - 32) ≤ max ((if 32 < e then 8 * (e - 32) else 0) + (head.size - 1)) 1 := by
    rw [if_pos long]
    omega
  have product := Nat.mul_le_mul one adjusted
  unfold gasFor at paid
  simp only at paid
  omega

end Gas

section Run

variable {input data : Bytes} {b e m : ℕ}

theorem run_eq (held : input.length ≤ maxAlloc) (announces : Announces input b e m) :
    run input = runWith (payload input) (b % 2 ^ 64) (e % 2 ^ 64) (m % 2 ^ 64) := by
  obtain ⟨rfl, rfl, rfl⟩ := announces
  simp [run, word_eq held]

/-- Once the exponent is read the rest goes well. -/
theorem runWith_eq {exp : Bytes} (held : data.length ≤ maxAlloc) (paid : max m b < maxAlloc)
    (read : getData data b e = some exp) :
    runWith data b e m = some (fixed m
      (if number data ((b + e) % 2 ^ 64) m = 0 then 0
      else number data 0 b ^ toNat exp % number data ((b + e) % 2 ^ 64) m)) := by
  unfold runWith
  by_cases idle : b = 0 ∧ m = 0
  · rw [if_pos idle, idle.2]
    rfl
  · rw [if_neg idle, getData_eq held (by omega), read, getData_eq held (by omega)]
    show (if number data ((b + e) % 2 ^ 64) m = 0 then leftPadBytes [] (toInt64 m)
      else leftPadBytes (minimal (number data 0 b ^ toNat exp % number data ((b + e) % 2 ^ 64) m)) (toInt64 m)) = _
    split_ifs with zero
    · rw [← leftPadBytes_minimal (by omega : m ≤ maxAlloc) (by positivity : 0 < 256 ^ m), minimal_zero]
    · exact leftPadBytes_minimal (by omega) ((Nat.mod_lt _ (Nat.pos_of_ne_zero zero)).trans number_lt)

/-- An exponent that cannot be read is a run-time error. -/
theorem runWith_eq_none (busy : ¬(b = 0 ∧ m = 0)) (unread : getData data b e = none) : runWith data b e m = none := by
  unfold runWith
  rw [if_neg busy, unread]
  cases getData data 0 b <;> rfl

/-- A length that is negative as an `int` is not padded to. -/
theorem getData_of_negative (held : data.length ≤ maxAlloc) (negative : 2 ^ 63 ≤ e) (bound : b + e < 2 ^ 64) :
    ∃ exp, getData data b e = some exp := by
  have alloc : maxAlloc = 2 ^ 48 := rfl
  obtain ⟨start, isStart, order, first⟩ : ∃ start, (if data.length < b then data.length else b) = start ∧
    start ≤ data.length ∧
      start ≤ b := by
    refine ⟨_, rfl, ?_⟩
    split_ifs <;> omega
  have stop : (if data.length < (start + e) % 2 ^ 64 then data.length else (start + e) % 2 ^ 64) = data.length :=
    if_pos (by omega)
  have below : toInt64 e ≤ 0 := by
    rw [toInt64, if_neg (by omega)]
    omega
  simp only [getData, isStart, stop, if_pos order, rightPadBytes]
  exact ⟨_, if_pos (below.trans (by positivity))⟩

/-- Nothing can be padded to a length that cannot be allocated. -/
theorem getData_of_unallocatable (large : maxAlloc < e) (positive : e < 2 ^ 63) : getData [] b e = none := by
  have same : toInt64 e = e := if_pos positive
  have start : (if 0 < b then 0 else b) = 0 := by split_ifs <;> omega
  have stop : (if 0 < (0 + e) % 2 ^ 64 then 0 else (0 + e) % 2 ^ 64) = 0 := if_pos (by omega)
  simp only [getData, length_nil, start, stop, le_refl, if_true, rightPadBytes, same]
  rw [if_neg, if_neg]
  · exact_mod_cast not_le.mpr large
  · simp
    omega

end Run

section Sufficient

variable {input : Bytes} {b e m gas : ℕ}

/-- For the lengths for which all goes well every input is handled. -/
theorem handles_of_sliceable (held : input.length ≤ maxAlloc) (announces : Announces input b e m)
    (bound : gas ≤ 2 ^ 63 - 1) (sliceable : Sliceable b e m) : Handles input b e m gas := by
  have alloc : maxAlloc = 2 ^ 48 := rfl
  obtain ⟨head, -, -, priced⟩ := requiredGas_eq held announces
  refine ⟨_, priced, fun enough => ?_⟩
  have cheap := gas_lt_of_le enough (by omega)
  have paid := max_lt_of_gas cheap
  have free := (gasFor_zero_le b e m head).trans_lt cheap
  have inner : (payload input).length ≤ maxAlloc := by rw [length_payload]; omega
  have length := length_payload input
  rw [run_eq held announces, Nat.mod_eq_of_lt (by omega : b < 2 ^ 64), Nat.mod_eq_of_lt (by omega : m < 2 ^ 64)]
  -- a modulus behind the input is zero, wherever it is looked for
  have vanishes : (payload input).length ≤ b + e → (payload input).length ≤ (b + e % 2 ^ 64) % 2 ^ 64 →
      ∀ exp, getData (payload input) b (e % 2 ^ 64) = some exp →
        runWith (payload input) b (e % 2 ^ 64) m = some (fixed m (power input b e m)) := by
    intro beyond cut exp read
    have behind : number input (96 + b + e) m = 0 := by rw [Nat.add_assoc, ← number_payload, number_eq_zero beyond]
    rw [runWith_eq inner paid read, if_pos (number_eq_zero cut)]
    simp [power, behind]
  obtain ⟨rfl, rfl⟩ | short | dear | ⟨negative, sum⟩ | ⟨long, cut, outside⟩ := sliceable
  · rfl
  · rw [Nat.mod_eq_of_lt (by omega : e < 2 ^ 64), runWith_eq inner paid (getData_eq inner short),
      Nat.mod_eq_of_lt (by omega : b + e < 2 ^ 64)]
    simp only [number_payload]
    rw [← Nat.add_assoc, power, ← number_payload input b e]
    rfl
  · omega
  · rw [Nat.mod_eq_of_lt (by omega : e < 2 ^ 64)] at vanishes ⊢
    obtain ⟨exp, read⟩ := getData_of_negative inner negative sum
    refine vanishes (by omega) ?_ exp read
    rw [Nat.mod_eq_of_lt sum]
    omega
  · by_cases idle : b = 0 ∧ m = 0
    · rw [runWith, if_pos idle, idle.2]
      rfl
    have near := exp_lt_of_gas cheap idle (by omega)
    have wrapped : e % 2 ^ 64 = e - 2 ^ 64 := by omega
    rw [wrapped] at vanishes ⊢
    have read : getData (payload input) b (e - 2 ^ 64) = _ := getData_eq inner cut
    obtain rfl | outside := outside
    · have empty : ∀ start, number (payload input) start 0 = 0 := fun _ => rfl
      rw [runWith_eq inner paid read, if_pos (empty _)]
      rfl
    · refine vanishes (by omega) ?_ _ read
      rw [Nat.mod_eq_of_lt (by omega)]
      omega

end Sufficient

section Necessary

/-- The header that announces lengths. -/
def header (b e m : ℕ) : Bytes := BigEndian.fixed 32 b ++ (BigEndian.fixed 32 e ++ BigEndian.fixed 32 m)

variable {b e m : ℕ}

@[simp] theorem length_header : (header b e m).length = 96 := by simp [header]

/-- A part of the input that is all there. -/
theorem number_append (before part rest : Bytes) {start size : ℕ} (isStart : before.length = start)
    (isSize : part.length = size) :
    number (before ++ (part ++ rest)) start size = toNat part := by
  refine congrArg toNat (ext_getElem? fun i => ?_)
  rw [getElem?_extended]
  split_ifs with inside
  · rw [getD_eq_getElem?_getD, getElem?_append_right (by omega), getElem?_append_left (by omega),
      getElem?_eq_getElem (by omega : i < part.length)]
    simp [isStart, getElem?_eq_getElem (by omega : i < part.length)]
  · rw [getElem?_eq_none (by omega)]

/-- A number of the header. -/
theorem number_fixed (before rest : Bytes) {start n : ℕ} (isStart : before.length = start) (fits : n < 2 ^ 256) :
    number (before ++ (fixed 32 n ++ rest)) start 32 = n := by
  have width : (256 : ℕ) ^ 32 = 2 ^ 256 := by norm_num
  rw [number_append before _ rest isStart (length_fixed 32 n), toNat_fixed, width, Nat.mod_eq_of_lt fits]

theorem announces_header (bFits : b < 2 ^ 256) (eFits : e < 2 ^ 256) (mFits : m < 2 ^ 256) (rest : Bytes) :
    Announces (header b e m ++ rest) b e m := by
  have two : (fixed 32 b ++ fixed 32 e).length = 64 := by
    rw [length_append, length_fixed, length_fixed]
  have first := number_fixed [] (fixed 32 e ++ (fixed 32 m ++ rest)) length_nil bFits
  have second := number_fixed (fixed 32 b) (fixed 32 m ++ rest) (length_fixed 32 b) eFits
  have third := number_fixed (fixed 32 b ++ fixed 32 e) rest two mFits
  rw [nil_append] at first
  rw [append_assoc] at third
  rw [header, append_assoc, append_assoc]
  exact ⟨first, second, third⟩

theorem payload_header (rest : Bytes) : payload (header b e m ++ rest) = rest := by
  rw [payload_eq, drop_left' length_header]

/-- An input of a header and a payload that can be paid for is run. -/
theorem run_of_handles {rest : Bytes} (bFits : b < 2 ^ 256) (eFits : e < 2 ^ 256) (mFits : m < 2 ^ 256)
    (handled : ∀ input, input.length ≤ maxAlloc → Announces input b e m → ∀ gas ≤ 2 ^ 63 - 1, Handles input b e m gas)
    (fits : 96 + rest.length ≤ maxAlloc)
    (affordable : ∀ head < 256 ^ 32, (rest.length ≤ b → head = 0) → gasFor b e m head < 2 ^ 63) :
    runWith rest (b % 2 ^ 64) (e % 2 ^ 64) (m % 2 ^ 64) =
      some (fixed m (power (header b e m ++ rest) b e m)) := by
  have held : (header b e m ++ rest).length ≤ maxAlloc := by rwa [length_append, length_header]
  have announces := announces_header bFits eFits mFits rest
  obtain ⟨head, small, beyond, priced⟩ := requiredGas_eq held announces
  have cheap : gasFor b e m head < 2 ^ 63 := by
    refine affordable head small fun short => beyond ?_
    rw [length_append, length_header]
    omega
  obtain ⟨required, isRequired, right⟩ := handled _ held announces (2 ^ 63 - 1) le_rfl
  rw [priced, gas_le_of_lt cheap, Option.some_inj] at isRequired
  have ran := right (by omega)
  rwa [run_eq held announces, payload_header] at ran

/-- One byte of base or modulus can be paid for though the length of the exponent is cut. -/
theorem gasFor_one_lt {head : ℕ} (one : max m b = 1) (near : e ≤ 2 ^ 64 + maxAlloc) (small : head < 256 ^ 32) :
    gasFor b e m head < 2 ^ 63 := by
  have alloc : maxAlloc = 2 ^ 48 := rfl
  have bits : head.size ≤ 256 := Nat.size_le.mpr (small.trans_le (by decide))
  have price : complexity 1 = 1 := rfl
  simp only [gasFor, one, price, Nat.one_mul]
  split_ifs <;> omega

/-- Zeros before a byte are read as base and exponent, and the byte as the modulus. -/
theorem runWith_misread {e : ℕ} (fits : b + e + 1 ≤ maxAlloc) :
    runWith (replicate b 0 ++ (replicate e 0 ++ [2])) b e 1 = some (fixed 1 1) := by
  have alloc : maxAlloc = 2 ^ 48 := rfl
  have zeros := fun k => toNat_replicate_append k []
  simp only [append_nil] at zeros
  have held : (replicate b (0 : UInt8) ++ (replicate e 0 ++ [2])).length ≤ maxAlloc := by simp; omega
  have base : number (replicate b 0 ++ (replicate e 0 ++ [2])) 0 b = 0 :=
    (number_append [] _ _ rfl (by simp)).trans (zeros b)
  have exp : number (replicate b 0 ++ (replicate e 0 ++ [2])) b e = 0 :=
    (number_append _ _ _ (by simp) (by simp)).trans (zeros e)
  have mod : number (replicate b 0 ++ (replicate e 0 ++ [2])) ((b + e) % 2 ^ 64) 1 = 2 := by
    have last := number_append (replicate b 0 ++ replicate e 0) [2] [] (length_append ..) rfl
    rw [length_replicate, length_replicate, append_assoc] at last
    rw [Nat.mod_eq_of_lt (by omega)]
    exact last
  rw [runWith_eq held (by omega) (getData_eq held (by omega)), mod, base]
  show some (fixed 1 (if 2 = 0 then 0 else 0 ^ number _ b e % 2)) = _
  rw [exp]
  rfl

/-- Other lengths fail for some input. -/
theorem sliceable_of_handles (bFits : b < 2 ^ 256) (eFits : e < 2 ^ 256) (mFits : m < 2 ^ 256)
    (handled : ∀ input, input.length ≤ maxAlloc → Announces input b e m → ∀ gas ≤ 2 ^ 63 - 1, Handles input b e m gas) :
    Sliceable b e m := by
  have alloc : maxAlloc = 2 ^ 48 := rfl
  refine Classical.byContradiction fun unsliceable => ?_
  obtain ⟨busy, long, cheap, unsigned, wrong⟩ : ¬(b = 0 ∧ m = 0) ∧ maxAlloc < e ∧ gasFor b e m 0 < 2 ^ 63 ∧
      (2 ^ 63 ≤ e → 2 ^ 64 ≤ b + e) ∧
          (2 ^ 64 ≤ e → e - 2 ^ 64 ≤ maxAlloc → m ≠ 0 ∧ 96 + b + (e - 2 ^ 64) + 1 ≤ maxAlloc) := by
    unfold Sliceable at unsliceable
    push Not at unsliceable
    obtain ⟨first, second, third, fourth, fifth⟩ := unsliceable
    exact ⟨fun idle => first idle.1 idle.2, second, third, fourth, fifth⟩
  have paid := max_lt_of_gas cheap
  have near := exp_lt_of_gas cheap busy (by omega)
  have bSame := Nat.mod_eq_of_lt (by omega : b < 2 ^ 64)
  have mSame := Nat.mod_eq_of_lt (by omega : m < 2 ^ 64)
  have run : ∀ rest : Bytes, _ → _ → runWith rest (b % 2 ^ 64) (e % 2 ^ 64) (m % 2 ^ 64) = _ :=
    fun rest fits affordable =>
    run_of_handles bFits eFits mFits handled fits affordable
  rw [bSame, mSame] at run
  by_cases unallocatable : maxAlloc < e % 2 ^ 64 ∧ e % 2 ^ 64 < 2 ^ 63
  · -- a header alone
    have ran := run [] (by simp [alloc]) fun head _ zero => by rwa [zero (by simp)]
    rw [runWith_eq_none busy (getData_of_unallocatable unallocatable.1 unallocatable.2)] at ran
    cases ran
  · have single := max_le_one_of_gas cheap (by omega)
    by_cases wraps : 2 ^ 64 ≤ e
    · -- the modulus that is read is not the announced one
      have wrapped : e % 2 ^ 64 = e - 2 ^ 64 := by omega
      obtain ⟨some, room⟩ := wrong wraps (by omega)
      have one : max m b = 1 := by omega
      obtain rfl : m = 1 := by omega
      have ran := run (replicate b 0 ++ (replicate (e - 2 ^ 64) 0 ++ [2])) (by simp; omega) fun head small _ =>
        gasFor_one_lt one (by omega) small
      rw [wrapped, runWith_misread (by omega), power, if_pos (number_eq_zero (by simp; omega)), Option.some_inj] at ran
      exact absurd (fixed_inj (by decide) (by decide) ran) (by decide)
    · -- the end of the exponent is before its start
      obtain rfl : b = 1 := by omega
      obtain rfl : e = 2 ^ 64 - 1 := by omega
      have ran := run [0] (by simp [alloc]) fun head _ zero => by rwa [zero (by simp)]
      rw [runWith_eq_none busy (by decide)] at ran
      cases ran

end Necessary

/-- The lengths for which the contract handles every input: those that can be sliced, or that cost more than there is
gas. -/
theorem handles_iff_sliceable {b e m : ℕ} (bFits : b < 2 ^ 256) (eFits : e < 2 ^ 256) (mFits : m < 2 ^ 256) :
    (∀ input, input.length ≤ maxAlloc → Announces input b e m → ∀ gas ≤ 2 ^ 63 - 1, Handles input b e m gas) ↔
      Sliceable b e m :=
  ⟨sliceable_of_handles bFits eFits mFits, fun sliceable _ held announces _ bound =>
    handles_of_sliceable held announces bound sliceable⟩

/-- `3^2 mod 5`. -/
theorem handles_three_squared :
    Handles (header 1 1 1 ++ [3, 2, 5]) 1 1 1 100 ∧ run (header 1 1 1 ++ [3, 2, 5]) = some [4] :=
  ⟨(handles_iff_sliceable (by decide) (by decide) (by decide)).mpr (Or.inr (Or.inl (by decide))) _ (by decide +kernel)
    (by decide +kernel) 100 (by decide), by decide +kernel⟩

/-- A header that announces an exponent of more bytes than can be allocated is cheap enough, and a run-time error. -/
theorem run_panics_of_header :
    Announces (header 0 (2 ^ 48 + 1) 1) 0 (2 ^ 48 + 1) 1 ∧ (header 0 (2 ^ 48 + 1) 1).length = 96 ∧
      requiredGas (header 0 (2 ^ 48 + 1) 1) = some 112589990684250 ∧ run (header 0 (2 ^ 48 + 1) 1) = none := by
  decide +kernel

end BigModExp

end KKChain.Vm
