import KKChain.Vm.Words
import Mathlib.Data.Nat.Digits.Lemmas
import Mathlib.Tactic.Linarith

/-! # Arithmetic of the machine

What the instructions on words are specified to compute, and that they push it, with one exception: a shift of zero to
the right by 256 bits or more that keeps the sign.
-/

namespace KKChain.Vm

namespace Word

/-- The result of a comparison. -/
def ofBool (b : Bool) : Word := if b then 1 else 0

/-- The remainder, which is zero for a zero divisor. -/
def rem (x y : Word) : Word := if y = 0 then 0 else x % y

/-- The remainder with the sign of the dividend. -/
def signedRem (x y : Word) : Word := if y = 0 then 0 else x.srem y

/-- The sum in a modulus, without a limit for the sum. -/
def addMod (x y z : Word) : Word := if z = 0 then 0 else .ofNat 256 ((x.toNat + y.toNat) % z.toNat)

/-- The product in a modulus, without a limit for the product. -/
def mulMod (x y z : Word) : Word := if z = 0 then 0 else .ofNat 256 (x.toNat * y.toNat % z.toNat)

def power (x y : Word) : Word := .ofNat 256 (x.toNat ^ y.toNat)

/-- The lowest bytes as a signed number; the first operand is the number of the highest of them. -/
def extendSign (k x : Word) : Word := if k.toNat < 31 then (x.setWidth (8 * (k.toNat + 1))).signExtend 256 else x

/-- A byte, counted from the highest one. -/
def byteOf (i x : Word) : Word := if i.toNat < 32 then (x.extractLsb' (8 * (31 - i.toNat)) 8).setWidth 256 else 0

end Word

/-- The instructions that compute words. -/
inductive Arith where
  | add | mul | sub | div | sdiv | mod | smod | addmod | mulmod | exp | signExtend
  | lt | gt | slt | sgt | eq | iszero | and | or | xor | not | byte | shl | shr | sar
deriving DecidableEq, Repr

namespace Arith

/-- A stack with the result for its top. -/
def unary (f : Word → Word) : List Word → Option (List Word)
  | x :: ws => some (f x :: ws)
  | _ => none

/-- A stack with the result for its two first items. -/
def binary (f : Word → Word → Word) : List Word → Option (List Word)
  | x :: y :: ws => some (f x y :: ws)
  | _ => none

/-- A stack with the result for its three first items. -/
def ternary (f : Word → Word → Word → Word) : List Word → Option (List Word)
  | x :: y :: z :: ws => some (f x y z :: ws)
  | _ => none

/-- What the instruction is specified to leave on the stack, if it has its operands. -/
def result : Arith → List Word → Option (List Word)
  | add => binary (· + ·)
  | mul => binary (· * ·)
  | sub => binary (· - ·)
  | div => binary (· / ·)
  | sdiv => binary BitVec.sdiv
  | mod => binary Word.rem
  | smod => binary Word.signedRem
  | addmod => ternary Word.addMod
  | mulmod => ternary Word.mulMod
  | exp => binary Word.power
  | signExtend => binary Word.extendSign
  | lt => binary fun x y => .ofBool (x.ult y)
  | gt => binary fun x y => .ofBool (y.ult x)
  | slt => binary fun x y => .ofBool (x.slt y)
  | sgt => binary fun x y => .ofBool (y.slt x)
  | eq => binary fun x y => .ofBool (x = y)
  | iszero => unary fun x => .ofBool (x = 0)
  | and => binary (· &&& ·)
  | or => binary (· ||| ·)
  | xor => binary (· ^^^ ·)
  | not => unary (~~~ ·)
  | byte => binary Word.byteOf
  | shl => binary fun shift value => value <<< shift.toNat
  | shr => binary fun shift value => value >>> shift.toNat
  | sar => binary fun shift value => value.sshiftRight shift.toNat

open WordProc in
def execute (verifyPool : Bool) : Arith → WordProc Unit
  | add => opAdd verifyPool
  | mul => opMul verifyPool
  | sub => opSub verifyPool
  | div => opDiv verifyPool
  | sdiv => opSdiv verifyPool
  | mod => opMod verifyPool
  | smod => opSmod verifyPool
  | addmod => opAddmod verifyPool
  | mulmod => opMulmod verifyPool
  | exp => opExp verifyPool
  | signExtend => opSignExtend verifyPool
  | lt => opLt verifyPool
  | gt => opGt verifyPool
  | slt => opSlt verifyPool
  | sgt => opSgt verifyPool
  | eq => opEq verifyPool
  | iszero => opIszero
  | and => opAnd verifyPool
  | or => opOr verifyPool
  | xor => opXor verifyPool
  | not => opNot
  | byte => opByte verifyPool
  | shl => opSHL verifyPool
  | shr => opSHR verifyPool
  | sar => opSAR verifyPool

end Arith

section Values

open WordProc

variable (x y z : Word)

theorem add_value : ((x.toNat : ℤ) + y.toNat) % 2 ^ 256 = (x + y).toNat := by
  norm_cast

theorem sub_value : ((x.toNat : ℤ) - y.toNat) % 2 ^ 256 = (x - y).toNat := by
  rw [BitVec.toNat_sub]
  omega

theorem mul_value : (x.toNat : ℤ) * y.toNat % 2 ^ 256 = (x * y).toNat := by
  norm_cast

theorem toNat_eq_zero_iff : (y.toNat : ℤ) = 0 ↔ y = 0 := by
  rw [Nat.cast_eq_zero]
  exact ⟨fun zero => BitVec.eq_of_toNat_eq zero, fun zero => by simp [zero]⟩

theorem div_value : (if (y.toNat : ℤ) ≠ 0 then (x.toNat : ℤ) / y.toNat % 2 ^ 256 else 0) = ((x / y).toNat : ℤ) := by
  by_cases zero : y = 0
  · simp [zero]
  · rw [if_pos fun isZero => zero ((toNat_eq_zero_iff y).mp isZero), ← toNat_emod (x / y), BitVec.toNat_udiv]
    norm_cast

theorem mod_value :
    (if (y.toNat : ℤ) = 0 then 0 else (x.toNat : ℤ) % y.toNat % 2 ^ 256) = ((Word.rem x y).toNat : ℤ) := by
  unfold Word.rem
  by_cases zero : y = 0
  · simp [zero]
  · rw [if_neg fun isZero => zero ((toNat_eq_zero_iff y).mp isZero), if_neg zero, ← toNat_emod (x % y),
      BitVec.toNat_umod]
    norm_cast

theorem reduced_value (n : ℕ) : (if (0 : ℤ) < z.toNat then (n : ℤ) % z.toNat % 2 ^ 256 else 0) =
    ((if z = 0 then 0 else BitVec.ofNat 256 (n % z.toNat)).toNat : ℤ) := by
  by_cases zero : z = 0
  · simp [zero]
  · have positive : (0 : ℤ) < z.toNat :=
      lt_of_le_of_ne (by omega) fun isZero => zero ((toNat_eq_zero_iff z).mp isZero.symm)
    rw [if_pos positive, if_neg zero, BitVec.toNat_ofNat]
    norm_cast

theorem addmod_value : (if (0 : ℤ) < z.toNat then ((x.toNat : ℤ) + y.toNat) % z.toNat % 2 ^ 256 else 0) =
    ((Word.addMod x y z).toNat : ℤ) :=
  reduced_value z (x.toNat + y.toNat)

theorem mulmod_value : (if (0 : ℤ) < z.toNat then (x.toNat : ℤ) * y.toNat % z.toNat % 2 ^ 256 else 0) =
    ((Word.mulMod x y z).toNat : ℤ) :=
  reduced_value z (x.toNat * y.toNat)

theorem exp_value : (x.toNat : ℤ) ^ y.toNat % 2 ^ 256 = ((Word.power x y).toNat : ℤ) := by
  norm_cast

theorem flag_value (b : Bool) : flag b = ((Word.ofBool b).toNat : ℤ) := by
  cases b <;> rfl

theorem lt_value : flag ((x.toNat : ℤ) < y.toNat) = ((Word.ofBool (x.ult y)).toNat : ℤ) := by
  rw [← flag_value, BitVec.ult]
  simp

theorem toInt_value : x.toInt = signed x.toNat := by
  rw [BitVec.toInt_eq_toNat_cond, signed]
  split_ifs <;> omega

theorem slt_value :
    (if signBit ≤ x.toNat ∧ y.toNat < signBit then 1 else if x.toNat < signBit ∧ signBit ≤ y.toNat then 0
    else flag ((x.toNat : ℤ) < y.toNat)) = ((Word.ofBool (x.slt y)).toNat : ℤ) := by
  have := x.isLt
  have := y.isLt
  rw [← flag_value, BitVec.slt, toInt_value, toInt_value]
  unfold signed signBit flag
  simp only [decide_eq_true_eq]
  split_ifs <;> omega

theorem sgt_value :
    (if signBit ≤ x.toNat ∧ y.toNat < signBit then 0 else if x.toNat < signBit ∧ signBit ≤ y.toNat then 1
    else flag ((y.toNat : ℤ) < x.toNat)) = ((Word.ofBool (y.slt x)).toNat : ℤ) := by
  rw [← slt_value]
  split_ifs <;> omega

theorem eq_value : flag ((x.toNat : ℤ) = y.toNat) = ((Word.ofBool (x = y)).toNat : ℤ) := by
  have same : ((x.toNat : ℤ) = y.toNat) ↔ x = y := by
    rw [Nat.cast_inj]
    exact BitVec.toNat_inj
  rw [← flag_value]
  simp only [same]

theorem iszero_value : (if (0 : ℤ) < x.toNat then (0 : ℤ) else 1) = ((Word.ofBool (x = 0)).toNat : ℤ) := by
  have zero := toNat_eq_zero_iff x
  rw [← flag_value]
  unfold flag
  simp only [decide_eq_true_eq, ← zero]
  split_ifs <;> omega

theorem not_value : Int.lnot x.toNat % 2 ^ 256 = ((~~~x).toNat : ℤ) := by
  have negated : Int.lnot (x.toNat : ℤ) = -x.toNat - 1 := by
    show Int.negSucc x.toNat = _
    rw [Int.negSucc_eq]
    ring
  rw [negated, BitVec.toNat_not]
  omega

theorem byteAt_value (v n : ℕ) : bigEndianByteAt v n = v / 2 ^ (8 * n) % 256 := by
  have split : 8 * n = 64 * (n / 8) + 8 * (n % 8) := by omega
  have inside : 2 ^ 64 = 2 ^ (8 * (n % 8)) * (256 * 2 ^ (56 - 8 * (n % 8))) := by
    rw [show (256 : ℕ) = 2 ^ 8 by norm_num, ← pow_add, ← pow_add]
    congr 1
    omega
  rw [bigEndianByteAt, Nat.getD_digits _ _ (by decide), ← pow_mul, split, pow_add, ← Nat.div_div_eq_div_mul]
  rw [inside, Nat.mod_mul_right_div_self, Nat.mod_mul_right_mod]

theorem byte_value : (if (x.toNat : ℤ) < 32 then (byte (y.toNat : ℤ).toNat 32 (x.toNat : ℤ).toNat : ℤ) else 0) =
    ((Word.byteOf x y).toNat : ℤ) := by
  unfold Word.byteOf byte
  by_cases inside : x.toNat < 32
  · rw [if_pos (by omega), if_pos inside, Int.toNat_natCast, Int.toNat_natCast, if_neg (by omega), byteAt_value,
      BitVec.toNat_setWidth, BitVec.extractLsb'_toNat, Nat.shiftRight_eq_div_pow]
    rw [Nat.mod_eq_of_lt (lt_trans (Nat.mod_lt _ (by decide)) (by decide))]
  · rw [if_neg (by omega), if_neg inside]
    rfl

theorem shl_value : (y.toNat : ℤ) <<< x.toNat % 2 ^ 256 = ((y <<< x.toNat).toNat : ℤ) := by
  norm_cast

theorem shr_value : (y.toNat : ℤ) >>> x.toNat % 2 ^ 256 = ((y >>> x.toNat).toNat : ℤ) := by
  rw [← toNat_emod (y >>> x.toNat), BitVec.toNat_ushiftRight, Int.shiftRight_eq_div_pow, Nat.shiftRight_eq_div_pow]
  norm_cast

/-- A word is the residue of its signed reading. -/
theorem toNat_eq_toInt_emod : (x.toNat : ℤ) = x.toInt % 2 ^ 256 := by
  rw [BitVec.toInt_eq_toNat_cond]
  split_ifs <;> omega

theorem toInt_eq_zero_iff : x.toInt = 0 ↔ x = 0 := by
  constructor
  · intro zero
    have isZero := toNat_eq_toInt_emod x
    rw [zero, Int.zero_emod] at isZero
    exact (toNat_eq_zero_iff x).mp isZero
  · rintro rfl
    rfl

/-- Division towards zero, by the signs. -/
theorem tdiv_eq {a b : ℤ} (first : a ≠ 0) (second : b ≠ 0) :
    (if a.sign ≠ b.sign then -(|a| / |b|) else |a| / |b|) = a.tdiv b := by
  rcases lt_or_gt_of_ne first with negative | positive <;> rcases lt_or_gt_of_ne second with negative' | positive'
  · rw [Int.sign_eq_neg_one_of_neg negative, Int.sign_eq_neg_one_of_neg negative', if_neg (by decide),
      abs_of_neg negative, abs_of_neg negative', ← Int.tdiv_eq_ediv_of_nonneg (by omega), Int.neg_tdiv_neg]
  · rw [Int.sign_eq_neg_one_of_neg negative, Int.sign_eq_one_of_pos positive', if_pos (by decide), abs_of_neg negative,
      abs_of_pos positive', ← Int.tdiv_eq_ediv_of_nonneg (by omega), Int.neg_tdiv, neg_neg]
  · rw [Int.sign_eq_one_of_pos positive, Int.sign_eq_neg_one_of_neg negative', if_pos (by decide), abs_of_pos positive,
      abs_of_neg negative', ← Int.tdiv_eq_ediv_of_nonneg (by omega), Int.tdiv_neg, neg_neg]
  · rw [Int.sign_eq_one_of_pos positive, Int.sign_eq_one_of_pos positive', if_neg (by decide), abs_of_pos positive,
      abs_of_pos positive', ← Int.tdiv_eq_ediv_of_nonneg (by omega)]

/-- The remainder has the sign of the dividend. -/
theorem tmod_eq (a b : ℤ) : (if a < 0 then -(|a| % |b|) else |a| % |b|) = a.tmod b := by
  rw [Int.emod_abs]
  split_ifs with negative
  · rw [abs_of_neg negative, ← Int.tmod_eq_emod_of_nonneg (by omega), Int.neg_tmod, neg_neg]
  · rw [abs_of_nonneg (not_lt.mp negative), ← Int.tmod_eq_emod_of_nonneg (not_lt.mp negative)]

theorem sdiv_value (nonzero : ¬(decide (signed y.toNat = 0) || decide (signed x.toNat = 0)) = true) :
    (if decide ((signed x.toNat).sign ≠ (signed y.toNat).sign) then -(|signed x.toNat| / |signed y.toNat|)
      else |signed x.toNat| / |signed y.toNat|) % 2 ^ 256 = ((x.sdiv y).toNat : ℤ) := by
  simp only [Bool.or_eq_true, decide_eq_true_eq, not_or] at nonzero ⊢
  rw [tdiv_eq nonzero.2 nonzero.1, toNat_eq_toInt_emod (x.sdiv y), BitVec.toInt_sdiv, toInt_value, toInt_value]
  exact Int.bmod_emod.symm

theorem sdiv_eq_zero (zero : (decide (signed y.toNat = 0) || decide (signed x.toNat = 0)) = true) : x.sdiv y = 0 := by
  simp only [Bool.or_eq_true, decide_eq_true_eq, ← toInt_value, toInt_eq_zero_iff] at zero
  rcases zero with rfl | rfl <;> simp

theorem smod_value (nonzero : ¬decide (signed y.toNat = 0) = true) :
    (if decide (signed x.toNat < 0) then -(|signed x.toNat| % |signed y.toNat|)
      else |signed x.toNat| % |signed y.toNat|) % 2 ^ 256 = ((Word.signedRem x y).toNat : ℤ) := by
  simp only [decide_eq_true_eq] at nonzero ⊢
  rw [← toInt_value y, toInt_eq_zero_iff] at nonzero
  rw [tmod_eq, Word.signedRem, if_neg nonzero, toNat_eq_toInt_emod (x.srem y), BitVec.toInt_srem, toInt_value,
    toInt_value]

theorem smod_eq_zero (zero : decide (signed y.toNat = 0) = true) : Word.signedRem x y = 0 := by
  rw [decide_eq_true_eq, ← toInt_value, toInt_eq_zero_iff] at zero
  rw [Word.signedRem, if_pos zero]

/-- The bits below a position that a number does not have. -/
theorem ldiff_mask (v k : ℕ) : Nat.ldiff (2 ^ k - 1) v = 2 ^ k - (v % 2 ^ k + 1) := by
  refine Nat.eq_of_testBit_eq fun i => ?_
  rw [Nat.testBit_ldiff, Nat.testBit_two_pow_sub_succ (Nat.mod_lt _ (by positivity)), Nat.testBit_two_pow_sub_one,
    Nat.testBit_mod_two_pow]
  by_cases inside : i < k <;> simp [inside]

/-- All bits from a position on are set. -/
theorem lor_lnot_mask (v k : ℕ) : Int.lor v (Int.lnot ((2 ^ k - 1 : ℕ) : ℤ)) = (v % 2 ^ k : ℕ) - (2 ^ k : ℕ) := by
  have negated : Int.lor (v : ℤ) (Int.lnot ((2 ^ k - 1 : ℕ) : ℤ)) = Int.negSucc (Nat.ldiff (2 ^ k - 1) v) := rfl
  rw [negated, ldiff_mask, Int.negSucc_eq]
  omega

/-- All bits from a position on are cleared. -/
theorem land_mask (v k : ℕ) : Int.land v ((2 ^ k - 1 : ℕ) : ℤ) = (v % 2 ^ k : ℕ) :=
  congrArg Nat.cast (Nat.and_two_pow_sub_one_eq_mod v k)

/-- The number that sign extension gives. -/
theorem toNat_extendSign (low : x.toNat < 31) : (Word.extendSign x y).toNat = y.toNat % 2 ^ (x.toNat * 8 + 7) +
    if y.toNat.testBit (x.toNat * 8 + 7) then 2 ^ 256 - 2 ^ (x.toNat * 8 + 7) else 0 := by
  have width : 8 * (x.toNat + 1) = x.toNat * 8 + 7 + 1 := by omega
  rw [Word.extendSign, if_pos low, width]
  generalize isBit : x.toNat * 8 + 7 = k
  have power : 2 ^ (k + 1) ≤ 2 ^ 256 := Nat.pow_le_pow_right (by decide) (by omega)
  have cut : ((y.setWidth (k + 1)).setWidth 256).toNat = y.toNat % 2 ^ (k + 1) := by
    rw [BitVec.toNat_setWidth, BitVec.toNat_setWidth,
      Nat.mod_eq_of_lt (lt_of_lt_of_le (Nat.mod_lt _ (by positivity)) power)]
  have sign : (y.setWidth (k + 1)).msb = y.toNat.testBit k := by
    rw [BitVec.msb_setWidth, Nat.add_sub_cancel]
    simp [BitVec.getLsbD]
  rw [BitVec.toNat_signExtend, cut, sign, Nat.mod_pow_succ, Nat.testBit_eq_decide_div_mod_eq, pow_succ]
  rw [pow_succ] at power
  have bit := Nat.mod_two_eq_zero_or_one (y.toNat / 2 ^ k)
  rcases bit with zero | one
  · simp [zero]
  · simp only [one, decide_true, if_true, mul_one]
    omega

theorem signExtend_value (low : x.toNat < 31) : (if Int.testBit y.toNat (x.toNat * 8 + 7) then
      Int.lor y.toNat (Int.lnot ((1 : ℤ) <<< (x.toNat * 8 + 7) - 1))
    else Int.land y.toNat ((1 : ℤ) <<< (x.toNat * 8 + 7) - 1)) % 2 ^ 256 = ((Word.extendSign x y).toNat : ℤ) := by
  have bit : Int.testBit y.toNat (x.toNat * 8 + 7) = y.toNat.testBit (x.toNat * 8 + 7) := rfl
  rw [toNat_extendSign x y low, bit]
  have small : x.toNat * 8 + 7 < 256 := by omega
  generalize x.toNat * 8 + 7 = k at *
  have mask : (1 : ℤ) <<< k - 1 = ((2 ^ k - 1 : ℕ) : ℤ) := by
    rw [Int.shiftLeft_eq, one_mul, Nat.cast_sub Nat.one_le_two_pow]
    push_cast
    rfl
  have power : 2 ^ k ≤ 2 ^ 256 := Nat.pow_le_pow_right (by decide) small.le
  have below : y.toNat % 2 ^ k < 2 ^ k := Nat.mod_lt _ (by positivity)
  rw [mask, lor_lnot_mask, land_mask]
  split_ifs <;> omega

theorem sar_value : signed y.toNat >>> x.toNat % 2 ^ 256 = ((y.sshiftRight x.toNat).toNat : ℤ) := by
  rw [toNat_eq_toInt_emod (y.sshiftRight x.toNat), BitVec.toInt_sshiftRight, toInt_value]

/-- A shift by 256 bits or more leaves the sign. -/
theorem shiftRight_of_large {a : ℤ} {n : ℕ} (large : 256 ≤ n) (lower : -2 ^ 255 ≤ a) (upper : a < 2 ^ 255) :
    a >>> n = if a < 0 then -1 else 0 := by
  have power : (2 : ℤ) ^ 255 ≤ 2 ^ n := pow_le_pow_right₀ (by decide) (by omega)
  rw [Int.shiftRight_eq_div_pow]
  push_cast
  split_ifs with negative
  · have positive : (0 : ℤ) < 2 ^ n := by positivity
    have below := Int.ediv_neg_of_neg_of_pos negative positive
    have above : -1 ≤ a / 2 ^ n := (Int.le_ediv_iff_mul_le positive).mpr (by omega)
    omega
  · exact Int.ediv_eq_zero_of_lt (by omega) (by omega)

theorem shiftedRight_value (sound : ¬(256 ≤ x.toNat ∧ y = 0)) :
    shiftedRight x.toNat (signed y.toNat) % 2 ^ 256 = ((y.sshiftRight x.toNat).toNat : ℤ) := by
  have lower : -2 ^ 255 ≤ signed y.toNat := by unfold signed; split_ifs <;> omega
  have upper : signed y.toNat < 2 ^ 255 := by unfold signed; split_ifs <;> omega
  rw [← sar_value, shiftedRight]
  split_ifs with large positive
  · rw [shiftRight_of_large large lower upper, if_neg positive.not_gt]
  · have nonzero : signed y.toNat ≠ 0 :=
      fun zero => sound ⟨large, (toInt_eq_zero_iff y).mp ((toInt_value y).trans zero)⟩
    rw [shiftRight_of_large large lower upper, if_pos (by omega)]
  · rfl

end Values

namespace Arith

/-- A shift of zero by 256 bits or more that keeps the sign. -/
def Overshifts : Arith → List Word → Prop
  | sar, shift :: value :: _ => 256 ≤ shift.toNat ∧ value = 0
  | _, _ => False

open Proc WordProc

variable {verifyPool : Bool} {ws ws' : List Word} {E : Fault Empty → Words → Prop} {g : Word → Word → Word}
    {f : ℤ → ℤ → ℤ}

theorem binary_eq_some {f : Word → Word → Word} (given : binary f ws = some ws') :
    ∃ x y rest, ws = x :: y :: rest ∧ ws' = f x y :: rest := by
  match ws with
  | [] | [_] => cases given
  | x :: y :: rest => exact ⟨x, y, rest, rfl, (Option.some.inj given).symm⟩

theorem unary_eq_some {f : Word → Word} (given : unary f ws = some ws') :
    ∃ x rest, ws = x :: rest ∧ ws' = f x :: rest := by
  match ws with
  | [] => cases given
  | x :: rest => exact ⟨x, rest, rfl, (Option.some.inj given).symm⟩

theorem ternary_eq_some {f : Word → Word → Word → Word} (given : ternary f ws = some ws') :
    ∃ x y z rest, ws = x :: y :: z :: rest ∧ ws' = f x y z :: rest := by
  match ws with
  | [] | [_] | [_, _] => cases given
  | x :: y :: z :: rest => exact ⟨x, y, z, rest, rfl, (Option.some.inj given).symm⟩

theorem spec_inPlace_of (right : ∀ x y : Word, f x.toNat y.toNat = (g x y).toNat)
    (given : binary g ws = some ws') : Spec (Holds [] ws) (inPlace verifyPool f) (fun _ => Holds [] ws') E := by
  obtain ⟨x, y, rest, rfl, rfl⟩ := binary_eq_some given
  exact spec_inPlace (right x y)

theorem spec_consume_of (right : ∀ x y : Word, f x.toNat y.toNat = (g x y).toNat)
    (given : binary g ws = some ws') : Spec (Holds [] ws) (consume verifyPool f) (fun _ => Holds [] ws') E := by
  obtain ⟨x, y, rest, rfl, rfl⟩ := binary_eq_some given
  exact spec_consume (right x y)

theorem spec_consume3_of {f : ℤ → ℤ → ℤ → ℤ} {g : Word → Word → Word → Word}
    (right : ∀ x y z : Word, f x.toNat y.toNat z.toNat = (g x y z).toNat) (given : ternary g ws = some ws') :
    Spec (Holds [] ws) (consume3 verifyPool f) (fun _ => Holds [] ws') E := by
  obtain ⟨x, y, z, rest, rfl, rfl⟩ := ternary_eq_some given
  exact spec_consume3 (right x y z)

theorem spec_onTop_of {f : ℤ → ℤ} {g : Word → Word} (right : ∀ x : Word, f x.toNat = (g x).toNat)
    (given : unary g ws = some ws') : Spec (Holds [] ws) (onTop f) (fun _ => Holds [] ws') E := by
  obtain ⟨x, rest, rfl, rfl⟩ := unary_eq_some given
  exact spec_onTop (right x)

/-- Every instruction pushes its result, unless it overshifts zero. -/
theorem spec_execute (op : Arith) (given : op.result ws = some ws') (sound : ¬op.Overshifts ws) :
    Spec (Holds [] ws) (op.execute verifyPool) (fun _ => Holds [] ws') E := by
  cases op with
  | add => exact spec_inPlace_of add_value given
  | mul => exact spec_consume_of mul_value given
  | sub => exact spec_inPlace_of sub_value given
  | div => exact spec_inPlace_of div_value given
  | sdiv =>
    obtain ⟨x, y, rest, rfl, rfl⟩ := binary_eq_some given
    exact spec_signedOp (sdiv_eq_zero x y) (sdiv_value x y)
  | mod => exact spec_consume_of mod_value given
  | smod =>
    obtain ⟨x, y, rest, rfl, rfl⟩ := binary_eq_some given
    exact spec_signedOp (smod_eq_zero x y) (smod_value x y)
  | addmod => exact spec_consume3_of addmod_value given
  | mulmod => exact spec_consume3_of mulmod_value given
  | exp =>
    obtain ⟨x, y, rest, rfl, rfl⟩ := binary_eq_some given
    exact spec_opExp (exp_value x y)
  | signExtend =>
    obtain ⟨x, y, rest, rfl, rfl⟩ := binary_eq_some given
    exact spec_opSignExtend (fun high => if_neg (not_lt.mpr high)) (signExtend_value x y)
  | lt => exact spec_inPlace_of lt_value given
  | gt => exact spec_inPlace_of (fun x y => lt_value y x) given
  | slt => exact spec_inPlace_of slt_value given
  | sgt => exact spec_inPlace_of sgt_value given
  | eq => exact spec_inPlace_of eq_value given
  | iszero => exact spec_onTop_of iszero_value given
  | and => exact spec_consume_of (fun _ _ => rfl) given
  | or | xor => exact spec_inPlace_of (fun _ _ => rfl) given
  | not => exact spec_onTop_of not_value given
  | byte => exact spec_inPlace_of byte_value given
  | shl =>
    obtain ⟨x, y, rest, rfl, rfl⟩ := binary_eq_some given
    exact spec_shiftOp (fun large => BitVec.shiftLeft_eq_zero large) fun _ => shl_value x y
  | shr =>
    obtain ⟨x, y, rest, rfl, rfl⟩ := binary_eq_some given
    exact spec_shiftOp (fun large => BitVec.ushiftRight_eq_zero large) fun _ => shr_value x y
  | sar =>
    obtain ⟨x, y, rest, rfl, rfl⟩ := binary_eq_some given
    exact spec_opSAR (shiftedRight_value x y sound)

/-- What is left of an overshifted zero: all bits are on. -/
theorem spec_opSAR_overshifted {shift : Word} (large : 256 ≤ shift.toNat) :
    Spec (Holds [] (shift :: 0 :: ws)) (opSAR verifyPool) (fun _ => Holds [] (BitVec.allOnes 256 :: ws)) E := by
  refine spec_opSAR ?_
  rw [shiftedRight, if_pos large, if_neg (by simp [signed]), BitVec.toNat_allOnes]
  norm_num

/-- The instruction pushes exactly its result and leaves the other items, if and only if it does not overshift zero. -/
theorem execute_exact_iff {s : Words} (op : Arith) (given : op.result ws = some ws') (start : Holds [] ws s) :
    (∃ s', (op.execute verifyPool).run s = .ok () s' ∧ Holds [] ws' s') ↔ ¬op.Overshifts ws := by
  constructor
  · rintro ⟨s', ran, after⟩ overshifts
    match op, ws, overshifts with
    | sar, shift :: value :: rest, ⟨large, isZero⟩ =>
      subst isZero
      have wrong := (spec_opSAR_overshifted large).ok (E := fun _ _ => True) start ran
      have isResult : ws' = 0 :: rest := by
        rw [← Option.some.inj given]
        simp
      have same := wrong.shows.symm.trans after.shows
      rw [isResult, List.map_cons, List.map_cons, List.cons.injEq] at same
      exact absurd same.1 (by decide)
  · intro sound
    obtain ⟨_, s', ran, after⟩ :=
      (spec_execute op given sound).exists_ok (E := fun _ _ => False) start fun _ _ never => never
    exact ⟨s', ran, after⟩

/-- No instruction of a sequence overshifts zero. -/
def Clear : List Arith → List Word → Prop
  | [], _ => True
  | op :: ops, ws => ¬op.Overshifts ws ∧ ∀ ws' ∈ op.result ws, Clear ops ws'

/-- Instructions in a row leave what they are specified to, although each draws on the pool that those before it filled.
-/
theorem sequence_exact {s : Words} {ops : List Arith} (given : ops.foldlM (fun ws op => op.result ws) ws = some ws')
    (sound : Clear ops ws) (start : Holds [] ws s) :
    ∃ s', (ops.forM (execute verifyPool)).run s = .ok () s' ∧ Holds [] ws' s' := by
  induction ops generalizing ws s with
  | nil =>
    cases given
    exact ⟨s, rfl, start⟩
  | cons op ops ih =>
    obtain ⟨ws₁, first, rest⟩ := Option.bind_eq_some_iff.mp given
    have step : Spec (Holds [] ws) (op.execute verifyPool) _ fun _ _ => False := spec_execute op first sound.1
    obtain ⟨_, s₁, ran, after⟩ := step.exists_ok start fun _ _ never => never
    obtain ⟨s', later, last⟩ := ih rest (sound.2 ws₁ first) after
    exact ⟨s', bind_eq_ok.mpr ⟨(), s₁, ran, later⟩, last⟩

/-- Two integers on the stack and an empty pool. -/
def pair (a b : Word) : Words := ⟨⟨2, fun p => if p = 0 then a.toNat else b.toNat⟩, [0, 1], []⟩

theorem holds_pair (a b : Word) : Holds [] [a, b] (pair a b) where
  owned := ⟨(by decide : [0, 1].Nodup), (by decide : ∀ p ∈ [0, 1], p < 2)⟩
  values := by simp
  shows := by simp [pair]

/-- Minus seven divided by two. -/
theorem execute_exact_minus_seven : ∃ s', (sdiv.execute false).run (pair (-7) 2) = .ok () s' ∧ Holds [] [-3] s' :=
  (execute_exact_iff sdiv (by decide) (holds_pair (-7) 2)).mpr id

theorem sequence_exact_not : ∃ s', ([sdiv, not].forM (execute false)).run (pair (-7) 2) = .ok () s' ∧ Holds [] [2] s' :=
  sequence_exact (by decide) ⟨id, fun _ _ => ⟨id, fun _ _ => trivial⟩⟩ (holds_pair (-7) 2)

/-- Zero shifted to the right by 256 bits has all bits on. -/
theorem overshifted_zero : Holds [] [256, 0] (pair 256 0) ∧ sar.result [256, 0] = some [0] ∧
    ∃ s', (sar.execute false).run (pair 256 0) = .ok () s' ∧ s'.stack.map s'.cells.get = [2 ^ 256 - 1] :=
  ⟨holds_pair 256 0, by decide, _, rfl, by decide +kernel⟩

end Arith

end KKChain.Vm
