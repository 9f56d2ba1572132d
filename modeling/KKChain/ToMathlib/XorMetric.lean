import KKChain.ToMathlib.BigEndian
import Mathlib.Data.List.TakeWhile
import Mathlib.Data.Nat.Size
import Mathlib.Tactic.Ring

/-! # The XOR metric on byte strings

Strings of one length are compared by the exclusive or of their bytes. The length of the longest common prefix decides
the order of two distances unless the prefixes are equally long: the size of a distance is an ultrametric.
-/

namespace Nat

/-- The size of an exclusive or is an ultrametric. -/
theorem size_xor_le (a b : ℕ) : (a ^^^ b).size ≤ max a.size b.size := by
  rw [Nat.size_le]
  apply Nat.xor_lt_two_pow
  · exact lt_of_lt_of_le (Nat.lt_size_self a) (Nat.pow_le_pow_right two_pos (le_max_left _ _))
  · exact lt_of_lt_of_le (Nat.lt_size_self b) (Nat.pow_le_pow_right two_pos (le_max_right _ _))

/-- Of two sizes the greater one wins. -/
theorem size_xor_of_lt {a b : ℕ} (less : a.size < b.size) : (a ^^^ b).size = b.size := by
  have upper := size_xor_le a b
  have lower := size_xor_le a (a ^^^ b)
  rw [← Nat.xor_assoc, Nat.xor_self, Nat.zero_xor] at lower
  omega

theorem lt_of_size_lt {a b : ℕ} (less : a.size < b.size) : a < b :=
  lt_of_not_ge fun ge => absurd (Nat.size_le_size ge) (not_le.mpr less)

theorem size_mul_two_pow_add {a r k : ℕ} (ne : a ≠ 0) (small : r < 2 ^ k) : (a * 2 ^ k + r).size = a.size + k := by
  apply le_antisymm
  · have bound : a + 1 ≤ 2 ^ a.size := Nat.lt_size_self a
    rw [Nat.size_le, pow_add]
    calc a * 2 ^ k + r < (a + 1) * 2 ^ k := by rw [Nat.succ_mul]; omega
      _ ≤ 2 ^ a.size * 2 ^ k := Nat.mul_le_mul_right _ bound
  · obtain ⟨m, size⟩ : ∃ m, a.size = m + 1 := Nat.exists_eq_succ_of_ne_zero (by simpa [Nat.size_eq_zero] using ne)
    have top : 2 ^ m ≤ a := Nat.lt_size.mp (by omega)
    have : m + k < (a * 2 ^ k + r).size := by
      rw [Nat.lt_size, pow_add]
      exact (Nat.mul_le_mul_right _ top).trans (Nat.le_add_right _ _)
    omega

end Nat

namespace BigEndian

/-- The exclusive or of two strings. Where the second one has ended the bytes are zero. -/
def xor : List UInt8 → List UInt8 → List UInt8
  | [], _ => []
  | a :: as, b :: bs => (a ^^^ b) :: xor as bs
  | _ :: as, [] => 0 :: xor as []

@[simp] theorem length_xor (x y : List UInt8) : (xor x y).length = x.length := by
  fun_induction xor x y <;> simp_all

theorem toNat_xor {x y : List UInt8} (sized : x.length = y.length) : toNat (xor x y) = toNat x ^^^ toNat y := by
  induction x generalizing y with
  | nil => simp [xor, List.length_eq_zero_iff.mp sized.symm]
  | cons a as ih =>
    obtain - | ⟨b, bs⟩ := y
    · simp at sized
    · have sized' : as.length = bs.length := by simpa using sized
      have first := toNat_lt as
      have second := toNat_lt bs
      rw [← sized'] at second
      simp only [xor, toNat_cons, length_xor, ih sized', UInt8.toNat_xor, ← sized']
      have power : (256 : ℕ) ^ as.length = 2 ^ (8 * as.length) := by rw [pow_mul]; norm_num
      rw [power] at first second ⊢
      apply Nat.eq_of_testBit_eq
      intro i
      have both := Nat.xor_lt_two_pow first second
      simp only [Nat.testBit_xor, Nat.mul_comm _ (2 ^ (8 * as.length)), Nat.testBit_two_pow_mul_add _ first,
        Nat.testBit_two_pow_mul_add _ second, Nat.testBit_two_pow_mul_add _ both]
      split <;> simp

/-- The lexicographic order of strings of one length is the order of the numbers. -/
theorem lt_iff_toNat_lt {x y : List UInt8} (sized : x.length = y.length) : x < y ↔ toNat x < toNat y := by
  induction x generalizing y with
  | nil => simp [List.length_eq_zero_iff.mp sized.symm]
  | cons a as ih =>
    obtain - | ⟨b, bs⟩ := y
    · simp at sized
    · have sized' : as.length = bs.length := by simpa using sized
      have first := toNat_lt as
      have second := toNat_lt bs
      rw [List.cons_lt_cons_iff, ih sized', toNat_cons, toNat_cons, ← sized', UInt8.lt_iff_toNat_lt, ← UInt8.toNat_inj]
      rw [← sized'] at second
      rcases Nat.lt_trichotomy a.toNat b.toNat with less | same | more
      · have := Nat.mul_le_mul_right (256 ^ as.length) (Nat.succ_le_of_lt less)
        rw [Nat.succ_mul] at this
        omega
      · rw [same]
        omega
      · have := Nat.mul_le_mul_right (256 ^ as.length) (Nat.succ_le_of_lt more)
        rw [Nat.succ_mul] at this
        omega

/-- The bits of a byte, the most significant one first. -/
def byteBits (b : UInt8) : List Bool := (List.range 8).map fun i => b.toNat.testBit (7 - i)

/-- The bits of a string, the most significant one first. -/
def bits (bytes : List UInt8) : List Bool := bytes.flatMap byteBits

end BigEndian
