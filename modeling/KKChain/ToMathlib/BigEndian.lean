import Mathlib.Data.Nat.Digits.Lemmas

/-! # Big-endian byte strings

Two codings of natural numbers as bytes, most significant byte first: the shortest string, which
denotes zero by the empty string, and the string of a fixed width, which keeps the low bytes. Both
are inverted by the same reading of a byte string as a number.
-/

namespace BigEndian

open List

/-- The number a byte string denotes. -/
def toNat (bytes : List UInt8) : ℕ := Nat.ofDigits 256 (bytes.reverse.map UInt8.toNat)

/-- The shortest byte string that denotes `n`. -/
def minimal (n : ℕ) : List UInt8 := ((Nat.digits 256 n).map UInt8.ofNat).reverse

/-- The low `width` bytes of `n`. -/
def fixed : ℕ → ℕ → List UInt8
  | 0, _ => []
  | width + 1, n => UInt8.ofNat (n >>> (8 * width)) :: fixed width n

@[simp] theorem toNat_nil : toNat [] = 0 := rfl

theorem toNat_cons (b : UInt8) (bytes : List UInt8) :
    toNat (b :: bytes) = b.toNat * 256 ^ bytes.length + toNat bytes := by
  simp only [toNat, reverse_cons, map_append, map_cons, map_nil,
    Nat.ofDigits_append, Nat.ofDigits_singleton, length_map, length_reverse]
  ring

theorem toNat_lt (bytes : List UInt8) : toNat bytes < 256 ^ bytes.length := by
  have bound : ∀ d ∈ bytes.reverse.map UInt8.toNat, d < 256 := by
    intro d mem
    obtain ⟨b, _, rfl⟩ := mem_map.mp mem
    exact b.toNat_lt
  simpa [toNat] using Nat.ofDigits_lt_base_pow_length (by norm_num) bound

/-- Strings of one length are told apart by the numbers they denote. -/
theorem eq_of_toNat_eq {first second : List UInt8} (sameLength : first.length = second.length)
    (same : toNat first = toNat second) : first = second := by
  induction first generalizing second with
  | nil => exact (length_eq_zero_iff.mp sameLength.symm).symm
  | cons b rest ih =>
    obtain - | ⟨c, tail⟩ := second
    · simp at sameLength
    · simp only [length_cons, Nat.add_right_cancel_iff] at sameLength
      rw [toNat_cons, toNat_cons, sameLength] at same
      have restBound := toNat_lt rest
      have tailBound := toNat_lt tail
      rw [sameLength] at restBound
      have tops : b.toNat = c.toNat := by
        have := congrArg (· / 256 ^ tail.length) same
        simpa [Nat.mul_add_div (Nat.pos_of_neZero _), Nat.mul_comm _ (256 ^ tail.length),
          Nat.div_eq_of_lt restBound, Nat.div_eq_of_lt tailBound] using this
      rw [UInt8.toNat_inj.mp tops, ih sameLength (by rw [tops] at same; omega)]

@[simp] theorem toNat_minimal (n : ℕ) : toNat (minimal n) = n := by
  have digit : ∀ d ∈ Nat.digits 256 n, (UInt8.toNat ∘ UInt8.ofNat) d = id d := fun d mem =>
    UInt8.toNat_ofNat_of_lt (Nat.digits_lt_base (by norm_num) mem)
  simp only [toNat, minimal, reverse_reverse, map_map]
  rw [map_congr_left digit, map_id, Nat.ofDigits_digits]

theorem minimal_injective : Function.Injective minimal :=
  Function.LeftInverse.injective toNat_minimal

@[simp] theorem minimal_zero : minimal 0 = [] := by simp [minimal]

theorem minimal_length_le_iff {n width : ℕ} : (minimal n).length ≤ width ↔ n < 256 ^ width := by
  simpa [minimal] using Nat.digits_length_le_iff (by norm_num : 1 < 256) n

/-- The shortest string never starts with a zero byte. -/
theorem minimal_head_ne_zero {n : ℕ} {b : UInt8} {rest : List UInt8} (shape : minimal n = b :: rest) :
    b ≠ 0 := by
  rintro rfl
  have denotes := congrArg toNat shape
  rw [toNat_minimal, toNat_cons] at denotes
  have short : n < 256 ^ rest.length := by
    rw [denotes]
    simpa using toNat_lt rest
  have := minimal_length_le_iff.mpr short
  simp [shape] at this

@[simp] theorem length_fixed (width n : ℕ) : (fixed width n).length = width := by
  induction width with
  | zero => rfl
  | succ width ih => simp [fixed, ih]

@[simp] theorem toNat_fixed (width n : ℕ) : toNat (fixed width n) = n % 256 ^ width := by
  induction width with
  | zero => simp [fixed, Nat.mod_one]
  | succ width ih =>
    have shift : n >>> (8 * width) = n / 256 ^ width := by
      rw [Nat.shiftRight_eq_div_pow, pow_mul]
      norm_num
    rw [fixed, toNat_cons, ih, length_fixed, UInt8.toNat_ofNat', shift, pow_succ 256 width,
      Nat.mod_mul]
    ring

/-- A fixed width loses nothing of the numbers that fit it. -/
theorem fixed_inj {width first second : ℕ} (firstFits : first < 256 ^ width)
    (secondFits : second < 256 ^ width) (same : fixed width first = fixed width second) :
    first = second := by
  have := congrArg toNat same
  rwa [toNat_fixed, toNat_fixed, Nat.mod_eq_of_lt firstFits, Nat.mod_eq_of_lt secondFits] at this

/-- A width is the shortest one exactly for the numbers between the two powers. -/
theorem fixed_eq_minimal {width n : ℕ} (lower : 256 ^ width ≤ n) (upper : n < 256 ^ (width + 1)) :
    fixed (width + 1) n = minimal n := by
  have long : ¬ (minimal n).length ≤ width := fun short =>
    absurd (minimal_length_le_iff.mp short) (not_lt.mpr lower)
  have short := minimal_length_le_iff.mpr upper
  apply eq_of_toNat_eq
  · rw [length_fixed]
    omega
  · rw [toNat_fixed, toNat_minimal, Nat.mod_eq_of_lt upper]

end BigEndian
