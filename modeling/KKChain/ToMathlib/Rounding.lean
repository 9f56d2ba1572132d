import Mathlib.Algebra.Group.Nat.Defs
import Mathlib.Data.Nat.Size

/-! # Rounding to a number of binary digits -/

/-- The nearest number of at most `p` significant binary digits; of two that are equally near, the even one. -/
def roundEven (p n : ℕ) : ℕ :=
  let unit := 2 ^ (n.size - p)
  if 2 * (n % unit) < unit ∨ 2 * (n % unit) = unit ∧ n / unit % 2 = 0 then n / unit * unit else (n / unit + 1) * unit
