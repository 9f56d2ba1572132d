import KKChain.Common
import KKChain.Machine.Run

/-! # The price of memory

Memory of a frame grows by words of 32 bytes, and what it costs in all is linear plus quadratic in the words. A request
is charged what its total exceeds the last total by, so the fees of a frame should add up to the price of its largest
request. The guard admits `2^35 - 1` words, while the square of a number of words fits 64 bits below `2^32` only.
-/

namespace KKChain.Vm

open UInt64

variable {w charged : UInt64} {size : ℕ}

/-- `errGasUintOverflow`. -/
inductive GasError where
  | gasUintOverflow
deriving DecidableEq, Repr

structure Memory where
  store : Bytes
  lastGasCost : UInt64

def memoryGas : UInt64 := 3

def quadCoeffDiv : UInt64 := 512

def toWordSize (size : UInt64) : UInt64 :=
  if 0xffffffffffffffff - 31 < size then 0xffffffffffffffff / 32 + 1 else (size + 31) / 32

/-- `SafeMul`: the product and whether it overflowed. -/
def safeMul (x y : UInt64) : UInt64 × Bool :=
  if x = 0 ∨ y = 0 then (0, false) else (x * y, 0xffffffffffffffff / x < y)

/-- The total fee of a memory of this many words, as `memoryGasCost` computes it. -/
def newTotalFee (newMemSizeWords : UInt64) : UInt64 :=
  let square := newMemSizeWords * newMemSizeWords
  let linCoef := newMemSizeWords * memoryGas
  let quadCoef := square / quadCoeffDiv
  linCoef + quadCoef

namespace Memory

/-- `NewMemory`. -/
def new : Memory := ⟨[], 0⟩

def len (mem : Memory) : ℕ := mem.store.length

def resize (mem : Memory) (size : UInt64) : Memory :=
  if mem.len < size.toNat then { mem with store := mem.store ++ List.replicate (size.toNat - mem.len) 0 } else mem

def memoryGasCost (mem : Memory) (newMemSize : UInt64) : Except GasError (UInt64 × Memory) :=
  if newMemSize = 0 then .ok (0, mem)
  else if 0xffffffffe0 < newMemSize then .error .gasUintOverflow
  else
    let newMemSizeWords := toWordSize newMemSize
    if mem.len < (newMemSizeWords * 32).toNat then
      let total := newTotalFee newMemSizeWords
      .ok (total - mem.lastGasCost, { mem with lastGasCost := total })
    else .ok (0, mem)

/-- What the interpreter does to the memory for an operation that touches it up to a size: the size is rounded to words,
the fee is taken, and the memory grows. -/
def expand (mem : Memory) (memSize : ℕ) : Except GasError (UInt64 × Memory) :=
  if 2 ^ 64 ≤ memSize then .error .gasUintOverflow
  else
    let (memorySize, overflow) := safeMul (toWordSize (UInt64.ofNat memSize)) 32
    if overflow then .error .gasUintOverflow
    else do
      let (fee, mem) ← mem.memoryGasCost memorySize
      return (fee, if 0 < memorySize then mem.resize memorySize else mem)

/-- A request that the frame survives, with the fee it pays. -/
def Expands (mem : Memory) (request : ℕ × UInt64) (mem' : Memory) : Prop :=
  mem.expand request.1 = .ok (request.2, mem')

end Memory

/-- The words that hold this many bytes. -/
def words (size : ℕ) : ℕ := (size + 31) / 32

/-- The price of a memory of this many words. -/
def fee (w : ℕ) : ℕ := w * 3 + w * w / 512

/-- Every intermediate value of the price of a size fits 64 bits. -/
structure Priceable (size : ℕ) : Prop where
  rounded : size + 31 < 2 ^ 64
  bytes : words size * 32 < 2 ^ 64
  square : words size * words size < 2 ^ 64
  linear : words size * 3 < 2 ^ 64
  total : fee (words size) < 2 ^ 64

/-- A request is priced without overflow: the total is not below the last one either. -/
structure Memory.Exact (mem : Memory) (size : ℕ) : Prop extends Priceable size where
  increases : mem.len < words size * 32 → mem.lastGasCost.toNat ≤ fee (words size)

/-- The largest of the sizes that a run asks for. -/
def largest (ts : List (Memory × (ℕ × UInt64) × Memory)) : ℕ := (ts.map fun t => t.2.1.1).foldr max 0

/-- The fees that a run pays. -/
def paid (ts : List (Memory × (ℕ × UInt64) × Memory)) : ℕ := (ts.map fun t => t.2.1.2.toNat).sum

/-- The sizes on which the guard of `memoryGasCost` agrees with the width of its numbers. -/
def Guarded (size : ℕ) : Prop := size ≤ 0x1fffffffe0 ∨ 0xffffffffe0 < size

theorem toNat_toWordSize (size : UInt64) : (toWordSize size).toNat = words size.toNat := by
  have bound := size.toNat_lt
  unfold toWordSize words
  split
  case isTrue large =>
    have large : 18446744073709551584 < size.toNat := lt_iff_toNat_lt.mp large
    have top : (0xffffffffffffffff / 32 + 1 : UInt64).toNat = 576460752303423488 := by decide
    omega
  case isFalse small =>
    have small : size.toNat ≤ 18446744073709551584 := not_lt.mp fun large => small (lt_iff_toNat_lt.mpr large)
    rw [UInt64.toNat_div, UInt64.toNat_add]
    simp only [reduceToNat]
    omega

theorem safeMul_eq (x : UInt64) : safeMul x 32 = (x * 32, decide (2 ^ 64 ≤ x.toNat * 32)) := by
  have bound := x.toNat_lt
  unfold safeMul
  split
  case isTrue zero =>
    have zero : x = 0 := zero.resolve_right (by decide)
    subst zero
    decide
  case isFalse positive =>
    have positive : 0 < x.toNat := by
      refine Nat.pos_of_ne_zero fun zero => positive (.inl ?_)
      exact UInt64.toNat_inj.mp zero
    have overflows : (0xffffffffffffffff / x < 32) = (2 ^ 64 ≤ x.toNat * 32) := by
      rw [UInt64.lt_iff_toNat_lt, UInt64.toNat_div, eq_iff_iff, Nat.div_lt_iff_lt_mul positive]
      simp only [reduceToNat]
      omega
    simp only [overflows]

/-- The fee that the code computes is the price as long as the square fits. -/
theorem toNat_newTotalFee (fits : w.toNat < 2 ^ 32) : (newTotalFee w).toNat = fee w.toNat := by
  have square : w.toNat * w.toNat < 2 ^ 64 := by nlinarith
  unfold newTotalFee fee
  simp only [UInt64.toNat_add, UInt64.toNat_mul, UInt64.toNat_div, memoryGas, quadCoeffDiv, UInt64.reduceToNat]
  omega

theorem words_mono : Monotone words := fun _ _ le => Nat.div_le_div_right (Nat.add_le_add_right le _)

theorem fee_mono : Monotone fee := fun _ _ le =>
  Nat.add_le_add (Nat.mul_le_mul_right _ le) (Nat.div_le_div_right (Nat.mul_le_mul le le))

/-- A size can be priced in 64 bits up to the square of its words. -/
theorem priceable_iff : Priceable size ↔ size ≤ 0x1fffffffe0 := by
  have half : words size ≤ 0xffffffff ↔ size ≤ 0x1fffffffe0 := by unfold words; omega
  constructor
  · intro fits
    refine half.mp (not_lt.mp fun large => ?_)
    have := fits.square
    nlinarith
  · intro small
    have few := half.mpr small
    have square : words size * words size < 2 ^ 64 := by nlinarith
    refine ⟨by omega, by omega, square, by omega, ?_⟩
    unfold fee
    omega

theorem largest_le {bound : ℕ} {ts : List (Memory × (ℕ × UInt64) × Memory)} (each : ∀ t ∈ ts, t.2.1.1 ≤ bound) :
    largest ts ≤ bound := by
  induction ts with
  | nil => exact Nat.zero_le _
  | cons t ts ih =>
    obtain ⟨head, tail⟩ := List.forall_mem_cons.mp each
    exact max_le head (ih tail)

namespace Memory

theorem len_resize (mem : Memory) (size : UInt64) : (mem.resize size).len = max mem.len size.toNat := by
  unfold resize
  split
  case isTrue less =>
    simp only [len, List.length_append, List.length_replicate]
    simp only [len] at less
    omega
  case isFalse more => omega

/-- A memory that has grown to this many words. -/
def grown (mem : Memory) (w : ℕ) : Memory :=
  { mem.resize (UInt64.ofNat (w * 32)) with lastGasCost := newTotalFee (UInt64.ofNat w) }

/-- Growing and charging do not depend on each other. -/
theorem resize_charged (mem : Memory) (total size : UInt64) :
    resize { mem with lastGasCost := total } size = { mem.resize size with lastGasCost := total } := by
  unfold resize len
  split <;> rfl

theorem resize_of_le {mem : Memory} {size : UInt64} (enough : size.toNat ≤ mem.len) : mem.resize size = mem :=
  if_neg (not_lt.mpr enough)

/-- The words of a rounded size are the words of the size. -/
theorem toWordSize_rounded (fits : w.toNat * 32 < 2 ^ 64) : toWordSize (w * 32) = w := by
  have rounded : (w * 32).toNat = w.toNat * 32 := by
    rw [UInt64.toNat_mul]
    exact Nat.mod_eq_of_lt fits
  refine UInt64.toNat_inj.mp ?_
  rw [toNat_toWordSize, rounded, words]
  omega

/-- What `memoryGasCost` and `Resize` do for a number of words. -/
theorem charge_eq (mem : Memory) (fits : w.toNat * 32 < 2 ^ 64) :
    (do
      let (fee, mem) ← mem.memoryGasCost (w * 32)
      return (fee, if 0 < w * 32 then mem.resize (w * 32) else mem)) =
      if 0xffffffffe0 < w.toNat * 32 then .error .gasUintOverflow
      else if mem.len < w.toNat * 32 then .ok (newTotalFee w - mem.lastGasCost, mem.grown w.toNat)
      else .ok (0, mem) := by
  have rounded : (w * 32).toNat = w.toNat * 32 := by
    rw [UInt64.toNat_mul]
    exact Nat.mod_eq_of_lt fits
  have zero : w * 32 = 0 ↔ w.toNat * 32 = 0 := by rw [← rounded, ← UInt64.toNat_inj]; rfl
  have positive : 0 < w * 32 ↔ 0 < w.toNat * 32 := by rw [← rounded, UInt64.lt_iff_toNat_lt]; rfl
  have guarded : 0xffffffffe0 < w * 32 ↔ 0xffffffffe0 < w.toNat * 32 := by rw [← rounded, UInt64.lt_iff_toNat_lt]; rfl
  have back : UInt64.ofNat (w.toNat * 32) = w * 32 := by rw [← rounded, UInt64.ofNat_toNat]
  simp only [memoryGasCost, zero, positive, guarded, toWordSize_rounded fits, rounded]
  by_cases none : w.toNat * 32 = 0
  · simp [none, bind, Except.bind, pure, Except.pure]
  rw [if_neg none]
  by_cases above : 0xffffffffe0 < w.toNat * 32
  · rw [if_pos above, if_pos above]
    rfl
  rw [if_neg above, if_neg above]
  by_cases more : mem.len < w.toNat * 32
  · rw [if_pos more, if_pos more]
    simp only [bind, Except.bind, pure, Except.pure, if_pos (Nat.pos_of_ne_zero none), grown, back, UInt64.ofNat_toNat]
    rw [resize_charged]
  · rw [if_neg more, if_neg more]
    simp only [bind, Except.bind, pure, Except.pure, if_pos (Nat.pos_of_ne_zero none)]
    rw [resize_of_le (by omega)]

theorem len_grown (mem : Memory) {w : ℕ} (fits : w * 32 < 2 ^ 64) : (mem.grown w).len = max mem.len (w * 32) := by
  have bytes : (ofNat (w * 32)).toNat = w * 32 := toNat_ofNat_of_lt' fits
  show (mem.resize _).len = _
  rw [len_resize, bytes]

/-- What a request does: above the guard it is refused, and otherwise it is charged if the memory has to grow. -/
theorem expand_eq (mem : Memory) (size : ℕ) :
    mem.expand size =
      if 0xffffffffe0 < size then .error .gasUintOverflow
      else if mem.len < words size * 32 then
        .ok (newTotalFee (ofNat (words size)) - mem.lastGasCost, mem.grown (words size))
      else .ok (0, mem) := by
  unfold expand
  by_cases wide : 2 ^ 64 ≤ size
  · rw [if_pos wide, if_pos (by omega)]
  rw [if_neg wide, safeMul_eq]
  have read : (ofNat size).toNat = size := toNat_ofNat_of_lt' (by simpa using wide)
  have count : (toWordSize (ofNat size)).toNat = words size := by rw [toNat_toWordSize, read]
  have limit : 0xffffffffe0 < words size * 32 ↔ 0xffffffffe0 < size := by unfold words; omega
  simp only [count]
  by_cases overflow : 2 ^ 64 ≤ words size * 32
  · rw [if_pos (by simpa using overflow), if_pos (limit.mp (by omega))]
  rw [if_neg (by simpa using overflow), charge_eq _ (by omega), count]
  have back : UInt64.ofNat (words size) = toWordSize (UInt64.ofNat size) := by rw [← count, UInt64.ofNat_toNat]
  simp only [limit, back]

theorem expands_iff {mem mem' : Memory} :
    mem.Expands (size, charged) mem' ↔
      size ≤ 0xffffffffe0 ∧
        (mem.len < words size * 32 ∧ charged = newTotalFee (ofNat (words size)) - mem.lastGasCost ∧
            mem' = mem.grown (words size) ∨
          words size * 32 ≤ mem.len ∧ charged = 0 ∧ mem' = mem) := by
  unfold Expands
  rw [expand_eq]
  split_ifs with above more
  · simp [above]
  · simp [not_lt.mp above, more, eq_comm]
  · simp [not_lt.mp above, not_lt.mp more, eq_comm]

/-- A memory of this many words has paid their price. -/
structure Settled (mem : Memory) (w : ℕ) : Prop where
  few : w < 2 ^ 32
  length : mem.len = w * 32
  last : mem.lastGasCost.toNat = fee w

theorem settled_new : Settled new 0 := ⟨by decide, rfl, rfl⟩

/-- One request of a size that can be priced is charged what is still owed for it. -/
theorem Settled.expands {mem mem' : Memory} {w : ℕ} (settled : mem.Settled w)
    (step : mem.Expands (size, charged) mem') (small : size ≤ 0x1fffffffe0) :
    mem'.Settled (max w (words size)) ∧ charged.toNat + fee w = fee (max w (words size)) ∧ mem.Exact size := by
  have few : words size < 2 ^ 32 := by unfold words; omega
  have total : (newTotalFee (ofNat (words size))).toNat = fee (words size) := by
    have read : (ofNat (words size)).toNat = words size := toNat_ofNat_of_lt' (show _ < 2 ^ 64 by omega)
    rw [toNat_newTotalFee (by omega), read]
  obtain ⟨-, ⟨more, rfl, rfl⟩ | ⟨enough, rfl, rfl⟩⟩ := expands_iff.mp step
  · have above : w ≤ words size := by rw [settled.length] at more; omega
    have owed : fee w ≤ fee (words size) := fee_mono above
    rw [max_eq_right above]
    refine ⟨⟨few, ?_, total⟩, ?_, priceable_iff.mpr small, fun _ => by rw [settled.last]; exact owed⟩
    · rw [len_grown _ (by omega)]
      omega
    · have covered : mem.lastGasCost ≤ newTotalFee (ofNat (words size)) := by
        rw [le_iff_toNat_le, settled.last, total]
        exact owed
      rw [UInt64.toNat_sub_of_le _ _ covered, settled.last, total]
      omega
  · have below : words size ≤ w := by rw [settled.length] at enough; omega
    rw [max_eq_left below]
    exact ⟨settled, by simp, priceable_iff.mpr small, fun more => absurd enough (by omega)⟩

/-- The fees of a run add up to what its largest request was still to pay. -/
theorem Settled.run {mem mem' : Memory} {w : ℕ} {ts : List (Memory × (ℕ × UInt64) × Memory)}
    (run : Run Expands mem ts mem') (settled : mem.Settled w) (small : ∀ t ∈ ts, t.2.1.1 ≤ 0x1fffffffe0) :
    mem'.Settled (max w (words (largest ts))) ∧ paid ts + fee w = fee (max w (words (largest ts))) ∧
      ∀ t ∈ ts, t.1.Exact t.2.1.1 := by
  induction run generalizing w with
  | nil mem => exact ⟨by simpa [largest, words] using settled, by simp [paid, largest, words], by simp⟩
  | @cons mem next last request ts first rest ih =>
    obtain ⟨head, tail⟩ := List.forall_mem_cons.mp small
    obtain ⟨settled, charged, exact⟩ := settled.expands first head
    obtain ⟨settled, restPaid, restExact⟩ := ih settled tail
    have joined : max (max w (words request.1)) (words (largest ts)) =
        max w (words (largest ((mem, request, next) :: ts))) := by
      rw [max_assoc, ← words_mono.map_max]
      rfl
    rw [joined] at settled restPaid
    refine ⟨settled, ?_, List.forall_mem_cons.mpr ⟨exact, restExact⟩⟩
    have split : paid ((mem, request, next) :: ts) = request.2.toNat + paid ts := by simp [paid]
    omega

/-- The fees of a frame are exact, add up to the price of its largest request, and the next request is refused if it
cannot be priced, exactly if no size lies between the largest that can be priced and the guard. -/
theorem memoryGasCost_path_independent_iff {mem : Memory} {ts : List (Memory × (ℕ × UInt64) × Memory)}
    (run : Run Expands new ts mem) (size : ℕ) :
    ((∀ t ∈ ts, t.1.Exact t.2.1.1) ∧ paid ts = fee (words (largest ts)) ∧
        (∃ once mem', new.expand (largest ts) = .ok (once, mem') ∧ paid ts = once.toNat) ∧
        (Priceable size ∨ mem.expand size = .error .gasUintOverflow)) ↔
      (∀ t ∈ ts, Guarded t.2.1.1) ∧ Guarded size := by
  constructor
  · rintro ⟨exact, -, -, next⟩
    refine ⟨fun t member => .inl (priceable_iff.mp (exact t member).toPriceable), ?_⟩
    rcases next with fits | refused
    · exact .inl (priceable_iff.mp fits)
    · refine .inr (not_le.mp fun admitted => ?_)
      rw [expand_eq, if_neg (not_lt.mpr admitted)] at refused
      split at refused <;> cases refused
  · rintro ⟨guarded, next⟩
    have small : ∀ t ∈ ts, t.2.1.1 ≤ 0x1fffffffe0 := fun t member =>
      (guarded t member).resolve_right (not_lt.mpr (expands_iff.mp (run.step_of_mem member)).1)
    obtain ⟨-, total, exact⟩ := settled_new.run run small
    have total : paid ts = fee (words (largest ts)) := by simpa [fee] using total
    refine ⟨exact, total, ?_, ?_⟩
    · have within : largest ts ≤ 0x1fffffffe0 := largest_le small
      obtain ⟨once, mem', single⟩ : ∃ once mem', new.Expands (largest ts, once) mem' := by
        simp only [Expands, expand_eq, if_neg (show ¬0xffffffffe0 < largest ts by omega)]
        split <;> exact ⟨_, _, rfl⟩
      obtain ⟨-, charged, -⟩ := settled_new.expands single within
      refine ⟨once, mem', single, ?_⟩
      rw [total]
      simpa [fee] using charged.symm
    · refine next.imp priceable_iff.mpr fun above => ?_
      rw [expand_eq, if_pos above]

/-- A frame asks for two words, for one of them again and for three. -/
theorem memoryGasCost_three_words : ∃ mem ts, Run Expands new ts mem ∧ ts.map (·.2.1.1) = [64, 32, 96] ∧
    paid ts = fee 3 := by
  have first : new.Expands (64, 6) (new.grown 2) := expands_iff.mpr ⟨by decide, .inl ⟨by decide, by decide, rfl⟩⟩
  have length := len_grown new (w := 2) (by decide)
  have second : (new.grown 2).Expands (32, 0) (new.grown 2) :=
    expands_iff.mpr ⟨by decide, .inr ⟨by rw [length]; decide, rfl, rfl⟩⟩
  have third : (new.grown 2).Expands (96, 3) ((new.grown 2).grown 3) :=
    expands_iff.mpr ⟨by decide, .inl ⟨by rw [length]; decide, by decide, rfl⟩⟩
  have run := Run.cons first (Run.cons second (Run.cons third (.nil _)))
  refine ⟨_, _, run, rfl, ?_⟩
  exact ((memoryGasCost_path_independent_iff run 0).mpr ⟨by simp [Guarded], .inl (by decide)⟩).2.1

/-- The square of `2^32` words is zero in 64 bits, so the fee of a request for that many has no quadratic part. A memory
with one word less pays the difference to that, and what it has paid in all is off by the modulus. -/
theorem memoryGasCost_square_overflows :
    (∃ mem, new.expand 0x2000000000 = .ok (0x300000000, mem)) ∧ fee (words 0x2000000000) = 0x300000000 + 2 ^ 55 ∧
      ∃ mem ts, Run Expands new ts mem ∧ largest ts = 0x2000000000 ∧ paid ts = 0x300000000 + 2 ^ 64 := by
  refine ⟨⟨new.grown (2 ^ 32), ?_⟩, by decide, ?_⟩
  · exact expands_iff.mpr ⟨by decide, .inl ⟨by decide, by decide, rfl⟩⟩
  · have first : new.Expands (0x1fffffffe0, 0x800002fefffffd) (new.grown (2 ^ 32 - 1)) :=
      expands_iff.mpr ⟨by decide, .inl ⟨by decide, by decide, rfl⟩⟩
    have second : (new.grown (2 ^ 32 - 1)).Expands (0x2000000000, 0xff80000001000003)
        ((new.grown (2 ^ 32 - 1)).grown (2 ^ 32)) := by
      refine expands_iff.mpr ⟨by decide, .inl ⟨?_, by decide, rfl⟩⟩
      rw [len_grown _ (by decide)]
      decide
    exact ⟨_, _, .cons first (.cons second (.nil _)), by decide, by decide⟩

end Memory

end KKChain.Vm
