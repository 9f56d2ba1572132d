import KKChain.Core.StateProcessor

/-! # The bloom filter of the logs

The filter of a block is the union of the bits of all addresses and topics in its logs, so that a lookup by the bytes of
one of them always succeeds. `TestBytes` takes a detour over a big integer, which has no leading zeros: it asks for the
bits of a shorter string wherever the bytes begin with zeros.
-/

namespace KKChain

open Client Vm BigEndian List

/-- `BloomLookup`, with the bytes of the topic. -/
def bloomLookup (C : Crypto) (bin : Bloom) (topic : Bytes) : Bool :=
  bin.toNat &&& bloom9 C topic == bloom9 C topic

/-- `Test`: the bytes of a big integer are its shortest ones. -/
def Bloom.test (C : Crypto) (b : Bloom) (test : ℕ) : Bool := bloomLookup C b (BigEndian.minimal test)

def Bloom.testBytes (C : Crypto) (b : Bloom) (test : Bytes) : Bool := b.test C (BigEndian.toNat test)

/-- What a log is found by: its address and its topics. -/
def Log.keys (log : Log) : List Bytes := log.address.bytes :: log.topics.map Hash.bytes

/-- The strings whose bits make up the filter. -/
def bloomKeys (receipts : List Receipt) : List Bytes := receipts.flatMap fun receipt => receipt.logs.flatMap Log.keys

section Union

variable {C : Crypto}

theorem foldl_or {α : Type} (f : α → ℕ) (l : List α) (bin i : ℕ) :
    (l.foldl (fun bin a => bin ||| f a) bin).testBit i = (bin.testBit i || l.any fun a => (f a).testBit i) := by
  induction l generalizing bin with
  | nil => simp
  | cons a l ih => simp [ih, Bool.or_assoc]

theorem testBit_logsBloom (logs : List Log) (i : ℕ) :
    (logsBloom C logs).testBit i = (logs.flatMap Log.keys).any fun key => (bloom9 C key).testBit i := by
  suffices step : ∀ bin : ℕ, (logs.foldl (fun (bin : ℕ) (log : Log) => log.topics.foldl
      (fun bin topic => bin ||| bloom9 C topic.bytes) (bin ||| bloom9 C log.address.bytes)) bin).testBit i =
      (bin.testBit i || (logs.flatMap Log.keys).any fun key => (bloom9 C key).testBit i) by
    simpa [logsBloom] using step 0
  induction logs with
  | nil => simp
  | cons log logs ih =>
    intro bin
    rw [foldl_cons, ih, foldl_or, Nat.testBit_or, flatMap_cons, any_append, Log.keys, any_cons,
      any_map]
    simp only [Bool.or_assoc, Function.comp_def]

theorem lt_of_testBit_bloom9 {key : Bytes} {i : ℕ} (set : (bloom9 C key).testBit i) : i < 2048 := by
  have bit : ∀ n, (1 <<< (n % 2048)).testBit i → i < 2048 := by
    intro n set
    rw [Nat.one_shiftLeft, Nat.testBit_two_pow, decide_eq_true_eq] at set
    rw [← set]
    exact Nat.mod_lt _ (by norm_num)
  simp only [bloom9, foldl_cons, foldl_nil, Nat.zero_or, Nat.testBit_or, Bool.or_eq_true] at set
  rcases set with (set | set) | set <;> exact bit _ set

/-- The filter has the bits of all addresses and topics, and no others. -/
theorem testBit_createBloom (receipts : List Receipt) (i : ℕ) :
    (createBloom C receipts).toNat.testBit i = (bloomKeys receipts).any fun key => (bloom9 C key).testBit i := by
  have whole : (receipts.foldl (fun bin receipt => bin ||| logsBloom C receipt.logs) 0).testBit i =
      (bloomKeys receipts).any fun key => (bloom9 C key).testBit i := by
    rw [foldl_or, Nat.zero_testBit, Bool.false_or, bloomKeys, any_flatMap]
    simp only [testBit_logsBloom]
  rw [createBloom, BitVec.testBit_toNat, BitVec.getLsbD_ofNat, whole]
  cases high : (bloomKeys receipts).any fun key => (bloom9 C key).testBit i with
  | false => simp
  | true =>
    obtain ⟨key, -, set⟩ := any_eq_true.mp high
    simp [lt_of_testBit_bloom9 set]

/-- A lookup succeeds exactly if all bits of the topic are set. -/
theorem bloomLookup_iff (bin : Bloom) (topic : Bytes) :
    bloomLookup C bin topic ↔ ∀ i, (bloom9 C topic).testBit i → bin.toNat.testBit i := by
  rw [bloomLookup, beq_iff_eq]
  constructor
  · intro same i set
    rw [← same, Nat.testBit_and, Bool.and_eq_true] at set
    exact set.1
  · intro all
    apply Nat.eq_of_testBit_eq
    intro i
    rw [Nat.testBit_and]
    cases set : (bloom9 C topic).testBit i with
    | false => simp
    | true => simp [all i set]

end Union

/-- The shortest bytes of the number that a string denotes are the string without its leading zeros. -/
theorem minimal_toNat (b : Bytes) : BigEndian.minimal (BigEndian.toNat b) = b.dropWhile (· = 0) := by
  induction b with
  | nil => simp
  | cons c rest ih =>
    by_cases zero : c = 0
    · simp [zero, toNat_cons, ih]
    · rw [dropWhile_cons_of_neg (by simpa using zero)]
      have digit : 1 ≤ c.toNat := Nat.one_le_iff_ne_zero.mpr fun none => zero (UInt8.toNat_inj.mp none)
      have lower : 256 ^ rest.length ≤ BigEndian.toNat (c :: rest) := by
        rw [toNat_cons]
        exact (Nat.le_mul_of_pos_left _ digit).trans (Nat.le_add_right _ _)
      have upper := toNat_lt (c :: rest)
      rw [← fixed_eq_minimal lower upper]
      apply eq_of_toNat_eq
      · simp
      · rw [toNat_fixed]
        exact Nat.mod_eq_of_lt upper

/-- A lookup finds every address and topic. `TestBytes` finds one exactly if the bits of its bytes without the leading
zeros are bits of some address or topic, and so at least where there are no leading zeros. -/
theorem log_bloom_iff (C : Crypto) {receipts : List Receipt} {receipt : Receipt} {log : Log} {x : Bytes}
    (contained : receipt ∈ receipts) (logged : log ∈ receipt.logs)
    (key : x = log.address.bytes ∨ ∃ topic ∈ log.topics, x = topic.bytes) :
    bloomLookup C (createBloom C receipts) x ∧
      ((createBloom C receipts).testBytes C x ↔
        ∀ i, (bloom9 C (x.dropWhile (· = 0))).testBit i → ∃ y ∈ bloomKeys receipts, (bloom9 C y).testBit i) ∧
      (x.head? ≠ some 0 → (createBloom C receipts).testBytes C x) := by
  have member : x ∈ bloomKeys receipts := by
    rw [bloomKeys, mem_flatMap]
    refine ⟨receipt, contained, mem_flatMap.mpr ⟨log, logged, ?_⟩⟩
    rcases key with rfl | ⟨topic, inside, rfl⟩
    · exact (.head _)
    · exact .tail _ (mem_map_of_mem inside)
  have lookup : bloomLookup C (createBloom C receipts) x := by
    rw [bloomLookup_iff]
    intro i set
    rw [testBit_createBloom]
    exact any_eq_true.mpr ⟨x, member, set⟩
  have test : (createBloom C receipts).testBytes C x ↔
      bloomLookup C (createBloom C receipts) (x.dropWhile (· = 0)) := by
    rw [Bloom.testBytes, Bloom.test, minimal_toNat]
  refine ⟨lookup, ?_, fun nonzero => ?_⟩
  · rw [test, bloomLookup_iff]
    simp only [testBit_createBloom, any_eq_true]
  · have whole : x.dropWhile (· = 0) = x := by
      obtain - | ⟨c, rest⟩ := x
      · rfl
      · exact dropWhile_cons_of_neg (by simpa using nonzero)
    rw [test, whole]
    exact lookup

/-- A stand-in whose digests tell strings of different lengths apart. -/
def Crypto.lengths : Crypto where
  keccak b := if b = [0x80] then emptyRoot else BitVec.ofNat 256 (b.length * 2 ^ 240)
  ecrecover _ _ := none
  keccak_emptyString := rfl

/-- A log of the contract with address 1. -/
def lowLog : Log := ⟨1, [], [], 0, 0, 0, 0, 0⟩

/-- The receipt of a transaction with that log. -/
def lowReceipt : Receipt := ⟨0, 0, 0, [lowLog], 0, 0, 0⟩

theorem log_bloom_low : lowReceipt ∈ [lowReceipt] ∧ lowLog ∈ lowReceipt.logs ∧
    bloomLookup Crypto.lengths (createBloom Crypto.lengths [lowReceipt]) lowLog.address.bytes :=
  ⟨.head _, .head _, (log_bloom_iff Crypto.lengths List.mem_cons_self (.head _) (.inl rfl)).1⟩

/-- `TestBytes` misses the address 1, which begins with nineteen zeros. -/
theorem log_bloom_missed : ∃ (C : Crypto) (receipts : List Receipt), ∃ receipt ∈ receipts, ∃ log ∈ receipt.logs,
    ¬ (createBloom C receipts).testBytes C log.address.bytes :=
  ⟨.lengths, [lowReceipt], lowReceipt, .head _, lowLog, .head _, by decide +kernel⟩

end KKChain
