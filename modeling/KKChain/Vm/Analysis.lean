import KKChain.Common
import Mathlib.Data.List.AList
import Mathlib.Data.Nat.Size
import Mathlib.Order.Monotone.Basic

/-! # Jump destinations

The analysis marks the immediate data of the push instructions in a bit vector of the code, eight bits at a time where
it can, and keeps the vector under the hash of the code. A destination is valid if it holds `JUMPDEST` and is not
marked.
-/

namespace KKChain.Vm

open Rlp List Option

def jumpDest : UInt8 := 0x5b

def push1 : UInt8 := 0x60

def push32 : UInt8 := 0x7f

/-- `bitvec`: a set bit is data, the most significant bit of a byte first. -/
abbrev Bitvec := Bytes

namespace Bitvec

/-- A byte of the vector is combined with a mask. Writing outside of it is a run-time error. -/
def orByte (bits : Bitvec) (i : ℕ) (mask : UInt8) : Option Bitvec :=
  if i < bits.length then some (bits.modify i (· ||| mask)) else none

def set (bits : Bitvec) (pos : ℕ) : Option Bitvec := bits.orByte (pos / 8) (0x80 >>> UInt8.ofNat (pos % 8))

def set8 (bits : Bitvec) (pos : ℕ) : Option Bitvec := do
  let bits ← bits.orByte (pos / 8) (0xff >>> UInt8.ofNat (pos % 8))
  bits.orByte (pos / 8 + 1) (~~~(0xff >>> UInt8.ofNat (pos % 8)))

def codeSegment (bits : Bitvec) (pos : ℕ) : Option Bool :=
  bits[pos / 8]?.map fun byte => byte &&& (0x80 >>> UInt8.ofNat (pos % 8)) == 0

/-- The loops of `codeBitmap` over the data of one push. -/
def markData (bits : Bitvec) (pc : ℕ) : ℕ → Option Bitvec
  | numbits + 8 => do
    let bits ← bits.set8 pc
    markData bits (pc + 8) numbits
  | numbits + 1 => do
    let bits ← bits.set pc
    markData bits (pc + 1) numbits
  | 0 => some bits

end Bitvec

/-- The number of data bytes behind an operation. -/
def pushData (op : UInt8) : ℕ := if push1 ≤ op ∧ op ≤ push32 then (op - push1 + 1).toNat else 0

/-- The loop of `codeBitmap`. -/
def codeBitmapFrom (code : Bytes) (pc : ℕ) (bits : Bitvec) : Option Bitvec :=
  if inside : pc < code.length then
    let op := code[pc]
    if push1 ≤ op ∧ op ≤ push32 then do
      let bits ← bits.markData (pc + 1) (op - push1 + 1).toNat
      codeBitmapFrom code (pc + 1 + (op - push1 + 1).toNat) bits
    else codeBitmapFrom code (pc + 1) bits
  else some bits
termination_by code.length - pc

def codeBitmap (code : Bytes) : Option Bitvec := codeBitmapFrom code 0 (List.replicate (code.length / 8 + 1 + 4) 0)

abbrev Destinations := AList fun _ : Hash => Bitvec

/-- The bit vector of a code: the one that is kept under its hash, or a new one. -/
def Destinations.analyse (d : Destinations) (codehash : Hash) (code : Bytes) : Option (Bitvec × Destinations) :=
  match d.lookup codehash with
  | some m => some (m, d)
  | none => (codeBitmap code).map fun m => (m, d.insert codehash m)

def Destinations.has (d : Destinations) (codehash : Hash) (code : Bytes) (dest : BitVec 256) :
    Option (Bool × Destinations) :=
  let udest := dest.toNat % 2 ^ 64
  if 63 ≤ dest.toNat.size ∨ code.length ≤ udest then some (false, d)
  else do
    let (m, d) ← d.analyse codehash code
    if code[udest]? = some jumpDest then return (← m.codeSegment udest, d) else return (false, d)

/-- A question to the analysis. The code is held in memory. -/
structure Query where
  codehash : Hash
  code : Bytes
  dest : BitVec 256
  fits : code.length ≤ maxAlloc

/-- A sequence of questions with their answers. -/
def Destinations.hasAll : Destinations → List Query → Option (List Bool × Destinations)
  | d, [] => some ([], d)
  | d, q :: queries => do
    let (answer, d) ← d.has q.codehash q.code q.dest
    let (answers, d) ← d.hasAll queries
    return (answer :: answers, d)

/-- The position behind the instruction at a position. -/
def nextInstruction (code : Bytes) (pc : ℕ) : ℕ := pc + 1 + (code[pc]?.map pushData).getD 0

/-- Sequential decoding from the start of the code: the position of an instruction by its number. -/
def instructionAt (code : Bytes) (i : ℕ) : ℕ := (nextInstruction code)^[i] 0

/-- A position that holds `JUMPDEST` and begins an instruction. -/
def IsJumpDest (code : Bytes) (pos : ℕ) : Prop := code[pos]? = some jumpDest ∧ ∃ i, instructionAt code i = pos

variable {bits : Bitvec} {d : Destinations} {pos pc i k : ℕ} {q : Query}

namespace Bitvec

def bit (bits : Bitvec) (k : ℕ) : Bool := (bits[k / 8]?.getD 0).toBitVec.getMsbD (k % 8)

section Masks

variable {r j : ℕ} (rest : r < 8) (place : j < 8)

include rest place

theorem getMsbD_one : (0x80 >>> UInt8.ofNat r : UInt8).toBitVec.getMsbD j = decide (j = r) := by
  have each : ∀ r j : Fin 8, (0x80 >>> UInt8.ofNat r : UInt8).toBitVec.getMsbD j = decide (j = r) := by decide
  simpa [Fin.ext_iff] using each ⟨r, rest⟩ ⟨j, place⟩

theorem getMsbD_upper : (0xff >>> UInt8.ofNat r : UInt8).toBitVec.getMsbD j = decide (r ≤ j) := by
  have each : ∀ r j : Fin 8, (0xff >>> UInt8.ofNat r : UInt8).toBitVec.getMsbD j = decide (r ≤ j) := by decide
  simpa [Fin.le_def] using each ⟨r, rest⟩ ⟨j, place⟩

theorem getMsbD_lower : (~~~(0xff >>> UInt8.ofNat r) : UInt8).toBitVec.getMsbD j = decide (j < r) := by
  have each : ∀ r j : Fin 8, (~~~(0xff >>> UInt8.ofNat r) : UInt8).toBitVec.getMsbD j = decide (j < r) := by decide
  simpa [Fin.lt_def] using each ⟨r, rest⟩ ⟨j, place⟩

end Masks

/-- Combining a byte with a mask sets the bits of the mask. -/
theorem orByte_spec (inside : i < bits.length) (mask : UInt8) :
    ∃ bits', bits.orByte i mask = some bits' ∧ bits'.length = bits.length ∧
      ∀ k, bits'.bit k = (bits.bit k || decide (k / 8 = i) && mask.toBitVec.getMsbD (k % 8)) := by
  refine ⟨bits.modify i (· ||| mask), if_pos inside, length_modify .., fun k => ?_⟩
  unfold bit
  rw [getElem?_modify]
  by_cases same : i = k / 8
  · subst same
    simp [getElem?_eq_getElem inside, BitVec.getMsbD_or]
  · simp [same, Ne.symm same]

theorem set_spec (inside : pos / 8 < bits.length) :
    ∃ bits', bits.set pos = some bits' ∧ bits'.length = bits.length ∧
      ∀ k, bits'.bit k = (bits.bit k || decide (k = pos)) := by
  obtain ⟨bits', ran, length, marks⟩ := orByte_spec inside (0x80 >>> UInt8.ofNat (pos % 8))
  refine ⟨bits', ran, length, fun k => ?_⟩
  rw [marks, getMsbD_one (Nat.mod_lt _ (by decide)) (Nat.mod_lt _ (by decide)), ← Bool.decide_and]
  congr 2
  rw [eq_iff_iff]
  omega

theorem set8_spec (inside : pos / 8 + 1 < bits.length) :
    ∃ bits', bits.set8 pos = some bits' ∧ bits'.length = bits.length ∧
      ∀ k, bits'.bit k = (bits.bit k || decide (pos ≤ k ∧ k < pos + 8)) := by
  obtain ⟨upper, ran, length, marks⟩ := orByte_spec (Nat.lt_of_succ_lt inside) (0xff >>> UInt8.ofNat (pos % 8))
  obtain ⟨lower, ran', length', marks'⟩ :=
    orByte_spec (length.symm ▸ inside : pos / 8 + 1 < upper.length) (~~~(0xff >>> UInt8.ofNat (pos % 8)))
  refine ⟨lower, by simp [set8, ran, ran'], length'.trans length, fun k => ?_⟩
  have small : pos % 8 < 8 := Nat.mod_lt _ (by decide)
  have place : k % 8 < 8 := Nat.mod_lt _ (by decide)
  rw [marks', marks, getMsbD_upper small place, getMsbD_lower small place, Bool.or_assoc, ← Bool.decide_and,
    ← Bool.decide_and, ← Bool.decide_or]
  congr 2
  rw [eq_iff_iff]
  omega

/-- The data of one push is marked, and nothing else. -/
theorem markData_spec (numbits : ℕ) (inside : (pc + numbits) / 8 < bits.length) :
    ∃ bits', bits.markData pc numbits = some bits' ∧ bits'.length = bits.length ∧
      ∀ k, bits'.bit k = (bits.bit k || decide (pc ≤ k ∧ k < pc + numbits)) := by
  induction bits, pc, numbits using markData.induct with
  | case1 bits pc numbits ih =>
    obtain ⟨next, ran, length, marks⟩ := set8_spec (show pc / 8 + 1 < bits.length by omega)
    obtain ⟨last, rest, length', marks'⟩ := ih next (by rw [length]; omega)
    refine ⟨last, by simp [markData, ran, rest], length'.trans length, fun k => ?_⟩
    rw [marks', marks, Bool.or_assoc, ← Bool.decide_or]
    congr 2
    rw [eq_iff_iff]
    omega
  | case2 bits pc numbits few ih =>
    obtain ⟨next, ran, length, marks⟩ := set_spec (show pc / 8 < bits.length by omega)
    obtain ⟨last, rest, length', marks'⟩ := ih next (by rw [length]; omega)
    refine ⟨last, by rw [markData, ran]; exacts [rest, few], length'.trans length, fun k => ?_⟩
    rw [marks', marks, Bool.or_assoc, ← Bool.decide_or]
    congr 2
    rw [eq_iff_iff]
    omega
  | case3 bits pc => exact ⟨bits, rfl, rfl, fun k => by simp⟩

/-- A position is a code segment exactly if its bit is unset. -/
theorem codeSegment_eq (inside : pos / 8 < bits.length) : bits.codeSegment pos = some (!bits.bit pos) := by
  have tested : ∀ (r : Fin 8) (b : Fin 256),
      (UInt8.ofFin b &&& (0x80 >>> UInt8.ofNat r) == 0) = !(UInt8.ofFin b).toBitVec.getMsbD r := by decide +kernel
  unfold codeSegment bit
  rw [getElem?_eq_getElem inside, map_some, getD_some]
  exact congrArg some (tested ⟨pos % 8, Nat.mod_lt _ (by decide)⟩ bits[pos / 8].toFin)

end Bitvec

section Decoding

variable {code : Bytes}

theorem instructionAt_succ (i : ℕ) : instructionAt code (i + 1) = nextInstruction code (instructionAt code i) :=
  Function.iterate_succ_apply' ..

theorem instructionAt_strictMono : StrictMono (instructionAt code) := by
  refine strictMono_nat_of_lt_succ fun i => ?_
  rw [instructionAt_succ, nextInstruction]
  omega

/-- Every position belongs to an instruction. -/
theorem exists_instruction (k : ℕ) : ∃ i, instructionAt code i ≤ k ∧ k < instructionAt code (i + 1) := by
  induction k with
  | zero => exact ⟨0, le_rfl, instructionAt_strictMono (Nat.lt_succ_self 0)⟩
  | succ k ih =>
    obtain ⟨i, lower, upper⟩ := ih
    by_cases within : k + 1 < instructionAt code (i + 1)
    · exact ⟨i, by omega, within⟩
    · exact ⟨i + 1, by omega, (by omega : k + 1 = instructionAt code (i + 1)) ▸ instructionAt_strictMono
        (Nat.lt_succ_self _)⟩

/-- A position inside one of the first instructions, behind the operation itself. -/
def IsData (code : Bytes) (i k : ℕ) : Prop := ∃ j < i, instructionAt code j < k ∧ k < instructionAt code (j + 1)

theorem isData_succ :
    IsData code (i + 1) k ↔ IsData code i k ∨ instructionAt code i < k ∧ k < instructionAt code (i + 1) := by
  unfold IsData
  constructor
  · rintro ⟨j, before, inside⟩
    rcases Nat.lt_succ_iff_lt_or_eq.mp before with earlier | rfl
    · exact .inl ⟨j, earlier, inside⟩
    · exact .inr inside
  · rintro (⟨j, earlier, inside⟩ | inside)
    · exact ⟨j, by omega, inside⟩
    · exact ⟨i, by omega, inside⟩

/-- Before the end of decoding, a position is data exactly if no instruction begins there. -/
theorem isData_iff (before : k < instructionAt code i) : IsData code i k ↔ ¬∃ j, instructionAt code j = k := by
  constructor
  · rintro ⟨j, -, above, below⟩ ⟨j', rfl⟩
    have after := instructionAt_strictMono.lt_iff_lt.mp above
    have upto := instructionAt_strictMono.lt_iff_lt.mp below
    omega
  · intro inner
    obtain ⟨j, lower, upper⟩ : ∃ j, instructionAt code j ≤ k ∧ k < instructionAt code (j + 1) := exists_instruction k
    refine ⟨j, instructionAt_strictMono.lt_iff_lt.mp (lower.trans_lt before),
      lt_of_le_of_ne lower fun start => ?_, upper⟩
    exact inner ⟨j, start⟩

theorem pushData_le (op : UInt8) : pushData op ≤ 32 := by
  unfold pushData
  split
  case isTrue push =>
    have lower : 96 ≤ op.toNat := UInt8.le_iff_toNat_le.mp push.1
    have upper : op.toNat ≤ 127 := UInt8.le_iff_toNat_le.mp push.2
    rw [UInt8.toNat_add, UInt8.toNat_sub_of_le _ _ push.1]
    simp only [push1, UInt8.reduceToNat]
    omega
  case isFalse => omega

theorem nextInstruction_of_lt (inside : pc < code.length) : nextInstruction code pc = pc + 1 + pushData code[pc] := by
  simp [nextInstruction, inside]

/-- One round of the scan. -/
theorem codeBitmapFrom_eq (inside : pc < code.length) : codeBitmapFrom code pc bits =
      (bits.markData (pc + 1) (pushData code[pc])).bind (codeBitmapFrom code (nextInstruction code pc)) := by
  rw [codeBitmapFrom, dif_pos inside, nextInstruction_of_lt inside, pushData]
  by_cases push : push1 ≤ code[pc] ∧ code[pc] ≤ push32
  · simp only [if_pos push]
    rfl
  · simp only [if_neg push]
    rfl

/-- The scan marks the data of the rest of the code, inside its buffer. -/
theorem codeBitmapFrom_spec (length : bits.length = code.length / 8 + 1 + 4)
    (marked : ∀ k, bits.bit k = true ↔ IsData code i k) :
    ∃ bits' i', codeBitmapFrom code (instructionAt code i) bits = some bits' ∧ bits'.length = code.length / 8 + 1 + 4 ∧
      code.length ≤ instructionAt code i' ∧ ∀ k, bits'.bit k = true ↔ IsData code i' k := by
  induction left : code.length - instructionAt code i using Nat.strongRecOn generalizing i bits with
  | ind left ih =>
    by_cases inside : instructionAt code i < code.length
    · have bound := pushData_le code[instructionAt code i]
      obtain ⟨next, ran, length', marks⟩ :=
        bits.markData_spec (pushData code[instructionAt code i]) (show (instructionAt code i + 1 + _) / 8 < _ by omega)
      have after : instructionAt code (i + 1) = instructionAt code i + 1 + pushData code[instructionAt code i] := by
        rw [instructionAt_succ, nextInstruction_of_lt inside]
      have marked' : ∀ k, next.bit k = true ↔ IsData code (i + 1) k := fun k => by
        rw [marks, Bool.or_eq_true, marked, decide_eq_true_iff, isData_succ, after, Nat.succ_le_iff]
      rw [codeBitmapFrom_eq inside, ran, ← instructionAt_succ]
      exact ih _ (by omega) (length'.trans length) marked' rfl
    · refine ⟨bits, i, ?_, length, not_lt.mp inside, marked⟩
      rw [codeBitmapFrom, dif_neg inside]

/-- The bit vector of a code marks what is not the start of an instruction. -/
theorem codeBitmap_spec (code : Bytes) :
    ∃ bits, codeBitmap code = some bits ∧ bits.length = code.length / 8 + 1 + 4 ∧
      ∀ k < code.length, bits.bit k = false ↔ ∃ i, instructionAt code i = k := by
  have blank : ∀ k, Bitvec.bit (replicate (code.length / 8 + 1 + 4) 0) k = true ↔ IsData code 0 k := fun k => by
    have zero : (replicate (code.length / 8 + 1 + 4) (0 : UInt8))[k / 8]?.getD 0 = 0 := by
      rw [getElem?_replicate]
      split <;> rfl
    simp [IsData, Bitvec.bit, zero]
  obtain ⟨bits, i, ran, length, done, marked⟩ := codeBitmapFrom_spec (length_replicate ..) blank
  refine ⟨bits, ran, length, fun k inside => ?_⟩
  rw [← Bool.not_eq_true, marked, isData_iff (inside.trans_le done), not_not]

end Decoding

namespace Destinations

/-- The vectors that are kept are those of the codes asked about. -/
def Kept (d : Destinations) (queries : List Query) : Prop :=
  ∀ q ∈ queries, ∀ m, d.lookup q.codehash = some m → codeBitmap q.code = some m

section Queries

variable {queries : List Query}
  (own : ∀ q ∈ queries, ∀ q' ∈ queries, q.codehash = q'.codehash → q.code = q'.code)

include own

theorem analyse_spec (kept : d.Kept queries) (asked : q ∈ queries) :
    ∃ m d', d.analyse q.codehash q.code = some (m, d') ∧ codeBitmap q.code = some m ∧ d'.Kept queries := by
  unfold analyse
  cases found : d.lookup q.codehash with
  | some m => exact ⟨m, d, rfl, kept q asked m found, kept⟩
  | none =>
    obtain ⟨m, computed, -⟩ := codeBitmap_spec q.code
    refine ⟨m, d.insert q.codehash m, by simp [computed], computed, fun q' asked' m' found' => ?_⟩
    by_cases same : q'.codehash = q.codehash
    · rw [same, AList.lookup_insert, some.injEq] at found'
      rw [own q' asked' q asked same, computed, found']
    · rw [AList.lookup_insert_ne same] at found'
      exact kept q' asked' m' found'

/-- One question is answered rightly, whatever was asked before. -/
theorem has_spec (kept : d.Kept queries) (asked : q ∈ queries) :
    ∃ answer d', d.has q.codehash q.code q.dest = some (answer, d') ∧
      (answer = true ↔ IsJumpDest q.code q.dest.toNat) ∧ d'.Kept queries := by
  have fits := q.fits
  have bits : 63 ≤ q.dest.toNat.size ↔ 2 ^ 62 ≤ q.dest.toNat := Nat.lt_size
  unfold has
  by_cases outside : 63 ≤ q.dest.toNat.size ∨ q.code.length ≤ q.dest.toNat % 2 ^ 64
  · have beyond : q.code.length ≤ q.dest.toNat := by
      rw [bits] at outside
      simp only [maxAlloc] at fits
      omega
    refine ⟨false, d, if_pos outside, ?_, kept⟩
    simp [IsJumpDest, getElem?_eq_none beyond]
  · obtain ⟨m, d', ran, computed, kept'⟩ := analyse_spec own kept asked
    obtain ⟨m', computed', length, marks⟩ := codeBitmap_spec q.code
    obtain rfl : m = m' := some.inj (computed.symm.trans computed')
    have small : q.dest.toNat % 2 ^ 64 = q.dest.toNat := by
      rw [bits] at outside
      omega
    rw [small] at outside
    simp only [small, if_neg outside, ran, bind_eq_bind, bind_some]
    by_cases holds : q.code[q.dest.toNat]? = some jumpDest
    · refine ⟨!m.bit q.dest.toNat, d', ?_, ?_, kept'⟩
      · rw [if_pos holds, Bitvec.codeSegment_eq (by omega)]
        rfl
      · rw [IsJumpDest, ← marks _ (by omega)]
        simp [holds]
    · refine ⟨false, d', by rw [if_neg holds]; rfl, ?_, kept'⟩
      simp [IsJumpDest, holds]

theorem hasAll_spec (kept : d.Kept queries) {asked : List Query} (among : asked ⊆ queries) :
    ∃ answers d', d.hasAll asked = some (answers, d') ∧
      Forall₂ (fun q answer => answer = true ↔ IsJumpDest q.code q.dest.toNat) asked answers := by
  induction asked generalizing d with
  | nil => exact ⟨[], d, rfl, .nil⟩
  | cons q asked ih =>
    obtain ⟨head, tail⟩ := cons_subset.mp among
    obtain ⟨answer, d', ran, right, kept'⟩ := has_spec own kept head
    obtain ⟨answers, d'', rest, each⟩ := ih kept' tail
    exact ⟨answer :: answers, d'', by simp [hasAll, ran, rest], .cons right each⟩

/-- Every sequence of questions, each with the hash of its own code, is answered without a run-time error, and an answer
is true exactly if the destination begins an instruction and holds `JUMPDEST`. The scan of a code stays in its buffer.
-/
theorem has_iff_isJumpDest :
    (∃ answers d, hasAll ∅ queries = some (answers, d) ∧
      List.Forall₂ (fun q answer => answer = true ↔ IsJumpDest q.code q.dest.toNat) queries answers) ∧
      ∀ code : Bytes, (codeBitmap code).isSome := by
  refine ⟨hasAll_spec own (fun q _ m found => ?_) (Subset.refl _), fun code => ?_⟩
  · simp at found
  · obtain ⟨bits, computed, -⟩ := codeBitmap_spec code
    simp [computed]

end Queries

/-- A destination in the data of a push, asked about twice, and the one behind it. -/
theorem has_pushed_jumpDest :
    ∃ queries answers d, queries.map (fun q => (q.code, q.dest)) =
        [([0x60, 0x5b, 0x5b], 1), ([0x60, 0x5b, 0x5b], 2), ([0x60, 0x5b, 0x5b], 1)] ∧
      hasAll ∅ queries = some (answers, d) ∧
      List.Forall₂ (fun q answer => answer = true ↔ IsJumpDest q.code q.dest.toNat) queries answers := by
  let ask (dest : BitVec 256) : Query := ⟨1, [0x60, 0x5b, 0x5b], dest, by decide⟩
  have own : ∀ q ∈ [ask 1, ask 2, ask 1], ∀ q' ∈ [ask 1, ask 2, ask 1], q.codehash = q'.codehash →
      q.code = q'.code := by
    simp [ask]
  obtain ⟨answers, d, ran, right⟩ := (has_iff_isJumpDest own).1
  exact ⟨[ask 1, ask 2, ask 1], answers, d, rfl, ran, right⟩

end Destinations

end KKChain.Vm
