import KKChain.Machine.Proc
import Mathlib.Algebra.Group.Nat.Defs
import Mathlib.Data.List.Basic

/-! # The protobuf wire format

What the generated decoders do: a message is a sequence of tagged fields, each a varint, a fixed word, a string of bytes
or a group, and fields that a message does not have are skipped. Lengths are signed 64-bit integers whose sums with the
position are not checked for overflow; a slice with a bound that has become negative panics.
-/

namespace Wire

/-- The errors of a decoder. -/
inductive WireError where
  | intOverflow
  | unexpectedEOF
  | invalidLength
  | endGroup
  | illegalTag
  | wrongWireType
  | illegalWireType
deriving DecidableEq, Repr

abbrev Result (α : Type) := Except (Fault WireError) α

variable (data : List UInt8)

/-- The loop that reads a varint: seven bits a byte, least significant first, in at most ten bytes. -/
def readVarint : ℕ → ℕ → ℕ → ℕ → Result (ℕ × ℕ)
  | 0, _, _, _ => .error (.error .intOverflow)
  | fuel + 1, shift, value, pos =>
    match data[pos]? with
    | none => .error (.error .unexpectedEOF)
    | some b =>
      let value := value ||| (b.toNat % 128) <<< shift % 2 ^ 64
      if b < 0x80 then .ok (value, pos + 1) else readVarint fuel (shift + 7) value (pos + 1)

/-- A varint, and the position behind it. -/
def varint (pos : ℕ) : Result (ℕ × ℕ) := readVarint data 10 0 0 pos

/-- A length and as many bytes, and the position behind them. -/
def lengthDelimited (pos : ℕ) : Result (List UInt8 × ℕ) := do
  let (length, pos) ← varint data pos
  if 2 ^ 63 ≤ length then .error (.error .invalidLength)
  else if 2 ^ 63 ≤ pos + length then .error .panic
  else if data.length < pos + length then .error (.error .unexpectedEOF)
  else .ok ((data.drop pos).take length, pos + length)

mutual

/-- `skip` of one field: the position behind it. A position from 2 ^ 63 on stands for the negative one it wraps to. -/
def skip : ℕ → ℕ → Result ℕ
  | 0, _ => .error .diverges
  | fuel + 1, pos => do
    let (wire, pos) ← varint data pos
    match wire % 8 with
    | 0 => (varint data pos).map Prod.snd
    | 1 => .ok (pos + 8)
    | 2 =>
      let (length, pos) ← varint data pos
      if 2 ^ 63 ≤ length then .error (.error .invalidLength) else .ok (pos + length)
    | 3 => skipGroup fuel pos
    | 4 => .ok pos
    | 5 => .ok (pos + 4)
    | _ => .error (.error .illegalWireType)

/-- The fields of a group up to its end. -/
def skipGroup : ℕ → ℕ → Result ℕ
  | 0, _ => .error .diverges
  | fuel + 1, start =>
    if 2 ^ 63 ≤ start then .error .panic
    else do
      let (wire, pos) ← varint data start
      if wire % 8 = 4 then .ok pos else skipGroup fuel (← skip fuel start)

end

/-- How the value of a field is read. -/
inductive Kind where
  | varint
  | bytes
deriving DecidableEq

/-- The fields of a message: their kinds, and what a value does to the message read so far. -/
structure Schema (σ : Type) where
  kind : ℕ → Option Kind
  setVarint : ℕ → ℕ → σ → σ
  setBytes : ℕ → List UInt8 → σ → Result σ

variable {σ : Type} (schema : Schema σ)

def value (message : σ) (start fieldNum wireType pos : ℕ) : Result (σ × ℕ) :=
  match schema.kind fieldNum with
  | some .varint =>
    if wireType ≠ 0 then .error (.error .wrongWireType)
    else do
      let (n, pos) ← varint data pos
      .ok (schema.setVarint fieldNum n message, pos)
  | some .bytes =>
    if wireType ≠ 2 then .error (.error .wrongWireType)
    else do
      let (b, pos) ← lengthDelimited data pos
      let message ← schema.setBytes fieldNum b message
      .ok (message, pos)
  | none => do
    let pos ← skip data (data.length + 1) start
    if 2 ^ 63 ≤ pos - start then .error (.error .invalidLength)
    else if 2 ^ 63 ≤ pos then .error .panic
    else if data.length < pos then .error (.error .unexpectedEOF)
    else .ok (message, pos)

def field (message : σ) (start : ℕ) : Result (σ × ℕ) := do
  let (wire, pos) ← varint data start
  let fieldNum := wire / 8 % 2 ^ 32
  if wire % 8 = 4 then .error (.error .endGroup)
  else if fieldNum = 0 ∨ 2 ^ 31 ≤ fieldNum then .error (.error .illegalTag)
  else value data schema message start fieldNum (wire % 8) pos

/-- `Unmarshal`: all fields. -/
def fields : ℕ → σ → ℕ → Result σ
  | 0, _, _ => .error .diverges
  | fuel + 1, message, pos =>
    if data.length ≤ pos then .ok message
    else do
      let (message, pos) ← field data schema message pos
      fields fuel message pos

def unmarshal (message : σ) : Result σ := fields data schema (data.length + 1) message 0

section Fields

variable {data : List UInt8} {schema : Schema σ} {message message' : σ} {start pos : ℕ}

theorem lengthDelimited_le {b : List UInt8} (ran : lengthDelimited data start = .ok (b, pos)) :
    b.length ≤ data.length := by
  obtain ⟨⟨length, behind⟩, -, ran⟩ := Proc.except_bind_eq_ok.mp ran
  dsimp only at ran
  split_ifs at ran
  cases ran
  rw [List.length_take, List.length_drop]
  omega

/-- What every value that a field may have keeps, reading the field keeps. -/
theorem field_keeps {P : σ → Prop} (ran : field data schema message start = .ok (message', pos))
    (varint : ∀ f n {m}, P m → P (schema.setVarint f n m))
    (bytes : ∀ f {b m m'}, b.length ≤ data.length → schema.setBytes f b m = .ok m' → P m → P m') (held : P message) :
    P message' := by
  obtain ⟨⟨wire, behind⟩, -, ran⟩ := Proc.except_bind_eq_ok.mp ran
  dsimp only at ran
  split_ifs at ran
  unfold value at ran
  split at ran
  · split_ifs at ran
    obtain ⟨⟨n, behind⟩, -, ran⟩ := Proc.except_bind_eq_ok.mp ran
    cases ran
    exact varint _ _ held
  · split_ifs at ran
    obtain ⟨⟨b, behind⟩, read, ran⟩ := Proc.except_bind_eq_ok.mp ran
    obtain ⟨message₁, set, ran⟩ := Proc.except_bind_eq_ok.mp ran
    cases ran
    exact bytes _ (lengthDelimited_le read) set held
  · obtain ⟨behind, -, ran⟩ := Proc.except_bind_eq_ok.mp ran
    split_ifs at ran
    cases ran
    exact held

theorem unmarshal_keeps {P : σ → Prop} (ran : unmarshal data schema message = .ok message')
    (varint : ∀ f n {m}, P m → P (schema.setVarint f n m))
    (bytes : ∀ f {b m m'}, b.length ≤ data.length → schema.setBytes f b m = .ok m' → P m → P m') (held : P message) :
    P message' := by
  unfold unmarshal at ran
  generalize data.length + 1 = fuel at ran
  generalize 0 = start at ran
  induction fuel generalizing message start with
  | zero => cases ran
  | succ fuel ih =>
    rw [fields] at ran
    split_ifs at ran
    · cases ran
      exact held
    · obtain ⟨⟨message₁, behind⟩, read, ran⟩ := Proc.except_bind_eq_ok.mp ran
      exact ih (field_keeps read varint bytes held) _ ran

end Fields

end Wire
