import KKChain.ToMathlib.BigEndian

/-! # The RLP encode buffer

`encbuf` collects string data and list headers apart: a header is opened at an offset of the string
data, its size is filled in when the list ends, and only `toBytes` puts the headers back between the
strings. `Value` lists the kinds of Go value that `makeWriter` tells apart, so `encode` is the writer
it would pick. A Go slice holds at most `maxAlloc` bytes; an encoding that does not fit stops the
program, which is the result `none` of `encodeToBytes`.
-/

namespace KKChain

/-- Go byte slices. -/
abbrev Bytes := List UInt8

namespace Rlp

/-- The Go values `makeWriter` tells apart, but for those whose bytes it does not choose: a `RawValue` and a type with
an `EncodeRLP` of its own, and but for structs with a `tail` field. -/
inductive Value where
  /-- Unsigned integers of every width. -/
  | uint (i : UInt64)
  | bool (b : Bool)
  /-- A `*big.Int`, which may be nil. -/
  | bigInt (ptr : Option ℤ)
  /-- Byte slices, byte arrays and strings. -/
  | bytes (b : Bytes)
  /-- A nil pointer to a byte array. -/
  | nilBytes
  /-- A nil pointer to a struct or to an array of anything else. -/
  | nilList
  | nilInterface
  /-- The elements of a slice or array, or the public fields of a struct. -/
  | list (elems : List Value)

/-- What the writers can return besides nil. -/
inductive EncodeError where
  /-- `rlp: cannot encode negative *big.Int` -/
  | negativeBigInt
deriving DecidableEq, Repr

structure ListHead where
  offset : ℕ
  size : ℕ
deriving DecidableEq, Repr

structure EncBuf where
  str : Bytes := []
  lheads : List ListHead := []
  lhsize : ℕ := 0
deriving DecidableEq, Repr

/-- The bytes `putint` writes: big endian, in the least number of bytes, and one byte for zero. -/
def putint (i : ℕ) : Bytes :=
  if i < 1 <<< 8 then BigEndian.fixed 1 i
  else if i < 1 <<< 16 then BigEndian.fixed 2 i
  else if i < 1 <<< 24 then BigEndian.fixed 3 i
  else if i < 1 <<< 32 then BigEndian.fixed 4 i
  else if i < 1 <<< 40 then BigEndian.fixed 5 i
  else if i < 1 <<< 48 then BigEndian.fixed 6 i
  else if i < 1 <<< 56 then BigEndian.fixed 7 i
  else BigEndian.fixed 8 i

/-- The number of bytes `putint` writes. -/
def intsize (i : ℕ) : ℕ :=
  if i < 1 <<< 8 then 1
  else if i < 1 <<< 16 then 2
  else if i < 1 <<< 24 then 3
  else if i < 1 <<< 32 then 4
  else if i < 1 <<< 40 then 5
  else if i < 1 <<< 48 then 6
  else if i < 1 <<< 56 then 7
  else 8

def headsize (size : ℕ) : ℕ := if size < 56 then 1 else 1 + intsize size

def puthead (smalltag largetag : UInt8) (size : ℕ) : Bytes :=
  if size < 56 then [smalltag + UInt8.ofNat size]
  else (largetag + UInt8.ofNat (putint size).length) :: putint size

def ListHead.encode (head : ListHead) : Bytes := puthead 0xC0 0xF7 head.size

namespace EncBuf

def write (w : EncBuf) (b : Bytes) : EncBuf := { w with str := w.str ++ b }

def size (w : EncBuf) : ℕ := w.str.length + w.lhsize

def encodeStringHeader (w : EncBuf) (size : ℕ) : EncBuf := w.write (puthead 0x80 0xB7 size)

def encodeString (w : EncBuf) (b : Bytes) : EncBuf :=
  if b.length = 1 ∧ b.headD 0 ≤ 0x7F then w.write b
  else (w.encodeStringHeader b.length).write b

/-- Open a list. The header's `size` holds the header bytes before it until `listEnd`. -/
def list (w : EncBuf) : EncBuf :=
  { w with lheads := w.lheads ++ [⟨w.str.length, w.lhsize⟩] }

/-- Close the list whose header is number `lh`. -/
def listEnd (w : EncBuf) (lh : ℕ) : EncBuf :=
  match w.lheads[lh]? with
  | none => w
  | some head =>
    let size := w.size - head.offset - head.size
    { w with lheads := w.lheads.set lh { head with size := size }
             lhsize := w.lhsize + headsize size }

/-- The loop of `toBytes` and `toWriter` over the headers that are left. -/
def drain (str : Bytes) : ℕ → List ListHead → Bytes
  | strpos, [] => str.drop strpos
  | strpos, head :: heads =>
    (str.take head.offset).drop strpos ++ head.encode ++ drain str head.offset heads

def toBytes (w : EncBuf) : Bytes := drain w.str 0 w.lheads

def writeUint (w : EncBuf) (i : UInt64) : EncBuf :=
  if i = 0 then w.write [0x80]
  else if i < 128 then w.write [UInt8.ofNat i.toNat]
  else w.write ((0x80 + UInt8.ofNat (putint i.toNat).length) :: putint i.toNat)

def writeBigInt (w : EncBuf) (i : ℤ) : Except EncodeError EncBuf :=
  if i < 0 then .error .negativeBigInt
  else if i = 0 then .ok (w.write [0x80])
  else .ok (w.encodeString (BigEndian.minimal i.natAbs))

mutual

/-- The writer `makeWriter` picks for the value, run on the buffer. -/
def encode (w : EncBuf) : Value → Except EncodeError EncBuf
  | .uint i => .ok (w.writeUint i)
  | .bool b => .ok (w.write [if b then 0x01 else 0x80])
  | .bigInt none => .ok (w.write [0x80])
  | .bigInt (some i) => w.writeBigInt i
  | .bytes b => .ok (w.encodeString b)
  | .nilBytes => .ok (w.write [0x80])
  | .nilList => .ok (w.list.listEnd w.lheads.length)
  | .nilInterface => .ok (w.write [0xC0])
  | .list elems => (w.list.encodeAll elems).map (·.listEnd w.lheads.length)

/-- Elements of a list, in order and up to the first error. -/
def encodeAll (w : EncBuf) : List Value → Except EncodeError EncBuf
  | [] => .ok w
  | v :: vs =>
    match w.encode v with
    | .error e => .error e
    | .ok w => w.encodeAll vs

end

end EncBuf

/-- The largest slice the Go runtime allocates. -/
def maxAlloc : ℕ := 2 ^ 48

/-- `EncodeToBytes`; `none` is the run-time panic of a slice that is too large. -/
def encodeToBytes (v : Value) : Option (Except EncodeError Bytes) :=
  match ({} : EncBuf).encode v with
  | .error e => some (.error e)
  | .ok w => if w.size ≤ maxAlloc then some (.ok w.toBytes) else none

end Rlp

end KKChain
