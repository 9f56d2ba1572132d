import KKChain.Rlp.Raw
import Mathlib.Data.Set.Function

/-! # Hashes, addresses and the primitives of the chain

Hashes and addresses are fixed byte arrays, kept as bit vectors of their width. Keccak and the
recovery of public keys are parameters: the results say which inputs they need told apart.
-/

namespace KKChain

open BigEndian

/-- `common.Hash`, 32 bytes. -/
abbrev Hash := BitVec 256

instance hashLawfulBEq : LawfulBEq Hash := inferInstance

/-- `common.Address`, 20 bytes. -/
abbrev Address := BitVec 160

namespace Hash

def bytes (h : Hash) : Bytes := BigEndian.fixed 32 h.toNat

/-- `BytesToHash`: longer input is cropped from the left. -/
def ofBytes (b : Bytes) : Hash := BitVec.ofNat 256 (BigEndian.toNat b)

@[simp] theorem length_bytes (h : Hash) : h.bytes.length = 32 := length_fixed _ _

theorem bytes_injective : Function.Injective bytes := fun first second same =>
  BitVec.eq_of_toNat_eq (fixed_inj first.isLt second.isLt same)

/-- Nothing is cropped from 32 bytes. -/
theorem bytes_ofBytes {b : Bytes} (length : b.length = 32) : (ofBytes b).bytes = b := by
  have bound := toNat_lt b
  rw [length] at bound
  refine eq_of_toNat_eq (by rw [length_bytes, length]) ?_
  rw [bytes, toNat_fixed, ofBytes, BitVec.toNat_ofNat]
  omega

@[simp] theorem ofBytes_bytes (h : Hash) : ofBytes h.bytes = h := bytes_injective (bytes_ofBytes (length_bytes h))

end Hash

namespace Address

def bytes (a : Address) : Bytes := BigEndian.fixed 20 a.toNat

/-- `BytesToAddress`: longer input is cropped from the left. -/
def ofBytes (b : Bytes) : Address := BitVec.ofNat 160 (BigEndian.toNat b)

@[simp] theorem length_bytes (a : Address) : a.bytes.length = 20 := length_fixed _ _

theorem bytes_injective : Function.Injective bytes := fun first second same =>
  BitVec.eq_of_toNat_eq (fixed_inj first.isLt second.isLt same)

end Address

/-- The known root hash of an empty trie. -/
def emptyRoot : Hash := 0x56e81f171bcc55a6ff8345e692c0f86e5b48e01b996cadc001622fb5e363b421

/-- The cryptographic primitives. -/
structure Crypto where
  /-- `Keccak256` of the concatenated input. -/
  keccak : Bytes → Hash
  /-- `Ecrecover`: the public key of a signature on a digest, unless recovery fails. -/
  ecrecover : Hash → Bytes → Option Bytes
  /-- The literal `emptyRoot` is the hash of the encoding of an empty string. -/
  keccak_emptyString : keccak [0x80] = emptyRoot

/-- A stand-in to evaluate the model with: the digest is the input read as a number. -/
def Crypto.numeral : Crypto where
  keccak b := if b = [0x80] then emptyRoot else BitVec.ofNat 256 (BigEndian.toNat b)
  ecrecover _ _ := none
  keccak_emptyString := rfl

namespace Rlp

/-- The encoding where its error is discarded: an encoder that fails has written nothing. -/
def encodeUnchecked (v : Value) : Option Bytes :=
  (encodeToBytes v).map fun
    | .ok enc => enc
    | .error _ => []

def rlpHash (C : Crypto) (v : Value) : Option Hash := (encodeUnchecked v).map C.keccak

/-- What is hashed is the encoding of an item, or nothing at all. -/
theorem encodeUnchecked_eq_some {v : Value} {input : Bytes} (hashed : encodeUnchecked v = some input) :
    (∃ item, v.item = .ok item ∧ input = item.encode ∧ input.length < 2 ^ 64) ∨
      (∃ e, v.item = .error e) ∧ input = [] := by
  rw [encodeUnchecked, encodeToBytes_eq] at hashed
  cases shape : v.item with
  | error e =>
    simp only [shape, Option.map_some, Option.some.injEq] at hashed
    exact .inr ⟨⟨e, rfl⟩, hashed.symm⟩
  | ok item =>
    simp only [shape] at hashed
    split_ifs at hashed with fits
    · simp only [Option.map_some, Option.some.injEq] at hashed
      subst hashed
      exact .inl ⟨item, rfl, rfl, fits.trans_lt (by decide)⟩
    · simp at hashed

theorem encodeUnchecked_of_error {v : Value} {e : EncodeError} (failed : v.item = .error e) :
    encodeUnchecked v = some [] := by
  simp [encodeUnchecked, encodeToBytes_eq, failed]

/-- Equal hash inputs come from equal items, or from two values that both fail to encode. -/
theorem encodeUnchecked_inj {v v' : Value} {input : Bytes} (first : encodeUnchecked v = some input)
    (second : encodeUnchecked v' = some input) :
    (∃ item, v.item = .ok item ∧ v'.item = .ok item) ∨
      (∃ e, v.item = .error e) ∧ ∃ e, v'.item = .error e := by
  rcases encodeUnchecked_eq_some first with ⟨item, shape, enc, bound⟩ | ⟨failed, empty⟩ <;>
    rcases encodeUnchecked_eq_some second with ⟨item', shape', enc', bound'⟩ | ⟨failed', empty'⟩
  · subst enc
    exact .inl ⟨item, shape, by rw [shape', Item.encode_inj bound (enc' ▸ bound') enc']⟩
  · exact absurd (enc.symm.trans empty') (Item.encode_ne_nil item)
  · exact absurd (enc'.symm.trans empty) (Item.encode_ne_nil item')
  · exact .inr ⟨failed, failed'⟩

end Rlp

end KKChain
