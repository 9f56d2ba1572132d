import KKChain.Common

/-! # Keys of the chain database

A key starts with a short name of what is stored under it. Numbers and hashes follow in a fixed width. Trie nodes and
contract codes have no name, they are stored under their hash. Two kinds of keys differ in their length or in their
first byte.
-/

namespace KKChain.Rawdb

open BigEndian

/-- `[]byte` of a literal. -/
def literal (s : String) : Bytes := s.toList.map fun c => UInt8.ofNat c.toNat

def databaseVersionKey : Bytes := literal "DatabaseVersion"

def headHeaderKey : Bytes := literal "LastHeader"

def headBlockKey : Bytes := literal "LastBlock"

def encodeBlockNumber (number : UInt64) : Bytes := BigEndian.fixed 8 number.toNat

def headerKey (number : UInt64) (hash : Hash) : Bytes := literal "h" ++ (encodeBlockNumber number ++ hash.bytes)

def headerTDKey (number : UInt64) (hash : Hash) : Bytes := headerKey number hash ++ literal "t"

def headerHashKey (number : UInt64) : Bytes := literal "h" ++ (encodeBlockNumber number ++ literal "n")

def headerNumberKey (hash : Hash) : Bytes := literal "H" ++ hash.bytes

def blockBodyKey (number : UInt64) (hash : Hash) : Bytes := literal "b" ++ (encodeBlockNumber number ++ hash.bytes)

def blockReceiptsKey (number : UInt64) (hash : Hash) : Bytes := literal "r" ++ (encodeBlockNumber number ++ hash.bytes)

def txLookupKey (hash : Hash) : Bytes := literal "l" ++ hash.bytes

/-- `bloomBitsKey`, with the bit and the section written over the ten zeros behind the name. -/
def bloomBitsKey (bit : UInt16) (part : UInt64) (hash : Hash) : Bytes :=
  literal "B" ++ (BigEndian.fixed 2 bit.toNat ++ (encodeBlockNumber part ++ hash.bytes))

def preimageKey (hash : Hash) : Bytes := literal "secure-key-" ++ hash.bytes

def configKey (hash : Hash) : Bytes := literal "kkchain-config-" ++ hash.bytes

inductive Entry where
  | header (number : UInt64) (hash : Hash)
  | body (number : UInt64) (hash : Hash)
  | receipts (number : UInt64) (hash : Hash)
  | td (number : UInt64) (hash : Hash)
  | canonicalHash (number : UInt64)
  | headerNumber (hash : Hash)
  | txLookup (hash : Hash)
  | bloomBits (bit : UInt16) (part : UInt64) (hash : Hash)
  | preimage (hash : Hash)
  | config (hash : Hash)
  | databaseVersion
  | headHeader
  | headBlock
  | blob (hash : Hash)

namespace Entry

def key : Entry → Bytes
  | header number hash => headerKey number hash
  | body number hash => blockBodyKey number hash
  | receipts number hash => blockReceiptsKey number hash
  | td number hash => headerTDKey number hash
  | canonicalHash number => headerHashKey number
  | headerNumber hash => headerNumberKey hash
  | txLookup hash => txLookupKey hash
  | bloomBits bit part hash => bloomBitsKey bit part hash
  | preimage hash => preimageKey hash
  | config hash => configKey hash
  | databaseVersion => databaseVersionKey
  | headHeader => headHeaderKey
  | headBlock => headBlockKey
  | blob hash => hash.bytes

/-- The length of the key, and its first byte where that does not depend on the hash. -/
def mark : Entry → ℕ × Option UInt8
  | header _ _ => (41, some 104)
  | body _ _ => (41, some 98)
  | receipts _ _ => (41, some 114)
  | td _ _ => (42, some 104)
  | canonicalHash _ => (10, some 104)
  | headerNumber _ => (33, some 72)
  | txLookup _ => (33, some 108)
  | bloomBits _ _ _ => (43, some 66)
  | preimage _ => (43, some 115)
  | config _ => (47, some 107)
  | databaseVersion => (15, some 68)
  | headHeader => (10, some 76)
  | headBlock => (9, some 76)
  | blob _ => (32, none)

end Entry

section Fields

variable {α : Type} {f : α → Bytes} {width : ℕ} {a b : α} {s t : Bytes}

/-- A field of fixed width is told from what is behind it. -/
theorem field_append_inj (length : ∀ a, (f a).length = width) (inj : Function.Injective f) :
    f a ++ s = f b ++ t ↔ a = b ∧ s = t := by
  refine ⟨fun same => ?_, fun ⟨first, rest⟩ => by rw [first, rest]⟩
  obtain ⟨first, rest⟩ := List.append_inj same (by rw [length, length])
  exact ⟨inj first, rest⟩

@[simp] theorem hash_inj {h h' : Hash} : h.bytes = h'.bytes ↔ h = h' := Hash.bytes_injective.eq_iff

theorem encodeBlockNumber_injective : Function.Injective encodeBlockNumber := fun n n' same =>
  UInt64.toNat_inj.mp (fixed_inj n.toNat_lt n'.toNat_lt same)

@[simp] theorem number_inj {n n' : UInt64} : encodeBlockNumber n = encodeBlockNumber n' ↔ n = n' :=
  encodeBlockNumber_injective.eq_iff

@[simp] theorem number_append_inj {n n' : UInt64} :
    encodeBlockNumber n ++ s = encodeBlockNumber n' ++ t ↔ n = n' ∧ s = t :=
  field_append_inj (fun _ => length_fixed ..) encodeBlockNumber_injective

@[simp] theorem bit_append_inj {n n' : UInt16} :
    fixed 2 n.toNat ++ s = fixed 2 n'.toNat ++ t ↔ n = n' ∧ s = t :=
  field_append_inj (f := fun n : UInt16 => fixed 2 n.toNat) (fun _ => length_fixed ..) fun n n' same =>
    UInt16.toNat_inj.mp (fixed_inj n.toNat_lt n'.toNat_lt same)

end Fields

namespace Entry

/-- A key shows the mark of its kind. -/
theorem mark_key (e : Entry) : e.key.length = e.mark.1 ∧ ∀ first ∈ e.mark.2, e.key.head? = some first := by
  cases e with
  | blob hash => exact ⟨hash.length_bytes, nofun⟩
  | _ =>
    refine ⟨?_, ?_⟩
    · simp [key, mark, headerKey, blockBodyKey, blockReceiptsKey, headerTDKey, headerHashKey, headerNumberKey,
        txLookupKey, bloomBitsKey, preimageKey, configKey, databaseVersionKey, headHeaderKey, headBlockKey,
          encodeBlockNumber, literal]
    · rintro _ ⟨⟩
      rfl

/-- The keys of different entries are different. -/
theorem database_keys_injective : Function.Injective key := by
  intro a b same
  obtain ⟨length, first⟩ := mark_key a
  obtain ⟨length', first'⟩ := mark_key b
  have alike : a.mark.1 = b.mark.1 ∧ ∀ x ∈ a.mark.2, ∀ y ∈ b.mark.2, x = y := by
    refine ⟨by rw [← length, same, length'], fun x here y there => ?_⟩
    exact Option.some.inj ((first x here).symm.trans ((congrArg List.head? same).trans (first' y there)))
  clear length first length' first'
  -- two kinds differ in their marks, and within a kind the fields are compared one by one
  cases a <;> cases b <;> simp [mark] at alike
  case databaseVersion.databaseVersion | headHeader.headHeader | headBlock.headBlock => rfl
  all_goals
    simpa [key, headerKey, blockBodyKey, blockReceiptsKey, headerTDKey, headerHashKey, headerNumberKey, txLookupKey,
      bloomBitsKey, preimageKey, configKey] using same

end Entry

end KKChain.Rawdb
