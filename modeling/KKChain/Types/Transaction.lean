import KKChain.Common

/-! # Transactions and their signing hash

A transaction as it arrives from a peer: its big integers may be absent or negative. The hash that a
signature covers is the hash of the RLP encoding of the payload fields, and `rlpHash` drops the error
of an encoding that fails. `InitialSigner.hash_inj_iff` says exactly when the hash binds the payload.
-/

namespace KKChain

open Rlp Option BigEndian

/-- `txdata`, without the hash that is only set when writing JSON. -/
structure Transaction where
  nonce : UInt64
  gasPrice : Option ℤ
  gasLimit : UInt64
  /-- Absent for a contract creation. -/
  receiver : Option Address
  amount : Option ℤ
  payload : Option Bytes
  v : Option ℤ
  r : Option ℤ
  s : Option ℤ
deriving DecidableEq, Repr

/-- The `Value` of a `*common.Address`. -/
def receiverValue : Option Address → Value
  | none => .nilBytes
  | some a => .bytes a.bytes

namespace Transaction

/-- The struct `EncodeRLP` writes. -/
def value (tx : Transaction) : Value :=
  .list [.uint tx.nonce, .bigInt tx.gasPrice, .uint tx.gasLimit, receiverValue tx.receiver,
    .bigInt tx.amount, .bytes (tx.payload.getD []), .bigInt tx.v, .bigInt tx.r, .bigInt tx.s]

/-- `Hash` of a transaction whose hash is not cached yet. -/
def hash (C : Crypto) (tx : Transaction) : Option Hash := rlpHash C tx.value

/-- Equal payload fields; an absent integer counts as zero and an absent payload as empty. -/
structure SamePayload (tx tx' : Transaction) : Prop where
  nonce : tx.nonce = tx'.nonce
  gasPrice : tx.gasPrice.getD 0 = tx'.gasPrice.getD 0
  gasLimit : tx.gasLimit = tx'.gasLimit
  receiver : tx.receiver = tx'.receiver
  amount : tx.amount.getD 0 = tx'.amount.getD 0
  payload : tx.payload.getD [] = tx'.payload.getD []

end Transaction

/-- A big integer the encoder accepts. -/
def Encodable (i : Option ℤ) : Prop := 0 ≤ i.getD 0

instance (i : Option ℤ) : Decidable (Encodable i) := inferInstanceAs (Decidable (0 ≤ i.getD 0))

theorem bigInt_item (i : Option ℤ) :
    (Value.bigInt i).item =
      if Encodable i then .ok (.str (minimal (i.getD 0).natAbs)) else .error .negativeBigInt := by
  cases i with
  | none => rfl
  | some i =>
    simp only [Value.item, Encodable, getD_some, ← Int.not_lt]
    split_ifs <;> rfl

theorem bigInt_item_inj {i j : Option ℤ} (first : Encodable i) (second : Encodable j)
    (same : minimal (i.getD 0).natAbs = minimal (j.getD 0).natAbs) :
    i.getD 0 = j.getD 0 := by
  have := minimal_injective same
  unfold Encodable at first second
  omega

/-- The string a receiver stands for. -/
def receiverBytes (receiver : Option Address) : Bytes := (receiver.map Address.bytes).getD []

theorem receiverValue_item (receiver : Option Address) :
    (receiverValue receiver).item = .ok (.str (receiverBytes receiver)) := by
  cases receiver <;> rfl

theorem receiverBytes_injective : Function.Injective receiverBytes := by
  have nonempty : ∀ a : Address, a.bytes ≠ [] := fun a empty => by
    have := a.length_bytes
    simp [empty] at this
  rintro (- | a) (- | b) same
  · rfl
  · exact absurd same.symm (nonempty b)
  · exact absurd same (nonempty a)
  · exact congrArg some (Address.bytes_injective same)

/-- The signer of the chain; `chainIdMul` is twice the chain id. -/
structure InitialSigner where
  chainId : ℤ

namespace InitialSigner

/-- The fields a signature covers. -/
def signingValue (signer : InitialSigner) (tx : Transaction) : Value :=
  .list [.uint tx.nonce, .bigInt tx.gasPrice, .uint tx.gasLimit, receiverValue tx.receiver,
    .bigInt tx.amount, .bytes (tx.payload.getD []), .bigInt (some signer.chainId), .uint 0, .uint 0]

/-- `Hash`: the digest the sender signs. -/
def hash (C : Crypto) (signer : InitialSigner) (tx : Transaction) : Option Hash :=
  rlpHash C (signer.signingValue tx)

def Encodes (signer : InitialSigner) (tx : Transaction) : Prop :=
  Encodable tx.gasPrice ∧ Encodable tx.amount ∧ 0 ≤ signer.chainId

instance (signer : InitialSigner) (tx : Transaction) : Decidable (signer.Encodes tx) :=
  inferInstanceAs (Decidable (_ ∧ _ ∧ _))

def signingItem (signer : InitialSigner) (tx : Transaction) : Item :=
  .list [.str (BigEndian.minimal tx.nonce.toNat), .str (BigEndian.minimal (tx.gasPrice.getD 0).natAbs),
    .str (BigEndian.minimal tx.gasLimit.toNat), .str (receiverBytes tx.receiver),
    .str (BigEndian.minimal (tx.amount.getD 0).natAbs), .str (tx.payload.getD []),
    .str (BigEndian.minimal signer.chainId.natAbs), .str [], .str []]

theorem signingValue_item (signer : InitialSigner) (tx : Transaction) :
    (signer.signingValue tx).item =
      if signer.Encodes tx then .ok (signer.signingItem tx) else .error .negativeBigInt := by
  have chainId : Encodable (some signer.chainId) ↔ 0 ≤ signer.chainId := Iff.rfl
  simp only [signingValue, Value.item_list, Value.items_cons, Value.items_nil, Value.item_uint,
    Value.item_bytes, bigInt_item, receiverValue_item, Encodes, signingItem, ← chainId]
  by_cases price : Encodable tx.gasPrice <;> by_cases amount : Encodable tx.amount <;>
    by_cases chain : Encodable (some signer.chainId) <;> simp [price, amount, chain, Except.map]

variable {signer : InitialSigner} {C : Crypto}

/-- Transactions with one signing item have the same payload. -/
theorem signingItem_inj {tx tx' : Transaction} (first : signer.Encodes tx)
    (second : signer.Encodes tx') (same : signer.signingItem tx = signer.signingItem tx') : tx.SamePayload tx' := by
  simp only [signingItem, Item.list.injEq, List.cons.injEq, Item.str.injEq] at same
  obtain ⟨nonce, price, gasLimit, receiver, amount, payload, -⟩ := same
  exact ⟨UInt64.toNat_inj.mp (minimal_injective nonce), bigInt_item_inj first.1 second.1 price,
    UInt64.toNat_inj.mp (minimal_injective gasLimit), receiverBytes_injective receiver,
    bigInt_item_inj first.2.1 second.2.1 amount, payload⟩

/-- The inputs the hash of either transaction is taken of. -/
def inputs (signer : InitialSigner) (tx tx' : Transaction) : Set Bytes :=
  {input | encodeUnchecked (signer.signingValue tx) = some input ∨
    encodeUnchecked (signer.signingValue tx') = some input}

/-- Where the encoder accepts one of the two, a common hash means a common payload. -/
theorem samePayload_of_encodes {tx tx' : Transaction} {h : Hash} (inj : Set.InjOn C.keccak (signer.inputs tx tx'))
    (encodes : signer.Encodes tx ∨ signer.Encodes tx') (first : signer.hash C tx = some h)
    (second : signer.hash C tx' = some h) : tx.SamePayload tx' := by
  obtain ⟨input, hashed, digest⟩ := map_eq_some_iff.mp first
  obtain ⟨input', hashed', digest'⟩ := map_eq_some_iff.mp second
  obtain rfl := inj (.inl hashed) (.inr hashed') (digest.trans digest'.symm)
  rcases encodeUnchecked_inj hashed hashed' with ⟨item, shape, shape'⟩ | ⟨⟨e, failed⟩, ⟨e', failed'⟩⟩
  · rw [signingValue_item] at shape shape'
    split_ifs at shape shape' with valid valid'
    exact signingItem_inj valid valid' (Except.ok.inj (shape.trans shape'.symm))
  · rw [signingValue_item] at failed failed'
    split_ifs at failed failed' with valid valid'
    exact (encodes.elim valid valid').elim

/-- The signing hash binds the payload exactly where one of the transactions encodes: of two that do
not, both hash the empty input. -/
theorem hash_inj_iff (C : Crypto) (signer : InitialSigner) (tx tx' : Transaction)
    (collisionFree : Set.InjOn C.keccak (signer.inputs tx tx')) :
    (∀ h, signer.hash C tx = some h → signer.hash C tx' = some h → tx.SamePayload tx') ↔
      signer.Encodes tx ∨ signer.Encodes tx' ∨ tx.SamePayload tx' := by
  constructor
  · intro binds
    by_contra none
    push Not at none
    obtain ⟨first, second, different⟩ := none
    have empty : ∀ tx, ¬ signer.Encodes tx → signer.hash C tx = some (C.keccak []) := by
      intro tx rejected
      have failed := signingValue_item signer tx
      rw [if_neg rejected] at failed
      rw [hash, rlpHash, encodeUnchecked_of_error failed, map_some]
    exact different (binds _ (empty tx first) (empty tx' second))
  · rintro (encodes | encodes | same) h first second
    · exact samePayload_of_encodes collisionFree (.inl encodes) first second
    · exact samePayload_of_encodes collisionFree (.inr encodes) first second
    · exact same

/-- Keccak tells apart the inputs of two hashes that differ. -/
theorem injOn_inputs_of_hash_ne {tx tx' : Transaction}
    (different : signer.hash C tx ≠ signer.hash C tx') : Set.InjOn C.keccak (signer.inputs tx tx') := by
  rintro first (hashed | hashed) second (hashed' | hashed') same
  · exact some.inj (hashed.symm.trans hashed')
  · exact (different (by simp [hash, rlpHash, hashed, hashed', same])).elim
  · exact (different (by simp [hash, rlpHash, hashed, hashed', same])).elim
  · exact some.inj (hashed.symm.trans hashed')

/-- A transfer without a payload, to be signed. -/
def transfer (receiver : Address) (amount : ℤ) : Transaction where
  nonce := 0
  gasPrice := some 1
  gasLimit := 21000
  receiver := some receiver
  amount := some amount
  payload := none
  v := some 0
  r := some 0
  s := some 0

/-- Two transfers that differ in their amount are told apart. -/
theorem hash_inj_transfer : (InitialSigner.mk 1).Encodes (transfer 7 0) ∧
    ∀ h, (InitialSigner.mk 1).hash .numeral (transfer 7 0) = some h →
      (InitialSigner.mk 1).hash .numeral (transfer 7 1) = some h →
      (transfer 7 0).SamePayload (transfer 7 1) :=
  ⟨by decide, (hash_inj_iff .numeral ⟨1⟩ (transfer 7 0) (transfer 7 1) (injOn_inputs_of_hash_ne (by decide))).mpr
    (.inl (by decide))⟩

/-- Two transfers of a negative amount to different receivers share their hash. -/
theorem hash_collides_negative :
    ¬ ∀ (C : Crypto) (signer : InitialSigner) (tx tx' : Transaction),
      Set.InjOn C.keccak (signer.inputs tx tx') →
      ∀ h, signer.hash C tx = some h → signer.hash C tx' = some h → tx.SamePayload tx' := by
  intro binds
  have first : encodeUnchecked ((InitialSigner.mk 1).signingValue (transfer 7 (-1))) = some [] := by decide
  have second : encodeUnchecked ((InitialSigner.mk 1).signingValue (transfer 8 (-1))) = some [] := by decide
  have inputs : (InitialSigner.mk 1).inputs (transfer 7 (-1)) (transfer 8 (-1)) ⊆ {[]} := by
    rintro input (hashed | hashed)
    · exact some.inj (hashed.symm.trans first)
    · exact some.inj (hashed.symm.trans second)
  have same := binds .numeral ⟨1⟩ (transfer 7 (-1)) (transfer 8 (-1))
    ((Set.injOn_singleton _ _).mono inputs) 0 (by decide) (by decide)
  exact absurd same.receiver (by decide)

end InitialSigner

end KKChain
