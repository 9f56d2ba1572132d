import KKChain.Types.DeriveSha

/-! # Headers, blocks and what a header says about its body

A block keeps its hash once it was computed, whatever happens to its header afterwards. The
transaction root of a header is compared with `DeriveSha` of the transactions by `ValidateBody`.
Two lists with one root agree wherever a transaction encodes; `txRoot_binds_iff` states exactly when
the root tells two lists apart.
-/

variable {i : ℕ}

namespace KKChain

open Rlp Option

/-- `Bloom`, 256 bytes. -/
abbrev Bloom := BitVec 2048

def Bloom.bytes (bloom : Bloom) : Bytes := BigEndian.fixed 256 bloom.toNat

structure Header where
  parentHash : Hash
  miner : Address
  stateRoot : Hash
  txRoot : Hash
  receiptRoot : Hash
  bloom : Bloom
  difficulty : ℤ
  number : ℤ
  gasLimit : UInt64
  gasUsed : UInt64
  time : ℤ
  extra : Bytes
  mixDigest : Hash
  nonce : BitVec 64
deriving DecidableEq, Repr, Inhabited

namespace Header

/-- The struct that is encoded. -/
def value (h : Header) : Value :=
  .list [.bytes h.parentHash.bytes, .bytes h.miner.bytes, .bytes h.stateRoot.bytes, .bytes h.txRoot.bytes,
    .bytes h.receiptRoot.bytes, .bytes h.bloom.bytes, .bigInt (some h.difficulty), .bigInt (some h.number),
    .uint h.gasLimit, .uint h.gasUsed, .bigInt (some h.time), .bytes h.extra, .bytes h.mixDigest.bytes,
    .bytes (BigEndian.fixed 8 h.nonce.toNat)]

def hash (C : Crypto) (h : Header) : Option Hash := rlpHash C h.value

/-- `Number.Uint64()`: the low 64 bits of the absolute value. -/
def numberU64 (h : Header) : ℕ := h.number.natAbs % 2 ^ 64

end Header

namespace Transaction

/-- Equal fields, signature included; an absent integer counts as zero and an absent payload as empty. -/
structure SameFields (tx tx' : Transaction) : Prop extends SamePayload tx tx' where
  v : tx.v.getD 0 = tx'.v.getD 0
  r : tx.r.getD 0 = tx'.r.getD 0
  s : tx.s.getD 0 = tx'.s.getD 0

/-- The encoder accepts the transaction. -/
def Encodes (tx : Transaction) : Prop :=
  Encodable tx.gasPrice ∧ Encodable tx.amount ∧ Encodable tx.v ∧ Encodable tx.r ∧ Encodable tx.s

instance (tx : Transaction) : Decidable tx.Encodes := inferInstanceAs (Decidable (_ ∧ _ ∧ _ ∧ _ ∧ _))

def item (tx : Transaction) : Item :=
  .list [.str (BigEndian.minimal tx.nonce.toNat), .str (BigEndian.minimal (tx.gasPrice.getD 0).natAbs),
    .str (BigEndian.minimal tx.gasLimit.toNat), .str (receiverBytes tx.receiver),
    .str (BigEndian.minimal (tx.amount.getD 0).natAbs), .str (tx.payload.getD []),
    .str (BigEndian.minimal (tx.v.getD 0).natAbs), .str (BigEndian.minimal (tx.r.getD 0).natAbs),
    .str (BigEndian.minimal (tx.s.getD 0).natAbs)]

theorem value_item (tx : Transaction) :
    tx.value.item = if tx.Encodes then .ok tx.item else .error .negativeBigInt := by
  simp only [value, Value.item_list, Value.items_cons, Value.items_nil, Value.item_uint, Value.item_bytes,
    bigInt_item, receiverValue_item, Encodes, item]
  by_cases price : Encodable tx.gasPrice <;> by_cases amount : Encodable tx.amount <;>
    by_cases v : Encodable tx.v <;> by_cases r : Encodable tx.r <;> by_cases s : Encodable tx.s <;>
    simp [price, amount, v, r, s, Except.map]

theorem item_eq_iff {tx tx' : Transaction} (first : tx.Encodes) (second : tx'.Encodes) :
    tx.item = tx'.item ↔ tx.SameFields tx' := by
  constructor
  · intro same
    simp only [item, Item.list.injEq, List.cons.injEq, Item.str.injEq] at same
    obtain ⟨nonce, price, gasLimit, receiver, amount, payload, v, r, s, -⟩ := same
    obtain ⟨price₁, amount₁, v₁, r₁, s₁⟩ := first
    obtain ⟨price₂, amount₂, v₂, r₂, s₂⟩ := second
    exact ⟨⟨UInt64.toNat_inj.mp (BigEndian.minimal_injective nonce), bigInt_item_inj price₁ price₂ price,
      UInt64.toNat_inj.mp (BigEndian.minimal_injective gasLimit), receiverBytes_injective receiver,
      bigInt_item_inj amount₁ amount₂ amount, payload⟩, bigInt_item_inj v₁ v₂ v, bigInt_item_inj r₁ r₂ r,
      bigInt_item_inj s₁ s₂ s⟩
  · rintro ⟨⟨nonce, price, gasLimit, receiver, amount, payload⟩, v, r, s⟩
    simp only [item, nonce, price, gasLimit, receiver, amount, payload, v, r, s]

end Transaction

/-- The transaction at an index, if there is one and it encodes. -/
def visible (txs : List Transaction) (i : ℕ) : Option Transaction :=
  txs[i]?.filter fun tx => decide tx.Encodes

/-- What `DeriveSha` shows at an index is the visible transaction. -/
theorem shown_eq {txs : List Transaction} (encoded : ∀ tx ∈ txs, ∃ enc, encodeUnchecked tx.value = some enc) :
    shown (txs.map Transaction.value) i = (visible txs i).map fun tx => tx.item.encode := by
  simp only [shown, visible, List.getElem?_map]
  cases element : txs[i]? with
  | none => rfl
  | some tx =>
    obtain ⟨enc, ran⟩ := encoded tx (List.mem_of_getElem? element)
    simp only [map_some, bind_some, ran]
    have shape := tx.value_item
    by_cases encodes : tx.Encodes
    · rw [if_pos encodes] at shape
      rcases encodeUnchecked_eq_some ran with ⟨item, ok, rfl, -⟩ | ⟨⟨e, failed⟩, -⟩
      · cases ok.symm.trans shape
        simp [entry, Item.encode_ne_nil, Option.filter, encodes]
      · simp [failed] at shape
    · rw [if_neg encodes] at shape
      rw [encodeUnchecked_of_error shape] at ran
      cases ran
      simp [entry, Option.filter, encodes]

/-- Where `DeriveSha` returns, every element was encoded or found not to encode. -/
theorem encoded_of_deriveTrie {vs : List Value} {t t' : Trie Bytes}
    (ran : deriveTrie i vs t = some t') : ∀ v ∈ vs, ∃ enc, encodeUnchecked v = some enc := by
  induction vs generalizing i t with
  | nil => simp
  | cons v vs ih =>
    obtain ⟨key, -, ran⟩ := bind_eq_some_iff.mp ran
    obtain ⟨enc, encoded, ran⟩ := bind_eq_some_iff.mp ran
    intro w mem
    rcases List.mem_cons.mp mem with rfl | mem
    · exact ⟨enc, encoded⟩
    · exact ih ran w mem

theorem encoded_of_deriveSha {C : Crypto} {txs : List Transaction} {root : Hash}
    (ran : deriveSha C (txs.map Transaction.value) = some root) :
    ∀ tx ∈ txs, ∃ enc, encodeUnchecked tx.value = some enc ∧ enc.length ≤ maxAlloc := by
  unfold deriveSha at ran
  split_ifs at ran
  obtain ⟨t, ran, -⟩ := map_eq_some_iff.mp ran
  intro tx mem
  obtain ⟨enc, encoded⟩ := encoded_of_deriveTrie ran tx.value (List.mem_map_of_mem mem)
  exact ⟨enc, encoded, length_encodeUnchecked encoded⟩

theorem visible_eq_some {txs : List Transaction} {tx : Transaction} (held : visible txs i = some tx) :
    tx ∈ txs ∧ tx.Encodes := by
  obtain ⟨element, encodes⟩ := filter_eq_some_iff.mp held
  exact ⟨List.mem_of_getElem? element, of_decide_eq_true encodes⟩

/-- Lists show the same at an index exactly if their visible transactions have the same fields. -/
theorem shown_eq_iff {txs txs' : List Transaction}
    (encoded : ∀ tx ∈ txs, ∃ enc, encodeUnchecked tx.value = some enc ∧ enc.length ≤ maxAlloc)
    (encoded' : ∀ tx ∈ txs', ∃ enc, encodeUnchecked tx.value = some enc ∧ enc.length ≤ maxAlloc) (i : ℕ) :
    shown (txs.map Transaction.value) i = shown (txs'.map Transaction.value) i ↔
      Rel Transaction.SameFields (visible txs i) (visible txs' i) := by
  have bound : ∀ {txs : List Transaction} {tx : Transaction},
      (∀ tx ∈ txs, ∃ enc, encodeUnchecked tx.value = some enc ∧ enc.length ≤ maxAlloc) →
      visible txs i = some tx → tx.item.encode.length < 2 ^ 64 := by
    intro txs tx encoded held
    obtain ⟨mem, encodes⟩ := visible_eq_some held
    obtain ⟨enc, ran, -⟩ := encoded tx mem
    have shape := tx.value_item
    rw [if_pos encodes] at shape
    rcases encodeUnchecked_eq_some ran with ⟨item, ok, rfl, length⟩ | ⟨⟨e, failed⟩, -⟩
    · rwa [← Except.ok.inj (ok.symm.trans shape)]
    · simp [failed] at shape
  rw [shown_eq fun tx mem => (encoded tx mem).imp fun _ => And.left,
    shown_eq fun tx mem => (encoded' tx mem).imp fun _ => And.left]
  cases first : visible txs i with
  | none => cases second : visible txs' i <;> simp [rel_none_none]
  | some tx =>
    cases second : visible txs' i with
    | none => simp
    | some tx' =>
      obtain ⟨-, encodes⟩ := visible_eq_some first
      obtain ⟨-, encodes'⟩ := visible_eq_some second
      simp only [map_some, some.injEq, rel_some_some,
        ← Transaction.item_eq_iff encodes encodes']
      exact ⟨fun same => Item.encode_inj (bound encoded first) (bound encoded' second) same, fun same => by rw [same]⟩

/-- The check of `ValidateBody` on the transactions of a block with this header. -/
def Header.CommitsTo (C : Crypto) (h : Header) (txs : List Transaction) : Prop :=
  deriveSha C (txs.map Transaction.value) = some h.txRoot

/-- The header tells two lists apart exactly where one of them has a transaction that encodes and the
other has none such, or a different one. -/
theorem txRoot_binds_iff (C : Crypto) (txs txs' : List Transaction) {root root' : Hash}
    (rooted : deriveSha C (txs.map Transaction.value) = some root)
    (rooted' : deriveSha C (txs'.map Transaction.value) = some root')
    (collisionFree : Set.InjOn C.keccak
      (rootInputs C (txs.map Transaction.value) (txs'.map Transaction.value))) :
    (∀ h : Header, h.CommitsTo C txs → h.CommitsTo C txs' → List.Forall₂ Transaction.SameFields txs txs') ↔
      List.Forall₂ Transaction.SameFields txs txs' ∨
        ∃ i, ¬ Option.Rel Transaction.SameFields (visible txs i) (visible txs' i) := by
  have same_iff := deriveSha_eq_iff collisionFree rooted rooted'
  have shows := shown_eq_iff (encoded_of_deriveSha rooted) (encoded_of_deriveSha rooted')
  constructor
  · intro binds
    by_contra none
    push Not at none
    obtain ⟨different, hidden⟩ := none
    have same : root = root' := same_iff.mpr fun i => (shows i).mpr (hidden i)
    have header : ∃ h : Header, h.txRoot = root := ⟨{ (default : Header) with txRoot := root }, rfl⟩
    obtain ⟨h, rfl⟩ := header
    exact different (binds h rooted (by rw [Header.CommitsTo, same]; exact rooted'))
  · rintro (same | ⟨i, apart⟩) h first second
    · exact same
    · have roots : root = root' := by
        rw [Header.CommitsTo, rooted] at first
        rw [Header.CommitsTo, rooted'] at second
        exact (some.inj first).trans (some.inj second).symm
      exact (apart ((shows i).mp (same_iff.mp roots i))).elim

/-- A list with one transfer is told apart from the empty list. -/
theorem txRoot_binds_transfer :
    ¬ Option.Rel Transaction.SameFields (visible [] 0) (visible [InitialSigner.transfer 7 1] 0) ∧
    ∀ h : Header, h.CommitsTo .numeral [] → h.CommitsTo .numeral [InitialSigner.transfer 7 1] →
      List.Forall₂ Transaction.SameFields [] [InitialSigner.transfer 7 1] := by
  refine and_iff_left_of_imp (fun apart => (txRoot_binds_iff .numeral [] [InitialSigner.transfer 7 1] rfl rfl ?_).mpr
    (.inr ⟨0, apart⟩)) |>.mpr ?_
  · have inputs : rootInputs .numeral [] [(InitialSigner.transfer 7 1).value] ⊆
        {[0x80], (((deriveTrie 0 [(InitialSigner.transfer 7 1).value] .empty).map
          fun t => (t.root.collapse .numeral id).encode)).getD []} := by
      rintro b ⟨t, ran | ran, member⟩
      · obtain rfl : Trie.empty = t := some.inj ran
        exact .inl member
      · rw [ran]
        obtain ⟨v, leaf⟩ : ∃ v, t.root = .short [8, 0, 16] (.value v) :=
          ⟨_, Option.some.inj ((congrArg (Option.map Trie.root) ran).symm.trans rfl)⟩
        rw [Trie.encodings, leaf] at member
        rcases member with rfl | member
        · exact .inr (by rw [map_some, leaf]; rfl)
        · exact member.elim
    refine Set.InjOn.mono inputs ?_
    rintro a (rfl | rfl) b (rfl | rfl) same
    · rfl
    · cases same
    · cases same
    · rfl
  · rintro (- | -)

/-- A transfer of a negative amount leaves no trace in the root. -/
theorem txRoot_hides_negative :
    ¬ ∀ (C : Crypto) (txs txs' : List Transaction),
      Set.InjOn C.keccak (rootInputs C (txs.map Transaction.value) (txs'.map Transaction.value)) →
      ∀ h : Header, h.CommitsTo C txs → h.CommitsTo C txs' → List.Forall₂ Transaction.SameFields txs txs' := by
  intro binds
  have inputs : rootInputs .numeral [] [(InitialSigner.transfer 7 (-1)).value] ⊆ {[0x80]} := by
    rintro b ⟨t, ran | ran, member⟩
    · obtain rfl : Trie.empty = t := some.inj ran
      exact member
    · obtain rfl : Trie.empty = t := some.inj ran
      exact member
  have same := binds .numeral [] [InitialSigner.transfer 7 (-1)] ((Set.injOn_singleton _ _).mono inputs)
    { (default : Header) with txRoot := emptyRoot } rfl rfl
  cases same

end KKChain
