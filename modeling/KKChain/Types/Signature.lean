import KKChain.Machine.Proc
import KKChain.Types.Transaction

/-! # Signing a transaction and recovering its sender

The signer folds the recovery id into `V` together with the chain id, and unfolds it with another formula. The two fit
together for positive chain ids. With chain id zero `V` is 27 or 28, but the recovery takes away eight more than was
added and never finds a sender.
-/

namespace KKChain

open BigEndian

/-- The order of the curve. -/
def secp256k1N : ℤ := 0xfffffffffffffffffffffffffffffffebaaedce6af48a03bbfd25e8cd0364141

/-- The errors of `Sender` and `SignTx`. -/
inductive SignatureError where
  | invalidChainId
  | invalidSig
  | recovery
  | invalidPublicKey
  | sign
deriving DecidableEq

/-- `deriveChainId`: the low word is the one of the absolute value. -/
def deriveChainId (v : ℤ) : ℤ :=
  if v.natAbs < 2 ^ 64 then
    if v.natAbs = 27 ∨ v.natAbs = 28 then 0 else ((v.natAbs - 35 : ℤ) % 2 ^ 64 / 2 : ℤ)
  else (v - 35) / 2

def validateSignatureValues (v : ℕ) (r s : ℤ) : Bool :=
  if r < 1 ∨ s < 1 then false else r < secp256k1N && s < secp256k1N && (v = 0 || v = 1)

/-- The address of a public key in uncompressed form. -/
def addressOf (C : Crypto) (pub : Bytes) : Address := Address.ofBytes ((C.keccak (pub.drop 1)).bytes.drop 12)

def recoverPlain (C : Crypto) (sighash : Hash) (r s vb : ℤ) : Except (Fault SignatureError) Address :=
  if 2 ^ 8 ≤ vb.natAbs then .error (.error .invalidSig)
  else
    -- `Uint64` is the absolute value, and the byte wraps around
    let v := (vb.natAbs + (2 ^ 64 - 27)) % 2 ^ 64 % 2 ^ 8
    if !validateSignatureValues v r s then .error (.error .invalidSig)
    else
      match C.ecrecover sighash (BigEndian.fixed 32 r.natAbs ++ (BigEndian.fixed 32 s.natAbs ++ [UInt8.ofNat v])) with
      | none => .error (.error .recovery)
      | some pub => if pub.head? ≠ some 4 then .error (.error .invalidPublicKey) else .ok (addressOf C pub)

namespace InitialSigner

variable (C : Crypto) (signer : InitialSigner)

/-- `NewInitialSigner`. -/
def new (chainId : Option ℤ) : InitialSigner := ⟨chainId.getD 0⟩

/-- `Sender` of a signer. An absent number is dereferenced. -/
def sender (tx : Transaction) : Except (Fault SignatureError) Address :=
  match tx.v with
  | none => .error .panic
  | some v =>
    if deriveChainId v ≠ signer.chainId then .error (.error .invalidChainId)
    else
      match signer.hash C tx, tx.r, tx.s with
      | some sighash, some r, some s => recoverPlain C sighash r s (v - 2 * signer.chainId - 8)
      | _, _, _ => .error .panic

def signatureValues (sig : Bytes) : Except (Fault SignatureError) (ℤ × ℤ × ℤ) :=
  if sig.length ≠ 65 then .error .panic
  else
    let last := (sig.getD 64 0).toNat
    let v : ℤ := if signer.chainId ≠ 0 then ((last + 35) % 256 : ℕ) + 2 * signer.chainId else ((last + 27) % 256 : ℕ)
    .ok (BigEndian.toNat (sig.take 32), BigEndian.toNat ((sig.drop 32).take 32), v)

/-- `SignTx` with a key, given by what it signs a digest with. -/
def signTx (sign : Hash → Option Bytes) (tx : Transaction) : Except (Fault SignatureError) Transaction :=
  match signer.hash C tx with
  | none => .error .panic
  | some h =>
    match sign h with
    | none => .error (.error .sign)
    | some sig => (signer.signatureValues sig).map fun (r, s, v) => { tx with r := some r, s := some s, v := some v }

/-- `Sender` with the address that an earlier call has stored with the transaction. -/
def cachedSender (tx : Transaction) (cache : Option (InitialSigner × Address)) :
    Except (Fault SignatureError) Address × Option (InitialSigner × Address) :=
  match cache.filter fun c => c.1.chainId = signer.chainId with
  | some (_, from_) => (.ok from_, cache)
  | none =>
    match signer.sender C tx with
    | .error fault => (.error fault, cache)
    | .ok from_ => (.ok from_, some (signer, from_))

/-- What earlier calls with these signers have left in the cache. -/
def cacheAfter (tx : Transaction) : List InitialSigner → Option (InitialSigner × Address)
  | [] => none
  | signer :: earlier => (signer.cachedSender C tx (cacheAfter tx earlier)).2

end InitialSigner

/-- The signatures of a key: two numbers in range and a recovery id of zero or one, from which its public key is
recovered. -/
structure Signs (C : Crypto) (sign : Hash → Option Bytes) (pub : Bytes) : Prop where
  uncompressed : pub.head? = some 4
  recovers : ∀ h, ∃ (r s : ℕ) (v : UInt8), sign h = some (BigEndian.fixed 32 r ++ (BigEndian.fixed 32 s ++ [v])) ∧
    C.ecrecover h (BigEndian.fixed 32 r ++ (BigEndian.fixed 32 s ++ [v])) = some pub ∧
    (1 ≤ r ∧ (r : ℤ) < secp256k1N) ∧ (1 ≤ s ∧ (s : ℤ) < secp256k1N) ∧ (v = 0 ∨ v = 1)

namespace InitialSigner

variable {C : Crypto} {signer : InitialSigner} {sign : Hash → Option Bytes} {pub : Bytes}
    {tx tx' : Transaction} {h : Hash}
  {v : ℕ} {a : Address} {c vb : ℤ}

/-- The cache never changes what a signer finds. -/
theorem cachedSender_eq (earlier : List InitialSigner) :
    (signer.cachedSender C tx (cacheAfter C tx earlier)).1 = signer.sender C tx := by
  have coherent : ∀ c ∈ cacheAfter C tx earlier, c.1.sender C tx = .ok c.2 := by
    induction earlier with
    | nil => simp [cacheAfter]
    | cons first earlier ih =>
      intro c mem
      rw [cacheAfter, cachedSender] at mem
      split at mem
      · exact ih c mem
      · split at mem
        · exact ih c mem
        · rename_i found
          cases mem
          exact found
  rw [cachedSender]
  split
  · rename_i stored from_ found
    obtain ⟨mem, same⟩ := Option.filter_eq_some_iff.mp found
    have equal : stored = signer := congrArg mk (of_decide_eq_true same)
    exact equal ▸ (coherent _ mem).symm
  · split
    · rename_i found
      exact found.symm
    · rename_i found
      exact found.symm

/-- `V` as the signer makes it of a recovery id. -/
def foldedV (chainId : ℤ) (v : ℕ) : ℤ := if chainId ≠ 0 then v + 35 + 2 * chainId else v + 27

theorem signatureValues_fixed (signer : InitialSigner) {r s : ℕ} {v : UInt8} (first : r < 256 ^ 32)
    (second : s < 256 ^ 32) (small : v.toNat < 2) :
    signer.signatureValues (fixed 32 r ++ (fixed 32 s ++ [v])) =
      .ok ((r : ℤ), (s : ℤ), foldedV signer.chainId v.toNat) := by
  have length := length_fixed 32
  have third : (fixed 32 r ++ (fixed 32 s ++ [v])).getD 64 0 = v := by
    rw [List.getD_eq_getElem?_getD, List.getElem?_append_right (by simp [length]), length,
      List.getElem?_append_right (by simp [length]), length]
    rfl
  have folded : (if signer.chainId ≠ 0 then (((v.toNat + 35) % 256 : ℕ) : ℤ) + 2 * signer.chainId
      else (((v.toNat + 27) % 256 : ℕ) : ℤ)) = foldedV signer.chainId v.toNat := by
    rw [foldedV]
    split_ifs <;> omega
  rw [signatureValues, if_neg (by simp [length])]
  simp only [third, folded]
  rw [List.take_left' (length r), List.drop_left' (length r), List.take_left' (length s), toNat_fixed,
    toNat_fixed, Nat.mod_eq_of_lt first, Nat.mod_eq_of_lt second]

/-- A signed transaction is the transaction with the numbers of a signature. -/
theorem signTx_ok (signs : Signs C sign pub) (hashed : signer.hash C tx = some h) :
    ∃ r s v : ℕ, v < 2 ∧ (1 ≤ r ∧ (r : ℤ) < secp256k1N) ∧ (1 ≤ s ∧ (s : ℤ) < secp256k1N) ∧
      C.ecrecover h (fixed 32 r ++ (fixed 32 s ++ [UInt8.ofNat v])) = some pub ∧
      signer.signTx C sign tx =
        .ok { tx with r := some (r : ℤ), s := some (s : ℤ), v := some (foldedV signer.chainId v) } := by
  obtain ⟨r, s, v, made, recovered, rangeR, rangeS, recoveryId⟩ := signs.recovers h
  have small : v.toNat < 2 := by rcases recoveryId with rfl | rfl <;> decide
  have word : (secp256k1N : ℤ) < 256 ^ 32 := by decide
  have last : UInt8.ofNat v.toNat = v := UInt8.ofNat_toNat
  refine ⟨r, s, v.toNat, small, rangeR, rangeS, ?_, ?_⟩
  · rw [last]
    exact recovered
  · rw [signTx, hashed]
    simp only [made]
    rw [signatureValues_fixed signer (by omega) (by omega) small]
    rfl

/-- The other formula unfolds `V` for positive chain ids, and for those that are so far below zero that `V` is not taken
for a word. -/
theorem unfolds_iff (small : v < 2) :
    (deriveChainId (foldedV c v) = c ∧ (foldedV c v - 2 * c - 8).natAbs = v + 27) ↔ 0 < c ∨ c ≤ -(2 ^ 63 + 18) := by
  unfold deriveChainId foldedV
  split_ifs <;> omega

theorem unfolds_range (small : v < 2) (derived : deriveChainId (foldedV c v) = c)
    (range : (foldedV c v - 2 * c - 8).natAbs = 27 ∨ (foldedV c v - 2 * c - 8).natAbs = 28) :
    (foldedV c v - 2 * c - 8).natAbs = v + 27 := by
  unfold deriveChainId foldedV at *
  split_ifs at * <;> omega

/-- Under another chain id the recovery id is out of range. -/
theorem unfolds_other {c' : ℤ} (small : v < 2) (other : c' ≠ c) (derived : deriveChainId (foldedV c v) = c') :
    (foldedV c v - 2 * c' - 8).natAbs ≠ 27 ∧ (foldedV c v - 2 * c' - 8).natAbs ≠ 28 := by
  unfold deriveChainId foldedV at *
  split_ifs at * <;> omega

/-- Recovery needs a `V` of 27 or 28. -/
theorem recoverPlain_range {r s : ℤ} (found : recoverPlain C h r s vb = .ok a) : vb.natAbs = 27 ∨ vb.natAbs = 28 := by
  unfold recoverPlain at found
  by_cases long : 2 ^ 8 ≤ vb.natAbs
  · rw [if_pos long] at found
    cases found
  · rw [if_neg long] at found
    by_cases valid : validateSignatureValues ((vb.natAbs + (2 ^ 64 - 27)) % 2 ^ 64 % 2 ^ 8) r s
    · unfold validateSignatureValues at valid
      split_ifs at valid
      simp only [Bool.and_eq_true, Bool.or_eq_true, decide_eq_true_eq] at valid
      omega
    · simp only [valid, Bool.not_false, if_true] at found
      cases found

theorem recoverPlain_signed {r s : ℕ} (uncompressed : pub.head? = some 4) (small : v < 2)
    (rangeR : 1 ≤ r ∧ (r : ℤ) < secp256k1N) (rangeS : 1 ≤ s ∧ (s : ℤ) < secp256k1N)
    (recovered : C.ecrecover h (fixed 32 r ++ (fixed 32 s ++ [UInt8.ofNat v])) = some pub)
    (range : vb.natAbs = v + 27) : recoverPlain C h r s vb = .ok (addressOf C pub) := by
  have byte : (vb.natAbs + (2 ^ 64 - 27)) % 2 ^ 64 % 2 ^ 8 = v := by omega
  have valid : validateSignatureValues v r s = true := by
    unfold validateSignatureValues
    rw [if_neg (by omega)]
    simp [rangeR.2, rangeS.2]
    omega
  rw [recoverPlain, if_neg (by omega), byte]
  simp [valid, recovered, uncompressed]

theorem sender_eq_ok {other : InitialSigner} {v : ℤ} (present : tx.v = some v) (found : other.sender C tx = .ok a) :
    deriveChainId v = other.chainId ∧
      ((v - 2 * other.chainId - 8).natAbs = 27 ∨ (v - 2 * other.chainId - 8).natAbs = 28) := by
  rw [sender, present] at found
  by_cases derived : deriveChainId v = other.chainId
  · simp only [derived, ne_eq, not_true_eq_false, if_false] at found
    split at found
    · exact ⟨derived, recoverPlain_range found⟩
    · cases found
  · simp [derived] at found

/-- The sender of a signed transaction is recovered exactly under a positive chain id, or one so far below zero that `V`
is not taken for a word. No signer of another chain id finds a sender. What signers have found before makes no
difference. -/
theorem sender_signTx_iff (signs : Signs C sign pub) (hashed : (signer.hash C tx).isSome) :
    ∃ tx', signer.signTx C sign tx = .ok tx' ∧
      (∀ earlier, (signer.cachedSender C tx' (cacheAfter C tx' earlier)).1 = .ok (addressOf C pub) ↔
        0 < signer.chainId ∨ signer.chainId ≤ -(2 ^ 63 + 18)) ∧
      ∀ other : InitialSigner, other.chainId ≠ signer.chainId →
        ∀ earlier a, (other.cachedSender C tx' (cacheAfter C tx' earlier)).1 ≠ .ok a := by
  obtain ⟨h, hashed⟩ := Option.isSome_iff_exists.mp hashed
  obtain ⟨r, s, v, small, rangeR, rangeS, recovered, signed⟩ := signTx_ok signs hashed
  refine ⟨_, signed, fun earlier => ?_, fun other different earlier a found => ?_⟩
  · rw [cachedSender_eq, ← unfolds_iff small]
    constructor
    · intro found
      obtain ⟨derived, range⟩ := sender_eq_ok rfl found
      exact ⟨derived, unfolds_range small derived range⟩
    · rintro ⟨derived, range⟩
      have same : signer.hash C { tx with r := some (r : ℤ), s := some (s : ℤ), v := some (foldedV signer.chainId v) } =
          some h :=
        hashed
      rw [sender]
      simp only [derived, ne_eq, not_true_eq_false, if_false, same]
      exact recoverPlain_signed signs.uncompressed small rangeR rangeS recovered range
  · rw [cachedSender_eq] at found
    obtain ⟨derived, range⟩ := sender_eq_ok rfl found
    exact range.elim (unfolds_other small different derived).1 (unfolds_other small different derived).2

/-- A key that signs everything with ones. -/
def onesSignature : Bytes := BigEndian.fixed 32 1 ++ (BigEndian.fixed 32 1 ++ [0])

/-- Recovery gives one public key for every signature. -/
def onesCrypto : Crypto := { Crypto.numeral with ecrecover := fun _ _ => some (4 :: BigEndian.fixed 64 7) }

theorem signs_ones : Signs onesCrypto (fun _ => some onesSignature) (4 :: fixed 64 7) where
  uncompressed := rfl
  recovers _ := ⟨1, 1, 0, rfl, rfl, by decide, by decide, .inl rfl⟩

/-- On chain 1 the sender is recovered, and not by the signer of chain 2. -/
theorem sender_signTx_one : ∃ tx', (new (some 1)).signTx onesCrypto (fun _ => some onesSignature)
    (transfer 7 0) = .ok tx' ∧
    ((new (some 1)).cachedSender onesCrypto tx' none).1 = .ok (addressOf onesCrypto (4 :: BigEndian.fixed 64 7)) ∧
    ∀ a, ((new (some 2)).cachedSender onesCrypto tx' none).1 ≠ .ok a := by
  have hashed : ((new (some 1)).hash onesCrypto (transfer 7 0)).isSome := by decide +kernel
  obtain ⟨tx', signed, found, other⟩ := sender_signTx_iff signs_ones hashed
  exact ⟨tx', signed, (found []).mpr (.inl (by decide)), other (new (some 2)) (by decide) []⟩

/-- Without a chain id a transaction is signed, and the sender is not recovered. -/
theorem not_sender_signTx_nil : Signs onesCrypto (fun _ => some onesSignature) (4 :: BigEndian.fixed 64 7) ∧
    ∃ tx', (new none).signTx onesCrypto (fun _ => some onesSignature) (transfer 7 0) = .ok tx' ∧
      ((new none).cachedSender onesCrypto tx' none).1 = .error (.error .invalidSig) :=
  ⟨signs_ones, { transfer 7 0 with r := some 1, s := some 1, v := some 27 }, by decide +kernel, by decide +kernel⟩

end InitialSigner

end KKChain
