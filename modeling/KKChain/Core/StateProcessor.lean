import KKChain.Core.Rawdb
import KKChain.Core.StateTransition
import KKChain.Types.Signature

/-! # Applying a transaction

`ApplyTransaction` turns a transaction into a message, lets the transition run, finalises the state and makes the
receipt.
-/

namespace KKChain

open Client Vm Transition

/-- `AsMessage`. An absent price is dereferenced. -/
def InitialSigner.asMessage (C : Crypto) (signer : InitialSigner) (tx : Transaction) :
    Except (Fault SignatureError) Message :=
  match tx.gasPrice with
  | none => .error .panic
  | some gasPrice => (signer.sender C tx).map fun sender =>
    { sender, receiver := tx.receiver, nonce := tx.nonce, amount := tx.amount, gasLimit := tx.gasLimit, gasPrice,
      data := tx.payload.getD [], checkNonce := true }

def bloom9 (C : Crypto) (b : Bytes) : ℕ :=
  let h := (C.keccak b).bytes
  [0, 2, 4].foldl (fun r i => r ||| 1 <<< (((h.getD (i + 1) 0).toNat + (h.getD i 0).toNat * 256) % 2048)) 0

def logsBloom (C : Crypto) (logs : List Log) : ℕ :=
  logs.foldl (fun bin log => log.topics.foldl (fun bin topic => bin ||| bloom9 C topic.bytes)
    (bin ||| bloom9 C log.address.bytes)) 0

/-- `Receipt`. No post state is kept. -/
structure Receipt where
  status : UInt64
  cumulativeGasUsed : UInt64
  bloom : Bloom
  logs : List Log
  txHash : Hash
  contractAddress : Address
  gasUsed : UInt64
deriving DecidableEq, Repr

def createBloom (C : Crypto) (receipts : List Receipt) : Bloom :=
  BitVec.ofNat 2048 (receipts.foldl (fun bin receipt => bin ||| logsBloom C receipt.logs) 0)

/-- `vm.Context`, without the functions it carries. -/
structure VmContext where
  origin : Address
  coinbase : Address
  gasLimit : UInt64
  blockNumber : ℤ
  time : ℤ
  difficulty : ℤ
  gasPrice : ℤ

/-- `NewEVMContext` with an author. -/
def newEvmContext (msg : Message) (header : Header) (author : Address) : VmContext where
  origin := msg.sender
  coinbase := author
  gasLimit := header.gasLimit
  blockNumber := header.number
  time := header.time
  difficulty := header.difficulty
  gasPrice := msg.gasPrice

/-- The errors of `ApplyTransaction`. -/
inductive ApplyError where
  | signature (e : SignatureError)
  | transition (e : TransitionError)
deriving DecidableEq

variable {C : Crypto} (signer : InitialSigner) (interpreter : VmContext → Interpreter C) (noRecursion : Bool)

/-- `Finalise(true)`. -/
def finaliseState : Proc ApplyError (Workspace C) Unit := do
  let w ← get
  let s ← Proc.orFault .panic (w.state.finalise true)
  set { w with state := s }

/-- `ApplyTransaction` with an author: the receipt, and the gas used in the block. -/
def applyTransaction (author : Address) (header : Header) (tx : Transaction) (usedGas : UInt64) :
    Proc ApplyError (Workspace C) (Receipt × UInt64) := do
  let msg ← Proc.ofExcept ((signer.asMessage C tx).mapError (Fault.map .signature))
  let evm : Evm C := ⟨0, noRecursion, interpreter (newEvmContext msg header author)⟩
  let (_, gas, failed) ← (transitionDb evm author msg).mapFault .transition
  finaliseState
  let w ← get
  let logs := w.state.logs (tx.hashOf C)
  let receipt : Receipt := {
    status := if failed then 0 else 1
    cumulativeGasUsed := usedGas + gas
    bloom := 0
    logs
    txHash := tx.hashOf C
    contractAddress := if msg.receiver.isNone then createAddress C msg.sender tx.nonce else 0
    gasUsed := gas }
  return ({ receipt with bloom := createBloom C [receipt] }, usedGas + gas)

/-- The addresses a transaction names are among those given. -/
def Transaction.Within (C : Crypto) (A : Set Address) (tx : Transaction) : Prop :=
  (∀ receiver ∈ tx.receiver, receiver ∈ A) ∧
    ∀ sender, signer.sender C tx = .ok sender → sender ∈ A ∧ ∀ nonce, createAddress C sender nonce ∈ A

/-- A transaction buys its gas and is refused after that. -/
def Transaction.LosesGas (l : Ledger C) (pool : UInt64) (tx : Transaction) : Prop :=
  ∃ msg, signer.asMessage C tx = .ok msg ∧ preCheckError l pool msg = none ∧ lateError l msg ≠ none

/-- How `ApplyTransaction` fails: with an error, where the gas is gone only if the transaction loses it, or in a fault
of the run, where it does not. -/
def Refused (A : Set Address) (K : Set Hash) (base : ℕ) (s₀ : StateDB C) (l : Ledger C) (pool : UInt64)
    (tx : Transaction) (e : Fault ApplyError) (w : Workspace C) : Prop :=
  (∃ err, e = .error err ∧ Since A K base s₀ w.state ∧
      (w.pool = pool ∧ ¬tx.LosesGas signer l pool ∨ w.pool = pool - tx.gasLimit ∧ tx.LosesGas signer l pool)) ∨
    (∀ err, e ≠ .error err) ∧ ¬tx.LosesGas signer l pool

section Rules

variable {signer interpreter noRecursion} {A : Set Address} {K : Set Hash} {base : ℕ} {s₀ : StateDB C} {l : Ledger C}
  {pool usedGas : UInt64} {author : Address} {header : Header} {tx : Transaction}

theorem asMessage_eq_ok {msg : Message} (made : signer.asMessage C tx = .ok msg) :
    signer.sender C tx = .ok msg.sender ∧ msg.receiver = tx.receiver ∧ msg.gasLimit = tx.gasLimit := by
  unfold InitialSigner.asMessage at made
  split at made
  · cases made
  · rename_i price _
    cases found : signer.sender C tx with
    | error e =>
      rw [found] at made
      cases made
    | ok sender =>
      rw [found] at made
      cases made
      exact ⟨rfl, rfl, rfl⟩

/-- A transaction that is refused has lost its gas exactly if it was bought. -/
theorem applyTransaction_spec (slots : C.SlotsApart K) (accounts : C.AccountsApart A)
    (client : ∀ context, (interpreter context).IsClient A K) (paid : author ∈ A) (within : tx.Within signer C A) :
    Proc.Spec (With pool (At A K base s₀ l)) (applyTransaction signer interpreter noRecursion author header tx usedGas)
      (fun _ w => ¬tx.LosesGas signer l pool ∧ ∃ s, Since A K base s₀ s ∧ s.finalise true = some w.state)
      (Refused signer A K base s₀ l pool tx) := by
  -- what is said of the message holds of the transaction, which makes no other
  have loses {msg : Message} (made : signer.asMessage C tx = .ok msg) :
      tx.LosesGas signer l pool ↔ preCheckError l pool msg = none ∧ lateError l msg ≠ none :=
    ⟨fun ⟨_, made', rest⟩ => Except.ok.inj (made.symm.trans made') ▸ rest, fun rest => ⟨msg, made, rest⟩⟩
  refine .bind (Q := fun msg w => signer.asMessage C tx = .ok msg ∧ With pool (At A K base s₀ l) w)
    (.ofExcept (fun msg mapped w here => ⟨?_, here⟩) fun e mapped w here => ?_) fun msg => .assume fun made => ?_
  · cases made : signer.asMessage C tx with
    | ok msg' =>
      rw [made] at mapped
      exact congrArg Except.ok (Except.ok.inj mapped)
    | error e =>
      rw [made] at mapped
      cases mapped
  · cases made : signer.asMessage C tx with
    | ok msg =>
      rw [made] at mapped
      cases mapped
    | error fault =>
      rw [made] at mapped
      obtain rfl := Except.error.inj mapped
      have safe : ¬tx.LosesGas signer l pool := by
        rintro ⟨msg, made', -⟩
        rw [made] at made'
        cases made'
      cases fault with
      | error e => exact .inl ⟨_, rfl, here.2.1, .inl ⟨here.1, safe⟩⟩
      | panic | fatal | diverges => exact .inr ⟨fun _ => nofun, safe⟩
  · obtain ⟨isSender, isReceiver, isGas⟩ := asMessage_eq_ok made
    obtain ⟨sender, created⟩ := within.2 _ isSender
    have receiver : ∀ receiver ∈ msg.receiver, receiver ∈ A := isReceiver ▸ within.1
    refine .bind (Q := fun _ w => ¬tx.LosesGas signer l pool ∧ Since A K base s₀ w.state) (.mapFault
      ((transitionDb_spec slots accounts (client _) rfl sender receiver created paid).post ?_) ?_) ?_
    · rintro r w ⟨-, late, since⟩
      exact ⟨fun lost => ((loses made).mp lost).2 late, since⟩
    · rintro e w (⟨err, rfl, early, here⟩ | ⟨passed, since, ⟨err, rfl, late, isPool⟩ | ⟨fault, late⟩⟩)
      · refine .inl ⟨_, rfl, here.2.1, .inl ⟨here.1, fun lost => ?_⟩⟩
        have none := ((loses made).mp lost).1
        rw [early] at none
        cases none
      · exact .inl ⟨_, rfl, since, .inr ⟨isGas ▸ isPool, (loses made).mpr ⟨passed, by simp [late]⟩⟩⟩
      · refine .inr ⟨fun err same => ?_, fun lost => ((loses made).mp lost).2 late⟩
        cases e with
        | error e => exact fault e rfl
        | panic | fatal | diverges => cases same
    · rintro ⟨_, gas, failed⟩
      refine .assume fun safe => .bind (Q := fun _ w => ∃ s, Since A K base s₀ s ∧
        s.finalise true = some w.state) ?_ fun _ => ?_
      · refine .get_bind fun w => .bind (Q := fun s _ => Since A K base s₀ w.state ∧
          w.state.finalise true = some s) ?_ fun s => ?_
        · refine .orFault ?_ fun _ _ _ => .inr ⟨fun _ => nofun, safe⟩
          rintro s finalised _ ⟨rfl, since⟩
          exact ⟨since, finalised⟩
        · exact fun _ post => ⟨w.state, post⟩
      · refine .get_bind fun w => .pure ?_
        rintro _ ⟨rfl, post⟩
        exact ⟨safe, post⟩

end Rules

end KKChain
