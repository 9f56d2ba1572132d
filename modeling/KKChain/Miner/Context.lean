import KKChain.Consensus.Pow
import KKChain.Core.StateProcessor

/-! # The mining context

`commitTransaction` applies a transaction to the context of the block that is being assembled. If the transaction is
refused the state is taken back to a snapshot. The gas pool is not: a transaction that is refused after it has bought
its gas leaves the pool short of its gas limit.
-/

namespace KKChain.Miner

open Client Vm Transition

/-- `context` of the worker, with the pool it creates at first. -/
structure Context (C : Crypto) where
  state : StateDB C
  gasPool : UInt64
  header : Header
  txs : List Transaction
  receipts : List Receipt
  tcount : ℕ

variable {C : Crypto} (signer : InitialSigner) (interpreter : VmContext → Interpreter C) (noRecursion : Bool)

/-- The context with what is left after `ApplyTransaction`. -/
def Context.with (ctx : Context C) (w : Workspace C) : Context C := { ctx with state := w.state, gasPool := w.pool }

/-- What `commitTransaction` makes of the outcome of `ApplyTransaction`. -/
def conclude (ctx : Context C) (snap : ℕ) (tx : Transaction) :
    EStateM.Result (Fault ApplyError) (Workspace C) (Receipt × UInt64) →
      EStateM.Result (Fault ApplyError) (Context C) (List Log)
  | .ok (receipt, usedGas) w => .ok receipt.logs { ctx.with w with
      header := { ctx.header with gasUsed := usedGas }
      txs := ctx.txs ++ [tx]
      receipts := ctx.receipts ++ [receipt] }
  | .error (.error e) w =>
    match w.state.revertToSnapshot snap with
    | none => .error .panic (ctx.with w)
    | some s => .error (.error e) (ctx.with { w with state := s })
  | .error fault w => .error fault (ctx.with w)

def commitTransaction (coinbase : Address) (tx : Transaction) : Proc ApplyError (Context C) (List Log) := fun ctx =>
  let (snap, s) := ctx.state.snapshot
  conclude ctx snap tx
    ((applyTransaction signer interpreter noRecursion coinbase ctx.header tx ctx.header.gasUsed).run ⟨s, ctx.gasPool⟩)

/-- `currentContext`, with the state of the parent. -/
def currentContext (state : StateDB C) (header : Header) : Context C := ⟨state, header.gasLimit, header, [], [], 0⟩

/-- What is seen of two contexts is the same. -/
structure Context.Same (A : Set Address) (K : Set Hash) (ctx ctx' : Context C) : Prop where
  answers : ∀ q : Query, q.Within A K → (q.ask ctx'.state).1 = (q.ask ctx.state).1
  gasPool : ctx'.gasPool = ctx.gasPool
  gasUsed : ctx'.header.gasUsed = ctx.header.gasUsed
  txs : ctx'.txs = ctx.txs
  receipts : ctx'.receipts = ctx.receipts

section

variable {signer interpreter noRecursion} {A : Set Address} {K : Set Hash} {coinbase : Address} {tx : Transaction}
  {ctx ctx' : Context C}

/-- How `commitTransaction` ends for a context whose state is in use. -/
theorem commitTransaction_cases (slots : C.SlotsApart K) (accounts : C.AccountsApart A)
    (client : ∀ context, (interpreter context).IsClient A K) (paid : coinbase ∈ A) (within : tx.Within signer C A)
    (opened : ctx.state.Opened A K) :
    (∃ err s pool, (commitTransaction signer interpreter noRecursion coinbase tx).run ctx =
        .error (.error err) { ctx with state := s, gasPool := pool } ∧ Restored A K ctx.state s ∧
        (pool = ctx.gasPool ∧ ¬tx.LosesGas signer ctx.state.ledger ctx.gasPool ∨
          pool = ctx.gasPool - tx.gasLimit ∧ tx.LosesGas signer ctx.state.ledger ctx.gasPool)) ∨
      (∀ err ctx', (commitTransaction signer interpreter noRecursion coinbase tx).run ctx ≠ .error (.error err) ctx') ∧
        ¬tx.LosesGas signer ctx.state.ledger ctx.gasPool := by
  have ready := opened.ready slots accounts
  have start : With ctx.gasPool (At A K (ctx.state.nextRevisionId + 1) ctx.state.snapshot.2 ctx.state.ledger)
      ⟨ctx.state.snapshot.2, ctx.gasPool⟩ := ⟨rfl, ⟨.refl, ready.snapshot⟩, rfl⟩
  have shape : (commitTransaction signer interpreter noRecursion coinbase tx).run ctx =
    conclude ctx ctx.state.nextRevisionId tx
      ((applyTransaction signer interpreter noRecursion coinbase ctx.header tx ctx.header.gasUsed).run
        ⟨ctx.state.snapshot.2, ctx.gasPool⟩) := rfl
  rw [shape]
  cases ran : (applyTransaction signer interpreter noRecursion coinbase ctx.header tx ctx.header.gasUsed).run
      ⟨ctx.state.snapshot.2, ctx.gasPool⟩ with
  | ok r w =>
    exact .inr ⟨fun _ _ => nofun, ((applyTransaction_spec slots accounts client paid within).ok start ran).1⟩
  | error e w =>
    obtain ⟨err, rfl, since, gas⟩ | ⟨fault, safe⟩ :=
      (applyTransaction_spec slots accounts client paid within).error start ran
    · obtain ⟨s, reverted, restored, -⟩ := since.1.revert slots accounts ready.sound ready.ordered
      refine .inl ⟨err, s, w.pool, ?_, restored, gas⟩
      simp only [conclude, reverted]
      rfl
    · refine .inr ⟨fun err ctx' => ?_, safe⟩
      cases e with
      | error e => exact absurd rfl (fault e)
      | panic | fatal | diverges => exact nofun

/-- A transaction that is refused leaves the context as it was, exactly if it does not buy gas before it is refused. -/
theorem commitTransaction_same_iff (slots : C.SlotsApart K) (accounts : C.AccountsApart A)
    (client : ∀ context, (interpreter context).IsClient A K) (paid : coinbase ∈ A) (within : tx.Within signer C A)
    (opened : ctx.state.Opened A K) :
    (∀ err ctx', (commitTransaction signer interpreter noRecursion coinbase tx).run ctx = .error (.error err) ctx' →
      ctx.Same A K ctx') ↔ ¬(tx.LosesGas signer ctx.state.ledger ctx.gasPool ∧ tx.gasLimit ≠ 0) := by
  obtain ⟨err, s, pool, ran, restored, gas⟩ | ⟨never, safe⟩ :=
    commitTransaction_cases slots accounts client paid within opened
  · have drained : ctx.gasPool - tx.gasLimit = ctx.gasPool ↔ tx.gasLimit = 0 := by
      rw [← UInt64.toNat_inj, ← UInt64.toNat_inj, UInt64.toNat_sub]
      have := ctx.gasPool.toNat_lt
      have := tx.gasLimit.toNat_lt
      have : (0 : UInt64).toNat = 0 := rfl
      omega
    constructor
    · rintro same ⟨lost, nonzero⟩
      obtain ⟨-, safe⟩ | ⟨isPool, -⟩ := gas
      · exact safe lost
      · exact nonzero (drained.mp (isPool.symm.trans (same err _ ran).gasPool))
    · intro kept err' ctx' ran'
      rw [ran] at ran'
      obtain ⟨-, rfl⟩ := EStateM.Result.error.inj ran'
      refine ⟨restored.answers, ?_, rfl, rfl, rfl⟩
      obtain ⟨isPool, -⟩ | ⟨isPool, lost⟩ := gas
      · exact isPool
      · have zero : tx.gasLimit = 0 := by_contra fun nonzero => kept ⟨lost, nonzero⟩
        exact isPool.trans (drained.mpr zero)
  · exact ⟨fun _ lost => safe lost.1, fun _ err ctx' ran => absurd ran (never err ctx')⟩

end

open InitialSigner

/-- A signed transfer of 1 from account 7, with two bytes of data, which take 136 gas. -/
def twoBytes (nonce : UInt64) : Transaction where
  nonce := nonce
  gasPrice := some 2
  gasLimit := 100
  receiver := some 8
  amount := some 1
  payload := some [1, 1]
  v := some 37
  r := some 1
  s := some 1

/-- A block is assembled on a state in which the account has 300. -/
def assembling : Context onesCrypto :=
  { currentContext ((StateDB.ofTrie (.blank onesCrypto) .empty).addBalance 7 300)
      (Backend.tally.header 0 1 10 131072 0 0) with gasPool := 1000 }

/-- An interpreter that does nothing and keeps the gas. -/
def idleInterpreter : VmContext → Interpreter onesCrypto := fun _ contract _ => pure ([], contract.gas, none)

/-- The first is refused for its nonce. -/
theorem refused_twoBytes :
    (∃ err ctx', (commitTransaction (new (some 1)) idleInterpreter false 9 (twoBytes 1)).run assembling =
      .error (.error err) ctx' ∧ err = .transition .nonceTooHigh) ∧
    (new (some 1)).asMessage onesCrypto (twoBytes 1) = .ok ⟨7, some 8, 1, some 1, 100, 2, [1, 1], true⟩ ∧
    preCheckError assembling.state.ledger 1000 ⟨7, some 8, 1, some 1, 100, 2, [1, 1], true⟩ = some .nonceTooHigh := by
  decide +kernel

theorem opened_assembling : assembling.state.Opened Set.univ ∅ :=
  ⟨.blank onesCrypto, .empty, _, .cons (l := .update (.addBalance 7 300)) rfl (.nil _),
    by simp [StateCall.Within, Update.Within, StateCall.Recalls]⟩

/-- The transaction with the nonce of another one is refused and nothing has changed. -/
theorem commitTransaction_same_nonce :
    ∃ err ctx', (commitTransaction (new (some 1)) idleInterpreter false 9 (twoBytes 1)).run
    assembling = .error (.error err) ctx' ∧ assembling.Same Set.univ ∅ ctx' := by
  obtain ⟨⟨e, ctx', ran, -⟩, made, early⟩ := refused_twoBytes
  have client : ∀ context, (idleInterpreter context).IsClient Set.univ ∅ := fun _ _ _ _ _ => .pure fun _ => id
  have slots : onesCrypto.SlotsApart ∅ := Set.injOn_empty _
  have accounts : onesCrypto.AccountsApart Set.univ := accountsApart_numeral Set.univ
  have within : (twoBytes 1).Within (new (some 1)) onesCrypto Set.univ :=
    ⟨fun _ _ => trivial, fun _ _ => ⟨trivial, fun _ => trivial⟩⟩
  have kept : ¬((twoBytes 1).LosesGas (new (some 1)) assembling.state.ledger assembling.gasPool ∧
      (twoBytes 1).gasLimit ≠ 0) := by
    rintro ⟨⟨msg, made', passed, -⟩, -⟩
    cases made.symm.trans made'
    cases early.symm.trans passed
  exact ⟨_, ctx', ran, (commitTransaction_same_iff slots accounts client trivial within opened_assembling).mpr
    kept _ _ ran⟩

/-- The transaction that cannot pay for its data is refused, and its gas limit is gone from the pool. -/
theorem commitTransaction_drains :
    ∃ err ctx', (commitTransaction (new (some 1)) idleInterpreter false 9 (twoBytes 0)).run
    assembling = .error (.error err) ctx' ∧ assembling.gasPool = 1000 ∧ ctx'.gasPool = 900 := by
  decide +kernel

end KKChain.Miner
