import KKChain.State.Operations

/-! # The interface of a state database

What callers ask of a state database and what they change in it. The answers are those of its ledger, the changes are
made to its ledger, and both leave a journal that takes them back.
-/

namespace KKChain

variable {C : Crypto} {A : Set Address} {K : Set Hash} {key : Hash}

/-- A question to a state database. -/
inductive Query where
  | exist (addr : Address)
  | empty (addr : Address)
  | getBalance (addr : Address)
  | getNonce (addr : Address)
  | getCodeHash (addr : Address)
  | getCode (addr : Address)
  | getCodeSize (addr : Address)
  | getState (addr : Address) (key : Hash)
  | hasSuicided (addr : Address)
  | getRefund
  | getLogs (hash : Hash)
  | preimage (hash : Hash)

namespace Query

def Answer : Query → Type
  | exist _ | empty _ | hasSuicided _ => Bool
  | getBalance _ => ℤ
  | getNonce _ | getRefund => UInt64
  | getCodeHash _ | getState _ _ => Hash
  | getCode _ => Bytes
  | getCodeSize _ => ℕ
  | getLogs _ => List Log
  | preimage _ => Option Bytes

/-- The addresses and slots of the question are among those given. -/
def Within (A : Set Address) (K : Set Hash) : Query → Prop
  | exist addr | empty addr | getBalance addr | getNonce addr | getCodeHash addr | getCode addr | getCodeSize addr
  | hasSuicided addr => addr ∈ A
  | getState addr key => addr ∈ A ∧ key ∈ K
  | getRefund | getLogs _ | preimage _ => True

/-- The question is put to a state database, which may load objects for it. -/
def ask (s : StateDB C) : (q : Query) → q.Answer × StateDB C
  | exist addr => s.exist addr
  | empty addr => s.empty addr
  | getBalance addr => s.getBalance addr
  | getNonce addr => s.getNonce addr
  | getCodeHash addr => s.getCodeHash addr
  | getCode addr => s.getCode addr
  | getCodeSize addr => s.getCodeSize addr
  | getState addr key => s.getState addr key
  | hasSuicided addr => s.hasSuicided addr
  | getRefund => (s.refund, s)
  | getLogs hash => (s.logs hash, s)
  | preimage hash => (s.preimages hash, s)

def answer (l : Ledger C) : (q : Query) → q.Answer
  | exist addr => (l.accounts addr).isSome
  | empty addr => (l.accounts addr).all (·.empty C)
  | getBalance addr => ((l.accounts addr).map (·.balance)).getD (0 : ℤ)
  | getNonce addr => ((l.accounts addr).map (·.nonce)).getD (0 : UInt64)
  | getCodeHash addr => ((l.accounts addr).map (·.codeHash)).getD (0 : Hash)
  | getCode addr => ((l.accounts addr).map (·.code)).getD []
  | getCodeSize addr => ((l.accounts addr).map (·.code.length)).getD (0 : ℕ)
  | getState addr key => ((l.accounts addr).map (·.slot C key)).getD (0 : Hash)
  | hasSuicided addr => (l.accounts addr).any (·.suicided)
  | getRefund => l.refund
  | getLogs hash => l.logs hash
  | preimage hash => l.preimages hash

end Query

/-- A change of a state database. -/
inductive Update where
  | createAccount (addr : Address)
  | addBalance (addr : Address) (amount : ℤ)
  | subBalance (addr : Address) (amount : ℤ)
  | setBalance (addr : Address) (amount : ℤ)
  | setNonce (addr : Address) (nonce : UInt64)
  | setCode (addr : Address) (code : Bytes)
  | setState (addr : Address) (key value : Hash)
  | suicide (addr : Address)
  | addRefund (gas : UInt64)
  | addLog (log : Log)
  | addPreimage (hash : Hash) (preimage : Bytes)
  | prepare (thash bhash : Hash) (txIndex : ℕ)

namespace Update

/-- The addresses and slots of the change are among those given. -/
def Within (A : Set Address) (K : Set Hash) : Update → Prop
  | createAccount addr | addBalance addr _ | subBalance addr _ | setBalance addr _ | setNonce addr _ | setCode addr _
  | suicide addr => addr ∈ A
  | setState addr key _ => addr ∈ A ∧ key ∈ K
  | addRefund _ | addLog _ | addPreimage _ _ | prepare _ _ _ => True

def apply (s : StateDB C) : Update → StateDB C
  | createAccount addr => s.createAccount addr
  | addBalance addr amount => s.addBalance addr amount
  | subBalance addr amount => s.subBalance addr amount
  | setBalance addr amount => s.setBalance addr amount
  | setNonce addr nonce => s.setNonce addr nonce
  | setCode addr code => s.setCode addr code
  | setState addr key value => s.setState addr key value
  | suicide addr => (s.suicide addr).2
  | addRefund gas => s.addRefund gas
  | addLog log => s.addLog log
  | addPreimage hash preimage => s.addPreimage hash preimage
  | prepare thash bhash txIndex => s.prepare thash bhash txIndex

end Update

/-- What logs are labelled with. -/
structure TxContext where
  thash : Hash
  bhash : Hash
  txIndex : ℕ
deriving DecidableEq, Repr

def TxContext.label (context : TxContext) (log : Log) (index : UInt64) : Log :=
  { log with txHash := context.thash, blockHash := context.bhash, txIndex := context.txIndex, index := index }

/-- The context that `Prepare` has set. -/
def StateDB.context (s : StateDB C) : TxContext := ⟨s.thash, s.bhash, s.txIndex⟩

def Update.onLedger (context : TxContext) (l : Ledger C) : Update → Ledger C
  | createAccount addr => l.createAccount addr
  | addBalance addr amount => l.addBalance addr amount
  | subBalance addr amount => l.subBalance addr amount
  | setBalance addr amount => l.setBalance addr amount
  | setNonce addr nonce => l.setNonce addr nonce
  | setCode addr code => l.setCode addr code
  | setState addr key value => l.setState addr key value
  | suicide addr => l.suicide addr
  | addRefund gas => l.addRefund gas
  | addLog log => l.addLog context.thash (context.label log l.logSize)
  | addPreimage hash preimage => l.addPreimage hash preimage
  | prepare _ _ _ => l

namespace StateDB

variable {apart : C.SlotsApart K} {s t : StateDB C} {addr : Address}

section Answers

theorem view_getStateObject (s : StateDB C) (addr : Address) :
    (s.getStateObject addr).1.map (fun obj => obj.view s.db) = s.account addr := by
  rcases found : s.getStateObject addr with ⟨_ | obj, s'⟩
  · exact (getStateObject_none found).2.symm
  · exact (getStateObject_some found).2.2.1.symm

theorem account_of_found {obj : StateObject} {s' : StateDB C} (found : s.getStateObject addr = (some obj, s')) :
    s.account addr = some (obj.view s'.db) := by
  obtain ⟨-, ledger, held, -⟩ := getStateObject_some found
  rw [held, show s'.db = s.db from congrArg Ledger.db ledger]

theorem getCode_fst (s : StateDB C) (addr : Address) :
    (s.getCode addr).1 = ((s.account addr).map (·.code)).getD [] := by
  unfold getCode
  rcases found : s.getStateObject addr with ⟨_ | obj, s'⟩
  · rw [(getStateObject_none found).2]
    rfl
  · rw [account_of_found found]
    change (obj.getCode s'.db).1.getD [] = (s'.db.codeOf obj.data.codeHash obj.code).getD []
    rw [StateObject.getCode_fst]

theorem getCodeSize_fst (s : StateDB C) (addr : Address) :
    (s.getCodeSize addr).1 = ((s.account addr).map (·.code.length)).getD 0 := by
  unfold getCodeSize
  rcases found : s.getStateObject addr with ⟨_ | obj, s'⟩
  · rw [(getStateObject_none found).2]
    rfl
  · rw [account_of_found found]
    change List.length _ = List.length ((s'.db.codeOf obj.data.codeHash obj.code).getD [])
    -- the code with the hash of the empty code is not looked up by one and is empty for the other
    unfold StateDatabase.codeOf
    cases obj.code with
    | some code => rfl
    | none =>
      split_ifs with empty
      · simp [empty, s'.db.emptyCode]
      · rfl

theorem getState_fst (apart : C.SlotsApart K)
    (coherent : ∀ {addr obj}, s.stateObjects.lookup addr = some obj → obj.Coherent C K) (inK : key ∈ K) :
    (s.getState addr key).1 = ((s.account addr).map (·.slot C key)).getD 0 := by
  unfold getState
  rcases found : s.getStateObject addr with ⟨_ | obj, s'⟩
  · rw [(getStateObject_none found).2]
    rfl
  · obtain ⟨live, -, -, loaded⟩ := getStateObject_some found
    have ordered : obj.Coherent C K := by
      obtain rfl | ⟨data, -, -, rfl, -⟩ := loaded
      · exact coherent live.1
      · exact StateObject.coherent_newObject data
    rw [account_of_found found]
    exact ordered.getState_fst apart inK

end Answers

/-- Looking for an object leaves the ledger as it is. -/
theorem getStateObject_spec (sound : s.Sound A K) (mem : addr ∈ A) :
    Journaled apart A s (s.getStateObject addr).2 ∧ (s.getStateObject addr).2.ledger = s.ledger := by
  rcases found : s.getStateObject addr with ⟨_ | obj, s'⟩
  · obtain ⟨rfl, -⟩ := getStateObject_none found
    exact ⟨.refl sound, rfl⟩
  · exact ⟨getStateObject_journaled sound mem found, (getStateObject_some found).2.1⟩

/-- An object that is found may be replaced by one with the same account. -/
theorem refresh_spec (sound : s.Sound A K) (mem : addr ∈ A) {obj obj' : StateObject} {s' : StateDB C}
    (found : s.getStateObject addr = (some obj, s')) (coherent : obj'.Coherent C K) (live : obj'.deleted = obj.deleted)
    (same : obj'.view s'.db = obj.view s'.db) :
    Journaled apart A s (s'.setStateObject addr obj') ∧ (s'.setStateObject addr obj').ledger = s.ledger := by
  obtain ⟨isLive, ledger, -, -⟩ := getStateObject_some found
  have journaled : Journaled apart A s s' := getStateObject_journaled sound mem found
  have deleted := live.trans isLive.2
  have kept := ledger_setStateObject_of_view isLive.account same deleted
  refine ⟨journaled.trans (.of_ledger ?_ kept rfl (.setStateObject s' addr deleted) rfl rfl), kept.trans ledger⟩
  exact journaled.sound.setStateObject mem coherent deleted

theorem getCode_spec (sound : s.Sound A K) (mem : addr ∈ A) :
    Journaled apart A s (s.getCode addr).2 ∧ (s.getCode addr).2.ledger = s.ledger := by
  unfold getCode
  rcases found : s.getStateObject addr with ⟨_ | obj, s'⟩
  · obtain ⟨rfl, -⟩ := getStateObject_none found
    exact ⟨.refl sound, rfl⟩
  · obtain ⟨-, coherent⟩ := sound.getStateObject mem found
    exact refresh_spec sound mem found coherent.getCode (StateObject.deleted_getCode ..) (StateObject.view_getCode ..)

theorem getState_spec (sound : s.Sound A K) (mem : addr ∈ A) (inK : key ∈ K) :
    Journaled apart A s (s.getState addr key).2 ∧ (s.getState addr key).2.ledger = s.ledger := by
  unfold getState
  rcases found : s.getStateObject addr with ⟨_ | obj, s'⟩
  · obtain ⟨rfl, -⟩ := getStateObject_none found
    exact ⟨.refl sound, rfl⟩
  · obtain ⟨-, coherent⟩ := sound.getStateObject mem found
    exact refresh_spec sound mem found (coherent.getState inK) (StateObject.deleted_getState key)
      (StateObject.view_getState key)

theorem getCodeSize_snd (s : StateDB C) (addr : Address) : (s.getCodeSize addr).2 = (s.getStateObject addr).2 := by
  unfold getCodeSize
  rcases s.getStateObject addr with ⟨_ | obj, s'⟩ <;> rfl

end StateDB

open StateDB

variable {s : StateDB C} {q : Query}

/-- A question is answered from the ledger. -/
theorem Query.ask_fst (apart : C.SlotsApart K) (within : q.Within A K)
    (coherent : ∀ {addr obj}, s.stateObjects.lookup addr = some obj → obj.Coherent C K) :
    (q.ask s).1 = q.answer s.ledger := by
  have read : ∀ {α : Type} (f : Option StateObject → α) (g : Option LedgerAccount → α) (addr : Address),
      (∀ obj, f obj = g (obj.map fun obj => obj.view s.db)) → f (s.getStateObject addr).1 = g (s.account addr) :=
    fun f g addr agree => by rw [agree, view_getStateObject]
  cases q with
  | exist addr => exact read Option.isSome Option.isSome addr (by simp)
  | empty addr =>
    refine read (Option.all (·.empty C)) (Option.all (·.empty C)) addr fun obj => ?_
    cases obj <;> rfl
  | getBalance addr =>
    refine read (fun obj => (obj.map (·.data.balance)).getD 0) (fun account => (account.map (·.balance)).getD 0) addr
      fun obj => ?_
    cases obj <;> rfl
  | getNonce addr =>
    refine read (fun obj => (obj.map (·.data.nonce)).getD 0) (fun account => (account.map (·.nonce)).getD 0) addr
      fun obj => ?_
    cases obj <;> rfl
  | getCodeHash addr =>
    refine read (fun obj => (obj.map (·.data.codeHash)).getD 0) (fun account => (account.map (·.codeHash)).getD 0) addr
      fun obj => ?_
    cases obj <;> rfl
  | getCode addr => exact getCode_fst s addr
  | getCodeSize addr => exact getCodeSize_fst s addr
  | getState addr key => exact getState_fst apart coherent within.2
  | hasSuicided addr =>
    refine read (Option.any (·.suicided)) (Option.any (·.suicided)) addr fun obj => ?_
    cases obj <;> rfl
  | getRefund | getLogs hash | preimage hash => rfl

/-- A question leaves the ledger as it is. -/
theorem Query.ask_snd (apart : C.SlotsApart K) (within : q.Within A K) (sound : s.Sound A K) :
    Journaled apart A s (q.ask s).2 ∧ (q.ask s).2.ledger = s.ledger := by
  cases q with
  | exist addr | empty addr | getBalance addr | getNonce addr | getCodeHash addr | hasSuicided addr =>
    exact getStateObject_spec sound within
  | getCode addr => exact getCode_spec sound within
  | getCodeSize addr =>
    change Journaled apart A s (s.getCodeSize addr).2 ∧ (s.getCodeSize addr).2.ledger = s.ledger
    rw [getCodeSize_snd]
    exact getStateObject_spec sound within
  | getState addr key => exact getState_spec sound within.1 within.2
  | getRefund | getLogs hash | preimage hash => exact ⟨.refl sound, rfl⟩

/-- A question is answered from the ledger, which stays as it is. -/
theorem Query.ask_spec (apart : C.SlotsApart K) (within : q.Within A K) (sound : s.Sound A K) :
    (q.ask s).1 = q.answer s.ledger ∧ Journaled apart A s (q.ask s).2 ∧ (q.ask s).2.ledger = s.ledger :=
  ⟨ask_fst apart within sound.coherent, ask_snd apart within sound⟩

/-- A change is made to the ledger and recorded in the journal. -/
theorem Update.apply_spec (apart : C.SlotsApart K) {m : Update} (within : m.Within A K) (sound : s.Sound A K) :
    Journaled apart A s (m.apply s) ∧ (m.apply s).ledger = m.onLedger s.context s.ledger := by
  cases m with
  | createAccount addr => exact createAccount_spec apart sound within
  | addBalance addr amount => exact addBalance_spec apart sound within amount
  | subBalance addr amount => exact subBalance_spec apart sound within amount
  | setBalance addr amount => exact setBalance_spec apart sound within amount
  | setNonce addr nonce => exact setNonce_spec apart sound within nonce
  | setCode addr code => exact setCode_spec apart sound within code
  | setState addr key value => exact setState_spec apart sound within.1 within.2 value
  | suicide addr => exact (suicide_spec apart sound within).2
  | addRefund gas => exact addRefund_spec apart sound gas
  | addLog log => exact addLog_spec apart sound log
  | addPreimage hash preimage => exact addPreimage_spec apart sound hash preimage
  | prepare thash bhash txIndex =>
    exact ⟨.of_ledger (sound.congr rfl rfl rfl) rfl rfl (.of_objects rfl rfl) rfl rfl, rfl⟩

end KKChain
