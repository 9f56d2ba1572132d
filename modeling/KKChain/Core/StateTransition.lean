import KKChain.Vm.Evm

/-! # The state transition of a message

`TransitionDb` buys the gas of a message from the pool of the block, pays the intrinsic gas, runs the virtual machine
and settles: the sender gets back what is left with the refund, the coinbase is paid for what was used, and the pool
gets the rest back. An error ends the transition where it is.
-/

namespace KKChain

open Client Vm UInt64

structure Message where
  sender : Address
  /-- Absent for a contract creation. -/
  receiver : Option Address
  nonce : UInt64
  amount : Option ℤ
  gasLimit : UInt64
  gasPrice : ℤ
  data : Bytes
  checkNonce : Bool
deriving DecidableEq

/-- What the gas limit costs. -/
def Message.mgval (msg : Message) : ℤ := msg.gasLimit.toNat * msg.gasPrice

/-- The errors of `TransitionDb`. -/
inductive TransitionError where
  | nonceTooHigh
  | nonceTooLow
  | insufficientBalanceForGas
  | gasLimitReached
  | outOfGas
  | insufficientBalance
deriving DecidableEq, Repr

/-- The state database and the gas pool of a block. -/
structure Workspace (C : Crypto) where
  state : StateDB C
  pool : UInt64

/-- `IntrinsicGas`, absent if it is no word. -/
def intrinsicGas (data : Bytes) (contractCreation : Bool) : Option UInt64 :=
  let gas : UInt64 := if contractCreation then 53000 else 0
  if data = [] then some gas
  else
    let nz := UInt64.ofNat (data.countP (· ≠ 0))
    if (0xffffffffffffffff - gas) / 68 < nz then none
    else
      let gas := gas + nz * 68
      let z := UInt64.ofNat data.length - nz
      if (0xffffffffffffffff - gas) / 4 < z then none else some (gas + z * 4)

namespace Transition

variable {C : Crypto}

/-- A client of the state database, as a part of the transition. -/
def onState {δ ε α : Type} (f : Fault δ → Fault ε) (x : Proc δ (StateDB C) α) : Proc ε (Workspace C) α := fun w =>
  match x.run w.state with
  | .ok a s => .ok a { w with state := s }
  | .error e s => .error (f e) { w with state := s }

/-- A client that returns no error. -/
def lift {ε α : Type} (x : Proc Empty (StateDB C) α) : Proc ε (Workspace C) α := onState (Fault.map Empty.elim) x

def subGas (amount : UInt64) : Proc TransitionError (Workspace C) Unit := do
  let w ← get
  if w.pool < amount then throw (.error .gasLimitReached) else set { w with pool := w.pool - amount }

def addGas (amount : UInt64) : Proc TransitionError (Workspace C) Unit := do
  let w ← get
  if 0xffffffffffffffff - amount < w.pool then throw .panic else set { w with pool := w.pool + amount }

variable (evm : Evm C) (coinbase : Address) (msg : Message) {P : StateDB C → Prop} {ε α : Type} {addr : Address}
  {gas left amount : UInt64}

def buyGas : Proc TransitionError (Workspace C) Unit := do
  let balance ← lift (getBalance msg.sender)
  if balance < msg.mgval then throw (.error .insufficientBalanceForGas)
  else do
    subGas msg.gasLimit
    lift (perform (.subBalance msg.sender msg.mgval))

def preCheck : Proc TransitionError (Workspace C) Unit :=
  if msg.checkNonce then do
    let nonce ← lift (getNonce msg.sender)
    if nonce < msg.nonce then throw (.error .nonceTooHigh)
    else if msg.nonce < nonce then throw (.error .nonceTooLow)
    else buyGas msg
  else buyGas msg

/-- The virtual machine runs the message: the output, the gas that is left and the error. -/
def execute (gas : UInt64) : Proc Empty (StateDB C) (Bytes × UInt64 × Option VmError) :=
  match msg.receiver with
  | none => do
    let (ret, _, left, err) ← evm.create msg.sender msg.data gas msg.amount
    return (ret, left, err)
  | some receiver => do
    let nonce ← getNonce msg.sender
    perform (.setNonce msg.sender (nonce + 1))
    evm.call msg.sender receiver msg.data gas msg.amount

/-- `refundGas`: the gas that is not used after the refund. -/
def refundGas (gas : UInt64) : Proc TransitionError (Workspace C) UInt64 := do
  let counter ← lift getRefund
  let half := (msg.gasLimit - gas) / 2
  let gas := gas + if counter < half then counter else half
  lift (perform (.addBalance msg.sender (gas.toNat * msg.gasPrice)))
  addGas gas
  return gas

/-- The end of `TransitionDb`: what is left goes back, and the coinbase is paid. -/
def settle (ret : Bytes) (left : UInt64) (failed : Bool) :
    Proc TransitionError (Workspace C) (Bytes × UInt64 × Bool) := do
  let gas ← refundGas msg left
  lift (perform (.addBalance coinbase ((msg.gasLimit - gas).toNat * msg.gasPrice)))
  return (ret, msg.gasLimit - gas, failed)

/-- `TransitionDb`: the output, the gas used and whether the virtual machine failed. -/
def transitionDb : Proc TransitionError (Workspace C) (Bytes × UInt64 × Bool) := do
  preCheck msg
  match intrinsicGas msg.data msg.receiver.isNone with
  | none => throw (.error .outOfGas)
  | some gas =>
    if msg.gasLimit < gas then throw (.error .outOfGas)
    else do
      let (ret, left, err) ← lift (execute evm msg (msg.gasLimit - gas))
      if err = some .insufficientBalance then throw (.error .insufficientBalance)
      else settle coinbase msg ret left err.isSome

/-- The error of `preCheck`, seen from the ledger and the pool. -/
def preCheckError (l : Ledger C) (pool : UInt64) (msg : Message) : Option TransitionError :=
  if msg.checkNonce ∧ l.nonceOf msg.sender < msg.nonce then some .nonceTooHigh
  else if msg.checkNonce ∧ msg.nonce < l.nonceOf msg.sender then some .nonceTooLow
  else if l.balanceOf msg.sender < msg.mgval then some .insufficientBalanceForGas
  else if pool < msg.gasLimit then some .gasLimitReached
  else none

/-- The error after the gas was bought. -/
def lateError (l : Ledger C) (msg : Message) : Option TransitionError :=
  match intrinsicGas msg.data msg.receiver.isNone with
  | none => some .outOfGas
  | some gas =>
    if msg.gasLimit < gas then some .outOfGas
    else if msg.amount.any (l.balanceOf msg.sender - msg.mgval < ·) then some .insufficientBalance
    else none

section Rules

variable {A : Set Address} {K : Set Hash} {base : ℕ} {s₀ : StateDB C} {l : Ledger C} {pool : UInt64} {msg : Message}
  {evm : Evm C} {coinbase : Address} {x : Proc Empty (StateDB C) α}

/-- The pool, and what is known of the state. -/
def With (pool : UInt64) (P : StateDB C → Prop) (w : Workspace C) : Prop := w.pool = pool ∧ P w.state

theorem lift_spec {Q : α → StateDB C → Prop}
    {E : Fault Empty → StateDB C → Prop} {E' : Fault ε → Workspace C → Prop} (spec : Proc.Spec P x Q E)
    (fault : ∀ e w, With pool (E e) w → E' (e.map Empty.elim) w) :
    Proc.Spec (With pool P) (lift x) (fun a => With pool (Q a)) E' := by
  rintro w ⟨rfl, start⟩
  have post := spec w.state start
  cases outcome : x.run w.state with
  | ok a s =>
    have ran : (lift x : Proc ε (Workspace C) α).run w = .ok a { w with state := s } := by
      rw [lift, EStateM.run, onState, outcome]
    rw [outcome] at post
    rw [ran]
    exact ⟨rfl, post⟩
  | error e s =>
    have ran : (lift x : Proc ε (Workspace C) α).run w = .error (e.map Empty.elim) { w with state := s } := by
      rw [lift, EStateM.run, onState, outcome]
    rw [outcome] at post
    rw [ran]
    exact fault e _ ⟨rfl, post⟩

theorem lift_eq_ok {w w' : Workspace C} {a : α} (ran : (lift x : Proc ε (Workspace C) α).run w = .ok a w') :
    ∃ s, x.run w.state = .ok a s ∧ w' = { w with state := s } := by
  rw [lift, EStateM.run, onState] at ran
  cases outcome : x.run w.state with
  | ok a' s =>
    rw [outcome] at ran
    cases ran
    exact ⟨s, rfl, rfl⟩
  | error e s =>
    rw [outcome] at ran
    cases ran

theorem With.assume {φ : Prop} {x : Proc ε (Workspace C) α}
    {Q : α → Workspace C → Prop} {E : Fault ε → Workspace C → Prop} (spec : φ → Proc.Spec (With pool P) x Q E) :
    Proc.Spec (With pool fun s => φ ∧ P s) x Q E := fun w start => spec start.2.1 w ⟨start.1, start.2.2⟩

theorem subGas_spec {E : Fault TransitionError → Workspace C → Prop}
    (short : pool < amount → ∀ w, With pool P w → E (.error .gasLimitReached) w) :
    Proc.Spec (With pool P) (subGas amount) (fun _ w => amount ≤ pool ∧ With (pool - amount) P w) E := by
  refine .get_bind fun w => ?_
  refine .ite (fun less => .throw ?_) fun enough => ?_
  · rintro _ ⟨rfl, rfl, here⟩
    exact short less _ ⟨rfl, here⟩
  · rintro _ ⟨rfl, rfl, here⟩
    exact ⟨UInt64.not_lt.mp enough, rfl, here⟩

variable (slots : C.SlotsApart K) (accounts : C.AccountsApart A) {failed : Bool} {ret : Bytes}
include slots accounts

theorem lift_getBalance {E : Fault ε → Workspace C → Prop} (mem : addr ∈ A) :
    Proc.Spec (With pool (At A K base s₀ l)) (lift (getBalance addr))
      (fun a => With pool fun s => a = l.balanceOf addr ∧ At A K base s₀ l s) E :=
  lift_spec (E := fun _ _ => False) (getBalance_spec slots accounts mem) fun _ _ h => h.2.elim

theorem lift_getNonce {E : Fault ε → Workspace C → Prop} (mem : addr ∈ A) :
    Proc.Spec (With pool (At A K base s₀ l)) (lift (getNonce addr))
      (fun a => With pool fun s => a = l.nonceOf addr ∧ At A K base s₀ l s) E :=
  lift_spec (E := fun _ _ => False) (getNonce_spec slots accounts mem) fun _ _ h => h.2.elim

theorem lift_perform {m : Update} {l' : Ledger C} {E : Fault ε → Workspace C → Prop} (within : m.Within A K)
    (effect : ∀ context, m.onLedger context l = l') :
    Proc.Spec (With pool (At A K base s₀ l)) (lift (perform m)) (fun _ => With pool (At A K base s₀ l')) E :=
  lift_spec (E := fun _ _ => False) (perform_spec slots accounts within effect) fun _ _ h => h.2.elim

theorem buyGas_spec (sender : msg.sender ∈ A) (notHigh : ¬(msg.checkNonce ∧ l.nonceOf msg.sender < msg.nonce))
    (notLow : ¬(msg.checkNonce ∧ msg.nonce < l.nonceOf msg.sender)) :
    Proc.Spec (With pool (At A K base s₀ l)) (buyGas msg)
      (fun _ w => preCheckError l pool msg = none ∧
        With (pool - msg.gasLimit) (At A K base s₀ (l.subBalance msg.sender msg.mgval)) w)
      fun e w => ∃ err, e = .error err ∧ preCheckError l pool msg = some err ∧ With pool (At A K base s₀ l) w := by
  rw [preCheckError, if_neg notHigh, if_neg notLow]
  refine .bind (lift_getBalance slots accounts sender) fun balance => With.assume fun isBalance => ?_
  subst isBalance
  refine .ite (fun poor => .throw fun w here => ⟨_, rfl, if_pos poor, here⟩) fun rich => ?_
  rw [if_neg rich]
  refine .bind (subGas_spec fun short w here => ⟨_, rfl, if_pos short, here⟩) fun _ => .assume fun enough => ?_
  rw [if_neg (UInt64.not_lt.mpr enough)]
  exact (lift_perform slots accounts (E := fun _ _ => False) (m := .subBalance msg.sender msg.mgval) sender
    fun _ => rfl).mono (fun _ => id) (fun _ w here => ⟨rfl, here⟩) fun _ _ => False.elim

/-- The gas is bought, or there is an error and nothing has happened. -/
theorem preCheck_spec (sender : msg.sender ∈ A) :
    Proc.Spec (With pool (At A K base s₀ l)) (preCheck msg)
      (fun _ w => preCheckError l pool msg = none ∧
        With (pool - msg.gasLimit) (At A K base s₀ (l.subBalance msg.sender msg.mgval)) w)
      fun e w => ∃ err, e = .error err ∧ preCheckError l pool msg = some err ∧ With pool (At A K base s₀ l) w := by
  have buys := @buyGas_spec C A K base s₀ l pool msg slots accounts sender
  refine .ite (fun checks => ?_) fun unchecked => buys (fun h => unchecked h.1) fun h => unchecked h.1
  refine .bind (lift_getNonce slots accounts sender) fun nonce => With.assume fun isNonce => ?_
  subst isNonce
  refine .ite (fun high => .throw fun w here => ⟨_, rfl, if_pos ⟨checks, high⟩, here⟩) fun notHigh => ?_
  refine .ite (fun low => .throw fun w here => ⟨_, rfl, ?_, here⟩) fun notLow => ?_
  · rw [preCheckError, if_neg fun h => notHigh h.2, if_pos ⟨checks, low⟩]
  · exact buys (fun h => notHigh h.2) fun h => notLow h.2

omit slots accounts in
theorem addGas_spec {E : Fault TransitionError → Workspace C → Prop}
    (carries : 0xffffffffffffffff - amount < pool → ∀ w, With pool P w → E .panic w) :
    Proc.Spec (With pool P) (addGas amount) (fun _ => With (pool + amount) P) E := by
  refine .get_bind fun w => ?_
  refine .ite (fun less => .throw ?_) fun enough => ?_
  · rintro _ ⟨rfl, rfl, here⟩
    exact carries less _ ⟨rfl, here⟩
  · rintro _ ⟨rfl, rfl, here⟩
    exact ⟨rfl, here⟩

/-- The refund for the gas that was used before it. -/
def refundOf (l : Ledger C) (msg : Message) (gas : UInt64) : UInt64 :=
  if l.refund < (msg.gasLimit - gas) / 2 then l.refund else (msg.gasLimit - gas) / 2

theorem refundGas_spec (sender : msg.sender ∈ A) : Proc.Spec (With pool (At A K base s₀ l)) (refundGas msg gas)
      (fun g w => g = gas + refundOf l msg gas ∧
        With (pool + g) (At A K base s₀ (l.addBalance msg.sender (g.toNat * msg.gasPrice))) w)
      fun e w => e = .panic ∧ 0xffffffffffffffff - (gas + refundOf l msg gas) < pool ∧ Since A K base s₀ w.state := by
  refine .bind (lift_spec (E := fun _ _ => False) (getRefund_spec slots accounts) fun _ _ h => h.2.elim)
    fun counter => With.assume fun isCounter => ?_
  subst isCounter
  have credits : ∀ g : UInt64, ∀ context, (Update.addBalance msg.sender (g.toNat * msg.gasPrice)).onLedger context l =
      l.addBalance msg.sender (g.toNat * msg.gasPrice) := fun _ _ => rfl
  refine .bind (lift_perform slots accounts (m := .addBalance ..) sender (credits _)) fun _ => ?_
  refine .bind (addGas_spec fun carries w here => ⟨rfl, carries, here.2.1⟩) fun _ => ?_
  exact .pure fun w here => ⟨rfl, here⟩

theorem settle_spec (sender : msg.sender ∈ A) (paid : coinbase ∈ A) :
    Proc.Spec (With pool (At A K base s₀ l)) (settle coinbase msg ret left failed)
      (fun r w => r = (ret, msg.gasLimit - (left + refundOf l msg left), failed) ∧
        With (pool + (left + refundOf l msg left)) (At A K base s₀
          ((l.addBalance msg.sender ((left + refundOf l msg left).toNat * msg.gasPrice)).addBalance coinbase
            ((msg.gasLimit - (left + refundOf l msg left)).toNat * msg.gasPrice))) w)
      fun e w => e = .panic ∧ 0xffffffffffffffff - (left + refundOf l msg left) < pool ∧ Since A K base s₀ w.state := by
  refine .bind (refundGas_spec slots accounts sender) fun gas => .assume fun isGas => ?_
  subst isGas
  refine .bind (lift_perform slots accounts (m := .addBalance ..) paid fun _ => rfl) fun _ => ?_
  exact .pure fun w here => ⟨rfl, here⟩

theorem settle_since (sender : msg.sender ∈ A) (paid : coinbase ∈ A) :
    Proc.Spec (With pool (Since A K base s₀)) (settle coinbase msg ret left failed)
      (fun _ w => Since A K base s₀ w.state) fun e w => e = .panic ∧ Since A K base s₀ w.state := by
  refine .of_each fun w ⟨isPool, since⟩ => ?_
  refine Proc.Spec.mono (P := With pool (At A K base s₀ w.state.ledger)) (settle_spec slots accounts sender paid) ?_
    (fun _ _ post => post.2.2.1) fun _ _ post => ⟨post.1, post.2.2⟩
  rintro _ rfl
  exact ⟨isPool, since, rfl⟩

section Execute

variable (client : evm.run.IsClient A K) (top : evm.depth = 0) (sender : msg.sender ∈ A)
  (receiver : ∀ receiver ∈ msg.receiver, receiver ∈ A) (created : ∀ nonce, createAddress C msg.sender nonce ∈ A)
include client top sender receiver created

/-- The virtual machine refuses for lack of balance exactly if the value is above what the sender has. -/
theorem execute_spec : Proc.Spec (At A K base s₀ l) (execute evm msg gas)
      (fun r s => Since A K base s₀ s ∧ ∃ v, msg.amount = some v ∧ (Evm.Funded r.2.2 ↔ v ≤ l.balanceOf msg.sender))
      fun _ s => Since A K base s₀ s ∧ ∀ v, msg.amount = some v → v ≤ l.balanceOf msg.sender := by
  unfold execute
  cases isReceiver : msg.receiver with
  | none =>
    refine .bind (Evm.create_spec slots accounts client top sender created) fun ⟨ret, _, left, err⟩ => ?_
    exact .pure fun s post => post
  | some r =>
    refine .bind (getNonce_spec slots accounts sender) fun nonce => .assume fun _ => ?_
    have sets : ∀ context, (Update.setNonce msg.sender (nonce + 1)).onLedger context l =
        l.setNonce msg.sender (nonce + 1) :=
      fun _ => rfl
    refine .bind (perform_spec slots accounts (m := .setNonce ..) sender sets) fun _ => ?_
    have same := l.balanceOf_setNonce msg.sender (nonce + 1) msg.sender
    rw [← same]
    exact Evm.call_spec slots accounts client top sender (receiver r isReceiver)

/-- The transition ends before the gas is bought, or after it. -/
theorem transitionDb_spec (paid : coinbase ∈ A) :
    Proc.Spec (With pool (At A K base s₀ l)) (transitionDb evm coinbase msg)
      (fun _ w => preCheckError l pool msg = none ∧ lateError l msg = none ∧ Since A K base s₀ w.state)
      fun e w => (∃ err, e = .error err ∧ preCheckError l pool msg = some err ∧ With pool (At A K base s₀ l) w) ∨
        preCheckError l pool msg = none ∧ Since A K base s₀ w.state ∧
          ((∃ err, e = .error err ∧ lateError l msg = some err ∧ w.pool = pool - msg.gasLimit) ∨
            (∀ err, e ≠ .error err) ∧ lateError l msg = none) := by
  refine .bind ((preCheck_spec slots accounts sender).mono (fun _ => id) (fun _ _ => id) fun _ _ post => .inl post)
    fun _ => .assume fun passed => ?_
  unfold lateError
  cases intrinsic : intrinsicGas msg.data msg.receiver.isNone with
  | none => exact .throw fun w here => .inr ⟨passed, here.2.1, .inl ⟨_, rfl, rfl, here.1⟩⟩
  | some gas =>
    refine .ite (fun short => .throw fun w here => .inr ⟨passed, here.2.1, .inl ⟨_, rfl, if_pos short, here.1⟩⟩)
      fun enough => ?_
    simp only [if_neg enough]
    have own : (l.subBalance msg.sender msg.mgval).balanceOf msg.sender = l.balanceOf msg.sender - msg.mgval := by simp
    refine .bind (lift_spec (execute_spec slots accounts client top sender receiver created) fun e w h => ?_)
      fun ⟨ret, left, err⟩ => ?_
    · refine .inr ⟨passed, h.2.1, .inr ⟨fun err same => ?_, ?_⟩⟩
      · cases e with
        | error e => exact e.elim
        | panic | fatal | diverges => cases same
      · rw [own] at h
        rw [if_neg]
        intro above
        obtain ⟨v, present, above⟩ := (Option.any_eq_true ..).mp above
        exact absurd (h.2.2 v present) (not_le.mpr (of_decide_eq_true above))
    · rw [own]
      refine .of_each fun w ⟨isPool, since, v, present, funded⟩ => ?_
      simp only [present, Option.any_some, decide_eq_true_eq]
      refine .ite (fun refused => .throw ?_) fun accepted => ?_
      · rintro _ rfl
        have above : ¬v ≤ l.balanceOf msg.sender - msg.mgval := mt funded.mpr (not_not.mpr refused)
        exact .inr ⟨passed, since, .inl ⟨_, rfl, if_pos (not_le.mp above), isPool⟩⟩
      · have within : ¬l.balanceOf msg.sender - msg.mgval < v := not_lt.mpr (funded.mp accepted)
        refine (settle_since slots accounts sender paid).mono (P := With w.pool (Since A K base s₀)) ?_ ?_ ?_
        · rintro _ rfl
          exact ⟨rfl, since⟩
        · exact fun _ w' post => ⟨passed, if_neg within, post⟩
        · rintro e w' ⟨rfl, since'⟩
          exact .inr ⟨passed, since', .inr ⟨fun _ => nofun, if_neg within⟩⟩

/-- A transition that completes has bought the gas, run the virtual machine and settled. -/
theorem transitionDb_eq_ok (paid : coinbase ∈ A) {w w' : Workspace C} {used : UInt64}
    (here : At A K base s₀ l w.state) (ran : (transitionDb evm coinbase msg).run w = .ok (ret, used, failed) w') :
    ∃ gas s₁ left err s₂, (gas ≤ msg.gasLimit ∧ intrinsicGas msg.data msg.receiver.isNone = some gas) ∧
      msg.gasLimit ≤ w.pool ∧ (preCheck msg).run w = .ok () ⟨s₁, w.pool - msg.gasLimit⟩ ∧
      At A K base s₀ (l.subBalance msg.sender msg.mgval) s₁ ∧
      (execute evm msg (msg.gasLimit - gas)).run s₁ = .ok (ret, left, err) s₂ ∧ failed = err.isSome ∧
      used = msg.gasLimit - (left + refundOf s₂.ledger msg left) ∧
      With (w.pool - msg.gasLimit + (left + refundOf s₂.ledger msg left)) (At A K base s₀
          ((s₂.ledger.addBalance msg.sender ((left + refundOf s₂.ledger msg left).toNat * msg.gasPrice)).addBalance
            coinbase (used.toNat * msg.gasPrice))) w' := by
  unfold transitionDb at ran
  obtain ⟨_, w₁, checked, ran⟩ := Proc.bind_eq_ok.mp ran
  obtain ⟨passed, pool, here₁⟩ := (preCheck_spec slots accounts sender).ok ⟨rfl, here⟩ checked
  have enough : msg.gasLimit ≤ w.pool := by
    unfold preCheckError at passed
    split_ifs at passed with high low poor short
    exact UInt64.not_lt.mp short
  cases intrinsic : intrinsicGas msg.data msg.receiver.isNone with
  | none => simp [intrinsic] at ran
  | some gas =>
    simp only [intrinsic] at ran
    by_cases short : msg.gasLimit < gas
    · simp [short] at ran
    · rw [if_neg short] at ran
      obtain ⟨⟨ret', left, err⟩, w₂, lifted, ran⟩ := Proc.bind_eq_ok.mp ran
      obtain ⟨s₂, executed, rfl⟩ := lift_eq_ok lifted
      have since := ((execute_spec slots accounts client top sender receiver created).ok here₁ executed).1
      by_cases refused : err = some .insufficientBalance
      · simp [refused] at ran
      · simp only [if_neg refused] at ran
        have start : With (w.pool - msg.gasLimit) (At A K base s₀ s₂.ledger) { w₁ with state := s₂ } :=
          ⟨pool, since, rfl⟩
        obtain ⟨result, settled⟩ := (settle_spec slots accounts sender paid).ok start ran
        cases result
        exact ⟨gas, w₁.state, left, err, s₂, ⟨UInt64.not_lt.mp short, rfl⟩, enough, pool ▸ checked, here₁,
          executed, rfl, rfl, settled⟩

end Execute

end Rules

/-- The run of the virtual machine in a transition. -/
structure Execution (C : Crypto) where
  supplied : UInt64
  left : UInt64
  err : Option VmError
  refund : UInt64
  before : StateDB C
  after : StateDB C

/-- The gas of a message is accounted for. The virtual machine has run on the state after the purchase, with what the
intrinsic gas leaves of the limit. What was used, the refund that its state gives and what was left make up the limit.
Besides what the virtual machine did, the sender has paid for the gas used, the coinbase was paid for it, and it is gone
from the pool. -/
structure Settles (evm : Evm C) (coinbase : Address) (msg : Message) (A : Set Address) (w w' : Workspace C)
    (ret : Bytes) (used : UInt64) (failed : Bool) (x : Execution C) : Prop where
  bought : (preCheck msg).run w = .ok () ⟨x.before, w.pool - msg.gasLimit⟩
  supplied : ∃ gas ≤ msg.gasLimit, intrinsicGas msg.data msg.receiver.isNone = some gas ∧
    x.supplied = msg.gasLimit - gas
  ran : (execute evm msg x.supplied).run x.before = .ok (ret, x.left, x.err) x.after
  failed : failed = x.err.isSome
  counted : x.refund = refundOf x.after.ledger msg x.left
  gas : used.toNat + x.refund.toNat + x.left.toNat = msg.gasLimit.toNat
  refund : 2 * x.refund.toNat ≤ used.toNat + x.refund.toNat
  pool : w'.pool.toNat + used.toNat = w.pool.toNat
  balances : ∀ addr ∈ A, (w'.state.getBalance addr).1 - (w.state.getBalance addr).1 =
    (x.after.getBalance addr).1 - (x.before.getBalance addr).1 -
      (if addr = msg.sender then used.toNat * msg.gasPrice else 0) +
      if addr = coinbase then used.toNat * msg.gasPrice else 0

section Settlement

variable {A : Set Address} {K : Set Hash} {base : ℕ} {s₀ s : StateDB C} {evm : Evm C} {coinbase : Address}
    {msg : Message}
  {l : Ledger C}

theorem getBalance_eq (slots : C.SlotsApart K) (here : At A K base s₀ l s) (mem : addr ∈ A) :
    (s.getBalance addr).1 = l.balanceOf addr := by
  rw [← here.2]
  exact (Query.ask_spec slots (q := .getBalance addr) mem here.1.2.sound).1

/-- The words of gas are settled without a carry. -/
theorem settled_gas {pool : UInt64} (frugal : left ≤ msg.gasLimit) (enough : msg.gasLimit ≤ pool) :
    (msg.gasLimit - (left + refundOf l msg left)).toNat + (refundOf l msg left).toNat + left.toNat =
      msg.gasLimit.toNat ∧
      2 * (refundOf l msg left).toNat ≤ msg.gasLimit.toNat - left.toNat ∧
      (left + refundOf l msg left).toNat = left.toNat + (refundOf l msg left).toNat ∧
      (pool - msg.gasLimit + (left + refundOf l msg left)).toNat +
        (msg.gasLimit - (left + refundOf l msg left)).toNat = pool.toNat := by
  have half : 2 * (refundOf l msg left).toNat ≤ msg.gasLimit.toNat - left.toNat := by
    have spent : ((msg.gasLimit - left) / 2).toNat = (msg.gasLimit.toNat - left.toNat) / 2 := by
      rw [UInt64.toNat_div, UInt64.toNat_sub_of_le _ _ frugal]
      rfl
    unfold refundOf
    split_ifs with below
    · have bound := lt_iff_toNat_lt.mp below
      omega
    · omega
  have word := toNat_lt pool
  have frugal' := le_iff_toNat_le.mp frugal
  have enough' := le_iff_toNat_le.mp enough
  have sum : (left + refundOf l msg left).toNat = left.toNat + (refundOf l msg left).toNat := by
    rw [UInt64.toNat_add, Nat.mod_eq_of_lt]
    omega
  have below : left + refundOf l msg left ≤ msg.gasLimit := by
    rw [le_iff_toNat_le, sum]
    omega
  refine ⟨?_, half, sum, ?_⟩
  · rw [UInt64.toNat_sub_of_le _ _ below, sum]
    omega
  · rw [UInt64.toNat_add, UInt64.toNat_sub_of_le _ _ enough, UInt64.toNat_sub_of_le _ _ below, sum,
      Nat.mod_eq_of_lt] <;> omega

/-- Every transition that completes is settled, whatever the virtual machine did with the gas it was given. -/
theorem transitionDb_settles (slots : C.SlotsApart K) (accounts : C.AccountsApart A) (client : evm.run.IsClient A K)
    (top : evm.depth = 0) (sender : msg.sender ∈ A) (receiver : ∀ receiver ∈ msg.receiver, receiver ∈ A)
    (created : ∀ nonce, createAddress C msg.sender nonce ∈ A) (paid : coinbase ∈ A) {w w' : Workspace C}
    (opened : w.state.Opened A K)
    (frugal : ∀ gas s r t, (execute evm msg gas).run s = .ok r t → r.2.1 ≤ gas) {ret : Bytes} {used : UInt64}
    {failed : Bool} (ran : (transitionDb evm coinbase msg).run w = .ok (ret, used, failed) w') :
    ∃ x, Settles evm coinbase msg A w w' ret used failed x := by
  have here : At A K w.state.nextRevisionId w.state w.state.ledger w.state :=
    ⟨⟨.refl, opened.ready slots accounts⟩, rfl⟩
  obtain ⟨gas, s₁, left, err, s₂, ⟨intrinsic, isGas⟩, enough, bought, here₁, executed, failed, rfl, pool, here'⟩ :=
    transitionDb_eq_ok slots accounts client top sender receiver created paid here ran
  have since := (execute_spec slots accounts client top sender receiver created).ok here₁ executed
  have here₂ : At A K w.state.nextRevisionId w.state s₂.ledger s₂ := ⟨since.1, rfl⟩
  have supplied : msg.gasLimit - gas ≤ msg.gasLimit := by
    rw [UInt64.le_iff_toNat_le, UInt64.toNat_sub_of_le _ _ intrinsic]
    omega
  have kept : left ≤ msg.gasLimit := UInt64.le_trans (frugal _ _ _ _ executed) supplied
  obtain ⟨total, half, sum, back⟩ := settled_gas (l := s₂.ledger) kept enough
  refine ⟨⟨msg.gasLimit - gas, left, err, refundOf s₂.ledger msg left, s₁, s₂⟩, bought, ⟨gas, intrinsic, isGas, rfl⟩,
    executed, failed, rfl, total, ?_, ?_, ?_⟩
  · dsimp only
    omega
  · rw [pool]
    exact back
  · intro addr member
    rw [getBalance_eq slots here' member, getBalance_eq slots here member, getBalance_eq slots here₂ member,
      getBalance_eq slots here₁ member]
    simp only [Ledger.balanceOf_addBalance, Ledger.balanceOf_subBalance, Message.mgval]
    have money : (msg.gasLimit.toNat : ℤ) * msg.gasPrice =
        (msg.gasLimit - (left + refundOf s₂.ledger msg left)).toNat * msg.gasPrice +
          (left + refundOf s₂.ledger msg left).toNat * msg.gasPrice := by
      rw [← add_mul]
      congr 1
      omega
    rw [money]
    split_ifs <;> ring

theorem execute_frugal (frugal : evm.run.IsFrugal) {s t : StateDB C} {r : Bytes × UInt64 × Option VmError}
    (ran : (execute evm msg gas).run s = .ok r t) : r.2.1 ≤ gas := by
  have spec : Proc.Spec (fun _ => True) (execute evm msg gas) (fun r _ => r.2.1 ≤ gas) fun _ _ => True := by
    unfold execute
    cases msg.receiver with
    | none => exact .bind (Evm.create_frugal frugal) fun _ => .pure fun _ => id
    | some receiver => exact .bind (Evm.anything _) fun _ => .bind (Evm.anything _) fun _ => Evm.call_frugal frugal
  exact spec.ok trivial ran

/-- An interpreter that does nothing and keeps the gas. -/
def idle : Evm .numeral := ⟨0, false, fun contract _ => pure ([], contract.gas, none)⟩

/-- A transfer of 1 with a byte of data. -/
def oneByte (gasLimit : UInt64) : Message := ⟨7, some 8, 0, some 1, gasLimit, 2, [1], true⟩

/-- An account with 300, and a pool of 1000. -/
def saved : Workspace .numeral := ⟨(StateDB.ofTrie (.blank .numeral) .empty).addBalance 7 300, 1000⟩

theorem opened_saved : saved.state.Opened Set.univ ∅ :=
  ⟨.blank .numeral, .empty, _, .cons (l := .update (.addBalance 7 300)) rfl (.nil _),
    by simp [StateCall.Within, Update.Within, StateCall.Recalls]⟩

theorem isClient_idle {A : Set Address} {K : Set Hash} : idle.run.IsClient A K := fun _ _ _ _ => .pure fun _ => id

/-- The transfer uses the 68 gas of its data. -/
theorem transitionDb_settles_oneByte : ∃ w' x,
    (transitionDb idle 9 (oneByte 100)).run saved = .ok ([], 68, false) w' ∧
      Settles idle 9 (oneByte 100) Set.univ saved w' [] 68 false x := by
  obtain ⟨w', ran⟩ : ∃ w', (transitionDb idle 9 (oneByte 100)).run saved = .ok ([], 68, false) w' := by
    decide +kernel
  have frugal : idle.run.IsFrugal := fun _ _ => .pure fun _ _ => UInt64.le_refl _
  obtain ⟨x, settles⟩ := transitionDb_settles (K := ∅) (Set.injOn_empty _) (accountsApart_numeral Set.univ)
    isClient_idle rfl trivial (fun _ _ => trivial) (fun _ => trivial) trivial opened_saved
      (fun _ _ _ _ => execute_frugal frugal) ran
  exact ⟨w', x, ran, settles⟩

end Settlement

end Transition

end KKChain
