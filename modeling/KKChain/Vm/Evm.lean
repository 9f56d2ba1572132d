import KKChain.State.Client

/-! # Message calls and contract creation

`Call` and `Create` of the virtual machine over a state database. The interpreter, with the precompiled contracts and
the calls that contracts make in turn, is a parameter: it is a client of the state database that leaves some gas.
-/

namespace KKChain.Vm

open Client

/-- The errors of the interpreter. -/
inductive RunError where
  | executionReverted
  | outOfGas
  | other
deriving DecidableEq, Repr

/-- The errors of `Call` and `Create`. -/
inductive VmError where
  | depth
  | insufficientBalance
  | contractAddressCollision
  | codeStoreOutOfGas
  | maxCodeSizeExceeded
  | run (e : RunError)
deriving DecidableEq, Repr

/-- `Contract`, as it is handed to the interpreter. -/
structure Contract where
  caller : Address
  self : Address
  codeAddr : Address
  codeHash : Hash
  code : Bytes
  gas : UInt64
  value : ℤ

/-- What the interpreter does: the output, the gas that is left and the error. -/
abbrev Interpreter (C : Crypto) := Contract → Bytes → Proc Empty (StateDB C) (Bytes × UInt64 × Option RunError)

structure Evm (C : Crypto) where
  depth : ℕ
  noRecursion : Bool
  run : Interpreter C

def callCreateDepth : ℕ := 1024

def maxCodeSize : ℕ := 24576

def createDataGas : UInt64 := 200

/-- The keys of `PrecompiledContracts`. -/
def isPrecompiled (addr : Address) : Bool := 1 ≤ addr && addr ≤ 8

def createAddress (C : Crypto) (addr : Address) (nonce : UInt64) : Address :=
  Address.ofBytes ((((Rlp.rlpHash C (.list [.bytes addr.bytes, .uint nonce])).getD 0).bytes).drop 12)

/-- The gas that is left after an error: a revert keeps it. -/
def gasAfter (gas : UInt64) : VmError → UInt64
  | .run .executionReverted => gas
  | _ => 0

namespace Evm

variable {C : Crypto} (evm : Evm C)

def transfer (sender recipient : Address) (amount : ℤ) : Proc Empty (StateDB C) Unit := do
  perform (.subBalance sender amount)
  perform (.addBalance recipient amount)

/-- `Call` after its checks, with the account in place. -/
def enter (snapshot : ℕ) (caller addr : Address) (input : Bytes) (gas : UInt64) (value : ℤ) :
    Proc Empty (StateDB C) (Bytes × UInt64 × Option VmError) := do
  transfer caller addr value
  let codeHash ← getCodeHash addr
  let code ← getCode addr
  let (ret, left, err) ← evm.run ⟨caller, addr, addr, codeHash, code, gas, value⟩ input
  match err with
  | none => return (ret, left, none)
  | some e => do
    revertToSnapshot snapshot
    return (ret, gasAfter left (.run e), some (.run e))

/-- `Call`. An absent value is dereferenced. -/
def call (caller addr : Address) (input : Bytes) (gas : UInt64) (value : Option ℤ) :
    Proc Empty (StateDB C) (Bytes × UInt64 × Option VmError) :=
  if evm.noRecursion && 0 < evm.depth then return ([], gas, none)
  else if callCreateDepth < evm.depth then return ([], gas, some .depth)
  else do
    let value ← Proc.orFault .panic value
    let balance ← getBalance caller
    if balance < value then return ([], gas, some .insufficientBalance)
    else do
      let snap ← snapshot
      let found ← exist addr
      if found then evm.enter snap caller addr input gas value
      else if !isPrecompiled addr && value = 0 then return ([], gas, none)
      else do
        perform (.createAccount addr)
        evm.enter snap caller addr input gas value

/-- The code a creation returned is stored, if it can be paid for. -/
def storeCode (address : Address) (ret : Bytes) (left : UInt64) (err : Option RunError) :
    Proc Empty (StateDB C) (UInt64 × Option VmError) :=
  match err with
  | some e => return (left, some (.run e))
  | none =>
    if maxCodeSize < ret.length then return (left, none)
    else
      let cost := UInt64.ofNat ret.length * createDataGas
      if left < cost then return (left, some .codeStoreOutOfGas)
      else do
        perform (.setCode address ret)
        return (left - cost, none)

/-- The end of `create`: the error decides whether the creation is taken back. -/
def finishCreate (snapshot : ℕ) (address : Address) (ret : Bytes) (left : UInt64) (err : Option VmError) :
    Proc Empty (StateDB C) (Bytes × Address × UInt64 × Option VmError) :=
  match err with
  | some .codeStoreOutOfGas => return (ret, address, left, some .codeStoreOutOfGas)
  | some e => do
    revertToSnapshot snapshot
    return (ret, address, gasAfter left e, some e)
  | none =>
    if maxCodeSize < ret.length then do
      revertToSnapshot snapshot
      return (ret, address, 0, some .maxCodeSizeExceeded)
    else return (ret, address, left, none)

/-- `create`. -/
def createAt (caller : Address) (code : Bytes) (gas : UInt64) (value : Option ℤ) (address : Address) :
    Proc Empty (StateDB C) (Bytes × Address × UInt64 × Option VmError) :=
  if callCreateDepth < evm.depth then return ([], 0, gas, some .depth)
  else do
    let value ← Proc.orFault .panic value
    let balance ← getBalance caller
    if balance < value then return ([], 0, gas, some .insufficientBalance)
    else do
      let nonce ← getNonce caller
      perform (.setNonce caller (nonce + 1))
      let contractHash ← getCodeHash address
      let used ← getNonce address
      if used ≠ 0 ∨ (contractHash ≠ 0 ∧ contractHash ≠ C.keccak []) then
        return ([], 0, 0, some .contractAddressCollision)
      else do
        let snap ← snapshot
        perform (.createAccount address)
        perform (.setNonce address 1)
        transfer caller address value
        if evm.noRecursion && 0 < evm.depth then return ([], address, gas, none)
        else do
          let (ret, left, err) ← evm.run ⟨caller, address, address, C.keccak code, code, gas, value⟩ []
          let (left, err) ← storeCode address ret left err
          finishCreate snap address ret left err

def create (caller : Address) (code : Bytes) (gas : UInt64) (value : Option ℤ) :
    Proc Empty (StateDB C) (Bytes × Address × UInt64 × Option VmError) := do
  let nonce ← getNonce caller
  evm.createAt caller code gas value (createAddress C caller nonce)

end Evm

/-- The interpreter leaves no more gas than it was given. -/
def Interpreter.IsFrugal {C : Crypto} (run : Interpreter C) : Prop :=
  ∀ contract input, Proc.Spec (fun _ => True) (run contract input) (fun r _ => r.2.1 ≤ contract.gas) fun _ _ => True

namespace Evm

section Frugal

variable {C : Crypto} {evm : Evm C} {caller addr : Address} {input : Bytes} {gas : UInt64} {value : Option ℤ}
  (frugal : evm.run.IsFrugal)

/-- A program about which nothing is asked. -/
theorem anything {α : Type} (x : Proc Empty (StateDB C) α) :
    Proc.Spec (fun _ => True) x (fun _ _ => True) fun _ _ => True := fun s _ => by
  cases x.run s <;> trivial

theorem gasAfter_le (gas : UInt64) (e : VmError) : gasAfter gas e ≤ gas := by
  unfold gasAfter
  split
  · exact UInt64.le_refl _
  · exact UInt64.zero_le

theorem storeCode_frugal (ret : Bytes) (left : UInt64) (err : Option RunError) :
    Proc.Spec (fun _ : StateDB C => True) (storeCode addr ret left err) (fun r _ => r.1 ≤ left) fun _ _ => True := by
  unfold storeCode
  cases err with
  | some e => exact .pure fun _ _ => UInt64.le_refl _
  | none =>
    refine .ite (fun _ => .pure fun _ _ => UInt64.le_refl _) fun _ => ?_
    refine .ite (fun _ => .pure fun _ _ => UInt64.le_refl _) fun enough => ?_
    refine .bind (anything _) fun _ => .pure fun _ _ => ?_
    rw [UInt64.le_iff_toNat_le, UInt64.toNat_sub_of_le _ _ (UInt64.not_lt.mp enough)]
    omega

theorem finishCreate_frugal (snap : ℕ) (ret : Bytes) (left : UInt64) (err : Option VmError) :
    Proc.Spec (fun _ : StateDB C => True) (finishCreate snap addr ret left err) (fun r _ => r.2.2.1 ≤ left)
      fun _ _ => True := by
  unfold finishCreate
  split
  · exact .pure fun _ _ => UInt64.le_refl _
  · exact .bind (anything _) fun _ => .pure fun _ _ => gasAfter_le left _
  · refine .ite (fun _ => .bind (anything _) fun _ => .pure fun _ _ => UInt64.zero_le) fun _ => ?_
    exact .pure fun _ _ => UInt64.le_refl _

include frugal

theorem enter_frugal {snap : ℕ} {amount : ℤ} :
    Proc.Spec (fun _ => True) (evm.enter snap caller addr input gas amount) (fun r _ => r.2.1 ≤ gas)
      fun _ _ => True := by
  refine .bind (anything _) fun _ => .bind (anything _) fun _ => .bind (anything _) fun _ => ?_
  refine .bind (frugal _ _) fun ⟨ret, left, err⟩ => .of_each fun s kept => ?_
  cases err with
  | none => exact .pure fun _ _ => kept
  | some e =>
    refine .bind (Q := fun _ _ => True) ((anything _).pre (fun _ _ => trivial)) fun _ => ?_
    exact .pure fun _ _ => UInt64.le_trans (gasAfter_le left _) kept

theorem call_frugal : Proc.Spec (fun _ => True) (evm.call caller addr input gas value) (fun r _ => r.2.1 ≤ gas)
    fun _ _ => True := by
  unfold call
  refine .ite (fun _ => .pure fun _ _ => UInt64.le_refl _) fun _ => ?_
  refine .ite (fun _ => .pure fun _ _ => UInt64.le_refl _) fun _ => ?_
  refine .bind (anything _) fun v => .bind (anything _) fun balance => ?_
  refine .ite (fun _ => .pure fun _ _ => UInt64.le_refl _) fun _ => ?_
  refine .bind (anything _) fun snap => .bind (anything _) fun found => ?_
  refine .ite (fun _ => enter_frugal frugal) fun _ => ?_
  exact .ite (fun _ => .pure fun _ _ => UInt64.le_refl _) fun _ => .bind (anything _) fun _ => enter_frugal frugal

theorem create_frugal {code : Bytes} :
    Proc.Spec (fun _ => True) (evm.create caller code gas value) (fun r _ => r.2.2.1 ≤ gas) fun _ _ => True := by
  refine .bind (anything _) fun nonce => ?_
  unfold createAt
  refine .ite (fun _ => .pure fun _ _ => UInt64.le_refl _) fun _ => ?_
  refine .bind (anything _) fun v => .bind (anything _) fun balance => ?_
  refine .ite (fun _ => .pure fun _ _ => UInt64.le_refl _) fun _ => ?_
  refine .bind (anything _) fun _ => .bind (anything _) fun _ => .bind (anything _) fun _ =>
    .bind (anything _) fun _ => ?_
  refine .ite (fun _ => .pure fun _ _ => UInt64.zero_le) fun _ => ?_
  refine .bind (anything _) fun snap => .bind (anything _) fun _ => .bind (anything _) fun _ =>
    .bind (anything _) fun _ => ?_
  refine .ite (fun _ => .pure fun _ _ => UInt64.le_refl _) fun _ => ?_
  refine .bind (frugal _ _) fun ⟨ret, left, err⟩ => .of_each fun s kept => ?_
  refine .bind (Q := fun r _ => r.1 ≤ gas) ((storeCode_frugal ret left err).mono (fun _ _ => trivial)
    (fun _ _ less => UInt64.le_trans less kept) fun _ _ => id) fun ⟨left', err'⟩ => .of_each fun t kept' => ?_
  exact (finishCreate_frugal snap ret left' err').mono (fun _ _ => trivial) (fun _ _ less => UInt64.le_trans less kept')
    fun _ _ => id

end Frugal

end Evm

/-- The interpreter uses the state database as a client does. -/
def Interpreter.IsClient {C : Crypto} (run : Interpreter C) (A : Set Address) (K : Set Hash) : Prop :=
  ∀ contract input base s₀, Proc.Spec (Since A K base s₀) (run contract input) (fun _ => Since A K base s₀)
    fun _ => Since A K base s₀

namespace Evm

variable {C : Crypto} {A : Set Address} {K : Set Hash} {base snap : ℕ} {s₀ : StateDB C} {l : Ledger C} {evm : Evm C}
  {caller addr : Address} {input code : Bytes} {gas : UInt64} {value : Option ℤ}
  (slots : C.SlotsApart K) (accounts : C.AccountsApart A) (client : evm.run.IsClient A K)

/-- The result of a call is no refusal for lack of balance. -/
def Funded (err : Option VmError) : Prop := err ≠ some .insufficientBalance

include slots accounts

theorem transfer_since (sender : caller ∈ A) (recipient : addr ∈ A) (amount : ℤ) :
    Proc.Spec (Since A K base s₀) (transfer caller addr amount) (fun _ => Since A K base s₀) fun _ =>
      Since A K base s₀ :=
  .bind (perform_since slots accounts sender) fun _ => perform_since slots accounts recipient

/-- What a call and a creation have in common: a value, which the balance of the caller is to cover. -/
theorem funded_spec {α : Type} {err : α → Option VmError} {refusal : α} {rest : ℤ → Proc Empty (StateDB C) α}
    (sender : caller ∈ A) (refused : ¬Funded (err refusal))
    (covered : ∀ v, Proc.Spec (Since A K base s₀) (rest v) (fun r s => Since A K base s₀ s ∧ Funded (err r))
      fun _ => Since A K base s₀) :
    Proc.Spec (At A K base s₀ l)
      (do
        let value ← Proc.orFault .panic value
        let balance ← getBalance caller
        if balance < value then return refusal else rest value)
      (fun r s => Since A K base s₀ s ∧ ∃ v, value = some v ∧ (Funded (err r) ↔ v ≤ l.balanceOf caller))
      fun _ s => Since A K base s₀ s ∧ ∀ v, value = some v → v ≤ l.balanceOf caller := by
  refine .bind (Q := fun v s => value = some v ∧ At A K base s₀ l s)
    (.orFault (fun v present s here => ⟨present, here⟩)
      fun absent s here => ⟨here.1, fun v present => by simp [absent] at present⟩)
    fun v => .assume fun present => ?_
  refine .bind (getBalance_spec slots accounts sender) fun balance => .assume fun isBalance => ?_
  subst isBalance
  refine .ite (fun poor => .pure fun s here => ⟨here.1, v, present, by simp [refused, poor]⟩) fun rich => ?_
  exact (covered v).mono
    (fun _ here => here.1) (fun r s post => ⟨post.1, v, present, by simp [post.2, not_lt.mp rich]⟩)
    fun _ s since => ⟨since, fun v' present' => Option.some.inj (present.symm.trans present') ▸ not_lt.mp rich⟩

include client

theorem enter_spec (own : base ≤ snap) (sender : caller ∈ A) (recipient : addr ∈ A) (amount : ℤ) :
    Proc.Spec (Since A K base s₀) (evm.enter snap caller addr input gas amount)
      (fun r s => Since A K base s₀ s ∧ Funded r.2.2) fun _ => Since A K base s₀ := by
  refine .bind (transfer_since slots accounts sender recipient amount) fun _ => ?_
  refine .bind (ask_since slots accounts recipient) fun codeHash => ?_
  refine .bind (ask_since slots accounts recipient) fun code => ?_
  refine .bind (client _ _ _ _) fun ⟨ret, left, err⟩ => ?_
  cases err with
  | none => exact .pure fun s since => ⟨since, by simp [Funded]⟩
  | some e =>
    refine .bind (revertToSnapshot_since slots accounts own fun _ => id) fun _ => ?_
    exact .pure fun s since => ⟨since, by simp [Funded]⟩

/-- A call at the top lacks balance exactly if the value is above the balance of the caller. -/
theorem call_spec (top : evm.depth = 0) (sender : caller ∈ A) (recipient : addr ∈ A) :
    Proc.Spec (At A K base s₀ l) (evm.call caller addr input gas value)
      (fun r s => Since A K base s₀ s ∧ ∃ v, value = some v ∧ (Funded r.2.2 ↔ v ≤ l.balanceOf caller))
      fun _ s => Since A K base s₀ s ∧ ∀ v, value = some v → v ≤ l.balanceOf caller := by
  unfold call
  rw [top, if_neg (by simp), if_neg (by simp [callCreateDepth])]
  refine funded_spec slots accounts sender (by simp [Funded]) fun v => ?_
  refine .bind (snapshot_since slots accounts) fun snap => .assume fun own => ?_
  refine .bind (ask_since slots accounts recipient) fun found => ?_
  refine .ite (fun _ => enter_spec slots accounts client own sender recipient v) fun _ => ?_
  refine .ite (fun _ => .pure fun s since => ⟨since, by simp [Funded]⟩) fun _ => ?_
  exact .bind (perform_since slots accounts recipient) fun _ => enter_spec slots accounts client own sender recipient v

omit client in
theorem storeCode_spec (created : addr ∈ A) (ret : Bytes) (left : UInt64) (err : Option RunError) :
    Proc.Spec (Since A K base s₀) (storeCode addr ret left err) (fun r s => Funded r.2 ∧ Since A K base s₀ s)
      fun _ => Since A K base s₀ := by
  unfold storeCode
  cases err with
  | some e => exact .pure fun s since => ⟨by simp [Funded], since⟩
  | none =>
    refine .ite (fun _ => .pure fun s since => ⟨by simp [Funded], since⟩) fun _ => ?_
    refine .ite (fun _ => .pure fun s since => ⟨by simp [Funded], since⟩) fun _ => ?_
    exact .bind (perform_since slots accounts created) fun _ => .pure fun s since => ⟨by simp [Funded], since⟩

omit client in
theorem finishCreate_spec (own : base ≤ snap) (ret : Bytes) (left : UInt64) {err : Option VmError}
    (funded : Funded err) :
    Proc.Spec (Since A K base s₀) (finishCreate snap addr ret left err) (fun r s => Since A K base s₀ s ∧
      Funded r.2.2.2)
      fun _ => Since A K base s₀ := by
  have reverts : Proc.Spec (Since A K base s₀) (revertToSnapshot snap : Proc Empty (StateDB C) Unit)
      (fun _ => Since A K base s₀) fun _ => Since A K base s₀ := revertToSnapshot_since slots accounts own fun _ => id
  unfold finishCreate
  split
  · exact .pure fun s since => ⟨since, funded⟩
  · exact .bind reverts fun _ => .pure fun s since => ⟨since, funded⟩
  · exact .ite (fun _ => .bind reverts fun _ => .pure fun s since => ⟨since, by simp [Funded]⟩)
      fun _ => .pure fun s since => ⟨since, funded⟩

/-- A creation at the top lacks balance exactly if the value is above the balance of the caller. -/
theorem createAt_spec (top : evm.depth = 0) (sender : caller ∈ A) (created : addr ∈ A) :
    Proc.Spec (At A K base s₀ l) (evm.createAt caller code gas value addr)
      (fun r s => Since A K base s₀ s ∧ ∃ v, value = some v ∧ (Funded r.2.2.2 ↔ v ≤ l.balanceOf caller))
      fun _ s => Since A K base s₀ s ∧ ∀ v, value = some v → v ≤ l.balanceOf caller := by
  unfold createAt
  rw [top, if_neg (by simp [callCreateDepth])]
  refine funded_spec slots accounts sender (by simp [Funded]) fun v => ?_
  refine .bind (ask_since slots accounts sender) fun nonce => ?_
  refine .bind (perform_since slots accounts sender) fun _ => ?_
  refine .bind (ask_since slots accounts created) fun contractHash => ?_
  refine .bind (ask_since slots accounts created) fun used => ?_
  refine .ite (fun _ => .pure fun s since => ⟨since, by simp [Funded]⟩) fun _ => ?_
  refine .bind (snapshot_since slots accounts) fun snap => .assume fun own => ?_
  refine .bind (perform_since slots accounts created) fun _ => ?_
  refine .bind (perform_since slots accounts created) fun _ => ?_
  refine .bind (transfer_since slots accounts sender created v) fun _ => ?_
  refine .ite (fun _ => .pure fun s since => ⟨since, by simp [Funded]⟩) fun _ => ?_
  refine .bind (client _ _ _ _) fun ⟨ret, left, err⟩ => ?_
  exact .bind (storeCode_spec slots accounts created ret left err) fun ⟨left, err⟩ =>
    .assume fun funded => finishCreate_spec slots accounts own ret left funded

theorem create_spec (top : evm.depth = 0) (sender : caller ∈ A) (created : ∀ nonce, createAddress C caller nonce ∈ A) :
    Proc.Spec (At A K base s₀ l) (evm.create caller code gas value)
      (fun r s => Since A K base s₀ s ∧ ∃ v, value = some v ∧ (Funded r.2.2.2 ↔ v ≤ l.balanceOf caller))
      fun _ s => Since A K base s₀ s ∧ ∀ v, value = some v → v ≤ l.balanceOf caller :=
  .bind (getNonce_spec slots accounts sender) fun nonce => .assume fun _ =>
    createAt_spec slots accounts client top sender (created nonce)

end Evm

end KKChain.Vm
