import KKChain.Vm.Evm
import KKChain.Vm.Memory
import KKChain.Vm.Words

/-! # Contract creation and what its opcodes report

A creation that fails is undone, with one exception: init code that returns code it cannot pay for leaves everything it
did, and its gas. `opCreate` reports a creation by its address unless this one error came back, so it also reports
creations that were undone.
-/

namespace KKChain

namespace Ledger

variable {C : Crypto} (l : Ledger C)

theorem nonceOf_amend (addr : Address) (f : LedgerAccount → LedgerAccount) (addr' : Address) :
    (l.amend addr f).nonceOf addr' =
      if addr' = addr then (f ((l.accounts addr).getD (.fresh C))).nonce else l.nonceOf addr' := by
  unfold nonceOf amend setAccount
  split_ifs with same
  · simp [same]
  · simp [Function.update_of_ne same]

theorem nonce_getD (addr : Address) : ((l.accounts addr).getD (.fresh C)).nonce = l.nonceOf addr := by
  unfold nonceOf
  cases l.accounts addr <;> rfl

theorem nonceOf_setNonce (addr : Address) (nonce : UInt64) (addr' : Address) :
    (l.setNonce addr nonce).nonceOf addr' = if addr' = addr then nonce else l.nonceOf addr' := nonceOf_amend ..

@[simp] theorem nonceOf_addBalance (addr : Address) (amount : ℤ) (addr' : Address) :
    (l.addBalance addr amount).nonceOf addr' = l.nonceOf addr' := by
  rw [addBalance, nonceOf_amend, nonce_getD]
  split_ifs with same
  · rw [same]
  · rfl

@[simp] theorem nonceOf_subBalance (addr : Address) (amount : ℤ) (addr' : Address) :
    (l.subBalance addr amount).nonceOf addr' = l.nonceOf addr' := by
  rw [subBalance, nonceOf_amend, nonce_getD]
  split_ifs with same
  · rw [same]
  · rfl

end Ledger

namespace Vm

open Client

/-- `Get`: a copy of a part of the memory, if it is inside of what the interpreter has made room for. -/
def Memory.get (mem : Memory) (offset size : ℤ) : Option Bytes :=
  if size = 0 then some []
  else if offset < mem.len then
    if 0 ≤ offset ∧ 0 ≤ size ∧ offset + size ≤ mem.len then
      some ((mem.store.drop offset.toNat).take size.toNat) else none
  else some []

/-- `Int64`: the low 64 bits, signed. -/
def Word.int64 (w : Word) : ℤ := (w.setWidth 64).toInt

/-- A frame: the contract that runs with its gas, its memory and its stack, top first. -/
structure Frame where
  self : Address
  gas : UInt64
  memory : Memory
  stack : List Word

def createAddress2 (C : Crypto) (addr : Address) (salt : Hash) (code : Bytes) : Address :=
  Address.ofBytes ((C.keccak ([0xff] ++ addr.bytes ++ salt.bytes ++ (C.keccak code).bytes)).bytes.drop 12)

/-- What a creation is asked for with. -/
structure Creation where
  caller : Address
  code : Bytes
  gas : UInt64
  value : Option ℤ
  address : Address

namespace Evm

variable {C : Crypto} (evm : Evm C)

/-- `create` of a creation. -/
def make (c : Creation) : Proc Empty (StateDB C) (Bytes × Address × UInt64 × Option VmError) :=
  evm.createAt c.caller c.code c.gas c.value c.address

def create2 (caller : Address) (code : Bytes) (gas : UInt64) (endowment : Option ℤ) (salt : Word) :
    Proc Empty (StateDB C) (Bytes × Address × UInt64 × Option VmError) :=
  evm.createAt caller code gas endowment (createAddress2 C caller salt code)

/-- The gas that a frame hands to a creation, all but a 64th. -/
def creationGas (frame : Frame) : UInt64 := frame.gas - frame.gas / 64

/-- What the opcodes have in common: the nested creation, the word that is pushed and the gas that comes back. -/
def report (frame : Frame) (rest : List Word) (failed : Option VmError → Bool)
    (nested : Proc Empty (StateDB C) (Bytes × Address × UInt64 × Option VmError)) :
    Proc Empty (StateDB C) (Bytes × Frame) := do
  let (res, addr, returnGas, suberr) ← nested
  let word : Word := if failed suberr then 0 else addr.setWidth 256
  let output := if suberr = some (.run .executionReverted) then res else []
  return (output, { frame with gas := frame.gas - creationGas frame + returnGas, stack := word :: rest })

def opCreate (frame : Frame) : Proc Empty (StateDB C) (Bytes × Frame) :=
  match frame.stack with
  | value :: offset :: size :: rest => do
    let input ← Proc.orFault .panic (frame.memory.get offset.int64 size.int64)
    report frame rest (· = some .codeStoreOutOfGas) (evm.create frame.self input (creationGas frame) (some value.toNat))
  | _ => throw .panic

def opCreate2 (frame : Frame) : Proc Empty (StateDB C) (Bytes × Frame) :=
  match frame.stack with
  | endowment :: offset :: size :: salt :: rest => do
    let input ← Proc.orFault .panic (frame.memory.get offset.int64 size.int64)
    report frame rest (· ≠ none) (evm.create2 frame.self input (creationGas frame) (some endowment.toNat) salt)
  | _ => throw .panic

/-- `create` up to the run of the init code: the checks, the nonce, the snapshot, the account and the transfer. -/
def prepare (caller : Address) (value : Option ℤ) (address : Address) :
    Proc Empty (StateDB C) (Except VmError (ℕ × ℤ)) :=
  if callCreateDepth < evm.depth then return .error .depth
  else do
    let value ← Proc.orFault .panic value
    let balance ← getBalance caller
    if balance < value then return .error .insufficientBalance
    else do
      let nonce ← getNonce caller
      perform (.setNonce caller (nonce + 1))
      let contractHash ← getCodeHash address
      let used ← getNonce address
      if used ≠ 0 ∨ (contractHash ≠ 0 ∧ contractHash ≠ C.keccak []) then return .error .contractAddressCollision
      else do
        let snap ← snapshot
        perform (.createAccount address)
        perform (.setNonce address 1)
        transfer caller address value
        return .ok (snap, value)

/-- The gas that is left by a creation that is refused before the init code runs. -/
def refusedGas (gas : UInt64) : VmError → UInt64
  | .contractAddressCollision => 0
  | _ => gas

/-- `create` from the run of the init code on. -/
def initialise (caller : Address) (code : Bytes) (gas : UInt64) (address : Address) (snap : ℕ) (value : ℤ) :
    Proc Empty (StateDB C) (Bytes × Address × UInt64 × Option VmError) :=
  if evm.noRecursion && 0 < evm.depth then return ([], address, gas, none)
  else do
    let (ret, left, err) ← evm.run ⟨caller, address, address, C.keccak code, code, gas, value⟩ []
    let (left, err) ← storeCode address ret left err
    finishCreate snap address ret left err

theorem createAt_eq (caller : Address) (code : Bytes) (gas : UInt64) (value : Option ℤ) (address : Address) :
    evm.createAt caller code gas value address = (evm.prepare caller value address >>= fun
      | .error e => pure ([], 0, refusedGas gas e, some e)
      | .ok (snap, value) => evm.initialise caller code gas address snap value) := by
  unfold createAt prepare
  split
  · rfl
  · simp only [bind_assoc]
    congr 1; funext v; congr 1; funext balance
    split
    · rfl
    · simp only [bind_assoc]
      congr 1; funext nonce; congr 1; funext _; congr 1; funext hash; congr 1; funext used
      split
      · rfl
      · rfl

def codeGas (ret : Bytes) : UInt64 := UInt64.ofNat ret.length * createDataGas

/-- How a creation ends whose init code returned: with the gas that is left, the error and the state. -/
inductive Ends (snap : ℕ) (address : Address) (ret : Bytes) (left : UInt64) (s : StateDB C) :
    Option RunError → UInt64 → Option VmError → StateDB C → Prop
  | failed {e : RunError} {t : StateDB C} (reverted : s.revertToSnapshot snap = some t) :
      Ends snap address ret left s (some e) (gasAfter left (.run e)) (some (.run e)) t
  | oversize {t : StateDB C} (large : maxCodeSize < ret.length) (reverted : s.revertToSnapshot snap = some t) :
      Ends snap address ret left s none 0 (some .maxCodeSizeExceeded) t
  | unpaid (fits : ret.length ≤ maxCodeSize) (poor : left < codeGas ret) :
      Ends snap address ret left s none left (some .codeStoreOutOfGas) s
  | installed (fits : ret.length ≤ maxCodeSize) (paid : codeGas ret ≤ left) :
      Ends snap address ret left s none (left - codeGas ret) none ((Update.setCode address ret).apply s)

variable {evm} {caller address : Address} {code : Bytes} {gas : UInt64} {value : Option ℤ} {s t s₁ : StateDB C}
  {r : Bytes × Address × UInt64 × Option VmError} {snap : ℕ} {c : Creation} {u : Unit} {v : ℤ}

theorem revertToSnapshot_eq_ok :
    (revertToSnapshot snap : Proc Empty (StateDB C) Unit).run s = .ok u t ↔ s.revertToSnapshot snap = some t := by
  show revertToSnapshot snap s = _ ↔ _
  rw [revertToSnapshot]
  cases s.revertToSnapshot snap <;> simp

theorem perform_eq_ok {m : Update} : (perform m : Proc Empty (StateDB C) Unit).run s = .ok u t ↔ m.apply s = t := by
  have ran : (perform m : Proc Empty (StateDB C) Unit).run s = .ok () (m.apply s) := rfl
  rw [ran]
  simp

/-- A creation whose init code returned ends in one of the ways. -/
theorem ends_of_ok {ret : Bytes} {left : UInt64} {err : Option RunError} (ran : (do
      let (left, err) ← storeCode address ret left err
      finishCreate snap address ret left err : Proc Empty (StateDB C) _).run s = .ok r t) :
    ∃ left' err', r = (ret, address, left', err') ∧ Ends snap address ret left s err left' err' t := by
  obtain ⟨⟨left', err'⟩, s', stored, ran⟩ := Proc.bind_eq_ok.mp ran
  cases err with
  | some e =>
    obtain ⟨⟨rfl, rfl⟩, rfl⟩ := stored
    obtain ⟨_, _, reverted, ran⟩ := Proc.bind_eq_ok.mp ran
    obtain ⟨rfl, rfl⟩ := Proc.pure_eq_ok.mp ran
    exact ⟨_, _, rfl, .failed (revertToSnapshot_eq_ok.mp reverted)⟩
  | none =>
    simp only [storeCode] at stored
    by_cases large : maxCodeSize < ret.length
    · rw [if_pos large] at stored
      obtain ⟨⟨rfl, rfl⟩, rfl⟩ := stored
      simp only [finishCreate, if_pos large] at ran
      obtain ⟨_, _, reverted, ran⟩ := Proc.bind_eq_ok.mp ran
      obtain ⟨rfl, rfl⟩ := Proc.pure_eq_ok.mp ran
      exact ⟨_, _, rfl, .oversize large (revertToSnapshot_eq_ok.mp reverted)⟩
    · rw [if_neg large] at stored
      by_cases poor : left < UInt64.ofNat ret.length * createDataGas
      · rw [if_pos poor] at stored
        obtain ⟨⟨rfl, rfl⟩, rfl⟩ := stored
        obtain ⟨rfl, rfl⟩ := Proc.pure_eq_ok.mp ran
        exact ⟨_, _, rfl, .unpaid (not_lt.mp large) poor⟩
      · rw [if_neg poor] at stored
        obtain ⟨_, _, updated, stored⟩ := Proc.bind_eq_ok.mp stored
        obtain rfl := perform_eq_ok.mp updated
        obtain ⟨⟨rfl, rfl⟩, rfl⟩ := stored
        simp only [finishCreate, if_neg large] at ran
        obtain ⟨rfl, rfl⟩ := Proc.pure_eq_ok.mp ran
        exact ⟨_, _, rfl, .installed (not_lt.mp large) (UInt64.not_lt.mp poor)⟩

/-- Nested frames are not run at all, an option of the machine. -/
def Skips (evm : Evm C) : Prop := evm.noRecursion = true ∧ 0 < evm.depth

/-- The init code of a creation is run and returns, in this state and with this result. -/
def InitReturns (evm : Evm C) (c : Creation) (s : StateDB C) (r : Bytes × UInt64 × Option RunError)
    (t : StateDB C) : Prop :=
  ¬evm.Skips ∧ ∃ snap v s₁, (evm.prepare c.caller c.value c.address).run s = .ok (.ok (snap, v)) s₁ ∧
    (evm.run ⟨c.caller, c.address, c.address, C.keccak c.code, c.code, c.gas, v⟩ []).run s₁ = .ok r t

theorem InitReturns.unique {r r' : Bytes × UInt64 × Option RunError} {t' : StateDB C}
    (first : evm.InitReturns c s r t) (second : evm.InitReturns c s r' t') : r = r' ∧ t = t' := by
  obtain ⟨-, snap, v, s₁, begun, returned⟩ := first
  obtain ⟨-, snap', v', s₁', begun', returned'⟩ := second
  rw [begun] at begun'
  obtain ⟨⟨rfl, rfl⟩, rfl⟩ := begun'
  rw [returned] at returned'
  simpa using returned'

/-- How a creation returns: it is refused, it is skipped, or its init code returned. -/
theorem make_cases (ran : (evm.make c).run s = .ok r t) :
    (∃ e, (evm.prepare c.caller c.value c.address).run s = .ok (.error e) t ∧ r = ([], 0, refusedGas c.gas e, some e)) ∨
      (evm.Skips ∧ ∃ p, (evm.prepare c.caller c.value c.address).run s = .ok (.ok p) t ∧
        r = ([], c.address, c.gas, none)) ∨
      ¬evm.Skips ∧ ∃ snap v s₁ ret left err s₂ left' err',
        (evm.prepare c.caller c.value c.address).run s = .ok (.ok (snap, v)) s₁ ∧
        (evm.run ⟨c.caller, c.address, c.address, C.keccak c.code, c.code, c.gas, v⟩ []).run s₁ =
          .ok (ret, left, err) s₂ ∧
        Ends snap c.address ret left s₂ err left' err' t ∧ r = (ret, c.address, left', err') := by
  rw [make, createAt_eq] at ran
  obtain ⟨entered | ⟨snap, v⟩, s₁, prepared, ran⟩ := Proc.bind_eq_ok.mp ran
  · obtain ⟨rfl, rfl⟩ := Proc.pure_eq_ok.mp ran
    exact .inl ⟨entered, prepared, rfl⟩
  · simp only [initialise] at ran
    by_cases skips : evm.Skips
    · rw [if_pos (by simpa [Skips] using skips)] at ran
      obtain ⟨rfl, rfl⟩ := Proc.pure_eq_ok.mp ran
      exact .inr (.inl ⟨skips, _, prepared, rfl⟩)
    · rw [if_neg (by simpa [Skips] using skips)] at ran
      obtain ⟨⟨ret, left, err⟩, s₂, returned, ran⟩ := Proc.bind_eq_ok.mp ran
      obtain ⟨left', err', rfl, ends⟩ := ends_of_ok ran
      exact .inr (.inr ⟨skips, snap, v, s₁, ret, left, err, s₂, left', err', prepared, returned, ends, rfl⟩)

/-- The ledger once the nonce of the caller is counted up. -/
def counted (l : Ledger C) (caller : Address) : Ledger C := l.setNonce caller (l.nonceOf caller + 1)

/-- The ledger that the init code starts with. -/
def endowed (l : Ledger C) (caller address : Address) (v : ℤ) : Ledger C :=
  ((((counted l caller).createAccount address).setNonce address 1).subBalance caller v).addBalance address v

/-- The creation has begun: the state at the snapshot, and what was done since. -/
def Begun (A : Set Address) (K : Set Hash) (l : Ledger C) (caller address : Address) (snap : ℕ) (v : ℤ)
    (s : StateDB C) :
    Prop :=
  ∃ s' : StateDB C, s'.Sound A K ∧ s'.Ordered ∧ s'.ledger = counted l caller ∧ (counted l caller).nonceOf address = 0 ∧
    snap = s'.nextRevisionId ∧ At A K (snap + 1) s'.snapshot.2 (endowed l caller address v) s

/-- The ledger of a creation that is refused. -/
def refusedLedger (l : Ledger C) (caller : Address) : VmError → Ledger C
  | .contractAddressCollision => counted l caller
  | _ => l

section Effects

variable {A : Set Address} {K : Set Hash} {base : ℕ} {s₀ : StateDB C} {l : Ledger C}
  (slots : C.SlotsApart K) (accounts : C.AccountsApart A)

include slots accounts

theorem transfer_spec (sender : caller ∈ A) (recipient : address ∈ A) (v : ℤ) {E : Fault Empty → StateDB C → Prop} :
    Proc.Spec (At A K base s₀ l) (transfer caller address v)
      (fun _ => At A K base s₀ ((l.subBalance caller v).addBalance address v)) E :=
  .bind (perform_spec slots accounts (m := .subBalance caller v) sender fun _ => rfl) fun _ =>
    perform_spec slots accounts (m := .addBalance address v) recipient fun _ => rfl

/-- What the first part of a creation does. -/
theorem prepare_spec (sender : caller ∈ A) (created : address ∈ A) :
    Proc.Spec (At A K base s₀ l) (evm.prepare caller value address)
      (fun r s => match r with
        | .error e => e ∈ [.depth, .insufficientBalance, .contractAddressCollision] ∧
          s.ledger = refusedLedger l caller e
        | .ok (snap, v) => Begun A K l caller address snap v s)
      fun _ _ => True := by
  unfold prepare
  refine .ite (fun _ => .pure fun s here => ⟨by simp, here.2⟩) fun _ => ?_
  refine .bind (Q := fun _ => At A K base s₀ l) (.orFault (fun _ _ _ => id) fun _ _ _ => trivial) fun v => ?_
  refine .bind (getBalance_spec slots accounts sender) fun balance => .assume fun _ => ?_
  refine .ite (fun _ => .pure fun s here => ⟨by simp, here.2⟩) fun _ => ?_
  refine .bind (getNonce_spec slots accounts sender) fun nonce => .assume fun isNonce => ?_
  subst isNonce
  refine .bind (Q := fun _ => At A K base s₀ (counted l caller))
    (perform_spec slots accounts (m := .setNonce caller (l.nonceOf caller + 1)) sender fun _ => rfl) fun _ => ?_
  refine .bind (ask_spec slots accounts (q := .getCodeHash address) created) fun contractHash => .assume fun _ => ?_
  refine .bind (getNonce_spec slots accounts created) fun used => .assume fun isUsed => ?_
  refine .ite (fun _ => .pure fun s here => ⟨by simp, here.2⟩) fun free => ?_
  have unused : (counted l caller).nonceOf address = 0 := by
    rw [← isUsed]
    exact not_not.mp fun inUse => free (.inl inUse)
  refine .of_each fun s' here => ?_
  have ready := here.1.2
  refine .bind (Q := fun snap s => snap = s'.nextRevisionId ∧
      At A K (snap + 1) s'.snapshot.2 (counted l caller) s) ?_ fun snap =>
    .assume fun isSnap => ?_
  · rintro s rfl
    exact ⟨rfl, ⟨.refl, ready.snapshot⟩, here.2⟩
  · refine .bind (perform_spec slots accounts (m := .createAccount address) created fun _ => rfl) fun _ => ?_
    refine .bind (perform_spec slots accounts (m := .setNonce address 1) created fun _ => rfl) fun _ => ?_
    refine .bind (transfer_spec slots accounts sender created v) fun _ => ?_
    exact .pure fun s at_ => ⟨s', ready.sound, ready.ordered, here.2, unused, isSnap, at_⟩

/-- Whatever the init code did, going back to the snapshot leaves the counted ledger. -/
theorem Begun.reverts {s₂ : StateDB C} (begun : Begun A K l caller address snap v s₁)
    (client : evm.run.IsClient A K) {contract : Contract} {input : Bytes} {r : Bytes × UInt64 × Option RunError}
    (returned : (evm.run contract input).run s₁ = .ok r s₂) (reverted : s₂.revertToSnapshot snap = some t) :
    t.ledger = counted l caller := by
  obtain ⟨s', sound, ordered, ledger, -, rfl, since, -⟩ := begun
  have after := (client contract input _ _).ok since returned
  obtain ⟨u, same, -, restored⟩ := after.1.revert slots accounts sound ordered
  obtain rfl : u = t := Option.some.inj (same.symm.trans reverted)
  rw [restored, ledger]

omit slots accounts in
/-- The init code starts with a nonce at its own address, where there was none. -/
theorem Begun.nonce (begun : Begun A K l caller address snap v s₁) :
    s₁.ledger.nonceOf address ≠ 0 ∧ (counted l caller).nonceOf address = 0 := by
  obtain ⟨s', -, -, -, unused, -, -, ledger⟩ := begun
  refine ⟨?_, unused⟩
  rw [ledger, endowed]
  simp [Ledger.nonceOf_addBalance, Ledger.nonceOf_subBalance, Ledger.nonceOf_setNonce]

end Effects

/-- The init code runs and returns code that may be stored but that the gas it left does not pay for. -/
def Unpaid (evm : Evm C) (c : Creation) (s : StateDB C) : Prop :=
  ∃ ret left t, evm.InitReturns c s (ret, left, none) t ∧ ret.length ≤ maxCodeSize ∧ left < codeGas ret

/-- A failed creation left the ledger as it was, up to the nonce of the caller, and no gas unless it reverted or was
refused by the first checks. -/
structure Undone (caller : Address) (s : StateDB C) (err : VmError) (left : UInt64) (t : StateDB C) : Prop where
  ledger : t.ledger = s.ledger ∨ t.ledger = counted s.ledger caller
  gas : err ≠ .run .executionReverted → err ≠ .depth → err ≠ .insufficientBalance → left = 0

end Evm

/-- The code of a contract does not take the nonce of its own account back to zero. -/
def Interpreter.KeepsOwnNonce {C : Crypto} (run : Interpreter C) : Prop :=
  ∀ contract input s r t, (run contract input).run s = .ok r t → s.ledger.nonceOf contract.self ≠ 0 →
    t.ledger.nonceOf contract.self ≠ 0

namespace Evm

section Atomicity

variable {C : Crypto} {A : Set Address} {K : Set Hash} {evm : Evm C} {c : Creation} {addr : Address} {ret : Bytes}
  {left : UInt64} {err : VmError} {s t : StateDB C}

/-- A creation that fails is undone, unless its init code returned code that it cannot pay for. In that case it is not,
as long as code keeps the nonce of its own account. -/
theorem make_undone (slots : C.SlotsApart K) (accounts : C.AccountsApart A) (client : evm.run.IsClient A K)
    (opened : s.Opened A K) (sender : c.caller ∈ A) (created : c.address ∈ A)
    (ran : (evm.make c).run s = .ok (ret, addr, left, some err) t) :
    (¬evm.Unpaid c s → Undone c.caller s err left t) ∧
      (evm.run.KeepsOwnNonce → c.caller ≠ c.address → Undone c.caller s err left t → ¬evm.Unpaid c s) := by
  have start : At A K s.nextRevisionId s s.ledger s := ⟨⟨.refl, opened.ready slots accounts⟩, rfl⟩
  have prepared : Proc.Spec (At A K s.nextRevisionId s s.ledger) (evm.prepare c.caller c.value c.address) _ _ :=
    prepare_spec slots accounts sender created
  constructor
  · intro paid
    rcases make_cases ran with ⟨e, refused, same⟩ | ⟨-, -, -, same⟩ |
      ⟨skips, snap, v, s₁, ret', left₁, err₁, s₂, left₂, err₂, begun, returned, ends, same⟩
    · obtain ⟨among, ledger⟩ := prepared.ok start refused
      obtain ⟨-, -, rfl, rfl⟩ := same
      simp only [List.mem_cons, List.not_mem_nil, or_false] at among
      rcases among with rfl | rfl | rfl
      · exact ⟨.inl ledger, fun _ no _ => absurd rfl no⟩
      · exact ⟨.inl ledger, fun _ _ no => absurd rfl no⟩
      · exact ⟨.inr ledger, fun _ _ _ => rfl⟩
    · simp at same
    · simp only [Prod.mk.injEq] at same
      obtain ⟨rfl, -, rfl, rfl⟩ := same
      have started := prepared.ok start begun
      cases ends with
      | @failed e _ reverted =>
        refine ⟨.inr (started.reverts slots accounts client returned reverted), fun other _ _ => ?_⟩
        cases e with
        | executionReverted => exact absurd rfl other
        | outOfGas | other => rfl
      | oversize _ reverted =>
        exact ⟨.inr (started.reverts slots accounts client returned reverted), fun _ _ _ => rfl⟩
      | unpaid fits poor => exact absurd ⟨ret, left, t, ⟨skips, snap, v, s₁, begun, returned⟩, fits, poor⟩ paid
  · rintro keeps apart undone ⟨ret', left', u, runs, fits, poor⟩
    -- the state is the one that the init code left
    obtain rfl : u = t := by
      rcases make_cases ran with ⟨e, refused, -⟩ | ⟨skipped, -⟩ |
        ⟨skips, snap, v, s₁, ret₁, left₁, err₁, s₂, left₂, err₂, begun, returned, ends, same⟩
      · obtain ⟨-, snap, v, s₁, begun, -⟩ := runs
        simp [begun] at refused
      · exact absurd skipped runs.1
      · obtain ⟨result, rfl⟩ := runs.unique ⟨skips, snap, v, s₁, begun, returned⟩
        obtain ⟨rfl, rfl, rfl⟩ := result
        cases ends with
        | oversize large _ => exact absurd large (not_lt.mpr fits)
        | unpaid => rfl
        | installed _ paid => exact absurd poor (UInt64.not_lt.mpr paid)
    obtain ⟨-, snap, v, s₁, begun, returned⟩ := runs
    obtain ⟨own, unused⟩ := Begun.nonce (prepared.ok start begun)
    have nonce := keeps _ _ _ _ _ returned own
    have before : s.ledger.nonceOf c.address = 0 := by
      rw [counted, Ledger.nonceOf_setNonce, if_neg (Ne.symm apart)] at unused
      exact unused
    rcases undone.ledger with same | same
    · exact nonce (by rw [same]; exact before)
    · exact nonce (by rw [same]; exact unused)

/-- A machine whose code returns in one way. -/
def always (ret : Bytes) (left : UInt64) (err : Option RunError) : Evm .numeral :=
  ⟨1, false, fun _ _ => pure (ret, left, err)⟩

/-- A state without accounts. -/
def nobody : StateDB .numeral := .ofTrie (.blank .numeral) .empty

theorem opened_nobody : nobody.Opened Set.univ ∅ := ⟨.blank .numeral, .empty, [], .nil _, by simp⟩

theorem isClient_always (ret : Bytes) (left : UInt64) (err : Option RunError) :
    (always ret left err).run.IsClient Set.univ ∅ :=
  fun _ _ _ _ => .pure fun _ => id

/-- Init code that reverts leaves its gas and nothing else. -/
theorem make_undone_reverted :
    ∃ t, ((always [] 90 (some .executionReverted)).make ⟨7, [1], 100, some 0, 9⟩).run nobody =
      .ok ([], 9, 90, some (.run .executionReverted)) t ∧ Undone 7 nobody (.run .executionReverted) 90 t := by
  obtain ⟨t, ran⟩ : ∃ t, ((always [] 90 (some .executionReverted)).make ⟨7, [1], 100, some 0, 9⟩).run nobody =
      .ok ([], 9, 90, some (.run .executionReverted)) t := by decide +kernel
  refine ⟨t, ran, (make_undone (K := ∅) (Set.injOn_empty _) (accountsApart_numeral Set.univ) (isClient_always _ _ _)
    opened_nobody trivial trivial ran).1 ?_⟩
  rintro ⟨ret, left, u, ⟨-, snap, v, s₁, -, returned⟩, -⟩
  have outcome : ([], (90 : UInt64), some RunError.executionReverted) = (ret, left, none) :=
    (Proc.pure_eq_ok.mp returned).1
  simp at outcome

/-- Init code that returns one byte of code with 100 gas left cannot pay the 200 for it: the creation returns an error,
but the account stays and so does the gas. -/
theorem make_unpaid_stays : ∃ t, ((always [0] 100 none).make ⟨7, [1], 1000, some 0, 9⟩).run nobody =
      .ok ([0], 9, 100, some .codeStoreOutOfGas) t ∧ nobody.ledger.nonceOf 9 = 0 ∧ t.ledger.nonceOf 9 = 1 ∧
      ¬Undone 7 nobody .codeStoreOutOfGas 100 t := by
  obtain ⟨t, ran, before, after⟩ : ∃ t, ((always [0] 100 none).make ⟨7, [1], 1000, some 0, 9⟩).run nobody =
      .ok ([0], 9, 100, some .codeStoreOutOfGas) t ∧ nobody.ledger.nonceOf 9 = 0 ∧ t.ledger.nonceOf 9 = 1 := by
    decide +kernel
  exact ⟨t, ran, before, after, fun undone => absurd (undone.gas (by simp) (by simp) (by simp)) (by decide)⟩

end Atomicity

section Report

variable {C : Crypto} {A : Set Address} {K : Set Hash} {evm : Evm C} {c : Creation} {s t : StateDB C} {addr : Address}
  {err : Option VmError} {left : UInt64} {ret : Bytes}

/-- The init code returned without an error, its code is not too large and is paid for, and it is the code at the
address. -/
def Created (evm : Evm C) (c : Creation) (s t : StateDB C) : Prop :=
  ∃ ret left u, evm.InitReturns c s (ret, left, none) u ∧ ret.length ≤ maxCodeSize ∧ codeGas ret ≤ left ∧
    (Query.getCode c.address).answer t.ledger = ret

/-- The creation passes its checks, but its init code is not run. -/
def Skipped (evm : Evm C) (c : Creation) (s : StateDB C) : Prop :=
  evm.Skips ∧ ∃ p u, (evm.prepare c.caller c.value c.address).run s = .ok (.ok p) u

/-- The init code returned an error or too much code. -/
def InitFails (evm : Evm C) (c : Creation) (s : StateDB C) : Prop :=
  ∃ ret left err u, evm.InitReturns c s (ret, left, err) u ∧ (err ≠ none ∨ maxCodeSize < ret.length)

/-- The word is the address of a contract that was created, and zero if none was. -/
def Truthful (evm : Evm C) (c : Creation) (s t : StateDB C) (word : Word) : Prop :=
  evm.Created c s t ∧ word = c.address.setWidth 256 ∨ ¬evm.Created c s t ∧ word = 0

/-- What the address and the error of a creation say about it. -/
inductive Tells (evm : Evm C) (c : Creation) (s t : StateDB C) : Address → Option VmError → Prop
  | refused {e : VmError} : e ≠ .codeStoreOutOfGas → ¬evm.Created c s t → ¬evm.Skipped c s → ¬evm.InitFails c s →
      Tells evm c s t 0 (some e)
  | skipped : ¬evm.Created c s t → evm.Skipped c s → Tells evm c s t c.address none
  | failed {e : VmError} : e ≠ .codeStoreOutOfGas → ¬evm.Created c s t → ¬evm.Skipped c s → evm.InitFails c s →
      Tells evm c s t c.address (some e)
  | unpaid : ¬evm.Created c s t → ¬evm.Skipped c s → ¬evm.InitFails c s →
    Tells evm c s t c.address (some .codeStoreOutOfGas)
  | created : evm.Created c s t → ¬evm.Skipped c s → ¬evm.InitFails c s → Tells evm c s t c.address none

/-- Without a run of the init code nothing is created, and it does not fail. -/
theorem not_created_of_not_run (never : ∀ r u, ¬evm.InitReturns c s r u) : ¬evm.Created c s t ∧ ¬evm.InitFails c s :=
  ⟨fun ⟨_, _, _, runs, _⟩ => never _ _ runs, fun ⟨_, _, _, _, runs, _⟩ => never _ _ runs⟩

/-- Code of a fair size that comes without an error is no failure. -/
theorem InitReturns.not_fails (runs : evm.InitReturns c s (ret, left, none) t)
    (fits : ret.length ≤ maxCodeSize) : ¬evm.InitFails c s := by
  rintro ⟨_, _, _, _, runs', fault⟩
  obtain ⟨rfl, rest⟩ := Prod.mk.inj (runs.unique runs').1
  cases rest
  exact fault.elim (fun some => some rfl) (not_lt.mpr fits)

/-- The code that a creation stores is found at its address. -/
theorem answer_setCode (l : Ledger C) (addr : Address) (code : Bytes) :
    (Query.getCode addr).answer (l.setCode addr code) = code := by
  simp only [Query.answer, Ledger.setCode, Ledger.amend, Ledger.accounts_setAccount]
  rfl

theorem make_tells (slots : C.SlotsApart K) (accounts : C.AccountsApart A) (client : evm.run.IsClient A K)
    (opened : s.Opened A K) (sender : c.caller ∈ A) (created : c.address ∈ A)
    (ran : (evm.make c).run s = .ok (ret, addr, left, err) t) : Tells evm c s t addr err := by
  have start : At A K s.nextRevisionId s s.ledger s := ⟨⟨.refl, opened.ready slots accounts⟩, rfl⟩
  have prepared : Proc.Spec (At A K s.nextRevisionId s s.ledger) (evm.prepare c.caller c.value c.address) _ _ :=
    prepare_spec slots accounts sender created
  rcases make_cases ran with ⟨e, refused, same⟩ | ⟨skips, p, begun, same⟩ |
    ⟨skips, snap, v, s₁, ret', left₁, err₁, s₂, left₂, err₂, begun, returned, ends, same⟩
  · simp only [Prod.mk.injEq] at same
    obtain ⟨-, rfl, -, rfl⟩ := same
    obtain ⟨among, -⟩ := prepared.ok start refused
    obtain ⟨none, sound⟩ : ¬evm.Created c s t ∧ ¬evm.InitFails c s := not_created_of_not_run fun r u runs => by
      obtain ⟨-, snap, v, s₁, begun, -⟩ := runs
      simp [begun] at refused
    refine .refused (fun same => by simp [same] at among) none (fun ⟨_, p, u, begun⟩ => ?_) sound
    simp [begun] at refused
  · simp only [Prod.mk.injEq] at same
    obtain ⟨-, rfl, -, rfl⟩ := same
    exact .skipped (not_created_of_not_run fun r u runs => runs.1 skips).1 ⟨skips, p, t, begun⟩
  · simp only [Prod.mk.injEq] at same
    obtain ⟨rfl, rfl, rfl, rfl⟩ := same
    have runs : evm.InitReturns c s (ret, left₁, err₁) s₂ := ⟨skips, snap, v, s₁, begun, returned⟩
    have running : ¬evm.Skipped c s := fun skipped => skips skipped.1
    cases ends with
    | @failed e _ reverted =>
      refine .failed (by simp) ?_ running ⟨ret, left₁, some e, s₂, runs, .inl (by simp)⟩
      rintro ⟨_, _, _, runs', -⟩
      simpa using (runs.unique runs').1
    | oversize large reverted =>
      refine .failed (by simp) ?_ running ⟨ret, left₁, none, s₂, runs, .inr large⟩
      rintro ⟨_, _, _, runs', fits, -⟩
      obtain ⟨rfl, -⟩ := Prod.mk.inj (runs.unique runs').1
      exact absurd large (not_lt.mpr fits)
    | unpaid fits poor =>
      refine .unpaid ?_ running ?_
      · rintro ⟨_, _, _, runs', -, paid, -⟩
        obtain ⟨rfl, rest⟩ := Prod.mk.inj (runs.unique runs').1
        cases rest
        exact absurd poor (UInt64.not_lt.mpr paid)
      · exact runs.not_fails fits
    | installed fits paid =>
      refine .created ⟨ret, left₁, s₂, runs, fits, paid, ?_⟩ running (runs.not_fails fits)
      obtain ⟨s', -, -, -, -, -, since, -⟩ := prepared.ok start begun
      have after := (client _ _ _ _).ok since returned
      obtain ⟨-, ledger⟩ := Update.apply_spec (m := .setCode c.address ret) slots created after.2.sound
      rw [ledger]
      exact answer_setCode ..

theorem address_word_eq_zero : (addr.setWidth 256 : Word) = 0 ↔ addr = 0 := by
  rw [← BitVec.toNat_inj, ← BitVec.toNat_inj, BitVec.toNat_setWidth, Nat.mod_eq_of_lt (addr.isLt.trans (by decide))]
  rfl

/-- A word that stands for a creation that did not happen is truthful only if it is zero. -/
theorem truthful_of_not_created {word : Word} (none : ¬evm.Created c s t) : evm.Truthful c s t word ↔ word = 0 :=
  ⟨fun truth => truth.elim (fun made => absurd made.1 none) And.right, fun zero => .inr ⟨none, zero⟩⟩

/-- The word of `opCreate` also stands for creations that were skipped or failed in the init code. -/
theorem Tells.opCreate (tells : Tells evm c s t addr err) :
    evm.Truthful c s t (if err = some .codeStoreOutOfGas then 0 else addr.setWidth 256) ↔
      c.address = 0 ∨ ¬(evm.Skipped c s ∨ evm.InitFails c s) := by
  cases tells with
  | refused other none run sound =>
    rw [if_neg (by simpa using other), truthful_of_not_created none]
    simp [run, sound]
  | skipped none skipped =>
    rw [if_neg (by simp), truthful_of_not_created none, address_word_eq_zero]
    simp [skipped]
  | failed other none run fails =>
    rw [if_neg (by simpa using other), truthful_of_not_created none, address_word_eq_zero]
    simp [fails]
  | unpaid none run sound =>
    rw [if_pos rfl, truthful_of_not_created none]
    simp [run, sound]
  | created made run sound => simp [Truthful, made, run, sound]

/-- The word of `opCreate2` only stands for creations that were made or skipped. -/
theorem Tells.opCreate2 (tells : Tells evm c s t addr err) :
    evm.Truthful c s t (if err ≠ none then 0 else addr.setWidth 256) ↔ c.address = 0 ∨ ¬evm.Skipped c s := by
  cases tells with
  | refused _ none run _ | failed _ none run _ | unpaid none run _ =>
    rw [if_pos (by simp), truthful_of_not_created none]
    simp [run]
  | skipped none skipped =>
    rw [if_neg (by simp), truthful_of_not_created none, address_word_eq_zero]
    simp [skipped]
  | created made run _ => simp [Truthful, made, run]

/-- The creation that `opCreate` asks for, once `Create` has read the nonce. -/
def Frame.creation (C : Crypto) (frame : Frame) (value : Word) (input : Bytes) (nonce : UInt64) : Creation :=
  ⟨frame.self, input, creationGas frame, some value.toNat, createAddress C frame.self nonce⟩

/-- The creation that `opCreate2` asks for. -/
def Frame.creation2 (C : Crypto) (frame : Frame) (endowment salt : Word) (input : Bytes) : Creation :=
  ⟨frame.self, input, creationGas frame, some endowment.toNat, createAddress2 C frame.self salt input⟩

theorem report_eq_ok {frame frame' : Frame} {rest : List Word} {failed : Option VmError → Bool} {output : Bytes}
    {nested : Proc Empty (StateDB C) (Bytes × Address × UInt64 × Option VmError)}
    (ran : (report frame rest failed nested).run s = .ok (output, frame') t) :
    ∃ ret addr left err, nested.run s = .ok (ret, addr, left, err) t ∧
      frame'.stack = (if failed err then 0 else addr.setWidth 256) :: rest := by
  obtain ⟨⟨ret, addr, left, err⟩, u, made, ran⟩ := Proc.bind_eq_ok.mp ran
  obtain ⟨⟨-, rfl⟩, rfl⟩ := ran
  exact ⟨ret, addr, left, err, made, rfl⟩

/-- `opCreate` reports a creation truthfully exactly if its init code does not fail and is not skipped, and `opCreate2`
exactly if it is not skipped; only at address zero is there no difference. -/
theorem opCreate_truthful_iff (slots : C.SlotsApart K) (accounts : C.AccountsApart A) (client : evm.run.IsClient A K)
    (opened : s.Opened A K) {frame : Frame} (sender : frame.self ∈ A) {input : Bytes} {value offset size : Word}
    {rest : List Word} (loaded : frame.memory.get offset.int64 size.int64 = some input) {output : Bytes}
    {frame' : Frame} :
    (frame.stack = value :: offset :: size :: rest →
      ∀ nonce s', s.getNonce frame.self = (nonce, s') → (Frame.creation C frame value input nonce).address ∈ A →
        (evm.opCreate frame).run s = .ok (output, frame') t →
        ∃ word, frame'.stack = word :: rest ∧ (evm.Truthful (Frame.creation C frame value input nonce) s' t word ↔
          (Frame.creation C frame value input nonce).address = 0 ∨
            ¬(evm.Skipped (Frame.creation C frame value input nonce) s' ∨
              evm.InitFails (Frame.creation C frame value input nonce) s'))) ∧
      ∀ salt, frame.stack = value :: offset :: size :: salt :: rest →
        (Frame.creation2 C frame value salt input).address ∈ A →
        (evm.opCreate2 frame).run s = .ok (output, frame') t →
        ∃ word, frame'.stack = word :: rest ∧ (evm.Truthful (Frame.creation2 C frame value salt input) s t word ↔
          (Frame.creation2 C frame value salt input).address = 0 ∨
            ¬evm.Skipped (Frame.creation2 C frame value salt input) s) := by
  constructor
  · intro stack nonce s' asked created ran
    simp only [opCreate, stack, loaded] at ran
    obtain ⟨_, _, read, ran⟩ := Proc.bind_eq_ok.mp ran
    obtain ⟨same, rfl⟩ := Proc.orFault_eq_ok.mp read
    cases same
    obtain ⟨ret, addr, left, err, made, pushed⟩ := report_eq_ok ran
    -- `Create` reads the nonce first, which may load the account
    obtain rfl : (s.getNonce frame.self).1 = nonce := congrArg Prod.fst asked
    obtain rfl : (s.getNonce frame.self).2 = s' := congrArg Prod.snd asked
    have opened' : (s.getNonce frame.self).2.Opened A K :=
      opened.step (.query (.getNonce frame.self)) sender trivial rfl
    refine ⟨_, pushed, ?_⟩
    simpa using (make_tells slots accounts client opened' sender created made).opCreate
  · intro salt stack created ran
    simp only [opCreate2, stack, loaded] at ran
    obtain ⟨_, _, read, ran⟩ := Proc.bind_eq_ok.mp ran
    obtain ⟨same, rfl⟩ := Proc.orFault_eq_ok.mp read
    cases same
    obtain ⟨ret, addr, left, err, made, pushed⟩ := report_eq_ok ran
    refine ⟨_, pushed, ?_⟩
    simpa using (make_tells slots accounts client opened sender created made).opCreate2

/-- A frame of contract 7 that creates a contract without init code. -/
def creating : Frame := ⟨7, 6400, .new, [0, 0, 0]⟩

theorem not_initFails_always {c : Creation} {s : StateDB .numeral} : ¬(always [] 50 none).InitFails c s := by
  rintro ⟨ret, left, err, u, ⟨-, snap, v, s₁, -, returned⟩, fault⟩
  have result : ([], (50 : UInt64), (none : Option RunError)) = (ret, left, err) := (Proc.pure_eq_ok.mp returned).1
  obtain ⟨rfl, rfl, rfl⟩ := result
  exact fault.elim (fun some => some rfl) (by simp)

/-- A creation that succeeds is reported by its address. -/
theorem opCreate_truthful_success :
    ∃ output frame' t, ((always [] 50 none).opCreate creating).run nobody = .ok (output, frame') t ∧
    ∃ word, frame'.stack = [word] ∧
      (always [] 50 none).Truthful (Frame.creation .numeral creating 0 [] 0) nobody t word := by
  obtain ⟨⟨output, frame'⟩, t, ran⟩ : ∃ r t, ((always [] 50 none).opCreate creating).run nobody = .ok r t := by
    decide +kernel
  refine ⟨output, frame', t, ran, ?_⟩
  have loaded : creating.memory.get (Word.int64 0) (Word.int64 0) = some [] := rfl
  have stack : creating.stack = [0, 0, 0] := rfl
  obtain ⟨word, pushed, truthful⟩ :=
    (opCreate_truthful_iff (K := ∅) (Set.injOn_empty _) (accountsApart_numeral Set.univ)
    (isClient_always _ _ _) opened_nobody trivial loaded).1 stack 0 nobody rfl trivial ran
  exact ⟨word, pushed, truthful.mpr
    (.inr fun wrong => wrong.elim (fun skipped => by simp [Skipped, Skips, always] at skipped)
    not_initFails_always)⟩

/-- Init code that reverts leaves no account at the address, but `opCreate` pushes the address. -/
theorem opCreate_reports_reverted : ∃ output frame' t,
    ((always [] 50 (some .executionReverted)).opCreate creating).run nobody = .ok (output, frame') t ∧
      frame'.stack = [(createAddress .numeral 7 0).setWidth 256] ∧ createAddress .numeral 7 0 ≠ 0 ∧
      t.ledger.accounts (createAddress .numeral 7 0) = none ∧
      ∀ word ∈ frame'.stack, ¬(always [] 50 (some .executionReverted)).Truthful
        (Frame.creation .numeral creating 0 [] 0) nobody t
        word := by
  obtain ⟨⟨output, frame'⟩, t, ran, pushed, nonzero, absent⟩ : ∃ r t,
      ((always [] 50 (some .executionReverted)).opCreate creating).run nobody = .ok r t ∧
        r.2.stack = [(createAddress .numeral 7 0).setWidth 256] ∧ createAddress .numeral 7 0 ≠ 0 ∧
        (t.ledger.accounts (createAddress .numeral 7 0)).isNone := by decide +kernel
  refine ⟨output, frame', t, ran, pushed, nonzero, Option.isNone_iff_eq_none.mp absent, fun word member truth => ?_⟩
  rw [pushed, List.mem_singleton] at member
  subst member
  rw [truthful_of_not_created, address_word_eq_zero] at truth
  · exact nonzero truth
  · rintro ⟨ret, left, u, ⟨-, snap, v, s₁, -, returned⟩, -⟩
    have result : ([], (50 : UInt64), some RunError.executionReverted) = (ret, left, none) :=
      (Proc.pure_eq_ok.mp returned).1
    simp at result

end Report

end Evm

end Vm

end KKChain
