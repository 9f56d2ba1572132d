import KKChain.State.Coherence

/-! # When a copy is like its original

`Copy` takes over the objects that are marked in the journal or dirty, and leaves the journal behind. So the copy reads
every other account from the trie, also one that was re-created without being marked, and it has nothing to write into
the trie where the original still has. `Copyable` says that neither happens, and then the copy answers like the original
and has its roots. If one of them happens, it does not.
-/

namespace KKChain

variable {C : Crypto} {A : Set Address} {K : Set Hash}

namespace LedgerAccount

/-- The two accounts show the same to every question about the slots in `K`. -/
structure Alike (C : Crypto) (K : Set Hash) (a b : Option LedgerAccount) : Prop where
  nonce : a.map (·.nonce) = b.map (·.nonce)
  balance : a.map (·.balance) = b.map (·.balance)
  codeHash : a.map (·.codeHash) = b.map (·.codeHash)
  code : a.map (·.code) = b.map (·.code)
  suicided : a.map (·.suicided) = b.map (·.suicided)
  slot : ∀ key ∈ K, a.map (·.slot C key) = b.map (·.slot C key)

theorem Alike.refl (a : Option LedgerAccount) : Alike C K a a := ⟨rfl, rfl, rfl, rfl, rfl, fun _ _ => rfl⟩

variable {a b : Option LedgerAccount}

theorem Alike.empty (alike : Alike C K a b) : a.all (·.empty C) = b.all (·.empty C) := by
  have nonce := alike.nonce
  have balance := alike.balance
  have codeHash := alike.codeHash
  cases a <;> cases b <;> simp_all [LedgerAccount.empty]

theorem map_of_getD {α : Type} {f : LedgerAccount → α} {fallback : α} (exist : a.isSome = b.isSome)
    (same : (a.map f).getD fallback = (b.map f).getD fallback) : a.map f = b.map f := by
  cases a <;> cases b <;> simp_all

end LedgerAccount

namespace Ledger

open LedgerAccount (Alike)

variable {l l' : Ledger C}

/-- Ledgers answer alike if their accounts are alike and the rest is the same, and only then. -/
theorem answers_iff (refund : l.refund = l'.refund) (logs : l.logs = l'.logs) (preimages : l.preimages = l'.preimages) :
    (∀ q : Query, q.Within A K → q.answer l = q.answer l') ↔ ∀ addr ∈ A, Alike C K (l.accounts addr)
      (l'.accounts addr) := by
  constructor
  · intro same addr mem
    have exist : (l.accounts addr).isSome = (l'.accounts addr).isSome := same (.exist addr) mem
    have suicided : (l.accounts addr).any (·.suicided) = (l'.accounts addr).any (·.suicided) :=
      same (.hasSuicided addr) mem
    constructor
    · exact LedgerAccount.map_of_getD exist (same (.getNonce addr) mem)
    · exact LedgerAccount.map_of_getD exist (same (.getBalance addr) mem)
    · exact LedgerAccount.map_of_getD exist (same (.getCodeHash addr) mem)
    · exact LedgerAccount.map_of_getD exist (same (.getCode addr) mem)
    · cases mine : l.accounts addr <;> cases other : l'.accounts addr <;> simp_all
    · exact fun key inK => LedgerAccount.map_of_getD exist (same (.getState addr key) ⟨mem, inK⟩)
  · intro alike q within
    cases q with
    | exist addr =>
      have exist := congrArg Option.isSome (alike addr within).nonce
      rwa [Option.isSome_map, Option.isSome_map] at exist
    | empty addr => exact (alike addr within).empty
    | getBalance addr => exact congrArg (Option.getD · (0 : ℤ)) (alike addr within).balance
    | getNonce addr => exact congrArg (Option.getD · (0 : UInt64)) (alike addr within).nonce
    | getCodeHash addr => exact congrArg (Option.getD · (0 : Hash)) (alike addr within).codeHash
    | getCode addr => exact congrArg (Option.getD · []) (alike addr within).code
    | getCodeSize addr =>
      have code := congrArg (fun code => (code.map List.length).getD (0 : ℕ)) (alike addr within).code
      simp only [Option.map_map] at code
      exact code
    | getState addr key => exact congrArg (Option.getD · (0 : Hash)) ((alike addr within.1).slot key within.2)
    | hasSuicided addr =>
      have suicided := congrArg (Option.any id) (alike addr within).suicided
      rwa [Option.any_map, Option.any_map] at suicided
    | getRefund => exact refund
    | getLogs hash => exact congrFun logs hash
    | preimage hash => exact congrFun preimages hash

end Ledger

namespace StateDB

variable {s t state : StateDB C} {addr : Address} {d : Bool}

section Loops

/-- The objects at the addresses with `P` are copied into `state`. -/
def Carries (s : StateDB C) (P : Address → Prop) (state : StateDB C) : Prop :=
  ∀ addr, (P addr → state.stateObjects.lookup addr = (s.stateObjects.lookup addr).map (·.deepCopy)) ∧
    (¬ P addr → state.stateObjects.lookup addr = none)

variable {P : Address → Prop}

theorem Carries.congr {Q : Address → Prop} (carries : s.Carries P state) (same : ∀ addr, P addr ↔ Q addr) :
    s.Carries Q state :=
  fun addr => ⟨fun q => (carries addr).1 ((same addr).mpr q), fun q => (carries addr).2 fun p => q ((same addr).mp p)⟩

theorem Carries.copyObject {obj : StateObject} (carries : s.Carries P state)
    (found : s.stateObjects.lookup addr = some obj) :
    s.Carries (fun a => P a ∨ a = addr) (state.copyObject addr obj) := by
  intro addr'
  rw [StateDB.copyObject, StateDB.setStateObject, AList.lookup_insert_eq_ite]
  split_ifs with same
  · subst same
    exact ⟨fun _ => by rw [found]; rfl, fun other => absurd (.inr rfl) other⟩
  · exact ⟨fun other => (carries addr').1 (other.resolve_right same),
      fun other => (carries addr').2 fun p => other (.inl p)⟩

/-- There is nothing to copy at an address without an object. -/
theorem Carries.of_none (carries : s.Carries P state) (absent : s.stateObjects.lookup addr = none) :
    s.Carries (fun a => P a ∨ a = addr) state := by
  intro addr'
  by_cases same : addr' = addr
  · subst same
    refine ⟨fun _ => ?_, fun other => absurd (.inr rfl) other⟩
    by_cases p : P addr'
    · exact (carries addr').1 p
    · rw [(carries addr').2 p, absent]
      rfl
  · exact ⟨fun other => (carries addr').1 (other.resolve_right same),
      fun other => (carries addr').2 fun p => other (.inl p)⟩

theorem Carries.copyMarked (carries : s.Carries P state) :
    s.Carries (fun a => P a ∨ a = addr) (s.copyMarked state addr) := by
  unfold StateDB.copyMarked
  split
  · exact carries.of_none ‹_›
  · exact carries.copyObject ‹_›

theorem Carries.foldl (carries : s.Carries P state) (addrs : List Address) :
    s.Carries (fun a => P a ∨ a ∈ addrs) (addrs.foldl s.copyMarked state) := by
  induction addrs generalizing P state with
  | nil => exact carries.congr fun a => by simp
  | cons addr addrs ih => exact (ih carries.copyMarked).congr fun a => by simp [or_assoc]

/-- A round of the second loop panics exactly if there is no object. -/
theorem Carries.copyDirty (carries : s.Carries P state) (addr : Address) :
    (∃ state', s.copyDirty state addr = some state' ∧ s.Carries (fun a => P a ∨ a = addr) state' ∧
      s.stateObjects.lookup addr ≠ none) ∨
    s.copyDirty state addr = none ∧ s.stateObjects.lookup addr = none := by
  unfold StateDB.copyDirty
  cases held : state.stateObjects.lookup addr with
  | some obj =>
    have p : P addr := by
      by_contra other
      rw [(carries addr).2 other] at held
      cases held
    rw [(carries addr).1 p] at held
    obtain ⟨obj', found, -⟩ := Option.map_eq_some_iff.mp held
    refine .inl ⟨state, rfl, carries.congr fun a => ⟨.inl, ?_⟩, by simp [found]⟩
    rintro (other | rfl)
    · exact other
    · exact p
  | none =>
    cases found : s.stateObjects.lookup addr with
    | none => exact .inr ⟨rfl, rfl⟩
    | some obj => exact .inl ⟨_, rfl, carries.copyObject found, by simp⟩

theorem Carries.foldlM (carries : s.Carries P state) (addrs : List Address) :
    (∃ t, addrs.foldlM s.copyDirty state = some t ∧ s.Carries (fun a => P a ∨ a ∈ addrs) t ∧
      ∀ addr ∈ addrs, s.stateObjects.lookup addr ≠ none) ∨
    addrs.foldlM s.copyDirty state = none ∧ ∃ addr ∈ addrs, s.stateObjects.lookup addr = none := by
  induction addrs generalizing P state with
  | nil => exact .inl ⟨state, rfl, carries.congr fun a => by simp, by simp⟩
  | cons addr addrs ih =>
    rw [List.foldlM_cons]
    obtain ⟨state', ran, carries', present⟩ | ⟨ran, absent⟩ := carries.copyDirty addr
    · rw [ran, Option.bind_eq_bind, Option.bind_some]
      obtain ⟨t, rest, carried, all⟩ | ⟨rest, addr', mem, absent⟩ := ih carries'
      · exact .inl ⟨t, rest, carried.congr fun a => by simp [or_assoc], List.forall_mem_cons.mpr ⟨present, all⟩⟩
      · exact .inr ⟨rest, addr', .tail _ mem, absent⟩
    · rw [ran]
      exact .inr ⟨rfl, addr, .head _, absent⟩

end Loops

/-- The address is in `stateObjectsDirty`. -/
def Dirty (s : StateDB C) (addr : Address) : Prop := s.stateObjectsDirty.lookup addr ≠ none

theorem mem_dirty_iff : addr ∈ s.stateObjectsDirty.keys ↔ s.Dirty addr := by
  rw [AList.mem_keys_iff_exists, Dirty, Option.ne_none_iff_exists']

/-- `Copy` panics exactly if a dirty address has no object, and else it takes over what is marked or dirty. -/
theorem copy_cases (s : StateDB C) :
    (∃ t, s.copy = some t ∧ s.Carries (fun a => s.Marked a ∨ s.Dirty a) t ∧
      ∀ addr, s.Dirty addr → s.stateObjects.lookup addr ≠ none) ∨
    s.copy = none ∧ ∃ addr, s.Dirty addr ∧ s.stateObjects.lookup addr = none := by
  have start : s.Carries (fun _ => False) { ofTrie s.db s.trie with
      refund := s.refund, logs := s.logs, logSize := s.logSize, preimages := s.preimages } :=
    fun addr => ⟨False.elim, fun _ => rfl⟩
  obtain ⟨t, ran, carries, all⟩ | ⟨ran, addr, mem, absent⟩ :=
    (start.foldl s.journal.dirties.keys).foldlM s.stateObjectsDirty.keys
  · refine .inl ⟨t, ran, carries.congr fun a => ?_, fun addr dirty => all addr (mem_dirty_iff.mpr dirty)⟩
    rw [false_or, mem_dirties_iff, mem_dirty_iff]
  · exact .inr ⟨ran, addr, mem_dirty_iff.mp mem, absent⟩

section Ledger

/-- The account as it is read from the trie. -/
def stored (s : StateDB C) (addr : Address) : Option LedgerAccount :=
  (s.trie.get (accountKey C addr)).map fun data => (StateObject.newObject data).view s.db

/-- The copy has the accounts that are marked or dirty, and reads the others from the trie. -/
theorem account_copy (ran : s.copy = some t) (addr : Address) :
    (s.Marked addr ∨ s.Dirty addr → t.account addr = s.account addr) ∧
    (¬ (s.Marked addr ∨ s.Dirty addr) → t.account addr = s.stored addr) := by
  obtain ⟨t', ran', carries, -⟩ | ⟨ran', -⟩ := s.copy_cases
  · obtain rfl := Option.some.inj (ran'.symm.trans ran)
    have db : t'.db = s.db := by rw [(copy_spec ran).frame]; rfl
    have trie : t'.trie = s.trie := by rw [(copy_spec ran).frame]; rfl
    refine ⟨fun taken => ?_, fun left => ?_⟩
    · have object := (carries addr).1 taken
      simp only [account, object, db, trie]
      cases s.stateObjects.lookup addr <;> rfl
    · have object := (carries addr).2 left
      simp only [account, object, db, trie, stored]
  · rw [ran'] at ran
    cases ran

/-- What the copy has to write, which is nothing. -/
theorem intermediateRoot_copy (ran : s.copy = some t) (d : Bool) :
    (t.intermediateRoot d).map Prod.fst = some (s.trie.hash C Account.enc) := by
  rw [(copy_spec ran).frame]
  rfl

/-- The copy answers like the original exactly if the trie has the accounts that are not taken over. -/
theorem answers_copy_iff (slots : C.SlotsApart K) (tidy : s.Tidy A K) (ran : s.copy = some t) :
    (∀ q : Query, q.Within A K → (q.ask t).1 = (q.ask s).1) ↔
      ∀ addr ∈ A, ¬ (s.Marked addr ∨ s.Dirty addr) → LedgerAccount.Alike C K (s.stored addr) (s.account addr) := by
  have frame := (copy_spec ran).frame
  have answers : (∀ q : Query, q.Within A K → (q.ask t).1 = (q.ask s).1) ↔
      ∀ q : Query, q.Within A K → q.answer t.ledger = q.answer s.ledger := by
    refine forall₂_congr fun q within => ?_
    rw [Query.ask_fst slots within (tidy.copy ran).coherent, Query.ask_fst slots within tidy.coherent]
  have refund : t.ledger.refund = s.ledger.refund := by rw [frame]; rfl
  have logs : t.ledger.logs = s.ledger.logs := by rw [frame]; rfl
  have preimages : t.ledger.preimages = s.ledger.preimages := by rw [frame]; rfl
  rw [answers, Ledger.answers_iff refund logs preimages]
  refine forall₂_congr fun addr _ => ?_
  obtain ⟨taken, left⟩ := account_copy ran addr
  constructor
  · intro alike unmarked
    rw [← left unmarked]
    exact alike
  · intro alike
    change LedgerAccount.Alike C K (t.account addr) (s.account addr)
    by_cases marked : s.Marked addr ∨ s.Dirty addr
    · rw [taken marked]
      exact .refl _
    · rw [left marked]
      exact alike marked

end Ledger

section Root

variable (accounts : C.AccountsApart A) (tidy : s.Tidy A K)
include accounts tidy

/-- `Finalise` leaves the trie as it is exactly if the marked accounts can be written and the trie has them already. -/
theorem finalise_keeps_iff (d : Bool) : (∃ t, s.finalise d = some t ∧ t.trie = s.trie) ↔
    ∀ addr obj, s.Marked addr → s.stateObjects.lookup addr = some obj →
      ((obj.view s.db).goes C d = true ∨ 0 ≤ obj.data.balance) ∧
        s.trie.get (accountKey C addr) = (obj.view s.db).written C d := by
  have distinct := s.journal.dirties.keys_nodup
  obtain ⟨t, ran, finalised, writable⟩ | ⟨ran, addr, marked, bad⟩ := s.finalise_spec d
  · constructor
    · rintro ⟨t', ran', kept⟩ addr obj marked held
      cases ran.symm.trans ran'
      change t.trie = s.trie at kept
      refine ⟨writable addr marked obj held, ?_⟩
      rw [← kept]
      exact finalised.get_of_mem accounts tidy.known distinct (mem_dirties_iff.mpr marked) held
    · intro written
      refine ⟨_, ran, Trie.ext_get fun key => ?_⟩
      change t.trie.get key = s.trie.get key
      by_cases own : ∃ addr obj, s.Marked addr ∧ s.stateObjects.lookup addr = some obj ∧ accountKey C addr = key
      · obtain ⟨addr, obj, marked, held, rfl⟩ := own
        rw [finalised.get_of_mem accounts tidy.known distinct (mem_dirties_iff.mpr marked) held]
        exact (written addr obj marked held).2.symm
      · refine finalised.get_of_not_mem fun addr mem obj held same => own ?_
        exact ⟨addr, obj, mem_dirties_iff.mp mem, held, same⟩
  · constructor
    · rintro ⟨t', ran', -⟩
      rw [ran] at ran'
      cases ran'
    · intro written
      exact absurd (fun obj held => (written addr obj marked held).1) bad

end Root

/-- The root of the original is that of its trie as it is exactly if `Finalise` returns and leaves this root. -/
theorem intermediateRoot_eq_iff (d : Bool) : (s.intermediateRoot d).map Prod.fst = some (s.trie.hash C Account.enc) ↔
    ∃ t, s.finalise d = some t ∧ t.trie.hash C Account.enc = s.trie.hash C Account.enc := by
  unfold intermediateRoot
  cases s.finalise d <;> simp

/-- What a state must be like so that `Copy` keeps what it shows: every dirty address has an object, the trie has the
accounts that are neither marked nor dirty, and it has the marked accounts already as `Finalise` writes them. -/
structure Copyable (A : Set Address) (K : Set Hash) (s : StateDB C) : Prop where
  present : ∀ addr, s.Dirty addr → s.stateObjects.lookup addr ≠ none
  stored : ∀ addr ∈ A, ¬ (s.Marked addr ∨ s.Dirty addr) → LedgerAccount.Alike C K (s.stored addr) (s.account addr)
  written : ∀ d addr obj, s.Marked addr → s.stateObjects.lookup addr = some obj →
    ((obj.view s.db).goes C d = true ∨ 0 ≤ obj.data.balance) ∧
      s.trie.get (accountKey C addr) = (obj.view s.db).written C d

end StateDB

/-- One of two state databases. -/
inductive Twin where
  | original
  | copy
deriving DecidableEq, Repr

/-- A call on one of two state databases. -/
def Twin.step (pair : StateDB C × StateDB C) (call : Twin × StateCall) (pair' : StateDB C × StateDB C) : Prop :=
  match call.1 with
  | original => call.2.run pair.1 = some pair'.1 ∧ pair'.2 = pair.2
  | copy => pair'.1 = pair.1 ∧ call.2.run pair.2 = some pair'.2

open StateDB

/-- The copy answers like the original and has its roots, and calls on the two in any order have on each of them the
effect of its own calls. That the two are values here is what the source sees to: `Copy` and `deepCopy` make new maps,
and the balances, codes and trie nodes that stay shared are replaced by new ones, never written in place. -/
structure FaithfulCopy (A : Set Address) (K : Set Hash) (s t : StateDB C) : Prop where
  answers : ∀ q : Query, q.Within A K → (q.ask t).1 = (q.ask s).1
  roots : ∀ d, (t.intermediateRoot d).map Prod.fst = (s.intermediateRoot d).map Prod.fst
  independent : ∀ calls pair, Run Twin.step (s, t) calls pair → ∃ own own',
    StateRun s own pair.1 ∧ own.map (·.2.1) =
      calls.filterMap (fun c => if c.2.1.1 = .original then some c.2.1.2 else none) ∧
    StateRun t own' pair.2 ∧ own'.map (·.2.1) =
      calls.filterMap (fun c => if c.2.1.1 = .copy then some c.2.1.2 else none)

section Faithful

variable {s t : StateDB C}

theorem twins_independent {calls : List ((StateDB C × StateDB C) × (Twin × StateCall) × (StateDB C × StateDB C))}
    {start pair : StateDB C × StateDB C} (run : Run Twin.step start calls pair) : ∃ own own',
    StateRun start.1 own pair.1 ∧
      own.map (·.2.1) = calls.filterMap (fun c => if c.2.1.1 = .original then some c.2.1.2 else none) ∧
    StateRun start.2 own' pair.2 ∧
      own'.map (·.2.1) = calls.filterMap (fun c => if c.2.1.1 = .copy then some c.2.1.2 else none) := by
  induction run with
  | nil start => exact ⟨[], [], .nil _, rfl, .nil _, rfl⟩
  | @cons start middle pair call calls first rest ih =>
    obtain ⟨own, own', run, labels, run', labels'⟩ := ih
    obtain ⟨_ | _, call⟩ := call
    · obtain ⟨ran, same⟩ := first
      rw [same] at run'
      exact ⟨_, own', .cons ran run, by simp [labels], run', by simp [labels']⟩
    · obtain ⟨same, ran⟩ := first
      rw [same] at run
      exact ⟨own, _, run, by simp [labels], .cons ran run', by simp [labels']⟩

/-- A copy of a state of any run is faithful if the state is copyable and, where Keccak tells the tries before and after
`Finalise` apart, only then. -/
theorem copy_faithful_iff (slots : C.SlotsApart K) (accounts : C.AccountsApart A) {db : StateDatabase C}
    {trie : Trie Account} {calls : List (StateDB C × StateCall × StateDB C)} (made : StateRun (ofTrie db trie) calls s)
    (within : ∀ c ∈ calls, c.2.1.Within A K) :
    (s.Copyable A K → ∃ t, s.copy = some t ∧ FaithfulCopy A K s t) ∧
    ((∀ d t, s.finalise d = some t → t.trie.hash C Account.enc = s.trie.hash C Account.enc → t.trie = s.trie) →
      (∃ t, s.copy = some t ∧ FaithfulCopy A K s t) → s.Copyable A K) := by
  have tidy : s.Tidy A K := made.tidy slots within (.ofTrie db trie)
  constructor
  · intro copyable
    obtain ⟨t, ran, -, -⟩ | ⟨-, addr, dirty, absent⟩ := s.copy_cases
    · refine ⟨t, ran, (answers_copy_iff slots tidy ran).mpr copyable.stored, fun d => ?_, fun _ _ => twins_independent⟩
      obtain ⟨t', finalised, kept⟩ := (finalise_keeps_iff accounts tidy d).mpr (copyable.written d)
      rw [intermediateRoot_copy ran, (intermediateRoot_eq_iff d).mpr ⟨t', finalised, by rw [kept]⟩]
    · exact absurd absent (copyable.present addr dirty)
  · rintro apart ⟨t, ran, faithful⟩
    refine ⟨fun addr dirty => ?_, (answers_copy_iff slots tidy ran).mp faithful.answers, fun d => ?_⟩
    · obtain ⟨t', -, -, present⟩ | ⟨panics, -⟩ := s.copy_cases
      · exact present addr dirty
      · rw [panics] at ran
        cases ran
    · obtain ⟨t', finalised, same⟩ := (intermediateRoot_eq_iff d).mp
        ((faithful.roots d).symm.trans (intermediateRoot_copy ran d))
      exact (finalise_keeps_iff accounts tidy d).mp ⟨t', finalised, apart d t' finalised same⟩

/-- An account that is in the trie and marked again, with no change. -/
theorem copy_faithful_unchanged : ∃ calls s t, StateRun (ofTrie (.blank .numeral) .empty) calls s ∧ s.Marked 7 ∧
    s.copy = some t ∧ FaithfulCopy {7} {1} s t := by
  have runs : ((funded.finalise false).map (·.setNonce 7 0)).any (fun s => s.journal.dirties.keys == [7] &&
      s.stateObjectsDirty.keys == [7] && (s.stateObjects.lookup 7).any fun obj => 0 ≤ obj.data.balance &&
        [false, true].all fun d => s.trie.get (accountKey .numeral 7) = (obj.view s.db).written .numeral d) = true := by
    decide +kernel
  obtain ⟨s, made, runs⟩ := (Option.any_eq_true ..).mp runs
  obtain ⟨s₀, finalised, rfl⟩ := Option.map_eq_some_iff.mp made
  simp only [Bool.and_eq_true, beq_iff_eq, Option.any_eq_true, List.all_cons, List.all_nil, Bool.and_true,
    decide_eq_true_eq] at runs
  obtain ⟨⟨marks, dirty⟩, obj, held, balance, written⟩ := runs
  have marked : ∀ {addr}, (s₀.setNonce 7 0).Marked addr ↔ addr = 7 := fun {addr} => by
    rw [← mem_dirties_iff, marks, List.mem_singleton]
  have isDirty : ∀ {addr}, (s₀.setNonce 7 0).Dirty addr ↔ addr = 7 := fun {addr} => by
    rw [← mem_dirty_iff, dirty, List.mem_singleton]
  have last : StateRun s₀ [(s₀, .update (.setNonce 7 0), s₀.setNonce 7 0)] (s₀.setNonce 7 0) := .cons rfl (.nil _)
  have rest : StateRun funded ((funded, .finalise false, s₀) :: _) (s₀.setNonce 7 0) := .cons finalised last
  have run : StateRun (ofTrie (.blank .numeral) .empty) _ (s₀.setNonce 7 0) :=
    .cons (l := .update (.addBalance 7 5)) rfl rest
  obtain ⟨t, ran, faithful⟩ :=
    (copy_faithful_iff (A := {7}) (K := {1}) (Set.injOn_singleton ..) (Set.injOn_singleton ..) run
    (by simp [StateCall.Within, Update.Within])).1
    { present := fun addr isIn => by
        obtain rfl := isDirty.mp isIn
        exact held ▸ Option.some_ne_none obj
      stored := fun addr member unmarked => absurd (.inl (marked.mpr member)) unmarked
      written := fun d addr obj' isMarked found => by
        obtain rfl := marked.mp isMarked
        cases held.symm.trans found
        refine ⟨.inr balance, ?_⟩
        cases d
        · exact written.1
        · exact written.2 }
  exact ⟨_, _, t, run, marked.mpr rfl, ran, faithful⟩

/-- A trie with an account of nonce 3. -/
def withNonce : Trie Account :=
  Trie.empty.insert (accountKey .numeral 7) ⟨3, 0, emptyRoot, Crypto.numeral.emptyCodeHash⟩

/-- A copy has another root if a change was not finalised yet, and another nonce if the account was re-created. -/
theorem copy_differs : (∃ calls s t, StateRun (ofTrie (.blank .numeral) .empty) calls s ∧ s.copy = some t ∧
      (t.intermediateRoot false).map Prod.fst ≠ (s.intermediateRoot false).map Prod.fst) ∧
    ∃ calls s t, StateRun (ofTrie (.blank .numeral) withNonce) calls s ∧ s.copy = some t ∧
      (t.getNonce 7).1 = 3 ∧ (s.getNonce 7).1 = 0 := by
  have runs :
    funded.copy.any (fun t => (t.intermediateRoot false).map Prod.fst ≠ (funded.intermediateRoot false).map Prod.fst) ∧
      ((ofTrie (.blank .numeral) withNonce).createAccount 7).copy.any (fun t => (t.getNonce 7).1 = 3) ∧
      (((ofTrie (.blank .numeral) withNonce).createAccount 7).getNonce 7).1 = 0 := by decide +kernel
  obtain ⟨roots, nonces, blank⟩ := runs
  obtain ⟨t, copied, other⟩ := (Option.any_eq_true ..).mp roots
  obtain ⟨u, copied', nonce⟩ := (Option.any_eq_true ..).mp nonces
  refine ⟨⟨_, funded, t, .cons (l := .update (.addBalance 7 5)) rfl (.nil _), copied, by simpa using other⟩, ?_⟩
  exact ⟨_, _, u, .cons (l := .update (.createAccount 7)) rfl (.nil _), copied', by simpa using nonce, blank⟩

end Faithful

end KKChain
