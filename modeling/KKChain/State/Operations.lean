import KKChain.State.Revert

/-! # The operations on the ledger

Every operation of the state database does to its ledger what the operation of the same name does here, and its
journal takes it back. Getters load objects and fill caches, which the ledger does not see.
-/

namespace KKChain

open Option Function

variable {C : Crypto} {A : Set Address} {K : Set Hash} {f : LedgerAccount → LedgerAccount}

namespace Ledger

variable (l : Ledger C)

/-- A change of an account, which is created if there is none. -/
def amend (addr : Address) (f : LedgerAccount → LedgerAccount) : Ledger C :=
  l.setAccount addr (some (f ((l.accounts addr).getD (.fresh C))))

def addBalance (addr : Address) (amount : ℤ) : Ledger C :=
  l.amend addr fun account => { account with balance := account.balance + amount }

def subBalance (addr : Address) (amount : ℤ) : Ledger C :=
  l.amend addr fun account => { account with balance := account.balance - amount }

def setBalance (addr : Address) (amount : ℤ) : Ledger C :=
  l.amend addr fun account => { account with balance := amount }

def setNonce (addr : Address) (nonce : UInt64) : Ledger C :=
  l.amend addr fun account => { account with nonce := nonce }

def setCode (addr : Address) (code : Bytes) : Ledger C :=
  l.amend addr fun account => { account with codeHash := C.keccak code, code := code }

def setState (addr : Address) (key value : Hash) : Ledger C :=
  l.amend addr fun account => account.setSlot C key value

def suicide (addr : Address) : Ledger C :=
  l.reviseIfAny addr fun account => { account with balance := 0, suicided := true }

/-- A new account keeps the balance of the one it replaces. -/
def createAccount (addr : Address) : Ledger C :=
  l.setAccount addr (some { LedgerAccount.fresh C with balance := ((l.accounts addr).map (·.balance)).getD 0 })

def addRefund (gas : UInt64) : Ledger C := { l with refund := l.refund + gas }

def addLog (txhash : Hash) (log : Log) : Ledger C :=
  { l with logs := Function.update l.logs txhash (l.logs txhash ++ [log]), logSize := l.logSize + 1 }

def addPreimage (hash : Hash) (preimage : Bytes) : Ledger C :=
  { l with preimages := Function.update l.preimages hash (some ((l.preimages hash).getD preimage)) }

end Ledger

namespace StateDB

/-- The marks of the precompile that no entry accounts for. -/
def strayMarks (s : StateDB C) : ℤ := s.journal.mark ripemd - s.journal.count ripemd

/-- Whatever is removed or dirty in `t` was so in `s`, and what is dirty stays in memory. -/
structure Retains (s t : StateDB C) : Prop where
  removed : ∀ {addr obj}, t.stateObjects.lookup addr = some obj → obj.deleted = true →
    s.stateObjects.lookup addr = some obj
  dirty : ∀ {addr}, t.stateObjectsDirty.lookup addr ≠ none → s.stateObjectsDirty.lookup addr ≠ none
  present : ∀ {addr}, t.stateObjectsDirty.lookup addr ≠ none → s.stateObjects.lookup addr ≠ none →
    t.stateObjects.lookup addr ≠ none

/-- `t` came from `s` by changes that its journal takes back. -/
structure Journaled (apart : C.SlotsApart K) (A : Set Address) (s t : StateDB C) : Prop where
  sound : t.Sound A K
  restores : (undoLog A K apart).Restores s t
  length : s.journal.entries.length ≤ t.journal.entries.length
  marks : s.strayMarks ≤ t.strayMarks
  retains : s.Retains t
  revisions : t.validRevisions = s.validRevisions
  nextRevision : t.nextRevisionId = s.nextRevisionId

variable {apart : C.SlotsApart K} {s t u : StateDB C} {addr : Address} {obj : StateObject} {entry : JournalEntry}
  {l : Ledger C}

namespace Retains

theorem refl (s : StateDB C) : s.Retains s := ⟨fun found _ => found, id, fun _ => id⟩

theorem trans (first : s.Retains t) (second : t.Retains u) : s.Retains u where
  removed found deleted := first.removed (second.removed found deleted) deleted
  dirty isDirty := first.dirty (second.dirty isDirty)
  present isDirty held := second.present isDirty (first.present (second.dirty isDirty) held)

/-- A table of objects that was left alone. -/
theorem of_objects (objects : t.stateObjects = s.stateObjects) (dirty : t.stateObjectsDirty = s.stateObjectsDirty) :
    s.Retains t where
  removed found _ := objects ▸ found
  dirty isDirty := dirty ▸ isDirty
  present _ held := objects ▸ held

theorem setStateObject (s : StateDB C) (addr : Address) (live : obj.deleted = false) :
    s.Retains (s.setStateObject addr obj) where
  removed {addr' obj'} found deleted := by
    rw [StateDB.setStateObject, AList.lookup_insert_eq_ite] at found
    split_ifs at found
    · rw [← some.inj found, live] at deleted
      cases deleted
    · exact found
  dirty := id
  present {addr'} _ held := by
    rw [StateDB.setStateObject, AList.lookup_insert_eq_ite]
    split_ifs
    · exact some_ne_none obj
    · exact held

end Retains

namespace Journaled

theorem refl (sound : s.Sound A K) : Journaled apart A s s :=
  ⟨sound, UndoLog.Restores.refl sound, le_rfl, le_rfl, .refl s, rfl, rfl⟩

theorem trans (first : Journaled apart A s t) (second : Journaled apart A t u) : Journaled apart A s u where
  sound := second.sound
  restores := first.restores.trans second.restores first.sound second.sound first.length second.length
  length := first.length.trans second.length
  marks := first.marks.trans second.marks
  retains := first.retains.trans second.retains
  revisions := second.revisions.trans first.revisions
  nextRevision := second.nextRevision.trans first.nextRevision

/-- A change that neither the ledger nor the journal sees. -/
theorem of_ledger (sound : t.Sound A K) (ledger : t.ledger = s.ledger) (journal : t.journal = s.journal)
    (retains : s.Retains t) (revisions : t.validRevisions = s.validRevisions)
    (nextRevision : t.nextRevisionId = s.nextRevisionId) : Journaled apart A s t where
  sound := sound
  restores := UndoLog.Restores.of_view sound (Prod.ext (congrArg Journal.entries journal) ledger)
  length := by rw [journal]
  marks := by rw [strayMarks, strayMarks, journal]
  retains := retains
  revisions := revisions
  nextRevision := nextRevision

/-- A change with one entry, which takes it back. -/
theorem of_entry (sound : t.Sound A K) (entries : t.journal.entries = entry :: s.journal.entries)
    (undone : t.ledger.undo entry = some s.ledger) (marks : s.strayMarks ≤ t.strayMarks)
    (retains : s.Retains t) (revisions : t.validRevisions = s.validRevisions)
    (nextRevision : t.nextRevisionId = s.nextRevisionId) : Journaled apart A s t where
  sound := sound
  restores := by
    have valid := sound.valid entry (entries ▸ .head _)
    obtain ⟨u, reverted, same⟩ := map_eq_some_iff.mp ((map_ledger_revert apart sound valid).trans undone)
    have ran : t.undo = some { u with journal := u.journal.pop entry s.journal.entries } := by
      simp only [undo, entries, reverted, map_some]
    refine UndoLog.Restores.of_undo ?_ ran ((undoLog A K apart).inv_undo sound ran) (Prod.ext ?_ same)
    · exact congrArg List.length entries
    · exact Journal.entries_pop ..
  length := by
    rw [entries]
    exact Nat.le_succ _
  marks := marks
  retains := retains
  revisions := revisions
  nextRevision := nextRevision

theorem strayMarks_append (s : StateDB C) (entry : JournalEntry) : (s.append entry).strayMarks = s.strayMarks := by
  unfold strayMarks append
  rw [Journal.mark_append, Journal.count_append]
  split_ifs <;> push_cast <;> ring

/-- A journaled write of an object. -/
theorem write (sound : s.Sound A K) (mem : addr ∈ A) (coherent : obj.Coherent C K) (live : obj.deleted = false)
    (valid : entry.Valid C A K s.trie) (own : entry.dirtied = some addr ∨ entry.dirtied = none)
    (undone : (s.ledger.setAccount addr (some (obj.view s.db))).undo entry = some s.ledger) :
    Journaled apart A s ((s.append entry).setStateObject addr obj) := by
  refine of_entry (sound.write mem coherent live valid own) (Journal.entries_append _ entry) ?_ ?_ ?_ rfl rfl
  · rw [ledger_setStateObject _ addr obj live]
    exact undone
  · exact (strayMarks_append s entry).ge
  · exact .trans (t := s.append entry) (.of_objects rfl rfl) (.setStateObject _ addr live)

/-- An entry for a change outside of the objects. -/
theorem of_append {refund logSize : UInt64} {logs : Hash → List Log} {preimages : Hash → Option Bytes}
    (sound : s.Sound A K) (valid : entry.Valid C A K s.trie) (own : entry.dirtied = none)
    (undone : Ledger.undo { s.ledger with refund, logs, logSize, preimages } entry = some s.ledger) :
    Journaled apart A s { s.append entry with refund, logs, logSize, preimages } := by
  have appended : (s.append entry).Sound A K := sound.append valid fun _ dirtied => by
    rw [own] at dirtied
    cases dirtied
  exact .of_entry (appended.congr rfl rfl rfl) (Journal.entries_append ..) undone (strayMarks_append s entry).ge
    (.of_objects rfl rfl) rfl rfl

end Journaled

section Undo

/-- What a change of an object leaves alone. -/
theorem reviseIfAny_frame {f : StateObject → StateObject} (same : s.reviseIfAny addr f = t)
    (live : ∀ obj, (f obj).deleted = obj.deleted) :
    s.Retains t ∧ t.validRevisions = s.validRevisions ∧ t.nextRevisionId = s.nextRevisionId := by
  subst same
  unfold reviseIfAny
  rcases found : s.getStateObject addr with ⟨_ | obj, s'⟩
  · obtain ⟨rfl, -⟩ := getStateObject_none found
    exact ⟨.refl s', rfl, rfl⟩
  · obtain ⟨isLive, -, -, rfl | ⟨_, -, -, rfl, rfl⟩⟩ := getStateObject_some found
    · exact ⟨.setStateObject s' addr ((live obj).trans isLive.2), rfl, rfl⟩
    · exact ⟨(Retains.setStateObject s addr rfl).trans (.setStateObject _ addr ((live _).trans isLive.2)), rfl, rfl⟩

/-- What taking back an entry leaves alone. -/
theorem revert_frame (valid : entry.Valid C A K s.trie) (ran : entry.revert s = some t) :
    s.Retains t ∧ t.validRevisions = s.validRevisions ∧ t.nextRevisionId = s.nextRevisionId := by
  cases entry with
  | createObject account =>
    cases ran
    refine ⟨⟨fun {addr obj} found _ => ?_, fun {addr} isDirty => ?_, fun {addr} isDirty held => ?_⟩, rfl, rfl⟩
    · rw [AList.lookup_erase_eq_ite] at found
      split_ifs at found
      exact found
    · rw [AList.lookup_erase_eq_ite] at isDirty
      split_ifs at isDirty
      · exact absurd rfl isDirty
      · exact isDirty
    · rw [AList.lookup_erase_eq_ite] at isDirty ⊢
      split_ifs at isDirty ⊢
      · exact absurd rfl isDirty
      · exact held
  | resetObject account prev =>
    cases ran
    exact ⟨.setStateObject s account valid.2.2, rfl, rfl⟩
  | suicide account prev prevbalance => exact reviseIfAny_frame (some.inj ran) fun _ => rfl
  | balance account prev | nonce account prev | code account prevcode prevhash | storage account key prevalue =>
    exact reviseIfAny_frame (reviseIfAny_of_revise ran) fun _ => rfl
  | refund prev | addPreimage hash =>
    cases ran
    exact ⟨.of_objects rfl rfl, rfl, rfl⟩
  | addLog txhash =>
    change s.dropLog txhash = some t at ran
    unfold dropLog at ran
    split at ran
    · cases ran
    · cases ran
      exact ⟨.of_objects rfl rfl, rfl, rfl⟩
  | touch account =>
    cases ran
    exact ⟨.refl s, rfl, rfl⟩

/-- What taking back a part of the journal leaves alone. -/
theorem undoTo_frame (apart : C.SlotsApart K) (sound : s.Sound A K) {n : ℕ}
    (ran : (undoLog A K apart).undoTo n s = some t) :
    s.Retains t ∧ t.strayMarks = s.strayMarks ∧ t.validRevisions = s.validRevisions ∧
      t.nextRevisionId = s.nextRevisionId := by
  refine UndoLog.undoN_keeps (P := fun t => s.Retains t ∧ t.strayMarks = s.strayMarks ∧
    t.validRevisions = s.validRevisions ∧ t.nextRevisionId = s.nextRevisionId) sound ran ?_ ⟨.refl s, rfl, rfl, rfl⟩
  rintro t t' sound' undone ⟨retains, marks, revisions, nextRevision⟩
  obtain ⟨entry, entries, u, shape, valid, reverted, rfl, -⟩ := undo_spec sound' undone
  obtain ⟨retains', revisions', nextRevision'⟩ := revert_frame valid reverted
  refine ⟨(retains.trans retains').trans (.of_objects rfl rfl), ?_, revisions'.trans revisions,
    nextRevision'.trans nextRevision⟩
  rw [← marks, strayMarks, strayMarks]
  have count := Journal.count_of_entries shape ripemd
  change (t.journal.pop entry entries).mark ripemd - ((t.journal.pop entry entries).count ripemd : ℤ) = _
  rw [Journal.mark_pop]
  split_ifs at count ⊢ <;> omega

end Undo

section Objects

/-- An object that is found may be used in the state it comes with. -/
theorem getStateObject_journaled (sound : s.Sound A K) (mem : addr ∈ A) {s' : StateDB C}
    (found : s.getStateObject addr = (some obj, s')) : Journaled apart A s s' := by
  obtain ⟨-, ledger, -, shape⟩ := getStateObject_some found
  obtain ⟨sound', -⟩ := sound.getStateObject mem found
  rcases shape with rfl | ⟨_, -, -, rfl, rfl⟩
  · exact .refl sound
  · exact .of_ledger sound' ledger rfl (.setStateObject s addr rfl) rfl rfl

/-- Everything `createObject` does. -/
theorem createObject_spec (apart : C.SlotsApart K) (sound : s.Sound A K) (mem : addr ∈ A) :
    ∃ prev t, s.createObject addr = (.blank C, prev, t) ∧ t.Live addr (.blank C) ∧
      (prev.map fun obj => obj.view s.db) = s.account addr ∧
      t.ledger = s.ledger.setAccount addr (some (.fresh C)) ∧ Journaled apart A s t := by
  have coherent : (StateObject.blank C).Coherent C K := StateObject.coherent_newObject _
  have ledger : ∀ s₁ : StateDB C, (s₁.setStateObject addr (.blank C)).ledger =
      s₁.ledger.setAccount addr (some (.fresh C)) := by
    intro s₁
    rw [ledger_setStateObject s₁ addr (.blank C) rfl, StateObject.view_blank]
  unfold createObject
  rcases found : s.getStateObject addr with ⟨_ | prev, s'⟩
  · obtain ⟨rfl, absent⟩ := getStateObject_none found
    have untried : s'.trie.get (accountKey C addr) = none := by
      cases held : s'.stateObjects.lookup addr with
      | none => simpa [account, held] using absent
      | some obj =>
        refine sound.deleted held ?_
        by_contra live
        simp [account, held, live] at absent
    refine ⟨none, _, rfl, live_setStateObject _ addr rfl, absent.symm, ledger _, ?_⟩
    refine .write sound mem coherent rfl ⟨mem, untried⟩ (.inl rfl) ?_
    rw [Ledger.undo, Ledger.setAccount_setAccount, ← absent]
    exact congrArg some (s'.ledger.setAccount_self addr)
  · obtain ⟨live, same, held, -⟩ := getStateObject_some found
    obtain ⟨sound', isCoherent⟩ := sound.getStateObject mem found
    refine ⟨some prev, _, rfl, live_setStateObject _ addr rfl, held.symm, ?_, ?_⟩
    · rw [ledger, ← same]
      rfl
    · refine (getStateObject_journaled sound mem found).trans ?_
      refine .write sound' mem coherent rfl ⟨mem, isCoherent, live.2⟩ (.inr rfl) ?_
      change some ((s'.ledger.setAccount addr _).setAccount addr (some (prev.view s'.db))) = _
      rw [Ledger.setAccount_setAccount, ← live.account]
      exact congrArg some (s'.ledger.setAccount_self addr)

/-- Everything `GetOrNewStateObject` does. -/
theorem getOrNewStateObject_spec (apart : C.SlotsApart K) (sound : s.Sound A K) (mem : addr ∈ A) :
    ∃ obj t, s.getOrNewStateObject addr = (obj, t) ∧ t.Live addr obj ∧ obj.Coherent C K ∧ t.db = s.db ∧
      obj.view t.db = (s.account addr).getD (.fresh C) ∧ t.ledger = s.ledger.amend addr id ∧ Journaled apart A s t := by
  unfold getOrNewStateObject
  rcases found : s.getStateObject addr with ⟨_ | obj, s'⟩
  · obtain ⟨rfl, absent⟩ := getStateObject_none found
    obtain ⟨prev, t, created, live, -, ledger, journaled⟩ := createObject_spec apart sound mem
    refine ⟨.blank C, t, by simp only [created], live, journaled.sound.coherent live.1,
      congrArg Ledger.db ledger, ?_, ?_, journaled⟩
    · rw [absent, StateObject.view_blank]
      rfl
    · rw [ledger, Ledger.amend, show s'.ledger.accounts addr = none from absent]
      rfl
  · obtain ⟨live, same, held, -⟩ := getStateObject_some found
    have db : s'.db = s.db := congrArg Ledger.db same
    have journaled : Journaled apart A s s' := getStateObject_journaled sound mem found
    refine ⟨obj, s', rfl, live, journaled.sound.coherent live.1, db, ?_, ?_, journaled⟩
    · rw [held, db]
      rfl
    · have kept := s.ledger.setAccount_self addr
      rw [same, Ledger.amend]
      rw [show s.ledger.accounts addr = some (obj.view s.db) from held] at kept ⊢
      exact kept.symm

end Objects

section Setters

/-- An operation on the object at an address amends the account, if it does so with every live object. -/
theorem amend_spec (apart : C.SlotsApart K) (sound : s.Sound A K) (mem : addr ∈ A)
    (op : StateObject → StateDB C → StateDB C)
    (spec : ∀ obj t, t.Sound A K → t.Live addr obj → obj.Coherent C K → Journaled apart A t (op obj t) ∧
      (op obj t).ledger = t.ledger.setAccount addr (some (f (obj.view t.db)))) :
    Journaled apart A s (op (s.getOrNewStateObject addr).1 (s.getOrNewStateObject addr).2) ∧
      (op (s.getOrNewStateObject addr).1 (s.getOrNewStateObject addr).2).ledger = s.ledger.amend addr f := by
  obtain ⟨obj, t, got, live, coherent, -, view, ledger, journaled⟩ := getOrNewStateObject_spec apart sound mem
  obtain ⟨journaled', ledger'⟩ := spec obj t journaled.sound live coherent
  rw [got]
  refine ⟨journaled.trans journaled', ledger'.trans ?_⟩
  rw [ledger, view, Ledger.amend, Ledger.amend, Ledger.setAccount_setAccount]
  rfl

/-- Taking back a change of one account. -/
theorem undo_setAccount {account account' : LedgerAccount}
    (held : l.accounts addr = some account) (back : f account' = account) :
    (l.setAccount addr (some account')).revise addr f = some l := by
  rw [Ledger.revise, Ledger.accounts_setAccount, map_some, back, Ledger.setAccount_setAccount, ← held,
    Ledger.setAccount_self]

theorem undo_setAccount_ifAny {account account' : LedgerAccount}
    (held : l.accounts addr = some account) (back : f account' = account) :
    (l.setAccount addr (some account')).reviseIfAny addr f = l := by
  rw [Ledger.reviseIfAny, Ledger.accounts_setAccount, map_some, back, Ledger.setAccount_setAccount, ← held,
    Ledger.setAccount_self]

/-- The mark of the precompile that stays. -/
theorem Sound.dirty (sound : s.Sound A K) (settled : s.Settled ripemd) :
    Sound A K { s with journal := s.journal.dirty ripemd } where
  __ := sound
  counted := sound.counted.dirty
  settled {addr} marked := by
    by_cases same : addr = ripemd
    · exact same ▸ settled
    · exact sound.settled (by simpa [Journal.dirty, AList.lookup_insert_ne same] using marked)

variable (apart) (sound : s.Sound A K)
include sound

theorem addRefund_spec (gas : UInt64) :
    Journaled apart A s (s.addRefund gas) ∧ (s.addRefund gas).ledger = s.ledger.addRefund gas :=
  ⟨.of_append sound trivial rfl rfl, rfl⟩

theorem addLog_spec (log : Log) :
    Journaled apart A s (s.addLog log) ∧ (s.addLog log).ledger = s.ledger.addLog s.thash
      { log with txHash := s.thash, blockHash := s.bhash, txIndex := s.txIndex, index := s.logSize } := by
  refine ⟨.of_append sound trivial rfl ?_, rfl⟩
  simp only [Ledger.undo, Ledger.dropLog, ledger]
  rw [update_self]
  cases logs : s.logs s.thash with
  | nil =>
    simp only [List.nil_append, List.dropLast_singleton, update_idem, UInt64.add_sub_cancel]
    rw [← logs, update_eq_self]
    rfl
  | cons first rest =>
    simp only [List.cons_append, update_idem, UInt64.add_sub_cancel]
    rw [← List.cons_append, List.dropLast_concat, ← logs, update_eq_self]
    rfl

theorem addPreimage_spec (hash : Hash) (preimage : Bytes) :
    Journaled apart A s (s.addPreimage hash preimage) ∧
      (s.addPreimage hash preimage).ledger = s.ledger.addPreimage hash preimage := by
  unfold addPreimage Ledger.addPreimage
  change _ ∧ _ = { s.ledger with preimages := update s.preimages hash (some ((s.preimages hash).getD preimage)) }
  cases held : s.preimages hash with
  | some known =>
    refine ⟨.refl sound, ?_⟩
    dsimp only
    rw [getD_some, ← held, update_eq_self]
    rfl
  | none =>
    refine ⟨.of_append sound trivial rfl ?_, rfl⟩
    simp only [Ledger.undo, ledger, update_idem]
    rw [← held, update_eq_self]
    rfl

variable (mem : addr ∈ A)
include mem

theorem writeBalance_spec (live : s.Live addr obj)
    (coherent : obj.Coherent C K) (amount : ℤ) : Journaled apart A s (s.writeBalance addr obj amount) ∧
      (s.writeBalance addr obj amount).ledger =
        s.ledger.setAccount addr (some { obj.view s.db with balance := amount }) := by
  constructor
  · refine .write sound mem (coherent.congr rfl rfl rfl) live.2 mem (.inl rfl) ?_
    exact undo_setAccount live.account rfl
  · exact ledger_setStateObject _ addr (obj.setBalance amount) live.2

theorem setBalance_spec (amount : ℤ) :
    Journaled apart A s (s.setBalance addr amount) ∧
      (s.setBalance addr amount).ledger = s.ledger.setBalance addr amount :=
  amend_spec apart sound mem (fun obj s => s.writeBalance addr obj amount) fun _ _ sound live coherent =>
    writeBalance_spec apart sound mem live coherent amount

theorem touch_spec (live : s.Live addr obj) :
    Journaled apart A s (s.touch addr) ∧ (s.touch addr).ledger = s.ledger := by
  have touched : (s.append (.touch addr)).Sound A K :=
    sound.append mem fun _ dirtied => .inl ⟨obj, some.inj dirtied ▸ live⟩
  unfold touch
  split_ifs with precompile
  · subst precompile
    refine ⟨.of_entry (touched.dirty (.inl ⟨obj, live⟩)) (Journal.entries_append ..) rfl ?_ (.of_objects rfl rfl)
      rfl rfl, rfl⟩
    have kept := Journaled.strayMarks_append s (.touch ripemd)
    unfold strayMarks at kept ⊢
    rw [← kept, Journal.mark_dirty, if_pos rfl]
    change _ ≤ _ - ((s.append (.touch ripemd)).journal.count ripemd : ℤ)
    omega
  · exact ⟨.of_entry touched (Journal.entries_append ..) rfl (Journaled.strayMarks_append ..).ge
      (.of_objects rfl rfl) rfl rfl,
      rfl⟩

theorem addBalance_spec (amount : ℤ) :
    Journaled apart A s (s.addBalance addr amount) ∧
      (s.addBalance addr amount).ledger = s.ledger.addBalance addr amount := by
  refine amend_spec apart sound mem (fun obj s =>
    if amount = 0 then if obj.empty C then s.touch addr else s else s.writeBalance addr obj (obj.data.balance + amount))
    fun obj t sound live coherent => ?_
  split_ifs with zero empty
  · obtain ⟨journaled, ledger⟩ := touch_spec apart sound mem live
    exact ⟨journaled, by rw [ledger, zero, add_zero, live.setAccount]⟩
  · exact ⟨.refl sound, by rw [zero, add_zero, live.setAccount]⟩
  · exact writeBalance_spec apart sound mem live coherent _

theorem subBalance_spec (amount : ℤ) :
    Journaled apart A s (s.subBalance addr amount) ∧
      (s.subBalance addr amount).ledger = s.ledger.subBalance addr amount := by
  refine amend_spec apart sound mem (fun obj s =>
    if amount = 0 then s else s.writeBalance addr obj (obj.data.balance - amount)) fun obj t sound live coherent => ?_
  split_ifs with zero
  · exact ⟨.refl sound, by rw [zero, sub_zero, live.setAccount]⟩
  · exact writeBalance_spec apart sound mem live coherent _

theorem setNonce_spec (nonce : UInt64) :
    Journaled apart A s (s.setNonce addr nonce) ∧ (s.setNonce addr nonce).ledger = s.ledger.setNonce addr nonce := by
  refine amend_spec apart sound mem (fun obj s =>
    (s.append (.nonce addr obj.data.nonce)).setStateObject addr (obj.setNonce nonce))
      fun obj t sound live coherent => ⟨?_, ?_⟩
  · refine .write sound mem (coherent.congr rfl rfl rfl) live.2 mem (.inl rfl) ?_
    exact undo_setAccount live.account rfl
  · exact ledger_setStateObject _ addr (obj.setNonce nonce) live.2

theorem setCode_spec (code : Bytes) :
    Journaled apart A s (s.setCode addr code) ∧ (s.setCode addr code).ledger = s.ledger.setCode addr code := by
  refine amend_spec apart sound mem (fun obj s =>
    (s.append (.code addr (obj.getCode s.db).1 (obj.getCode s.db).2.data.codeHash)).setStateObject addr
      ((obj.getCode s.db).2.setCode (C.keccak code) (some code))) fun obj t sound live coherent => ?_
  have data : (obj.getCode t.db).2.data = obj.data := by
    unfold StateObject.getCode
    split
    · rfl
    · split_ifs <;> rfl
  have view := StateObject.view_getCode t.db obj
  have written : ((obj.getCode t.db).2.setCode (C.keccak code) (some code)).view t.db =
      { obj.view t.db with codeHash := C.keccak code, code := code } := by
    rw [← view]
    rfl
  have isLive : ((obj.getCode t.db).2.setCode (C.keccak code) (some code)).deleted = false :=
    (StateObject.deleted_getCode t.db obj).trans live.2
  constructor
  · refine .write sound mem (coherent.getCode.congr rfl rfl rfl) isLive mem (.inl rfl) ?_
    rw [written, data, StateObject.getCode_fst]
    refine undo_setAccount live.account ?_
    -- what is read through the previous code is what was read before
    have again : t.db.codeOf obj.data.codeHash (t.db.codeOf obj.data.codeHash obj.code) =
        t.db.codeOf obj.data.codeHash obj.code := by
      unfold StateDatabase.codeOf
      cases obj.code <;> simp
    simp only [Ledger.setAccount]
    change { obj.view t.db with
      code := (t.db.codeOf obj.data.codeHash (t.db.codeOf obj.data.codeHash obj.code)).getD [] } = _
    rw [again]
    rfl
  · exact (ledger_setStateObject _ addr _ isLive).trans (by rw [← written]; rfl)

theorem setState_spec {key : Hash} (inK : key ∈ K) (value : Hash) :
    Journaled apart A s (s.setState addr key value) ∧
      (s.setState addr key value).ledger = s.ledger.setState addr key value := by
  refine amend_spec apart sound mem (fun obj s =>
    (s.append (.storage addr key (obj.getState s.db key).1)).setStateObject addr
      ((obj.getState s.db key).2.setState key value)) fun obj t sound live coherent => ?_
  have coherent' : (obj.getState t.db key).2.Coherent C K := coherent.getState inK
  have written : ((obj.getState t.db key).2.setState key value).view t.db = (obj.view t.db).setSlot C key value := by
    rw [coherent'.view_setState apart inK, StateObject.view_getState]
  have isLive : ((obj.getState t.db key).2.setState key value).deleted = false :=
    (StateObject.deleted_getState key).trans live.2
  constructor
  · refine .write sound mem (coherent'.setState inK value) isLive ⟨mem, inK⟩ (.inl rfl) ?_
    rw [written, coherent.getState_fst apart inK]
    refine undo_setAccount live.account ?_
    simp only [LedgerAccount.setSlot, LedgerAccount.slot, Word.ofHash_toHash, Trie.put_put, Trie.put_get]
  · exact (ledger_setStateObject _ addr _ isLive).trans (by rw [← written]; rfl)

theorem suicide_spec :
    (s.suicide addr).1 = (s.account addr).isSome ∧ Journaled apart A s (s.suicide addr).2 ∧
      (s.suicide addr).2.ledger = s.ledger.suicide addr := by
  unfold suicide Ledger.suicide Ledger.reviseIfAny
  rcases found : s.getStateObject addr with ⟨_ | obj, s'⟩
  · obtain ⟨rfl, absent⟩ := getStateObject_none found
    have kept := s'.ledger.setAccount_self addr
    rw [show s'.ledger.accounts addr = none from absent] at kept ⊢
    exact ⟨by rw [absent]; rfl, .refl sound, kept.symm⟩
  · obtain ⟨live, same, held, -⟩ := getStateObject_some found
    obtain ⟨sound', coherent⟩ := sound.getStateObject mem found
    have db : s'.db = s.db := congrArg Ledger.db same
    refine ⟨by rw [held]; rfl, (getStateObject_journaled sound mem found).trans ?_, ?_⟩
    · refine .write sound' mem (coherent.congr rfl rfl rfl) live.2 mem (.inl rfl) ?_
      exact congrArg some (undo_setAccount_ifAny live.account rfl)
    · refine (ledger_setStateObject _ addr { obj.setBalance 0 with suicided := true } live.2).trans ?_
      rw [show s.ledger.accounts addr = some _ from held, ← same, ← db]
      rfl

theorem createAccount_spec :
    Journaled apart A s (s.createAccount addr) ∧ (s.createAccount addr).ledger = s.ledger.createAccount addr := by
  rcases found : s.getStateObject addr with ⟨_ | prev, s'⟩
  · obtain ⟨prev, t, created, -, held, ledger, journaled⟩ := createObject_spec apart sound mem
    obtain ⟨rfl, absent⟩ := getStateObject_none found
    rw [absent, map_eq_none_iff] at held
    subst held
    have shape : s'.createAccount addr = t := by simp only [createAccount, created]
    rw [shape]
    refine ⟨journaled, ledger.trans ?_⟩
    rw [Ledger.createAccount, show s'.ledger.accounts addr = none from absent]
    rfl
  · obtain ⟨live, same, held, -⟩ := getStateObject_some found
    obtain ⟨sound', coherent⟩ := sound.getStateObject mem found
    have shape : s.createAccount addr = (s'.append (.resetObject addr prev)).setStateObject addr
        ((StateObject.blank C).setBalance prev.data.balance) := by
      simp only [createAccount, createObject, found]
      simp [setStateObject, append]
    have blank : ((StateObject.blank C).setBalance prev.data.balance).view s'.db =
        { LedgerAccount.fresh C with balance := prev.data.balance } := by
      rw [← StateObject.view_blank s'.db]
      rfl
    rw [shape]
    constructor
    · refine (getStateObject_journaled sound mem found).trans ?_
      refine .write sound' mem ((StateObject.coherent_newObject _).congr rfl rfl rfl) rfl
        ⟨mem, coherent, live.2⟩ (.inr rfl) ?_
      exact congrArg some ((Ledger.setAccount_setAccount ..).trans live.setAccount)
    · rw [ledger_setStateObject _ addr _ rfl]
      change (s'.ledger).setAccount addr (some (StateObject.view s'.db _)) = _
      rw [blank, Ledger.createAccount, show s.ledger.accounts addr = some _ from held, same]
      rfl

end Setters

end StateDB

end KKChain
