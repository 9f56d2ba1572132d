import KKChain.State.Snapshot

/-! # The root that Commit returns

`Finalise` writes the marked accounts into the trie and `Commit` writes the dirty ones, so the two agree if every dirty
account that is not marked is in the trie already. `Flushed` says so of a state between transactions. Within a
transaction the journal leads back to such a state, and an account that no entry mentions is as it was there. Two
things break it: an empty account that `Finalise` removes stays dirty, and an account that is re-created without being
marked is not written.
-/

namespace KKChain

open List Option AList

variable {C : Crypto} {A : Set Address} {K : Set Hash} {account : LedgerAccount} {addrs : List Address} {n : ℕ}

/-- The account whose content the entry restores. -/
def JournalEntry.address : JournalEntry → Option Address
  | resetObject account _ => some account
  | entry => entry.dirtied

/-- The database has the storage of the object, and there was no error. -/
def StateObject.Intact (db : StateDatabase C) (obj : StateObject) : Prop :=
  obj.dbErr = false ∧ (obj.trie = none → db.openStorageTrie obj.data.root ≠ none)

namespace StateObject

variable {db db' : StateDatabase C} {obj : StateObject}

theorem Intact.dbErr_updateTrie (intact : obj.Intact db) : (obj.updateTrie db).dbErr = false := by
  change (obj.getTrie db).dbErr = false
  cases opened : obj.trie with
  | some trie => simp [getTrie, opened, intact.1]
  | none => simpa [getTrie, opened, intact.1] using ne_none_iff_isSome.mp (intact.2 opened)

theorem Intact.storageTrie_of_extends (intact : obj.Intact db) (extended : db.Extends db') :
    obj.storageTrie db' = obj.storageTrie db := by
  unfold storageTrie
  cases opened : obj.trie with
  | some trie => rfl
  | none =>
    obtain ⟨trie, found⟩ := ne_none_iff_exists'.mp (intact.2 opened)
    rw [found, extended found]

/-- What is written for an intact object does not change when the database grows. -/
theorem Intact.toAccount_of_extends (intact : obj.Intact db) (extended : db.Extends db') :
    (obj.view db').toAccount C = (obj.view db).toAccount C := by
  simp only [view, LedgerAccount.toAccount, intact.storageTrie_of_extends extended]

theorem Intact.of_extends (intact : obj.Intact db) (extended : db.Extends db') : obj.Intact db' := by
  refine ⟨intact.1, fun opened => ?_⟩
  obtain ⟨trie, found⟩ := ne_none_iff_exists'.mp (intact.2 opened)
  rw [extended found]
  exact some_ne_none trie

theorem Intact.finalised (intact : obj.Intact db) (d : Bool) : (obj.finalised db d).Intact db := by
  unfold StateObject.finalised
  split_ifs
  · exact intact
  · exact ⟨intact.dbErr_updateTrie, fun opened => by simp [updateRoot, updateTrie] at opened⟩

end StateObject

/-- Taking back an entry changes no account but its own. -/
theorem Ledger.undo_other {l l' : Ledger C} {addr : Address} {entry : JournalEntry} (undone : l.undo entry = some l')
    (other : entry.address ≠ some addr) : l'.accounts addr = l.accounts addr ∧ l'.trie = l.trie := by
  have set : ∀ {addr'} {account : Option LedgerAccount}, some addr' ≠ some addr →
      (l.setAccount addr' account).accounts addr = l.accounts addr ∧ (l.setAccount addr' account).trie = l.trie :=
    fun ne => ⟨Function.update_of_ne (fun eq => ne (congrArg some eq.symm)) .., rfl⟩
  have revised : ∀ {addr'} {f : LedgerAccount → LedgerAccount}, l.revise addr' f = some l' → some addr' ≠ some addr →
      l'.accounts addr = l.accounts addr ∧ l'.trie = l.trie := by
    intro addr' f revised ne
    obtain ⟨account, -, rfl⟩ := map_eq_some_iff.mp revised
    exact set ne
  cases entry with
  | createObject account | resetObject account prev | suicide account prev prevbalance =>
    cases undone
    exact set other
  | balance account prev | nonce account prev | storage account key prevalue | code account prevcode prevhash =>
    exact revised undone other
  | refund prev | addPreimage hash | touch account =>
    cases undone
    exact ⟨rfl, rfl⟩
  | addLog txhash =>
    change l.dropLog txhash = some l' at undone
    unfold Ledger.dropLog at undone
    split at undone
    · cases undone
    · cases undone
      exact ⟨rfl, rfl⟩

namespace StateDB

variable {s t u : StateDB C} {d ok : Bool} {addr : Address} {obj : StateObject} {apart : C.SlotsApart K}

/-- An account that no entry mentions is as it was at the start of the journal. -/
theorem Sound.account_of_undoTo (sound : s.Sound A K)
    (unmentioned : ∀ entry ∈ s.journal.entries, entry.address ≠ some addr)
    (undone : (undoLog A K apart).undoTo n s = some u) : u.account addr = s.account addr ∧ u.trie = s.trie := by
  refine (UndoLog.undoN_keeps (P := fun t => (∀ entry ∈ t.journal.entries, entry.address ≠ some addr) ∧
    t.account addr = s.account addr ∧ t.trie = s.trie) sound undone ?_ ⟨unmentioned, rfl, rfl⟩).2
  rintro t t' sound' ran ⟨unmentioned, account, trie⟩
  obtain ⟨entry, entries, v, shape, valid, reverted, rfl, -⟩ := undo_spec sound' ran
  rw [shape, forall_mem_cons] at unmentioned
  have effect := map_ledger_revert apart sound' valid
  rw [reverted, map_some] at effect
  obtain ⟨kept, trie'⟩ := Ledger.undo_other effect.symm unmentioned.1
  refine ⟨?_, kept.trans account, trie'.trans trie⟩
  rw [Journal.entries_pop]
  exact unmentioned.2

/-- Between transactions: what is dirty is in the trie, and what has self-destructed is gone. -/
structure Flushed (s : StateDB C) : Prop where
  unused : s.journal.entries = []
  surviving : ∀ {addr account}, s.account addr = some account → account.suicided = false
  stored : ∀ {addr account}, s.stateObjectsDirty.lookup addr ≠ none → s.account addr = some account →
    s.trie.get (accountKey C addr) = some (account.toAccount C) ∧ 0 ≤ account.balance
  removed : ∀ {addr obj}, s.stateObjects.lookup addr = some obj → obj.deleted = true →
    obj.suicided = true ∨ s.stateObjectsDirty.lookup addr = none
  present : ∀ {addr}, s.stateObjectsDirty.lookup addr ≠ none → s.stateObjects.lookup addr ≠ none

/-- Within a transaction: the journal leads back to a flushed state. -/
def Pending (apart : C.SlotsApart K) (A : Set Address) (s : StateDB C) : Prop :=
  ∃ s₀ : StateDB C, s₀.Flushed ∧ s₀.Sound A K ∧ (undoLog A K apart).Restores s₀ s ∧ s₀.Retains s

theorem Flushed.ofTrie (db : StateDatabase C) (trie : Trie Account) : (ofTrie db trie).Flushed where
  unused := rfl
  surviving {addr account} held := by
    obtain ⟨data, -, rfl⟩ := map_eq_some_iff.mp held
    rfl
  stored dirty := absurd rfl dirty
  removed found := by cases found
  present dirty := absurd rfl dirty

theorem Flushed.pending (flushed : s.Flushed) (sound : s.Sound A K) : Pending apart A s :=
  ⟨s, flushed, sound, .refl sound, .refl s⟩

theorem Pending.of_journaled (pending : Pending apart A s) (sound : s.Sound A K) (journaled : Journaled apart A s t) :
    Pending apart A t := by
  obtain ⟨s₀, flushed, sound₀, restores, retains⟩ := pending
  refine ⟨s₀, flushed, sound₀, restores.trans journaled.restores sound journaled.sound ?_ journaled.length,
    retains.trans journaled.retains⟩
  change s₀.journal.entries.length ≤ _
  rw [flushed.unused]
  exact Nat.zero_le _

theorem Pending.of_undoTo (pending : Pending apart A s) (sound : s.Sound A K) (bound : n ≤ s.journal.entries.length)
    (undone : (undoLog A K apart).undoTo n s = some t) : Pending apart A t := by
  obtain ⟨s₀, flushed, sound₀, restores, retains⟩ := pending
  have start : (undoLog A K apart).length s₀ = 0 := congrArg length flushed.unused
  exact ⟨s₀, flushed, sound₀, restores.of_undoTo sound (start ▸ Nat.zero_le n) bound undone,
    retains.trans (undoTo_frame apart sound undone).1⟩

/-- What a pending state keeps of the flushed one. -/
theorem Pending.removed (pending : Pending apart A s) (found : s.stateObjects.lookup addr = some obj)
    (deleted : obj.deleted = true) : obj.suicided = true ∨ s.stateObjectsDirty.lookup addr = none := by
  obtain ⟨s₀, flushed, -, -, retains⟩ := pending
  refine (flushed.removed (retains.removed found deleted) deleted).imp_right fun clean => ?_
  by_contra dirty
  exact retains.dirty dirty clean

theorem Pending.present (pending : Pending apart A s) (dirty : s.stateObjectsDirty.lookup addr ≠ none) :
    s.stateObjects.lookup addr ≠ none := by
  obtain ⟨s₀, flushed, -, -, retains⟩ := pending
  exact retains.present dirty (flushed.present (retains.dirty dirty))

/-- An account that no entry mentions has not self-destructed, and if it is dirty it is in the trie. -/
theorem Pending.unmentioned (pending : Pending apart A s) (sound : s.Sound A K)
    (unmentioned : ∀ entry ∈ s.journal.entries, entry.address ≠ some addr)
    (held : s.account addr = some account) : account.suicided = false ∧ (s.stateObjectsDirty.lookup addr ≠ none →
      s.trie.get (accountKey C addr) = some (account.toAccount C) ∧ 0 ≤ account.balance) := by
  obtain ⟨s₀, flushed, sound₀, ⟨u, undone, -, same⟩, retains⟩ := pending
  obtain ⟨-, ledger⟩ := Prod.mk.inj same
  obtain ⟨kept, trie⟩ := sound.account_of_undoTo unmentioned undone
  have account₀ : s₀.account addr = some account := by
    rw [← held, ← kept]
    exact (congrFun (congrArg Ledger.accounts ledger) addr).symm
  have trie₀ : s₀.trie = s.trie := (congrArg Ledger.trie ledger).symm.trans trie
  refine ⟨flushed.surviving account₀, fun dirty => ?_⟩
  rw [← trie₀]
  exact flushed.stored (retains.dirty dirty) account₀

section Finalise

/-- What `Finalise` must find so that `Commit` agrees with it: no marked account is empty, unless empty accounts are
kept or it has self-destructed, and every account that was re-created is marked. -/
structure Finalisable (d : Bool) (s : StateDB C) : Prop where
  nonempty : ∀ {addr obj}, s.Marked addr → s.stateObjects.lookup addr = some obj → (d && obj.empty C) = true →
    obj.suicided = true
  marked : ∀ {addr prev}, .resetObject addr prev ∈ s.journal.entries → s.Marked addr

/-- An account that is not marked is mentioned by no entry. -/
theorem Finalisable.unmentioned (finalisable : s.Finalisable d) (sound : s.Sound A K) (unmarked : ¬ s.Marked addr) :
    ∀ entry ∈ s.journal.entries, entry.address ≠ some addr := by
  intro entry mem mentioned
  refine unmarked ?_
  have dirtied : entry.dirtied = some addr → s.Marked addr := by
    intro dirtied
    refine sound.counted.lookup_ne_none.mpr ?_
    have counted : 0 < s.journal.count addr := countP_pos_iff.mpr ⟨entry, mem, decide_eq_true dirtied⟩
    have := sound.counted.le_mark addr
    omega
  cases entry with
  | resetObject account prev =>
    cases mentioned
    exact finalisable.marked mem
  | _ => exact dirtied mentioned

variable (sound : s.Sound A K) (accounts : C.AccountsApart A) (finalisable : s.Finalisable d)
  (finalised : Finalised d s.journal.dirties.keys s t)
include sound accounts finalisable finalised

omit finalisable in
/-- An account after `Finalise` that was marked. -/
theorem Finalised.account_of_marked (marked : s.Marked addr) (held : s.stateObjects.lookup addr = some obj)
    (found : t.account addr = some account) :
    account = obj.view s.db ∧ account.goes C d = false ∧
      t.trie.get (accountKey C addr) = some (account.toAccount C) := by
  have mem := mem_dirties_iff.mpr marked
  have db : t.db = s.db := by rw [finalised.frame]
  have trie := finalised.get_of_mem accounts sound.known s.journal.dirties.keys_nodup mem held
  have object := finalised.objects addr
  rw [if_pos mem, held, map_some, StateObject.finalised] at object
  unfold LedgerAccount.written at trie
  split_ifs at object trie with goes
  · simp [StateDB.account, object] at found
  · have live : (obj.updateRoot s.db).deleted = false := by
      simp [StateObject.updateRoot, StateObject.updateTrie, ((sound.settled marked).live held).2]
    rw [Live.account ⟨object, live⟩, db, StateObject.view_updateRoot] at found
    cases found
    exact ⟨rfl, by simpa using goes, trie⟩

/-- `Finalise` leaves a flushed state. -/
theorem Pending.finalise (pending : Pending apart A s) (writable : ∀ addr, s.Marked addr → s.Writable d addr) :
    t.clearJournalAndRefund.Flushed where
  unused := rfl
  surviving {addr account} found := by
    change t.account addr = some account at found
    have db : t.db = s.db := by rw [finalised.frame]
    have object := finalised.objects addr
    cases held : s.stateObjects.lookup addr with
    | none =>
      -- the account comes from the trie
      rw [held, map_none, ite_self] at object
      simp only [StateDB.account, object] at found
      obtain ⟨data, -, rfl⟩ := map_eq_some_iff.mp found
      rfl
    | some obj =>
      by_cases marked : s.Marked addr
      · obtain ⟨-, stays, -⟩ := finalised.account_of_marked sound accounts marked held found
        exact (Bool.or_eq_false_iff.mp stays).1
      · rw [if_neg (fun mem => marked (mem_dirties_iff.mp mem))] at object
        have kept : s.account addr = some account := by simpa only [StateDB.account, object, db, held] using found
        exact (pending.unmentioned sound (finalisable.unmentioned sound marked) kept).1
  stored {addr account} dirty found := by
    change t.account addr = some account at found
    change t.trie.get _ = _ ∧ _
    have db : t.db = s.db := by rw [finalised.frame]
    obtain ⟨obj, held⟩ : ∃ obj, s.stateObjects.lookup addr = some obj := ne_none_iff_exists'.mp
      (((finalised.dirty addr).mp dirty).elim pending.present And.right)
    by_cases marked : s.Marked addr
    · obtain ⟨rfl, stays, trie⟩ := finalised.account_of_marked sound accounts marked held found
      refine ⟨trie, (writable addr marked obj held).resolve_left ?_⟩
      simp [stays]
    · have outside : addr ∉ s.journal.dirties.keys := fun mem => marked (mem_dirties_iff.mp mem)
      have object := finalised.objects addr
      rw [if_neg outside] at object
      have kept : s.account addr = some account := by simpa only [StateDB.account, object, db, held] using found
      have wasDirty := ((finalised.dirty addr).mp dirty).resolve_right fun both => outside both.1
      rw [finalised.get_of_known accounts sound.known (sound.known held) outside]
      exact (pending.unmentioned sound (finalisable.unmentioned sound marked) kept).2 wasDirty
  removed {addr obj} found deleted := by
    change t.stateObjects.lookup addr = some obj at found
    rw [finalised.objects] at found
    split_ifs at found with mem
    · obtain ⟨obj', held, rfl⟩ := map_eq_some_iff.mp found
      have marked := mem_dirties_iff.mp mem
      left
      unfold StateObject.finalised at deleted ⊢
      split_ifs at deleted ⊢ with goes
      · exact (Bool.or_eq_true_iff.mp goes).elim id (finalisable.nonempty marked held)
      · simp [StateObject.updateRoot, StateObject.updateTrie, ((sound.settled marked).live held).2] at deleted
    · refine (pending.removed found deleted).imp_right fun clean => ?_
      by_contra dirty
      exact ((finalised.dirty addr).mp dirty).elim (fun h => h clean) fun both => mem both.1
  present {addr} dirty := by
    change t.stateObjects.lookup addr ≠ none
    rw [finalised.objects]
    have held := ((finalised.dirty addr).mp dirty).elim pending.present And.right
    split_ifs
    · simpa using held
    · exact held

end Finalise

section Commit

/-- No object in memory has met an error of the database, and none will. -/
def Intact (s : StateDB C) : Prop := ∀ {addr obj}, s.stateObjects.lookup addr = some obj → obj.Intact s.db

/-- Writing the object at an address would not change the trie. -/
structure Written (s : StateDB C) (addr : Address) (obj : StateObject) : Prop where
  intact : obj.Intact s.db
  gone : obj.suicided = true → s.trie.get (accountKey C addr) = none
  stored : obj.suicided = false → s.stateObjectsDirty.lookup addr ≠ none →
    s.trie.get (accountKey C addr) = some ((obj.view s.db).toAccount C) ∧ 0 ≤ obj.data.balance

/-- The round for a dirty object that is intact. -/
theorem commitObject_intact (found : s.stateObjects.lookup addr = some obj) (intact : obj.Intact s.db)
    (stays : s.goesAt d addr obj = false) (dirty : s.stateObjectsDirty.lookup addr ≠ none) :
    s.db.Extends (s.committedAt addr obj).db ∧ commitObject d s addr = if obj.data.balance < 0 then none else
      some (true,
        { s.committedAt addr obj with trie := s.trie.insert (accountKey C addr) ((obj.view s.db).toAccount C) }) := by
  have committed : (obj.committed s.db).1 = true := by rw [StateObject.committed_fst, intact.dbErr_updateTrie]; rfl
  obtain ⟨extended, dirtyCode, data, shape, written⟩ := StateObject.committed_snd s.db obj
  have data : (obj.committed s.db).2.2.data = (obj.view s.db).toAccount C := by
    rw [shape]
    exact written committed
  refine ⟨extended, ?_⟩
  rw [commitObject_eq found, stays, isSome_iff_ne_none.mpr dirty, committed, updateStateObject, data]
  simp only [Bool.false_eq_true, if_false, if_true]
  change Option.map _ (if obj.data.balance < 0 then none else _) = _
  split_ifs <;> rfl

/-- A round for a written object leaves the trie as it is. -/
theorem commitObject_written (written : ∀ obj, s.stateObjects.lookup addr = some obj → s.Written addr obj) :
    ∃ t, commitObject false s addr = some (true, t) ∧ t.trie = s.trie ∧ s.db.Extends t.db := by
  cases found : s.stateObjects.lookup addr with
  | none => exact ⟨s, by simp [commitObject, found], rfl, id⟩
  | some obj =>
    have written := written obj found
    cases destroyed : obj.suicided with
    | true =>
      refine ⟨s.deleteStateObject addr obj, by rw [commitObject_eq found]; simp [goesAt, destroyed], ?_, id⟩
      have absent := Trie.put_get s.trie (accountKey C addr)
      rwa [written.gone destroyed] at absent
    | false =>
      have stays : s.goesAt false addr obj = false := by simp [goesAt, destroyed]
      by_cases dirty : s.stateObjectsDirty.lookup addr = none
      · exact ⟨s, by rw [commitObject_eq found]; simp [stays, dirty], rfl, id⟩
      · obtain ⟨stored, balance⟩ := written.stored destroyed dirty
        obtain ⟨extended, ran⟩ := commitObject_intact found written.intact stays dirty
        refine ⟨_, ran.trans (if_neg (not_lt.mpr balance)), ?_, extended⟩
        have same := Trie.put_get s.trie (accountKey C addr)
        rwa [stored] at same

/-- A round leaves the other objects written. -/
theorem Written.undirty {addr' : Address} (written : s.Written addr' obj) (ran : commitObject d s addr = some (ok, t))
    (trie : t.trie = s.trie) (extended : s.db.Extends t.db) (other : addr' ≠ addr) :
    (t.undirty addr).Written addr' obj where
  intact := written.intact.of_extends extended
  gone destroyed := trie ▸ written.gone destroyed
  stored survives dirty := by
    rw [(goesAt_undirty ran other obj).2] at dirty
    obtain ⟨stored, balance⟩ := written.stored survives dirty
    refine ⟨?_, balance⟩
    change t.trie.get _ = _
    rw [trie, stored, show (t.undirty addr).db = t.db from rfl, written.intact.toAccount_of_extends extended]

/-- The loop over written objects leaves the trie as it is. -/
theorem commitObjects_written (distinct : addrs.Nodup)
    (written : ∀ addr ∈ addrs, ∀ obj, s.stateObjects.lookup addr = some obj → s.Written addr obj) :
    ∃ t, commitObjects false addrs s = some (true, t) ∧ t.trie = s.trie := by
  induction addrs generalizing s with
  | nil => exact ⟨s, rfl, rfl⟩
  | cons addr addrs ih =>
    obtain ⟨absent, distinct⟩ := nodup_cons.mp distinct
    obtain ⟨first, rest⟩ := forall_mem_cons.mp written
    obtain ⟨s', round, trie, extended⟩ := commitObject_written first
    obtain ⟨objects, -⟩ := commitObject_frame round
    obtain ⟨t, ran, trie'⟩ := ih distinct (s := s'.undirty addr) fun addr' mem obj found => by
      have other := ne_of_mem_of_not_mem mem absent
      exact (rest addr' mem obj ((objects addr' other).symm.trans found)).undirty round trie extended other
    exact ⟨t, by rw [commitObjects, round]; exact ran, trie'.trans trie⟩

/-- Nothing happened since the last transaction. -/
def Idle (s : StateDB C) : Prop := s.journal.entries = [] ∧ ∀ addr, ¬ s.Marked addr

theorem Idle.markDirty (idle : s.Idle) : s.markDirty.stateObjectsDirty.lookup addr ≠ none ↔
    s.stateObjectsDirty.lookup addr ≠ none := by
  rw [markDirty_lookup, or_iff_left (idle.2 addr)]

/-- In a flushed state every object is written. -/
theorem Flushed.written (flushed : s.Flushed) (sound : s.Sound A K) (idle : s.Idle) (intact : s.Intact)
    (found : s.stateObjects.lookup addr = some obj) : s.markDirty.Written addr obj where
  intact := intact found
  gone destroyed := by
    refine sound.deleted found ?_
    by_contra live
    have survives := flushed.surviving (Live.account ⟨found, by simpa using live⟩)
    rw [show (obj.view s.db).suicided = obj.suicided from rfl, destroyed] at survives
    cases survives
  stored survives dirty := by
    have dirty := idle.markDirty.mp dirty
    have live : obj.deleted = false := by
      by_contra deleted
      exact (flushed.removed found (by simpa using deleted)).elim (by simp [survives]) dirty
    exact flushed.stored dirty (Live.account ⟨found, live⟩)

/-- `Commit` of a flushed state returns the hash of the trie as it is. -/
theorem Flushed.commit (flushed : s.Flushed) (sound : s.Sound A K) (idle : s.Idle) (intact : s.Intact) :
    ∃ t, s.commit false = some (some (s.trie.hash C Account.enc), t) ∧
      t.db.openTrie (s.trie.hash C Account.enc) ≠ none := by
  obtain ⟨t, ran, trie⟩ := commitObjects_written (s := s.markDirty) s.stateObjects.keys_nodup
    fun addr _ obj found => flushed.written sound idle intact found
  have root : t.clearJournalAndRefund.trie.hash C Account.enc = s.trie.hash C Account.enc :=
    congrArg (Trie.hash C Account.enc) trie
  refine ⟨{ t.clearJournalAndRefund with db := t.db.insertTrie (s.trie.hash C Account.enc) t.trie }, ?_, ?_⟩
  · unfold StateDB.commit
    rw [ran]
    simp only [bind_eq_bind, bind_some, if_true, root]
    rfl
  · simp only [StateDatabase.openTrie, StateDatabase.insertTrie]
    split_ifs
    · exact some_ne_none _
    · rw [Function.update_self]
      exact some_ne_none _

/-- What a round makes of an intact object: if it is live it has not self-destructed. -/
theorem commitObject_survives (intact : ∀ obj, s.stateObjects.lookup addr = some obj → obj.Intact s.db)
    (ran : commitObject d s addr = some (ok, t)) : ok = true ∧ s.db.Extends t.db ∧
      ∀ obj, t.stateObjects.lookup addr = some obj → obj.deleted = false → obj.suicided = false := by
  cases found : s.stateObjects.lookup addr with
  | none =>
    rw [commitObject, found] at ran
    cases ran
    exact ⟨rfl, id, fun obj held => by rw [found] at held; cases held⟩
  | some obj =>
    have intact := intact obj found
    by_cases goes : s.goesAt d addr obj = true
    · rw [commitObject_eq found, if_pos goes] at ran
      cases ran
      refine ⟨rfl, id, fun obj' held live => ?_⟩
      rw [deleteStateObject, setStateObject, lookup_insert] at held
      rw [← some.inj held] at live
      cases live
    · have stays : s.goesAt d addr obj = false := by simpa using goes
      have survives : obj.suicided = false := (Bool.or_eq_false_iff.mp stays).1
      by_cases dirty : s.stateObjectsDirty.lookup addr = none
      · rw [commitObject_eq found, if_neg goes, dirty] at ran
        cases ran
        refine ⟨rfl, id, fun obj' held _ => ?_⟩
        rwa [← some.inj (found.symm.trans held)]
      · obtain ⟨extended, shape⟩ := commitObject_intact found intact stays dirty
        rw [shape] at ran
        split_ifs at ran
        cases ran
        refine ⟨rfl, extended, fun obj' held _ => ?_⟩
        rw [committedAt, setStateObject, lookup_insert] at held
        obtain ⟨-, dirtyCode, data, shape, -⟩ := StateObject.committed_snd s.db obj
        rw [← some.inj held, shape]
        exact (StateObject.suicided_getTrie s.db obj).trans survives

/-- After the loop nothing it went over is dirty or has self-destructed and is live. -/
theorem commitObjects_survives (distinct : addrs.Nodup)
    (intact : ∀ addr ∈ addrs, ∀ obj, s.stateObjects.lookup addr = some obj → obj.Intact s.db)
    (ran : commitObjects d addrs s = some (ok, t)) :
    ok = true ∧ (∀ addr ∈ addrs, t.stateObjectsDirty.lookup addr = none ∧
        ∀ obj, t.stateObjects.lookup addr = some obj → obj.deleted = false → obj.suicided = false) ∧
      ∀ addr ∉ addrs, t.stateObjectsDirty.lookup addr = s.stateObjectsDirty.lookup addr ∧
        t.stateObjects.lookup addr = s.stateObjects.lookup addr := by
  induction addrs generalizing s with
  | nil =>
    cases ran
    exact ⟨rfl, fun _ mem => (by cases mem), fun _ _ => ⟨rfl, rfl⟩⟩
  | cons addr addrs ih =>
    obtain ⟨absent, distinct⟩ := nodup_cons.mp distinct
    obtain ⟨first, rest⟩ := forall_mem_cons.mp intact
    obtain ⟨⟨committed, s'⟩, round, ran⟩ := bind_eq_some_iff.mp ran
    obtain ⟨rfl, extended, survives⟩ := commitObject_survives first round
    obtain ⟨objects, dirty, -⟩ := commitObject_frame round
    obtain ⟨ok, inside, outside⟩ := ih distinct (s := s'.undirty addr) (fun addr' mem obj found =>
      (rest addr' mem obj ((objects addr' (ne_of_mem_of_not_mem mem absent)).symm.trans found)).of_extends extended) ran
    refine ⟨ok, forall_mem_cons.mpr ⟨?_, inside⟩, fun addr' notIn => ?_⟩
    · obtain ⟨erased, kept⟩ := outside addr absent
      refine ⟨erased.trans (lookup_erase _ _), fun obj held => survives obj (kept.symm.trans held)⟩
    · rw [mem_cons, not_or] at notIn
      obtain ⟨kept, object⟩ := outside addr' notIn.2
      refine ⟨kept.trans ?_, object.trans (objects addr' notIn.1)⟩
      rw [undirty, lookup_erase_ne notIn.1, dirty]

/-- `Commit` leaves a flushed state. -/
theorem Flushed.of_commit (flushed : s.Flushed) (idle : s.Idle) (intact : s.Intact) {root : Option Hash}
    (ran : s.commit d = some (root, t)) : t.Flushed := by
  obtain ⟨⟨committed, s'⟩, loop, ran⟩ := bind_eq_some_iff.mp ran
  obtain ⟨rfl, inside, outside⟩ := commitObjects_survives s.stateObjects.keys_nodup (s := s.markDirty)
    (fun addr _ obj found => intact found) loop
  have present : ∀ addr, addr ∉ s.stateObjects.keys → s.stateObjects.lookup addr = none := by
    intro addr absent
    by_contra held
    exact absent (mem_keys_iff_exists.mpr (ne_none_iff_exists'.mp held))
  -- nothing is dirty any more
  have clean : ∀ addr, s'.stateObjectsDirty.lookup addr = none := by
    intro addr
    by_cases mem : addr ∈ s.stateObjects.keys
    · exact (inside addr mem).1
    · by_contra dirty
      rw [(outside addr mem).1] at dirty
      exact flushed.present (idle.markDirty.mp dirty) (present addr mem)
  cases ran
  refine ⟨rfl, fun {addr account} found => ?_, fun {addr _} dirty => absurd (clean addr) dirty,
    fun {addr _} _ _ => .inr (clean addr), fun {addr} dirty => absurd (clean addr) dirty⟩
  cases held : s'.stateObjects.lookup addr with
  | some obj =>
    simp only [StateDB.account, clearJournalAndRefund, held] at found
    split_ifs at found with deleted
    cases found
    have mem : addr ∈ s.stateObjects.keys := by
      by_contra absent
      rw [(outside addr absent).2] at held
      rw [show s.markDirty.stateObjects = s.stateObjects from rfl, present addr absent] at held
      cases held
    exact (inside addr mem).2 obj held (by simpa using deleted)
  | none =>
    simp only [StateDB.account, clearJournalAndRefund, held] at found
    obtain ⟨data, -, rfl⟩ := map_eq_some_iff.mp found
    rfl

/-- `Copy` of a flushed state is flushed. -/
theorem Flushed.copy (flushed : s.Flushed) (idle : s.Idle) (ran : s.copy = some t) : t.Flushed := by
  have copied := copy_spec ran
  have db : t.db = s.db := by rw [copied.frame]; rfl
  have trie : t.trie = s.trie := by rw [copied.frame]; rfl
  have account : ∀ {addr obj account}, t.stateObjects.lookup addr = some obj → t.account addr = some account →
      s.account addr = some account := by
    intro addr obj account found held
    obtain ⟨obj', original, rfl⟩ := copied.objects found
    simp only [StateDB.account, found, db] at held
    simp only [StateDB.account, original]
    exact held
  have dirty : ∀ {addr}, t.stateObjectsDirty.lookup addr ≠ none → s.stateObjectsDirty.lookup addr ≠ none :=
    fun {addr} isDirty => (copied.dirty isDirty).1.resolve_right (idle.2 addr)
  refine ⟨by rw [copied.frame]; rfl, fun {addr account'} held => ?_, fun {addr account'} isDirty held => ?_,
    fun {addr obj} found deleted => ?_, fun isDirty => (copied.dirty isDirty).2⟩
  · cases found : t.stateObjects.lookup addr with
    | some obj => exact flushed.surviving (account found held)
    | none =>
      simp only [StateDB.account, found] at held
      obtain ⟨data, -, rfl⟩ := map_eq_some_iff.mp held
      rfl
  · obtain ⟨obj, found⟩ := ne_none_iff_exists'.mp (copied.dirty isDirty).2
    rw [trie]
    exact flushed.stored (dirty isDirty) (account found held)
  · obtain ⟨obj', original, rfl⟩ := copied.objects found
    refine (flushed.removed original deleted).imp_right fun clean => ?_
    by_contra isDirty
    exact dirty isDirty clean

/-- A state whose journal is empty is flushed itself. -/
theorem Pending.flushed (pending : Pending apart A s) (sound : s.Sound A K) (unused : s.journal.entries = []) :
    s.Flushed where
  unused := unused
  surviving held := (pending.unmentioned sound (by simp [unused]) held).1
  stored dirty held := (pending.unmentioned sound (by simp [unused]) held).2 dirty
  removed := pending.removed
  present := pending.present

theorem Pending.recalled (pending : Pending apart A s) : s.Recalled d := by
  intro addr obj found deleted
  refine (pending.removed found deleted).imp_left fun destroyed => ?_
  simp [goesAt, destroyed]

end Commit

end StateDB

open StateDB

/-- What the calls must find so that `Commit` returns the root: `Finalise` as above, and a copy or a commit is taken
between transactions. -/
def StateCall.Flushes (s : StateDB C) : StateCall → Prop
  | finalise d => s.Finalisable d
  | commit _ => s.Idle ∧ s.Intact
  | copy => s.Idle
  | _ => True

section Run

variable {s t : StateDB C} {call : StateCall} (slots : C.SlotsApart K) (accounts : C.AccountsApart A)
include slots accounts

/-- Every such call leads to a pending state. -/
theorem StateCall.run_pending (within : call.Within A K) (flushes : call.Flushes s) (sound : s.Sound A K)
    (ordered : s.Ordered) (pending : Pending slots A s) (ran : call.run s = some t) :
    (t.Sound A K ∧ t.Ordered) ∧ Pending slots A t := by
  have recalls : call.Recalls s := by
    cases call with
    | commit d => exact pending.recalled
    | _ => trivial
  have kept := call.run_sound slots accounts within recalls sound ordered ran
  refine ⟨kept, ?_⟩
  cases call with
  | query q =>
    cases ran
    exact pending.of_journaled sound (Query.ask_spec slots within sound).2.1
  | update m =>
    cases ran
    exact pending.of_journaled sound (Update.apply_spec slots within sound).1
  | snapshot =>
    cases ran
    obtain ⟨s₀, flushed, sound₀, restores, retains⟩ := pending
    refine ⟨s₀, flushed, sound₀, ?_, retains.trans (.of_objects rfl rfl)⟩
    refine restores.trans (.of_view kept.1 rfl) sound kept.1 ?_ le_rfl
    change s₀.journal.entries.length ≤ _
    rw [flushed.unused]
    exact Nat.zero_le _
  | revertToSnapshot revid =>
    obtain ⟨idx, revision, v, found, rfl, undone, rfl⟩ := revertToSnapshot_spec slots sound ran
    have bound := ordered.within _ (mem_of_getElem? found)
    obtain ⟨s₀, flushed, sound₀, restores, retains⟩ := pending.of_undoTo sound bound undone
    obtain ⟨sound', -⟩ := UndoLog.undoTo_spec sound bound undone
    refine ⟨s₀, flushed, sound₀, ?_, retains.trans (.of_objects rfl rfl)⟩
    refine restores.trans (.of_view kept.1 rfl) sound' kept.1 ?_ le_rfl
    change s₀.journal.entries.length ≤ _
    rw [flushed.unused]
    exact Nat.zero_le _
  | finalise d =>
    obtain ⟨t', ran', finalised, writable⟩ | ⟨ran', -⟩ := s.finalise_spec d
    · cases ran'.symm.trans ran
      exact (pending.finalise sound accounts flushes finalised writable).pending kept.1
    · cases ran'.symm.trans ran
  | commit d =>
    obtain ⟨⟨root, t⟩, committed, rfl⟩ := map_eq_some_iff.mp ran
    exact ((pending.flushed sound flushes.1.1).of_commit flushes.1 flushes.2 committed).pending kept.1
  | reset root =>
    cases ran
    unfold StateDB.reset at kept ⊢
    split
    · exact pending
    · rename_i trie opened
      rw [opened] at kept
      exact Flushed.pending ⟨rfl, (Flushed.ofTrie s.db trie).surviving, fun dirty => absurd rfl dirty,
        nofun, fun dirty => absurd rfl dirty⟩ kept.1
  | copy => exact ((pending.flushed sound flushes.1).copy flushes ran).pending kept.1

/-- The root of the trie after the last transaction is what `Commit` returns, and the state can be opened there. -/
theorem commit_returns_root {db : StateDatabase C} {trie : Trie Account}
    {calls : List (StateDB C × StateCall × StateDB C)} (run : StateRun (ofTrie db trie) calls s)
    (within : ∀ c ∈ calls, c.2.1.Within A K) (flushes : ∀ c ∈ calls, c.2.1.Flushes c.1)
    (finalisable : s.Finalisable true) (intact : s.Intact) {r : Hash} (root : s.intermediateRoot true = some (r, t)) :
    ∃ t', t.commit false = some (some r, t') ∧ t'.db.openTrie r ≠ none := by
  obtain ⟨⟨sound, ordered⟩, pending⟩ := run.keeps
    (P := fun s => (s.Sound A K ∧ s.Ordered) ∧ Pending slots A s)
    (fun c member ran ⟨⟨sound, ordered⟩, pending⟩ =>
      c.2.1.run_pending slots accounts (within c member) (flushes c member) sound ordered pending ran)
    ⟨⟨.ofTrie db trie, .of_nil rfl⟩, (Flushed.ofTrie db trie).pending (.ofTrie db trie)⟩
  obtain ⟨t₁, ran, same⟩ := bind_eq_some_iff.mp root
  cases same
  obtain ⟨t', ran', finalised, writable⟩ | ⟨ran', -⟩ := s.finalise_spec true
  · cases ran'.symm.trans ran
    have flushed := pending.finalise sound accounts finalisable finalised writable
    refine flushed.commit (sound.finalised slots accounts finalised) ⟨rfl, fun addr marked => marked rfl⟩ ?_
    intro addr obj found
    change t'.stateObjects.lookup addr = some obj at found
    rw [show t'.clearJournalAndRefund.db = s.db by rw [finalised.frame]; rfl]
    rw [finalised.objects] at found
    split_ifs at found
    · obtain ⟨obj', held, rfl⟩ := map_eq_some_iff.mp found
      exact (intact held).finalised true
    · exact intact found
  · cases ran'.symm.trans ran

end Run

theorem lookup_funded (addr : Address) : funded.stateObjects.lookup addr =
    if addr = 7 then some ((StateObject.blank .numeral).setBalance 5) else none := by
  change lookup addr (((∅ : GoMap Address StateObject).insert 7 _).insert 7 _) = _
  rw [lookup_insert_eq_ite, lookup_insert_eq_ite]
  split_ifs <;> rfl

theorem entries_funded : funded.journal.entries = [.balance 7 0, .createObject 7] := rfl

theorem commit_returns_root_funded : ∃ r t t', funded.intermediateRoot true = some (r, t) ∧
    t.commit false = some (some r, t') ∧ t'.db.openTrie r ≠ none := by
  have made : StateRun (ofTrie (.blank .numeral) .empty) _ funded := .cons (l := .update (.addBalance 7 5)) rfl (.nil _)
  have runs : (funded.intermediateRoot true).isSome = true := by decide +kernel
  obtain ⟨⟨r, t⟩, root⟩ := isSome_iff_exists.mp runs
  have finalisable : funded.Finalisable true := by
    refine ⟨fun {addr obj} _ held empty => ?_, fun {addr prev} member => ?_⟩
    · rw [lookup_funded] at held
      split_ifs at held
      rw [← some.inj held] at empty
      cases empty
    · rw [entries_funded] at member
      simp at member
  have intact : funded.Intact := by
    intro addr obj held
    rw [lookup_funded] at held
    split_ifs at held
    rw [← some.inj held]
    exact ⟨rfl, fun _ => some_ne_none Trie.empty⟩
  obtain ⟨t', committed⟩ :=
    commit_returns_root (A := {7}) (K := {1}) (Set.injOn_singleton ..) (Set.injOn_singleton ..) made
    (by simp [StateCall.Within, Update.Within]) (by simp [StateCall.Flushes]) finalisable intact root
  exact ⟨r, t, t', root, committed⟩

/-- An account that was touched and is empty is not in the trie that is sealed, but in the one that is committed. -/
theorem commit_writes_removed : StateRun (ofTrie (.blank .numeral) .empty)
      [(ofTrie (.blank .numeral) .empty, .update (.addBalance 7 0), touched)] touched ∧
    ∃ r t r' t', touched.intermediateRoot true = some (r, t) ∧ t.commit false = some (some r', t') ∧ r' ≠ r := by
  refine ⟨.cons rfl (.nil _), ?_⟩
  have runs : ((touched.intermediateRoot true).any fun root => (root.2.commit false).any fun r =>
      r.1.any fun hash => hash ≠ root.1) = true := by decide +kernel
  obtain ⟨⟨r, t⟩, root, runs⟩ := (Option.any_eq_true ..).mp runs
  obtain ⟨⟨hash, t'⟩, committed, runs⟩ := (Option.any_eq_true ..).mp runs
  obtain ⟨r', rfl, differs⟩ := (Option.any_eq_true ..).mp runs
  exact ⟨r, t, r', t', root, committed, by simpa using differs⟩

end KKChain
