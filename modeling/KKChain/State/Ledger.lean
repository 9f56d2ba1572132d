import KKChain.State.StateDB

/-! # What a state database stands for

A `Ledger` is a state as its users see it: the accounts with all their storage, the refund, the logs and the
preimages. `StateDB.ledger` forgets which objects are live and what their storage has in memory. `StateDB.Sound` is
what holds of every state database in use, and for such a one the entries of the journal do to the ledger what
`Ledger.undo` says. So states with the same ledger and journal stay alike when they are reverted.
-/

namespace KKChain

open Option AList

variable {C : Crypto} {entry : JournalEntry} {s' : StateDB C}

/-- A state as its users see it, over the trie and the database it started from. -/
structure Ledger (C : Crypto) where
  db : StateDatabase C
  trie : Trie Account
  accounts : Address → Option LedgerAccount
  refund : UInt64
  logs : Hash → List Log
  logSize : UInt64
  preimages : Hash → Option Bytes

namespace Ledger

variable (l : Ledger C)

def setAccount (addr : Address) (account : Option LedgerAccount) : Ledger C :=
  { l with accounts := Function.update l.accounts addr account }

@[simp] theorem setAccount_self (addr : Address) : l.setAccount addr (l.accounts addr) = l := by
  simp [setAccount]

@[simp] theorem setAccount_setAccount (addr : Address) (account account' : Option LedgerAccount) :
    (l.setAccount addr account).setAccount addr account' = l.setAccount addr account' := by
  simp [setAccount]

@[simp] theorem accounts_setAccount (addr : Address) (account : Option LedgerAccount) :
    (l.setAccount addr account).accounts addr = account := by
  simp [setAccount]

/-- A change of an account that has to be there. -/
def revise (addr : Address) (f : LedgerAccount → LedgerAccount) : Option (Ledger C) :=
  (l.accounts addr).map fun account => l.setAccount addr (some (f account))

/-- A change of an account if it is there. -/
def reviseIfAny (addr : Address) (f : LedgerAccount → LedgerAccount) : Ledger C :=
  l.setAccount addr ((l.accounts addr).map f)

/-- The latest log of a transaction goes. -/
def dropLog (txhash : Hash) : Option (Ledger C) :=
  match l.logs txhash with
  | [] => none
  | logs => some { l with logs := Function.update l.logs txhash logs.dropLast, logSize := l.logSize - 1 }

/-- The effect of taking back an entry. -/
def undo : JournalEntry → Option (Ledger C)
  | .createObject addr => some (l.setAccount addr none)
  | .resetObject addr prev => some (l.setAccount addr (some (prev.view l.db)))
  | .suicide addr prev prevbalance =>
    some (l.reviseIfAny addr fun account => { account with balance := prevbalance, suicided := prev })
  | .balance addr prev => l.revise addr fun account => { account with balance := prev }
  | .nonce addr prev => l.revise addr fun account => { account with nonce := prev }
  | .storage addr key prevalue => l.revise addr fun account => account.setSlot C key prevalue
  | .code addr prevcode prevhash => l.revise addr fun account =>
      { account with codeHash := prevhash, code := (l.db.codeOf prevhash prevcode).getD [] }
  | .refund prev => some { l with refund := prev }
  | .addLog txhash => l.dropLog txhash
  | .addPreimage hash => some { l with preimages := Function.update l.preimages hash none }
  | .touch _ => some l

end Ledger

namespace StateDB

variable (s : StateDB C)

def account (addr : Address) : Option LedgerAccount :=
  match s.stateObjects.lookup addr with
  | some obj => if obj.deleted then none else some (obj.view s.db)
  | none => (s.trie.get (accountKey C addr)).map fun data => (StateObject.newObject data).view s.db

def ledger : Ledger C := ⟨s.db, s.trie, s.account, s.refund, s.logs, s.logSize, s.preimages⟩

variable {s}

section Live

variable {addr : Address} {obj : StateObject}

/-- The object is in the table and not deleted. -/
def Live (s : StateDB C) (addr : Address) (obj : StateObject) : Prop :=
  s.stateObjects.lookup addr = some obj ∧ obj.deleted = false

theorem Live.account (live : s.Live addr obj) : s.account addr = some (obj.view s.db) := by
  simp [StateDB.account, live.1, live.2]

theorem Live.setAccount (live : s.Live addr obj) : s.ledger.setAccount addr (some (obj.view s.db)) = s.ledger := by
  rw [← live.account]
  exact s.ledger.setAccount_self addr

theorem account_setStateObject (s : StateDB C) (addr : Address) (obj : StateObject) (live : obj.deleted = false) :
    (s.setStateObject addr obj).account = Function.update s.account addr (some (obj.view s.db)) := by
  funext addr'
  by_cases same : addr' = addr
  · subst same
    rw [Function.update_self]
    exact Live.account ⟨lookup_insert _, live⟩
  · rw [Function.update_of_ne same]
    simp only [account, setStateObject, lookup_insert_ne same]

theorem ledger_setStateObject (s : StateDB C) (addr : Address) (obj : StateObject) (live : obj.deleted = false) :
    (s.setStateObject addr obj).ledger = s.ledger.setAccount addr (some (obj.view s.db)) := by
  rw [ledger, account_setStateObject s addr obj live]
  rfl

theorem live_setStateObject (s : StateDB C) (addr : Address) (live : obj.deleted = false) :
    (s.setStateObject addr obj).Live addr obj := ⟨lookup_insert _, live⟩

/-- Putting an object with the same account in its place changes nothing. -/
theorem ledger_setStateObject_of_view {obj' : StateObject} (held : s.account addr = some (obj.view s.db))
    (same : obj'.view s.db = obj.view s.db) (live : obj'.deleted = false) :
    (s.setStateObject addr obj').ledger = s.ledger := by
  rw [ledger_setStateObject s addr obj' live, same, ← held]
  exact s.ledger.setAccount_self addr

end Live

/-- Everything `getStateObject` does: it finds a live object, loads one, or there is none. -/
theorem getStateObject_cases (s : StateDB C) (addr : Address) :
    (∃ obj, s.Live addr obj ∧ s.getStateObject addr = (some obj, s)) ∨
    (∃ data, s.stateObjects.lookup addr = none ∧ s.trie.get (accountKey C addr) = some data ∧
      s.getStateObject addr = (some (.newObject data), s.setStateObject addr (.newObject data))) ∨
    s.account addr = none ∧ s.getStateObject addr = (none, s) := by
  unfold getStateObject
  cases found : s.stateObjects.lookup addr with
  | some obj =>
    cases deleted : obj.deleted with
    | false => exact .inl ⟨obj, ⟨found, deleted⟩, by simp [deleted]⟩
    | true => exact .inr (.inr ⟨by simp [account, found, deleted], by simp [deleted]⟩)
  | none =>
    cases stored : s.trie.get (accountKey C addr) with
    | some data => exact .inr (.inl ⟨data, rfl, rfl, rfl⟩)
    | none => exact .inr (.inr ⟨by simp [account, found, stored], rfl⟩)

/-- An object that is found is live afterwards, and nothing has changed. -/
theorem getStateObject_some {addr : Address} {obj : StateObject} (found : s.getStateObject addr = (some obj, s')) :
    s'.Live addr obj ∧ s'.ledger = s.ledger ∧ s.account addr = some (obj.view s.db) ∧
      (s' = s ∨ ∃ data, s.stateObjects.lookup addr = none ∧ s.trie.get (accountKey C addr) = some data ∧
        obj = .newObject data ∧ s' = s.setStateObject addr obj) := by
  obtain ⟨obj', live, got⟩ | ⟨data, absent, stored, got⟩ | ⟨-, got⟩ := s.getStateObject_cases addr
  · rw [got] at found
    cases found
    exact ⟨live, rfl, live.account, .inl rfl⟩
  · rw [got] at found
    cases found
    have held : s.account addr = some ((StateObject.newObject data).view s.db) := by simp [account, absent, stored]
    exact ⟨live_setStateObject s addr rfl, ledger_setStateObject_of_view held rfl rfl, held,
      .inr ⟨data, absent, stored, rfl, rfl⟩⟩
  · rw [got] at found
    cases found

theorem getStateObject_none {addr : Address} (found : s.getStateObject addr = (none, s')) :
    s' = s ∧ s.account addr = none := by
  obtain ⟨obj', live, got⟩ | ⟨data, absent, stored, got⟩ | ⟨absent, got⟩ := s.getStateObject_cases addr
  · rw [got] at found
    cases found
  · rw [got] at found
    cases found
  · rw [got] at found
    cases found
    exact ⟨rfl, absent⟩

end StateDB

namespace Journal

/-- How many entries mark an address. -/
def count (j : Journal) (addr : Address) : ℕ := j.entries.countP fun entry => entry.dirtied = some addr

/-- The number an address has in the table of marks. -/
def mark (j : Journal) (addr : Address) : ℤ := (j.dirties.lookup addr).getD 0

/-- Every mark comes from an entry, with the exception of the precompile that stays marked. -/
structure Counted (j : Journal) : Prop where
  positive : ∀ {addr n}, j.dirties.lookup addr = some n → 0 < n
  le_mark : ∀ addr, (j.count addr : ℤ) ≤ j.mark addr
  mark_eq : ∀ {addr}, addr ≠ ripemd → j.mark addr = j.count addr

variable {j : Journal} {addr : Address} {entries : List JournalEntry}

theorem mark_dirty (j : Journal) (addr addr' : Address) :
    (j.dirty addr).mark addr' = if addr' = addr then j.mark addr + 1 else j.mark addr' := by
  unfold dirty mark
  rw [lookup_insert_eq_ite]
  split_ifs <;> rfl

theorem count_append (j : Journal) (entry : JournalEntry) (addr : Address) :
    (j.append entry).count addr = j.count addr + if entry.dirtied = some addr then 1 else 0 := by
  unfold append count
  split <;> simp [List.countP_cons, *]

theorem entries_append (j : Journal) (entry : JournalEntry) : (j.append entry).entries = entry :: j.entries := by
  unfold append
  split <;> rfl

theorem mark_append (j : Journal) (entry : JournalEntry) (addr : Address) :
    (j.append entry).mark addr = j.mark addr + if entry.dirtied = some addr then 1 else 0 := by
  unfold append
  split
  · rename_i clean
    simp [mark, clean]
  · rename_i addr' dirtied
    change (j.dirty addr').mark addr = _
    rw [mark_dirty, dirtied]
    split_ifs with first second second
    · rw [first]
    · exact absurd (congrArg some first.symm) second
    · exact absurd (some.inj second).symm first
    · rw [add_zero]

theorem lookup_append (j : Journal) (entry : JournalEntry)
    (marked : (j.append entry).dirties.lookup addr ≠ none) :
    entry.dirtied = some addr ∨ j.dirties.lookup addr ≠ none := by
  unfold append at marked
  split at marked
  · exact .inr marked
  · rename_i addr' dirtied
    by_cases same : addr = addr'
    · exact .inl (by rw [dirtied, same])
    · exact .inr (by simpa [dirty, lookup_insert_ne same] using marked)

theorem Counted.lookup_ne_none (counted : j.Counted) : j.dirties.lookup addr ≠ none ↔ 0 < j.mark addr := by
  unfold mark
  cases found : j.dirties.lookup addr with
  | none => simp
  | some n => simpa using counted.positive found

theorem Counted.dirty (counted : j.Counted) : (j.dirty ripemd).Counted where
  positive {addr n} found := by
    rw [Journal.dirty, lookup_insert_eq_ite] at found
    split_ifs at found
    · have := counted.le_mark ripemd
      have bound := (j.mark ripemd).le_refl
      rw [mark] at *
      have := some.inj found
      omega
    · exact counted.positive found
  le_mark addr := by
    rw [mark_dirty]
    have := counted.le_mark addr
    change (j.count addr : ℤ) ≤ _
    split_ifs with same
    · rw [← same]
      omega
    · exact this
  mark_eq {addr} other := by
    rw [mark_dirty, if_neg other]
    exact counted.mark_eq other

theorem Counted.append (counted : j.Counted) (entry : JournalEntry) : (j.append entry).Counted where
  positive {addr n} found := by
    have mark : (j.append entry).mark addr = n := by rw [Journal.mark, found]; rfl
    have le := counted.le_mark addr
    rw [mark_append] at mark
    split_ifs at mark with dirtied
    · omega
    · have marked : j.dirties.lookup addr ≠ none := (lookup_append j entry (by simp [found])).resolve_left dirtied
      have := counted.lookup_ne_none.mp marked
      omega
  le_mark addr := by
    rw [mark_append, count_append]
    have := counted.le_mark addr
    split_ifs <;> simpa using this
  mark_eq {addr} other := by
    rw [mark_append, count_append, counted.mark_eq other]
    split_ifs <;> simp

theorem entries_pop (j : Journal) (entry : JournalEntry) (entries : List JournalEntry) :
    (j.pop entry entries).entries = entries := by
  unfold pop
  split <;> rfl

theorem mark_clean (j : Journal) (addr addr' : Address) :
    (j.clean addr).mark addr' = if addr' = addr then j.mark addr - 1 else j.mark addr' := by
  unfold clean mark
  dsimp only
  split_ifs with zero same same
  · rw [same, lookup_erase, zero]
    rfl
  · rw [lookup_erase_ne same]
  · rw [same, lookup_insert]
    rfl
  · rw [lookup_insert_ne same]

theorem mark_pop (j : Journal) (entry : JournalEntry) (entries : List JournalEntry) (addr : Address) :
    (j.pop entry entries).mark addr = j.mark addr - if entry.dirtied = some addr then 1 else 0 := by
  unfold pop
  split
  · rename_i clean
    simp [mark, clean]
  · rename_i addr' dirtied
    change (j.clean addr').mark addr = _
    rw [mark_clean, dirtied]
    split_ifs with first second second
    · rw [first]
    · exact absurd (congrArg some first.symm) second
    · exact absurd (some.inj second).symm first
    · rw [sub_zero]

theorem lookup_pop (j : Journal) (entry : JournalEntry) (entries : List JournalEntry) {n : ℤ}
    (found : (j.pop entry entries).dirties.lookup addr = some n) :
    j.dirties.lookup addr = some n ∨ n = j.mark addr - 1 ∧ n ≠ 0 := by
  unfold pop at found
  split at found
  · exact .inl found
  · rename_i addr' dirtied
    unfold clean at found
    dsimp only at found
    split_ifs at found with zero
    · rw [lookup_erase_eq_ite] at found
      split_ifs at found
      exact .inl found
    · rw [lookup_insert_eq_ite] at found
      split_ifs at found with same
      · cases found
        exact .inr ⟨by rw [same]; rfl, zero⟩
      · exact .inl found

theorem count_of_entries (shape : j.entries = entry :: entries)
    (addr : Address) : j.count addr = (j.pop entry entries).count addr + if entry.dirtied = some addr then 1
      else 0 := by
  simp only [count, shape, entries_pop, List.countP_cons, decide_eq_true_eq]

theorem Counted.pop (counted : j.Counted) (shape : j.entries = entry :: entries) : (j.pop entry entries).Counted where
  positive {addr n} found := by
    rcases lookup_pop j entry entries found with kept | ⟨value, nonzero⟩
    · exact counted.positive kept
    · have mark : (j.pop entry entries).mark addr = n := by rw [Journal.mark, found]; rfl
      have le := counted.le_mark addr
      have count := count_of_entries shape addr
      rw [mark_pop] at mark
      split_ifs at mark count <;> omega
  le_mark addr := by
    have le := counted.le_mark addr
    have count := count_of_entries shape addr
    rw [mark_pop]
    split_ifs at count ⊢ <;> omega
  mark_eq {addr} other := by
    have eq := counted.mark_eq other
    have count := count_of_entries shape addr
    rw [mark_pop]
    split_ifs at count ⊢ <;> omega

end Journal

/-- An entry that was made over this trie. -/
def JournalEntry.Valid (C : Crypto) (A : Set Address) (K : Set Hash) (trie : Trie Account) : JournalEntry → Prop
  | createObject account => account ∈ A ∧ trie.get (StateDB.accountKey C account) = none
  | resetObject account prev => account ∈ A ∧ prev.Coherent C K ∧ prev.deleted = false
  | suicide account _ _ => account ∈ A
  | balance account _ => account ∈ A
  | nonce account _ => account ∈ A
  | storage account key _ => account ∈ A ∧ key ∈ K
  | code account _ _ => account ∈ A
  | refund _ => True
  | addLog _ => True
  | addPreimage _ => True
  | touch account => account ∈ A

namespace StateDB

/-- A marked account is live, or there is none, in memory and in the trie. -/
def Settled (s : StateDB C) (addr : Address) : Prop :=
  (∃ obj, s.Live addr obj) ∨ s.stateObjects.lookup addr = none ∧ s.trie.get (accountKey C addr) = none

/-- The objects in memory are at addresses in `A`, with slots in `K`, and the trie has none that was deleted. -/
structure TableSound (A : Set Address) (K : Set Hash) (s : StateDB C) : Prop where
  known : ∀ {addr obj}, s.stateObjects.lookup addr = some obj → addr ∈ A
  coherent : ∀ {addr obj}, s.stateObjects.lookup addr = some obj → obj.Coherent C K
  deleted : ∀ {addr obj}, s.stateObjects.lookup addr = some obj → obj.deleted = true →
    s.trie.get (accountKey C addr) = none

/-- What holds of a state database in use. -/
structure Sound (A : Set Address) (K : Set Hash) (s : StateDB C) : Prop extends TableSound A K s where
  valid : ∀ entry ∈ s.journal.entries, entry.Valid C A K s.trie
  counted : s.journal.Counted
  settled : ∀ {addr}, s.journal.dirties.lookup addr ≠ none → s.Settled addr

namespace Sound

variable {A : Set Address} {K : Set Hash} {s : StateDB C} {addr : Address} {obj : StateObject}

/-- With a new journal only the table of objects matters. -/
theorem of_new (journal : s.journal = .new) (table : s.TableSound A K) : s.Sound A K where
  toTableSound := table
  valid := by simp [journal, Journal.new]
  counted := by
    rw [journal]
    exact ⟨by simp [Journal.new], by simp [Journal.new, Journal.count, Journal.mark],
      by simp [Journal.new, Journal.count, Journal.mark]⟩
  settled marked := absurd (by rw [journal]; rfl) marked

theorem ofTrie (db : StateDatabase C) (trie : Trie Account) : (StateDB.ofTrie db trie).Sound A K :=
  .of_new rfl ⟨nofun, nofun, nofun⟩

/-- A live object may be put in the place of whatever was there. -/
theorem setStateObject (sound : s.Sound A K) (mem : addr ∈ A) (coherent : obj.Coherent C K)
    (live : obj.deleted = false) : (s.setStateObject addr obj).Sound A K where
  known {addr' obj'} found := by
    rw [StateDB.setStateObject, lookup_insert_eq_ite] at found
    split_ifs at found with same
    · rwa [same]
    · exact sound.known found
  coherent {addr' obj'} found := by
    rw [StateDB.setStateObject, lookup_insert_eq_ite] at found
    split_ifs at found with same
    · exact some.inj found ▸ coherent
    · exact sound.coherent found
  deleted {addr' obj'} found isDeleted := by
    rw [StateDB.setStateObject, lookup_insert_eq_ite] at found
    split_ifs at found with same
    · rw [← some.inj found, live] at isDeleted
      cases isDeleted
    · exact sound.deleted found isDeleted
  valid := sound.valid
  counted := sound.counted
  settled {addr'} marked := by
    by_cases same : addr' = addr
    · exact .inl ⟨obj, same ▸ live_setStateObject s addr live⟩
    · have settled := sound.settled marked
      simpa [Settled, Live, StateDB.setStateObject, lookup_insert_ne same] using settled

theorem append (sound : s.Sound A K) (valid : entry.Valid C A K s.trie)
    (settled : ∀ addr, entry.dirtied = some addr → s.Settled addr) : (s.append entry).Sound A K where
  __ := sound
  valid := by
    rw [StateDB.append, Journal.entries_append, List.forall_mem_cons]
    exact ⟨valid, sound.valid⟩
  counted := sound.counted.append entry
  settled {addr'} marked := (Journal.lookup_append _ entry marked).elim (settled addr') sound.settled

/-- A journaled write of an object. -/
theorem write (sound : s.Sound A K) (mem : addr ∈ A) (coherent : obj.Coherent C K)
    (live : obj.deleted = false) (valid : entry.Valid C A K s.trie)
    (own : entry.dirtied = some addr ∨ entry.dirtied = none) : ((s.append entry).setStateObject addr obj).Sound A K :=
  (sound.setStateObject mem coherent live).append valid fun addr' dirtied => by
    rw [dirtied, some.injEq, or_iff_left (some_ne_none _)] at own
    exact .inl ⟨obj, own ▸ live_setStateObject s addr live⟩

/-- An object that is found comes with a sound state. -/
theorem getStateObject (sound : s.Sound A K) (mem : addr ∈ A)
    (found : s.getStateObject addr = (some obj, s')) : s'.Sound A K ∧ obj.Coherent C K := by
  obtain ⟨live, -, -, rfl | ⟨data, -, -, rfl, rfl⟩⟩ := getStateObject_some found
  · exact ⟨sound, sound.coherent live.1⟩
  · exact ⟨sound.setStateObject mem (StateObject.coherent_newObject data) rfl, StateObject.coherent_newObject data⟩

end Sound

end StateDB

end KKChain
