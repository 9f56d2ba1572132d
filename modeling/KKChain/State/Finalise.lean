import KKChain.State.Ledger

/-! # The end of a transaction

`Finalise` writes the marked accounts into the trie. Every round is about one address, so the rounds do not disturb
one another: `Finalised` is the state after them. Which root comes out depends on the ledger and on which addresses are
marked, and on nothing else.
-/

namespace KKChain

open List Option

variable {C : Crypto} {A : Set Address} {K : Set Hash}

/-- The keys of the state trie are told apart by their hashes. -/
abbrev Crypto.AccountsApart (C : Crypto) (A : Set Address) : Prop := Set.InjOn (StateDB.accountKey C) A

namespace LedgerAccount

/-- The account is removed at the end of the transaction. -/
def goes (C : Crypto) (deleteEmptyObjects : Bool) (a : LedgerAccount) : Bool :=
  a.suicided || (deleteEmptyObjects && a.empty C)

/-- What the trie has for the account after the transaction. -/
def written (C : Crypto) (deleteEmptyObjects : Bool) (a : LedgerAccount) : Option Account :=
  if a.goes C deleteEmptyObjects then none else some (a.toAccount C)

end LedgerAccount

/-- The object after its round of `Finalise`. -/
def StateObject.finalised (db : StateDatabase C) (deleteEmptyObjects : Bool) (obj : StateObject) : StateObject :=
  if (obj.view db).goes C deleteEmptyObjects then { obj with deleted := true } else obj.updateRoot db

namespace StateDB

variable {s t u : StateDB C} {d : Bool} {addr : Address} {addrs : List Address} {obj : StateObject}

/-- The account can be written, or it goes. -/
def Writable (d : Bool) (s : StateDB C) (addr : Address) : Prop :=
  ∀ obj, s.stateObjects.lookup addr = some obj → (obj.view s.db).goes C d = true ∨ 0 ≤ obj.data.balance

/-- The entries that are written into the trie. -/
def writes (d : Bool) (s : StateDB C) (addrs : List Address) : List (Bytes × Option Account) :=
  addrs.filterMap fun addr => (s.stateObjects.lookup addr).map fun obj =>
    (accountKey C addr, (obj.view s.db).written C d)

/-- The state after the rounds for `addrs`. -/
structure Finalised (d : Bool) (addrs : List Address) (s t : StateDB C) : Prop where
  frame : t = { s with stateObjects := t.stateObjects, stateObjectsDirty := t.stateObjectsDirty, trie := t.trie }
  objects : ∀ addr, t.stateObjects.lookup addr =
    if addr ∈ addrs then (s.stateObjects.lookup addr).map (·.finalised s.db d) else s.stateObjects.lookup addr
  dirty : ∀ addr, t.stateObjectsDirty.lookup addr ≠ none ↔
    s.stateObjectsDirty.lookup addr ≠ none ∨ addr ∈ addrs ∧ s.stateObjects.lookup addr ≠ none
  trie : t.trie = s.trie.putAll (s.writes d addrs)

section Loop

/-- The state after one round. -/
def finalisedAt (d : Bool) (s : StateDB C) (addr : Address) (obj : StateObject) : StateDB C :=
  { s with
    stateObjects := s.stateObjects.insert addr (obj.finalised s.db d)
    stateObjectsDirty := s.stateObjectsDirty.insert addr ()
    trie := s.trie.put (accountKey C addr) ((obj.view s.db).written C d) }

/-- Everything a round does. -/
theorem finaliseObject_eq (found : s.stateObjects.lookup addr = some obj) : finaliseObject d s addr =
    if (obj.view s.db).goes C d = true ∨ 0 ≤ obj.data.balance then some (s.finalisedAt d addr obj) else none := by
  have balance : ((obj.view s.db).toAccount C).balance = obj.data.balance := rfl
  have goes : (obj.suicided || (d && obj.empty C)) = (obj.view s.db).goes C d := rfl
  simp only [finaliseObject, found, goes, finalisedAt, StateObject.finalised, LedgerAccount.written]
  cases (obj.view s.db).goes C d with
  | true => simp [deleteStateObject, setStateObject, Trie.put]
  | false =>
    by_cases negative : obj.data.balance < 0
    · simp [updateStateObject, StateObject.data_updateRoot, balance, negative, not_le.mpr negative]
    · simp [updateStateObject, StateObject.data_updateRoot, balance, negative, not_lt.mp negative,
        setStateObject, Trie.put]

theorem lookup_finalisedAt_ne {addr' : Address} (other : addr' ≠ addr) :
    (s.finalisedAt d addr obj).stateObjects.lookup addr' = s.stateObjects.lookup addr' := AList.lookup_insert_ne other

theorem writes_finalisedAt (absent : addr ∉ addrs) : (s.finalisedAt d addr obj).writes d addrs = s.writes d addrs := by
  refine filterMap_congr fun addr' mem => ?_
  rw [lookup_finalisedAt_ne (ne_of_mem_of_not_mem mem absent)]
  rfl

/-- The rounds after the first one. -/
theorem Finalised.cons (found : s.stateObjects.lookup addr = some obj) (absent : addr ∉ addrs)
    (rest : Finalised d addrs (s.finalisedAt d addr obj) t) : Finalised d (addr :: addrs) s t where
  frame := rest.frame
  objects addr' := by
    rw [rest.objects addr']
    by_cases same : addr' = addr
    · subst same
      rw [if_neg absent, if_pos (.head _), found]
      exact AList.lookup_insert _
    · rw [lookup_finalisedAt_ne same]
      simp only [mem_cons, same, false_or]
      rfl
  dirty addr' := by
    rw [rest.dirty addr']
    by_cases same : addr' = addr
    · subst same
      simp [finalisedAt, found]
    · rw [lookup_finalisedAt_ne same]
      simp only [mem_cons, same, false_or]
      exact or_congr_left (by simp only [finalisedAt, AList.lookup_insert_ne same])
  trie := by
    rw [rest.trie, writes_finalisedAt absent]
    simp [writes, found, Trie.putAll, finalisedAt]

theorem Finalised.cons_of_none (found : s.stateObjects.lookup addr = none) (rest : Finalised d addrs s t) :
    Finalised d (addr :: addrs) s t where
  frame := rest.frame
  objects addr' := by
    rw [rest.objects addr']
    by_cases same : addr' = addr
    · subst same
      simp [found]
    · simp only [mem_cons, same, false_or]
  dirty addr' := by
    rw [rest.dirty addr']
    by_cases same : addr' = addr
    · subst same
      simp [found]
    · simp only [mem_cons, same, false_or]
  trie := by
    rw [rest.trie]
    simp [writes, found]

theorem Finalised.nil (s : StateDB C) : Finalised d [] s s where
  frame := rfl
  objects addr := by simp
  dirty addr := by simp
  trie := rfl

/-- The loop of `Finalise` runs exactly if every account can be written. -/
theorem finaliseObjects_spec (distinct : addrs.Nodup) :
    (∃ t, addrs.foldlM (finaliseObject d) s = some t ∧ Finalised d addrs s t ∧ ∀ addr ∈ addrs, s.Writable d addr) ∨
      addrs.foldlM (finaliseObject d) s = none ∧ ∃ addr ∈ addrs, ¬ s.Writable d addr := by
  induction addrs generalizing s with
  | nil => exact .inl ⟨s, rfl, .nil s, by simp⟩
  | cons addr addrs ih =>
    obtain ⟨absent, distinct⟩ := nodup_cons.mp distinct
    rw [foldlM_cons]
    cases found : s.stateObjects.lookup addr with
    | none =>
      have round : finaliseObject d s addr = some s := by simp [finaliseObject, found]
      have writable : s.Writable d addr := fun obj held => by rw [found] at held; cases held
      rw [round, bind_eq_bind, bind_some]
      obtain ⟨t, ran, finalised, all⟩ | ⟨ran, addr', mem, bad⟩ := ih distinct (s := s)
      · exact .inl ⟨t, ran, finalised.cons_of_none found, forall_mem_cons.mpr ⟨writable, all⟩⟩
      · exact .inr ⟨ran, addr', .tail _ mem, bad⟩
    | some obj =>
      rw [finaliseObject_eq found]
      have others : ∀ addr' ∈ addrs, (s.finalisedAt d addr obj).Writable d addr' ↔ s.Writable d addr' := by
        intro addr' mem
        unfold Writable
        rw [lookup_finalisedAt_ne (ne_of_mem_of_not_mem mem absent)]
        rfl
      split_ifs with writable
      · rw [bind_eq_bind, bind_some]
        have first : s.Writable d addr := fun obj' held => by
          cases held.symm.trans found
          exact writable
        obtain ⟨t, ran, finalised, all⟩ | ⟨ran, addr', mem, bad⟩ := ih distinct (s := s.finalisedAt d addr obj)
        · refine .inl ⟨t, ran, finalised.cons found absent, forall_mem_cons.mpr ⟨first, ?_⟩⟩
          exact fun addr' mem => (others addr' mem).mp (all addr' mem)
        · exact .inr ⟨ran, addr', .tail _ mem, fun w => bad ((others addr' mem).mpr w)⟩
      · exact .inr ⟨rfl, addr, .head _, fun w => writable (w obj found)⟩

end Loop

/-- The address is marked in the journal. -/
def Marked (s : StateDB C) (addr : Address) : Prop := s.journal.dirties.lookup addr ≠ none

theorem mem_dirties_iff : addr ∈ s.journal.dirties.keys ↔ s.Marked addr := by
  rw [AList.mem_keys_iff_exists, Marked, ne_none_iff_exists']

/-- Everything `Finalise` does. -/
theorem finalise_spec (d : Bool) (s : StateDB C) :
    (∃ t, s.finalise d = some t.clearJournalAndRefund ∧ Finalised d s.journal.dirties.keys s t ∧
      ∀ addr, s.Marked addr → s.Writable d addr) ∨
      s.finalise d = none ∧ ∃ addr, s.Marked addr ∧ ¬ s.Writable d addr := by
  unfold finalise
  obtain ⟨t, ran, finalised, writable⟩ | ⟨ran, addr, mem, bad⟩ :=
    finaliseObjects_spec (s := s) (d := d) s.journal.dirties.keys_nodup
  · refine .inl ⟨t, by rw [ran]; rfl, finalised, ?_⟩
    exact fun addr marked => writable addr (mem_dirties_iff.mpr marked)
  · exact .inr ⟨by rw [ran]; rfl, addr, mem_dirties_iff.mp mem, bad⟩

section Trie

variable (apart : C.AccountsApart A) (known : ∀ {addr obj}, s.stateObjects.lookup addr = some obj → addr ∈ A)
include apart known

theorem nodup_writes (distinct : addrs.Nodup) : ((s.writes d addrs).map Prod.fst).Nodup := by
  rw [writes, List.map_filterMap]
  refine List.Nodup.filterMap (fun a a' key inA inA' => ?_) distinct
  simp only [Option.mem_def, Option.map_map, Option.map_eq_some_iff, Function.comp_apply] at inA inA'
  obtain ⟨_, held, rfl⟩ := inA
  obtain ⟨_, held', same⟩ := inA'
  exact (apart (known held') (known held) same).symm

/-- What the trie has for an account that was written. -/
theorem Finalised.get_of_mem (finalised : Finalised d addrs s t) (distinct : addrs.Nodup) (mem : addr ∈ addrs)
    (held : s.stateObjects.lookup addr = some obj) :
    t.trie.get (accountKey C addr) = (obj.view s.db).written C d := by
  rw [finalised.trie]
  refine Trie.get_putAll_of_mem _ (nodup_writes apart known distinct) (mem_filterMap.mpr ⟨addr, mem, ?_⟩)
  rw [held]
  rfl

omit apart known in
/-- The rest of the trie is as it was. -/
theorem Finalised.get_of_not_mem (finalised : Finalised d addrs s t) {key : Bytes}
    (other : ∀ addr ∈ addrs, ∀ obj, s.stateObjects.lookup addr = some obj → accountKey C addr ≠ key) :
    t.trie.get key = s.trie.get key := by
  rw [finalised.trie]
  refine Trie.get_putAll_of_notMem _ fun mem => ?_
  obtain ⟨_, inWrites, rfl⟩ := mem_map.mp mem
  obtain ⟨addr, inAddrs, found⟩ := mem_filterMap.mp inWrites
  obtain ⟨obj, held, rfl⟩ := map_eq_some_iff.mp found
  exact other addr inAddrs obj held rfl

/-- An account in memory that was not written has in the trie what it had. -/
theorem Finalised.get_of_known (finalised : Finalised d addrs s t) (mem : addr ∈ A) (absent : addr ∉ addrs) :
    t.trie.get (accountKey C addr) = s.trie.get (accountKey C addr) := by
  refine finalised.get_of_not_mem fun addr' inAddrs obj held same => absent ?_
  rwa [← apart (known held) mem same]

end Trie

/-- A marked object that is in memory is live. -/
theorem Settled.live (settled : s.Settled addr) (held : s.stateObjects.lookup addr = some obj) : s.Live addr obj := by
  rcases settled with ⟨obj', live⟩ | ⟨absent, -⟩
  · cases held.symm.trans live.1
    exact live
  · rw [absent] at held
    cases held

section Root

/-- The entry of the trie for a marked account, seen from the ledger. -/
theorem Settled.lookup_view (settled : s.Settled addr) :
    (s.stateObjects.lookup addr).map (fun obj => obj.view s.db) = s.account addr := by
  rcases settled with ⟨obj, live⟩ | ⟨absent, untried⟩
  · rw [live.1, live.account]
    rfl
  · simp [account, absent, untried]

/-- Two states that agree on the accounts in the marked places. -/
theorem map_lookup_view (settledS : s.Settled addr) (settledU : u.Settled addr) (same : u.ledger = s.ledger) :
    (u.stateObjects.lookup addr).map (fun obj => obj.view u.db) =
      (s.stateObjects.lookup addr).map fun obj => obj.view s.db := by
  rw [settledS.lookup_view, settledU.lookup_view]
  exact congrFun (congrArg Ledger.accounts same) addr

theorem writable_iff (s : StateDB C) : s.Writable d addr ↔
    ∀ account, (s.stateObjects.lookup addr).map (fun obj => obj.view s.db) = some account →
      account.goes C d = true ∨ 0 ≤ account.balance := by
  unfold Writable
  constructor
  · rintro writable account found
    obtain ⟨obj, held, rfl⟩ := map_eq_some_iff.mp found
    exact writable obj held
  · intro writable obj held
    exact writable (obj.view s.db) (by rw [held]; rfl)

variable (apart : C.AccountsApart A)
  (knownS : ∀ {addr obj}, s.stateObjects.lookup addr = some obj → addr ∈ A)
  (knownU : ∀ {addr obj}, u.stateObjects.lookup addr = some obj → addr ∈ A)
  (settledS : ∀ {addr}, s.Marked addr → s.Settled addr) (settledU : ∀ {addr}, u.Marked addr → u.Settled addr)
  (same : u.ledger = s.ledger) (marks : ∀ addr, u.Marked addr ↔ s.Marked addr)
include apart knownS knownU settledS settledU same marks

/-- The root depends on the ledger and the marks. -/
theorem intermediateRoot_congr (d : Bool) :
    (u.intermediateRoot d).map Prod.fst = (s.intermediateRoot d).map Prod.fst := by
  have views : ∀ addr, s.Marked addr → (u.stateObjects.lookup addr).map (fun obj => obj.view u.db) =
      (s.stateObjects.lookup addr).map fun obj => obj.view s.db :=
    fun addr marked => map_lookup_view (settledS marked) (settledU ((marks addr).mpr marked)) same
  have writable : ∀ addr, s.Marked addr → (u.Writable d addr ↔ s.Writable d addr) := by
    intro addr marked
    rw [writable_iff, writable_iff, views addr marked]
  unfold intermediateRoot
  obtain ⟨t, ranS, finalisedS, writableS⟩ | ⟨ranS, addr, marked, bad⟩ := s.finalise_spec d
  · obtain ⟨v, ranU, finalisedU, -⟩ | ⟨-, addr, marked, bad⟩ := u.finalise_spec d
    · have tries : v.trie = t.trie := by
        refine Trie.ext_get fun key => ?_
        by_cases written : ∃ addr obj, s.Marked addr ∧ s.stateObjects.lookup addr = some obj ∧ accountKey C addr = key
        · obtain ⟨addr, obj, marked, held, rfl⟩ := written
          have view := views addr marked
          rw [held] at view
          obtain ⟨obj', held', view⟩ := map_eq_some_iff.mp view
          rw [finalisedS.get_of_mem apart knownS s.journal.dirties.keys_nodup (mem_dirties_iff.mpr marked) held,
            finalisedU.get_of_mem apart knownU u.journal.dirties.keys_nodup
              (mem_dirties_iff.mpr ((marks addr).mpr marked)) held', view]
        · have other : ∀ addr obj, s.Marked addr → s.stateObjects.lookup addr = some obj → accountKey C addr ≠ key :=
            fun addr obj marked held eq => written ⟨addr, obj, marked, held, eq⟩
          rw [finalisedS.get_of_not_mem fun addr mem obj held => other addr obj (mem_dirties_iff.mp mem) held,
            finalisedU.get_of_not_mem, show u.trie = s.trie from congrArg Ledger.trie same]
          intro addr mem obj' held'
          have marked := (marks addr).mp (mem_dirties_iff.mp mem)
          have view := views addr marked
          rw [held'] at view
          obtain ⟨obj, held, -⟩ := map_eq_some_iff.mp view.symm
          exact other addr obj marked held
      rw [ranS, ranU]
      exact congrArg some (congrArg (Trie.hash C Account.enc) tries)
    · have marked := (marks addr).mp marked
      exact absurd ((writable addr marked).mpr (writableS addr marked)) bad
  · obtain ⟨v, -, -, writableU⟩ | ⟨ranU, -⟩ := u.finalise_spec d
    · exact absurd ((writable addr marked).mp (writableU addr ((marks addr).mpr marked))) bad
    · rw [ranS, ranU]

end Root

/-- The state after `Finalise` is sound. -/
theorem Sound.finalised (sound : s.Sound A K) (slots : C.SlotsApart K) (apart : C.AccountsApart A)
    (finalised : Finalised d s.journal.dirties.keys s t) : t.clearJournalAndRefund.Sound A K := by
  refine .of_new rfl ⟨fun {addr obj} found => ?_, fun {addr obj} found => ?_, fun {addr obj} found deleted => ?_⟩
  · change t.stateObjects.lookup addr = some obj at found
    rw [finalised.objects] at found
    split_ifs at found
    · obtain ⟨obj', held, -⟩ := map_eq_some_iff.mp found
      exact sound.known held
    · exact sound.known found
  · change t.stateObjects.lookup addr = some obj at found
    rw [finalised.objects] at found
    split_ifs at found
    · obtain ⟨obj', held, rfl⟩ := map_eq_some_iff.mp found
      unfold StateObject.finalised
      split_ifs
      · exact (sound.coherent held).congr rfl rfl rfl
      · exact (sound.coherent held).updateRoot slots
    · exact sound.coherent found
  · change t.stateObjects.lookup addr = some obj at found
    change t.trie.get _ = none
    rw [finalised.objects] at found
    split_ifs at found with mem
    · obtain ⟨obj', held, rfl⟩ := map_eq_some_iff.mp found
      rw [finalised.get_of_mem apart sound.known s.journal.dirties.keys_nodup mem held, LedgerAccount.written]
      unfold StateObject.finalised at deleted
      split_ifs at deleted ⊢ with goes
      · rfl
      · -- the object was live, and updating its root does not delete it
        have live := (sound.settled (mem_dirties_iff.mp mem)).live held
        simp [StateObject.updateRoot, StateObject.updateTrie, live.2] at deleted
    · rw [finalised.get_of_known apart sound.known (sound.known found) mem]
      exact sound.deleted found deleted

end StateDB

end KKChain
