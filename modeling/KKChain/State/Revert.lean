import KKChain.State.Ledger

/-! # Reverting the journal

Taking back an entry does to the ledger what `Ledger.undo` says, and it keeps a state database sound. The journal is
thus an `UndoLog` whose view is the ledger. `Journaled s t` says that `t` came from `s` by changes that the journal
of `t` takes back; every operation of the state database is such a change.
-/

namespace KKChain

variable {C : Crypto} {A : Set Address} {K : Set Hash} {g : LedgerAccount → LedgerAccount}

namespace StateDB

variable {s t : StateDB C} {addr : Address} {obj : StateObject} {entry : JournalEntry} {f : StateObject → StateObject}

/-- A change of an object, seen from the ledger. -/
theorem map_ledger_revise (sound : s.Sound A K) (mem : addr ∈ A) (live : ∀ obj, (f obj).deleted = obj.deleted)
    (view : ∀ obj : StateObject, obj.Coherent C K → (f obj).view s.db = g (obj.view s.db)) :
    (s.revise addr f).map ledger = s.ledger.revise addr g := by
  unfold revise Ledger.revise
  change _ = (s.account addr).map _
  rcases found : s.getStateObject addr with ⟨_ | obj, s'⟩
  · rw [(getStateObject_none found).2]
    rfl
  · obtain ⟨-, coherent⟩ := sound.getStateObject mem found
    obtain ⟨isLive, same, account, -⟩ := getStateObject_some found
    have db : s'.db = s.db := congrArg Ledger.db same
    rw [account]
    change some _ = some _
    rw [ledger_setStateObject s' addr _ ((live obj).trans isLive.2), same, db, view obj coherent]

theorem ledger_reviseIfAny (live : ∀ obj, (f obj).deleted = obj.deleted)
    (view : ∀ obj : StateObject, (f obj).view s.db = g (obj.view s.db)) :
    (s.reviseIfAny addr f).ledger = s.ledger.reviseIfAny addr g := by
  unfold reviseIfAny Ledger.reviseIfAny
  change _ = s.ledger.setAccount addr ((s.account addr).map g)
  rcases found : s.getStateObject addr with ⟨_ | obj, s'⟩
  · obtain ⟨rfl, absent⟩ := getStateObject_none found
    have kept := s'.ledger.setAccount_self addr
    rw [show s'.ledger.accounts addr = none from absent] at kept
    rw [absent]
    exact kept.symm
  · obtain ⟨isLive, same, held, -⟩ := getStateObject_some found
    have db : s'.db = s.db := congrArg Ledger.db same
    rw [held]
    change (s'.setStateObject addr (f obj)).ledger = _
    rw [ledger_setStateObject s' addr _ ((live obj).trans isLive.2), same, db, view]
    rfl

theorem map_ledger_dropLog (s : StateDB C) (txhash : Hash) :
    (s.dropLog txhash).map ledger = s.ledger.dropLog txhash := by
  have same : s.ledger.logs txhash = s.logs txhash := rfl
  unfold dropLog Ledger.dropLog
  rw [same]
  cases s.logs txhash <;> rfl

/-- The effect of an entry on the ledger. -/
theorem map_ledger_revert (apart : C.SlotsApart K) (sound : s.Sound A K) (valid : entry.Valid C A K s.trie) :
    (entry.revert s).map ledger = s.ledger.undo entry := by
  cases entry with
  | createObject account =>
    refine congrArg some ?_
    have accounts : StateDB.account { s with
        stateObjects := s.stateObjects.erase account
        stateObjectsDirty := s.stateObjectsDirty.erase account } = Function.update s.account account none := by
      funext addr
      by_cases same : addr = account
      · subst same
        simp [StateDB.account, valid.2]
      · rw [Function.update_of_ne same]
        simp only [StateDB.account, AList.lookup_erase_ne same]
    rw [ledger, accounts]
    rfl
  | resetObject account prev => exact congrArg some (ledger_setStateObject s account prev valid.2.2)
  | suicide account prev prevbalance => exact congrArg some (ledger_reviseIfAny (fun _ => rfl) fun _ => rfl)
  | balance account prev | nonce account prev | code account prevcode prevhash =>
    exact map_ledger_revise sound valid (fun _ => rfl) fun _ _ => rfl
  | storage account key prevalue =>
    exact map_ledger_revise sound valid.1 (fun _ => rfl) fun _ coherent => coherent.view_setState apart valid.2 prevalue
  | addLog txhash => exact map_ledger_dropLog s txhash
  | refund prev | addPreimage hash | touch account => rfl

/-- A change of an object that is there. -/
theorem reviseIfAny_of_revise (ran : s.revise addr f = some t) : s.reviseIfAny addr f = t := by
  revert ran
  unfold revise reviseIfAny
  rcases s.getStateObject addr with ⟨_ | obj, s'⟩
  · exact nofun
  · exact Option.some.inj

theorem reviseIfAny_spec (sound : s.Sound A K) (mem : addr ∈ A) (live : ∀ obj, (f obj).deleted = obj.deleted)
    (coherent : ∀ obj : StateObject, obj.Coherent C K → (f obj).Coherent C K) :
    (s.reviseIfAny addr f).Sound A K ∧ (s.reviseIfAny addr f).journal = s.journal := by
  unfold reviseIfAny
  rcases found : s.getStateObject addr with ⟨_ | obj, s'⟩
  · obtain ⟨rfl, -⟩ := getStateObject_none found
    exact ⟨sound, rfl⟩
  · obtain ⟨sound', isCoherent⟩ := sound.getStateObject mem found
    obtain ⟨isLive, -, -, shape⟩ := getStateObject_some found
    refine ⟨sound'.setStateObject mem (coherent obj isCoherent) ((live obj).trans isLive.2), ?_⟩
    rcases shape with rfl | ⟨-, -, -, -, rfl⟩ <;> rfl

/-- Fields that soundness does not speak of. -/
theorem Sound.congr (sound : s.Sound A K) (trie : t.trie = s.trie) (objects : t.stateObjects = s.stateObjects)
    (journal : t.journal = s.journal) :
    t.Sound A K where
  known found := sound.known (objects ▸ found)
  coherent found := sound.coherent (objects ▸ found)
  deleted found isDeleted := trie ▸ sound.deleted (objects ▸ found) isDeleted
  valid := by
    rw [journal, trie]
    exact sound.valid
  counted := journal ▸ sound.counted
  settled marked := by
    unfold Settled Live
    rw [objects, trie]
    exact sound.settled (journal ▸ marked)

/-- Taking back an entry keeps the state database sound. The journal is left to the caller. -/
theorem Sound.revert (sound : s.Sound A K) (valid : entry.Valid C A K s.trie) (ran : entry.revert s = some t) :
    t.Sound A K ∧ t.journal = s.journal := by
  cases entry with
  | createObject account =>
    cases ran
    refine ⟨⟨⟨fun {addr obj} found => ?_, fun {addr obj} found => ?_, fun {addr obj} found => ?_⟩, sound.valid,
      sound.counted, fun {addr} marked => ?_⟩, rfl⟩
    · rw [AList.lookup_erase_eq_ite] at found
      split_ifs at found
      exact sound.known found
    · rw [AList.lookup_erase_eq_ite] at found
      split_ifs at found
      exact sound.coherent found
    · rw [AList.lookup_erase_eq_ite] at found
      split_ifs at found
      exact sound.deleted found
    · by_cases same : addr = account
      · subst same
        exact .inr ⟨AList.lookup_erase _ _, valid.2⟩
      · simpa [Settled, Live, AList.lookup_erase_ne same] using sound.settled marked
  | resetObject account prev =>
    cases ran
    exact ⟨sound.setStateObject valid.1 valid.2.1 valid.2.2, rfl⟩
  | suicide account prev prevbalance =>
    cases ran
    exact reviseIfAny_spec sound valid (fun _ => rfl) fun _ coherent => coherent.congr rfl rfl rfl
  | balance account prev | nonce account prev | code account prevcode prevhash =>
    rw [← reviseIfAny_of_revise ran]
    exact reviseIfAny_spec sound valid (fun _ => rfl) fun _ coherent => coherent.congr rfl rfl rfl
  | storage account key prevalue =>
    rw [← reviseIfAny_of_revise ran]
    exact reviseIfAny_spec sound valid.1 (fun _ => rfl) fun _ coherent => coherent.setState valid.2 prevalue
  | refund prev | addPreimage hash =>
    cases ran
    exact ⟨sound.congr rfl rfl rfl, rfl⟩
  | addLog txhash =>
    change s.dropLog txhash = some t at ran
    unfold dropLog at ran
    split at ran
    · cases ran
    · cases ran
      exact ⟨sound.congr rfl rfl rfl, rfl⟩
  | touch account =>
    cases ran
    exact ⟨sound, rfl⟩

/-- An entry may be dropped from the journal together with its mark. -/
theorem Sound.pop {entries : List JournalEntry} (sound : s.Sound A K) (shape : s.journal.entries = entry :: entries) :
    Sound A K { s with journal := s.journal.pop entry entries } where
  __ := sound
  valid := by
    rw [Journal.entries_pop]
    exact fun e mem => sound.valid e (shape ▸ .tail _ mem)
  counted := sound.counted.pop shape
  settled {addr} marked := by
    refine sound.settled ?_
    obtain ⟨n, found⟩ := Option.ne_none_iff_exists'.mp marked
    rcases Journal.lookup_pop _ _ _ found with kept | ⟨value, -⟩
    · rw [kept]
      exact Option.some_ne_none n
    · have := (sound.counted.pop shape).positive found
      exact sound.counted.lookup_ne_none.mpr (by omega)

theorem undo_spec (sound : s.Sound A K) (ran : s.undo = some t) :
    ∃ entry entries u, s.journal.entries = entry :: entries ∧ entry.Valid C A K s.trie ∧ entry.revert s = some u ∧
      t = { u with journal := s.journal.pop entry entries } ∧ t.Sound A K := by
  unfold undo at ran
  split at ran
  · cases ran
  · rename_i entry entries shape
    obtain ⟨u, reverted, rfl⟩ := Option.map_eq_some_iff.mp ran
    have valid := sound.valid entry (shape ▸ (.head _))
    obtain ⟨sound', journal⟩ := sound.revert valid reverted
    exact ⟨entry, entries, u, shape, valid, reverted, by rw [journal], sound'.pop (journal ▸ shape)⟩

/-- The journal as an undo log. -/
def undoLog (A : Set Address) (K : Set Hash) (apart : C.SlotsApart K) :
    UndoLog (StateDB C) (List JournalEntry × Ledger C) where
  length s := s.journal.entries.length
  undo := undo
  view s := (s.journal.entries, s.ledger)
  Inv := Sound A K
  length_undo sound ran := by
    obtain ⟨entry, entries, u, shape, -, -, rfl, -⟩ := undo_spec sound ran
    simp [shape, Journal.entries_pop]
  inv_undo sound ran := by
    obtain ⟨-, -, -, -, -, -, -, sound'⟩ := undo_spec sound ran
    exact sound'
  length_view same := congrArg List.length (Prod.mk.inj same).1
  undo_view {s t} soundS soundT same := by
    obtain ⟨entries, ledgers⟩ := Prod.mk.inj same
    unfold undo
    rw [← entries]
    split
    · rfl
    · rename_i entry rest shape
      have validS := soundS.valid entry (shape ▸ (.head _))
      have validT := soundT.valid entry (entries ▸ shape ▸ (.head _))
      have effect := (map_ledger_revert apart soundS validS).trans
        ((congrArg (Ledger.undo · entry) ledgers).trans (map_ledger_revert apart soundT validT).symm)
      cases revertedS : entry.revert s with
      | none =>
        rw [revertedS] at effect
        rw [Option.map_eq_none_iff.mp effect.symm]
      | some u =>
        rw [revertedS] at effect
        obtain ⟨v, revertedT, same⟩ := Option.map_eq_some_iff.mp effect.symm
        rw [revertedT]
        simp only [Option.map_some, Journal.entries_pop]
        exact congrArg (fun l => some (rest, l)) same.symm

end StateDB

end KKChain
