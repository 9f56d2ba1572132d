import KKChain.State.Snapshot

/-! # What holds of a state database whatever is done with it

`Sound` is lost when a commit writes back an account that was removed. The weaker `Tidy` is not: in every run of calls
the objects in memory, and those that the journal keeps, are coherent. A copy is compared with its original under it.
-/

namespace KKChain

open Option

variable {C : Crypto} {A : Set Address} {K : Set Hash}

/-- The addresses and slots of the entry are among those given, and the object that it keeps is coherent. -/
def JournalEntry.Within (C : Crypto) (A : Set Address) (K : Set Hash) : JournalEntry → Prop
  | resetObject account prev => account ∈ A ∧ prev.Coherent C K
  | storage account key _ => account ∈ A ∧ key ∈ K
  | createObject account | suicide account _ _ | balance account _ | nonce account _ | code account _ _
  | touch account => account ∈ A
  | refund _ | addLog _ | addPreimage _ => True

namespace StateDB

/-- The objects in memory and in the journal are coherent and at addresses in `A`. -/
structure Tidy (A : Set Address) (K : Set Hash) (s : StateDB C) : Prop where
  known : ∀ {addr obj}, s.stateObjects.lookup addr = some obj → addr ∈ A
  coherent : ∀ {addr obj}, s.stateObjects.lookup addr = some obj → obj.Coherent C K
  within : ∀ entry ∈ s.journal.entries, entry.Within C A K

namespace Tidy

variable {s t : StateDB C} {addr : Address} {obj : StateObject} {d ok : Bool}

theorem ofTrie (db : StateDatabase C) (trie : Trie Account) : (StateDB.ofTrie db trie).Tidy A K :=
  ⟨nofun, nofun, fun _ mem => (by cases mem)⟩

theorem congr (tidy : s.Tidy A K) (objects : t.stateObjects = s.stateObjects)
    (entries : t.journal.entries = s.journal.entries) : t.Tidy A K where
  known found := tidy.known (objects ▸ found)
  coherent found := tidy.coherent (objects ▸ found)
  within := entries ▸ tidy.within

theorem setStateObject (tidy : s.Tidy A K) (mem : addr ∈ A) (coherent : obj.Coherent C K) :
    (s.setStateObject addr obj).Tidy A K where
  known {addr' obj'} found := by
    rw [StateDB.setStateObject, AList.lookup_insert_eq_ite] at found
    split_ifs at found with same
    · rwa [same]
    · exact tidy.known found
  coherent {addr' obj'} found := by
    rw [StateDB.setStateObject, AList.lookup_insert_eq_ite] at found
    split_ifs at found
    · exact some.inj found ▸ coherent
    · exact tidy.coherent found
  within := tidy.within

theorem append (tidy : s.Tidy A K) (entry : JournalEntry) (within : entry.Within C A K) :
    (s.append entry).Tidy A K where
  known := tidy.known
  coherent := tidy.coherent
  within := by
    rw [StateDB.append, Journal.entries_append, List.forall_mem_cons]
    exact ⟨within, tidy.within⟩

section Objects

variable {s' : StateDB C}

theorem of_none (tidy : s.Tidy A K) (found : s.getStateObject addr = (none, s')) : s'.Tidy A K :=
  (getStateObject_none found).1 ▸ tidy

theorem of_some (tidy : s.Tidy A K) (mem : addr ∈ A) (found : s.getStateObject addr = (some obj, s')) :
    s'.Tidy A K ∧ obj.Coherent C K := by
  obtain ⟨live, -, -, rfl | ⟨data, -, -, rfl, rfl⟩⟩ := getStateObject_some found
  · exact ⟨tidy, tidy.coherent live.1⟩
  · have coherent : (StateObject.newObject data).Coherent C K := StateObject.coherent_newObject data
    exact ⟨tidy.setStateObject mem coherent, coherent⟩

theorem getStateObject (tidy : s.Tidy A K) (mem : addr ∈ A) : (s.getStateObject addr).2.Tidy A K := by
  rcases found : s.getStateObject addr with ⟨_ | obj, s'⟩
  · exact tidy.of_none found
  · exact (tidy.of_some mem found).1

theorem coherent_blank : (StateObject.blank C).Coherent C K := StateObject.coherent_newObject _

theorem createObject (tidy : s.Tidy A K) (mem : addr ∈ A) : (s.createObject addr).2.2.Tidy A K := by
  unfold StateDB.createObject
  rcases found : s.getStateObject addr with ⟨_ | prev, s'⟩
  · have created := (tidy.of_none found).append (.createObject addr) mem
    exact created.setStateObject mem coherent_blank
  · obtain ⟨tidy', coherent⟩ := tidy.of_some mem found
    exact (tidy'.append (.resetObject addr prev) ⟨mem, coherent⟩).setStateObject mem coherent_blank

theorem getOrNewStateObject (tidy : s.Tidy A K) (mem : addr ∈ A) :
    (s.getOrNewStateObject addr).2.Tidy A K ∧ (s.getOrNewStateObject addr).1.Coherent C K := by
  unfold StateDB.getOrNewStateObject
  rcases found : s.getStateObject addr with ⟨_ | obj, s'⟩
  · exact ⟨(tidy.of_none found).createObject mem, coherent_blank⟩
  · exact tidy.of_some mem found

theorem touch (tidy : s.Tidy A K) (mem : addr ∈ A) : (s.touch addr).Tidy A K := by
  have touched := tidy.append (.touch addr) mem
  unfold StateDB.touch
  dsimp only
  split_ifs
  · exact touched.congr rfl rfl
  · exact touched

/-- A journaled write of an object. -/
theorem write (tidy : s.Tidy A K) (mem : addr ∈ A) (entry : JournalEntry) (within : entry.Within C A K)
    (coherent : obj.Coherent C K) : ((s.append entry).setStateObject addr obj).Tidy A K :=
  (tidy.append entry within).setStateObject mem coherent

end Objects

section Calls

/-- A question keeps the state tidy. -/
theorem ask (tidy : s.Tidy A K) {q : Query} (within : q.Within A K) : (q.ask s).2.Tidy A K := by
  cases q with
  | exist addr | empty addr | getBalance addr | getNonce addr | getCodeHash addr | hasSuicided addr =>
    exact tidy.getStateObject within
  | getCodeSize addr =>
    change (s.getCodeSize addr).2.Tidy A K
    rw [getCodeSize_snd]
    exact tidy.getStateObject within
  | getCode addr =>
    change (s.getCode addr).2.Tidy A K
    unfold StateDB.getCode
    rcases found : s.getStateObject addr with ⟨_ | obj, s'⟩
    · exact tidy.of_none found
    · obtain ⟨tidy', coherent⟩ := tidy.of_some within found
      exact tidy'.setStateObject within coherent.getCode
  | getState addr key =>
    change (s.getState addr key).2.Tidy A K
    unfold StateDB.getState
    rcases found : s.getStateObject addr with ⟨_ | obj, s'⟩
    · exact tidy.of_none found
    · obtain ⟨tidy', coherent⟩ := tidy.of_some within.1 found
      exact tidy'.setStateObject within.1 (coherent.getState within.2)
  | getRefund | getLogs hash | preimage hash => exact tidy

/-- A change keeps the state tidy. -/
theorem apply (tidy : s.Tidy A K) {m : Update} (within : m.Within A K) : (m.apply s).Tidy A K := by
  cases m with
  | createAccount addr =>
    change (s.createAccount addr).Tidy A K
    have created := tidy.createObject within
    unfold StateDB.createAccount
    rcases made : s.createObject addr with ⟨obj, _ | prev, s'⟩ <;> rw [made] at created
    · exact created
    · have blank : obj = .blank C := congrArg Prod.fst made.symm
      exact created.setStateObject within (blank ▸ coherent_blank.congr rfl rfl rfl)
  | addBalance addr amount =>
    obtain ⟨tidy', coherent⟩ := tidy.getOrNewStateObject within
    change (s.addBalance addr amount).Tidy A K
    unfold StateDB.addBalance
    dsimp only
    split_ifs
    · exact tidy'.touch within
    · exact tidy'
    · exact tidy'.write within (.balance addr _) within (coherent.congr rfl rfl rfl)
  | subBalance addr amount =>
    obtain ⟨tidy', coherent⟩ := tidy.getOrNewStateObject within
    change (s.subBalance addr amount).Tidy A K
    unfold StateDB.subBalance
    dsimp only
    split_ifs
    · exact tidy'
    · exact tidy'.write within (.balance addr _) within (coherent.congr rfl rfl rfl)
  | setBalance addr amount =>
    obtain ⟨tidy', coherent⟩ := tidy.getOrNewStateObject within
    exact tidy'.write within (.balance addr _) within (coherent.congr rfl rfl rfl)
  | setNonce addr nonce =>
    obtain ⟨tidy', coherent⟩ := tidy.getOrNewStateObject within
    exact tidy'.write within (.nonce addr _) within (coherent.congr rfl rfl rfl)
  | setCode addr code =>
    obtain ⟨tidy', coherent⟩ := tidy.getOrNewStateObject within
    exact tidy'.write within (.code addr _ _) within (coherent.getCode.congr rfl rfl rfl)
  | setState addr key value =>
    obtain ⟨tidy', coherent⟩ := tidy.getOrNewStateObject within.1
    exact tidy'.write within.1 (.storage addr key _) within ((coherent.getState within.2).setState within.2 value)
  | suicide addr =>
    change (s.suicide addr).2.Tidy A K
    unfold StateDB.suicide
    rcases found : s.getStateObject addr with ⟨_ | obj, s'⟩
    · exact tidy.of_none found
    · obtain ⟨tidy', coherent⟩ := tidy.of_some within found
      exact tidy'.write within (.suicide addr _ _) within (coherent.congr rfl rfl rfl)
  | addRefund gas => exact (tidy.append (.refund s.refund) trivial).congr rfl rfl
  | addLog log => exact (tidy.append (.addLog s.thash) trivial).congr rfl rfl
  | addPreimage hash preimage =>
    change (s.addPreimage hash preimage).Tidy A K
    unfold StateDB.addPreimage
    split
    · exact tidy
    · exact (tidy.append (.addPreimage hash) trivial).congr rfl rfl
  | prepare thash bhash txIndex => exact tidy.congr rfl rfl

/-- Taking back an entry keeps the state tidy. -/
theorem revert (tidy : s.Tidy A K) {entry : JournalEntry} (within : entry.Within C A K)
    (ran : entry.revert s = some t) :
    t.Tidy A K := by
  have revise : ∀ {addr : Address} {f : StateObject → StateObject}, addr ∈ A → s.reviseIfAny addr f = t →
      (∀ obj : StateObject, obj.Coherent C K → (f obj).Coherent C K) → t.Tidy A K := by
    rintro addr f mem rfl keeps
    unfold StateDB.reviseIfAny
    rcases found : s.getStateObject addr with ⟨_ | obj, s'⟩
    · exact tidy.of_none found
    · obtain ⟨tidy', coherent⟩ := tidy.of_some mem found
      exact tidy'.setStateObject mem (keeps obj coherent)
  cases entry with
  | createObject account =>
    cases ran
    refine ⟨fun {addr obj} found => ?_, fun {addr obj} found => ?_, tidy.within⟩
    all_goals
      rw [AList.lookup_erase_eq_ite] at found
      split_ifs at found
    · exact tidy.known found
    · exact tidy.coherent found
  | resetObject account prev => exact some.inj ran ▸ tidy.setStateObject within.1 within.2
  | suicide account prev prevbalance =>
    exact revise within (some.inj ran) fun obj coherent => coherent.congr rfl rfl rfl
  | balance account prev | nonce account prev | code account prevcode prevhash =>
    exact revise within (reviseIfAny_of_revise ran) fun obj coherent => coherent.congr rfl rfl rfl
  | storage account key prevalue =>
    exact revise within.1 (reviseIfAny_of_revise ran) fun obj coherent => coherent.setState within.2 prevalue
  | refund prev | addPreimage hash | touch account => exact some.inj ran ▸ tidy.congr rfl rfl
  | addLog txhash =>
    change s.dropLog txhash = some t at ran
    unfold StateDB.dropLog at ran
    split at ran
    · cases ran
    · exact some.inj ran ▸ tidy.congr rfl rfl

theorem undo (tidy : s.Tidy A K) (ran : s.undo = some t) : t.Tidy A K := by
  unfold StateDB.undo at ran
  split at ran
  · cases ran
  · rename_i entry entries shape
    obtain ⟨u, reverted, rfl⟩ := map_eq_some_iff.mp ran
    have within := tidy.within
    rw [shape, List.forall_mem_cons] at within
    have tidy' := tidy.revert within.1 reverted
    refine ⟨tidy'.known, tidy'.coherent, ?_⟩
    rw [Journal.entries_pop]
    exact within.2

theorem revertToSnapshot (tidy : s.Tidy A K) {revid : ℕ} (ran : s.revertToSnapshot revid = some t) : t.Tidy A K := by
  have undone : ∀ (k : ℕ) {s u : StateDB C}, s.Tidy A K → UndoLog.undoN StateDB.undo k s = some u → u.Tidy A K := by
    intro k
    induction k with
    | zero => exact fun tidy ran => some.inj ran ▸ tidy
    | succ k ih =>
      intro s u tidy ran
      obtain ⟨s', first, rest⟩ := bind_eq_some_iff.mp ran
      exact ih (tidy.undo first) rest
  unfold StateDB.revertToSnapshot at ran
  dsimp only at ran
  split at ran
  · cases ran
  · split_ifs at ran
    obtain ⟨u, reverted, rfl⟩ := map_eq_some_iff.mp ran
    exact (undone _ tidy reverted).congr rfl rfl

/-- The objects may all change if they stay coherent and the journal is dropped. -/
theorem of_new (journal : t.journal = .new) (known : ∀ {addr obj}, t.stateObjects.lookup addr = some obj → addr ∈ A)
    (coherent : ∀ {addr obj}, t.stateObjects.lookup addr = some obj → obj.Coherent C K) : t.Tidy A K where
  known := known
  coherent := coherent
  within entry mem := by
    rw [journal] at mem
    cases mem

theorem finalise (tidy : s.Tidy A K) (slots : C.SlotsApart K) (ran : s.finalise d = some t) : t.Tidy A K := by
  obtain ⟨-, -, t', finalised, rfl⟩ := finalise_revisions ran
  have origin : ∀ {addr obj}, t'.stateObjects.lookup addr = some obj →
      ∃ held, s.stateObjects.lookup addr = some held ∧ (obj = held.finalised s.db d ∨ obj = held) := by
    intro addr obj found
    rw [finalised.objects] at found
    split_ifs at found
    · obtain ⟨held, inTable, rfl⟩ := map_eq_some_iff.mp found
      exact ⟨held, inTable, .inl rfl⟩
    · exact ⟨obj, found, .inr rfl⟩
  refine of_new rfl (fun {addr obj} found => ?_) fun {addr obj} found => ?_
  · obtain ⟨held, inTable, -⟩ := origin found
    exact tidy.known inTable
  · obtain ⟨held, inTable, rfl | rfl⟩ := origin found
    · have coherent := tidy.coherent inTable
      unfold StateObject.finalised
      split_ifs
      · exact coherent.congr rfl rfl rfl
      · exact coherent.updateRoot slots
    · exact tidy.coherent inTable

theorem commitObject (tidy : s.Tidy A K) (slots : C.SlotsApart K)
    (ran : commitObject d s addr = some (ok, t)) : t.Tidy A K := by
  cases found : s.stateObjects.lookup addr with
  | none =>
    rw [StateDB.commitObject, found] at ran
    cases ran
    exact tidy
  | some obj =>
    have mem := tidy.known found
    have committed : (s.committedAt addr obj).Tidy A K :=
      (tidy.setStateObject mem (coherent_committed slots s.db (tidy.coherent found))).congr rfl rfl
    rw [commitObject_eq found] at ran
    split_ifs at ran
    · cases ran
      have coherent : StateObject.Coherent C K { obj with deleted := true } := (tidy.coherent found).congr rfl rfl rfl
      exact (tidy.setStateObject mem coherent).congr rfl rfl
    · obtain ⟨u, updated, same⟩ := map_eq_some_iff.mp ran
      cases same
      unfold updateStateObject at updated
      split_ifs at updated
      cases updated
      exact committed.congr rfl rfl
    · cases ran
      exact committed
    · cases ran
      exact tidy

theorem commitObjects (slots : C.SlotsApart K) {addrs : List Address} (tidy : s.Tidy A K)
    (ran : commitObjects d addrs s = some (ok, t)) : t.Tidy A K := by
  induction addrs generalizing s with
  | nil =>
    cases ran
    exact tidy
  | cons addr addrs ih =>
    obtain ⟨⟨committed, s'⟩, round, ran⟩ := bind_eq_some_iff.mp ran
    have tidy' := tidy.commitObject slots round
    dsimp only at ran
    split_ifs at ran
    · have next : (s'.undirty addr).Tidy A K := tidy'.congr rfl rfl
      exact ih next ran
    · cases ran
      exact tidy'

theorem commit (tidy : s.Tidy A K) (slots : C.SlotsApart K) {root : Option Hash}
    (ran : s.commit d = some (root, t)) : t.Tidy A K := by
  obtain ⟨⟨committed, s'⟩, loop, ran⟩ := bind_eq_some_iff.mp ran
  have marked : s.markDirty.Tidy A K := tidy.congr rfl rfl
  have tidy' := marked.commitObjects slots loop
  dsimp only at ran
  split_ifs at ran <;> cases ran
  all_goals
    exact of_new rfl tidy'.known tidy'.coherent

theorem reset (tidy : s.Tidy A K) (root : Hash) : (s.reset root).Tidy A K := by
  unfold StateDB.reset
  split
  · exact tidy
  · rename_i trie _
    exact (Tidy.ofTrie s.db trie).congr rfl rfl

theorem copy (tidy : s.Tidy A K) (ran : s.copy = some t) : t.Tidy A K := by
  have copied := copy_spec ran
  refine of_new (by rw [copied.frame]; rfl) (fun found => ?_) fun found => ?_
  · obtain ⟨obj, held, -⟩ := copied.objects found
    exact tidy.known held
  · obtain ⟨obj, held, rfl⟩ := copied.objects found
    exact (tidy.coherent held).deepCopy

end Calls

end Tidy

end StateDB

open StateDB

variable {s t : StateDB C}

/-- Every call keeps a state database tidy. -/
theorem StateCall.run_tidy (slots : C.SlotsApart K) {call : StateCall} (within : call.Within A K) (tidy : s.Tidy A K)
    (ran : call.run s = some t) : t.Tidy A K := by
  cases call with
  | query q => exact some.inj ran ▸ tidy.ask within
  | update m => exact some.inj ran ▸ tidy.apply within
  | snapshot => exact some.inj ran ▸ tidy.congr rfl rfl
  | revertToSnapshot revid => exact tidy.revertToSnapshot ran
  | finalise d => exact tidy.finalise slots ran
  | commit d =>
    obtain ⟨⟨root, t⟩, committed, rfl⟩ := map_eq_some_iff.mp ran
    exact tidy.commit slots committed
  | reset root => exact some.inj ran ▸ tidy.reset root
  | copy => exact tidy.copy ran

theorem StateRun.tidy (slots : C.SlotsApart K) {calls : List (StateDB C × StateCall × StateDB C)}
    (run : StateRun s calls t) (within : ∀ c ∈ calls, c.2.1.Within A K) (tidy : s.Tidy A K) : t.Tidy A K :=
  run.keeps (fun c mem ran start => c.2.1.run_tidy slots (within c mem) start ran) tidy

end KKChain
