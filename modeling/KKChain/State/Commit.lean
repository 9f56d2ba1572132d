import KKChain.State.Finalise
import KKChain.State.Revert

/-! # Commit and Copy

`Commit` walks over all objects in memory. It writes back every dirty object that has not self-destructed, also one
that `Finalise` has removed from the trie, and such an object stays deleted in memory. `Recalled` says that there is
none; then the table of objects and the trie still fit together afterwards.
-/

namespace KKChain

open Option AList

variable {C : Crypto} {A : Set Address} {K : Set Hash} {trie : Trie Account}

namespace StateDB

variable {s t : StateDB C} {d ok : Bool} {addr addr' : Address} {obj : StateObject}

/-- An object is put in place and its entry in the trie changes with it. -/
theorem TableSound.write (table : s.TableSound A K) (mem : addr ∈ A) (obj : StateObject) (db : StateDatabase C)
    (trie : Trie Account) (coherent : obj.Coherent C K)
    (others : ∀ addr' ∈ A, addr' ≠ addr → trie.get (accountKey C addr') = s.trie.get (accountKey C addr'))
    (own : obj.deleted = true → trie.get (accountKey C addr) = none) :
    TableSound A K { s.setStateObject addr obj with db := db, trie := trie } where
  known {addr' obj'} found := by
    rw [setStateObject, lookup_insert_eq_ite] at found
    split_ifs at found with same
    · rwa [same]
    · exact table.known found
  coherent {addr' obj'} found := by
    rw [setStateObject, lookup_insert_eq_ite] at found
    split_ifs at found
    · exact some.inj found ▸ coherent
    · exact table.coherent found
  deleted {addr' obj'} found deleted := by
    rw [setStateObject, lookup_insert_eq_ite] at found
    split_ifs at found with same
    · subst same
      exact own (some.inj found ▸ deleted)
    · exact (others addr' (table.known found) same).trans (table.deleted found deleted)

theorem get_insert_other (apart : C.AccountsApart A) (mem : addr ∈ A) {data : Account} (member' : addr' ∈ A)
    (other : addr' ≠ addr) :
    (trie.insert (accountKey C addr) data).get (accountKey C addr') = trie.get (accountKey C addr') := by
  rw [Trie.get_insert, if_neg]
  exact fun same => other (apart member' mem same)

theorem get_delete_other (apart : C.AccountsApart A) (mem : addr ∈ A) (member' : addr' ∈ A) (other : addr' ≠ addr) :
    (trie.delete (accountKey C addr)).get (accountKey C addr') = trie.get (accountKey C addr') := by
  rw [Trie.get_delete, if_neg]
  exact fun same => other (apart member' mem same)

/-- The object goes when it is committed. -/
def goesAt (d : Bool) (s : StateDB C) (addr : Address) (obj : StateObject) : Bool :=
  obj.suicided || ((s.stateObjectsDirty.lookup addr).isSome && d && obj.empty C)

/-- The state after a dirty object was committed. -/
def committedAt (s : StateDB C) (addr : Address) (obj : StateObject) : StateDB C :=
  { s.setStateObject addr (obj.committed s.db).2.2 with db := (obj.committed s.db).2.1 }

/-- Everything the round for an object does. -/
theorem commitObject_eq (found : s.stateObjects.lookup addr = some obj) : commitObject d s addr =
    if s.goesAt d addr obj then some (true, s.deleteStateObject addr obj)
    else if (s.stateObjectsDirty.lookup addr).isSome then
      if (obj.committed s.db).1 then
        ((s.committedAt addr obj).updateStateObject addr (obj.committed s.db).2.2).map fun s => (true, s)
      else some (false, s.committedAt addr obj)
    else some (true, s) := by
  simp only [commitObject, found]
  rfl

/-- No dirty object was removed from the trie and would be written back. -/
def Recalled (d : Bool) (s : StateDB C) : Prop :=
  ∀ addr obj, s.stateObjects.lookup addr = some obj → obj.deleted = true → s.goesAt d addr obj = true ∨
    s.stateObjectsDirty.lookup addr = none

theorem coherent_committed (slots : C.SlotsApart K) (db : StateDatabase C) (coherent : obj.Coherent C K) :
    (obj.committed db).2.2.Coherent C K := by
  obtain ⟨-, dirtyCode, data, shape, -⟩ := StateObject.committed_snd db obj
  rw [shape]
  have updated : (obj.updateRoot db).Coherent C K := coherent.updateRoot slots
  exact updated.congr rfl rfl rfl

theorem deleted_committed (db : StateDatabase C) (obj : StateObject) :
    (obj.committed db).2.2.deleted = obj.deleted := by
  obtain ⟨-, dirtyCode, data, shape, -⟩ := StateObject.committed_snd db obj
  rw [shape]
  exact StateObject.deleted_getTrie db obj

/-- A round keeps the table. -/
theorem TableSound.commitObject (table : s.TableSound A K) (slots : C.SlotsApart K) (apart : C.AccountsApart A)
    (safe : ∀ obj, s.stateObjects.lookup addr = some obj → obj.deleted = true → s.goesAt d addr obj = true ∨
      s.stateObjectsDirty.lookup addr = none) (ran : commitObject d s addr = some (ok, t)) : t.TableSound A K := by
  cases found : s.stateObjects.lookup addr with
  | none =>
    rw [StateDB.commitObject, found] at ran
    cases ran
    exact table
  | some obj =>
    have mem := table.known found
    rw [commitObject_eq found] at ran
    split_ifs at ran with goes dirty committed
    · cases ran
      refine table.write mem { obj with deleted := true } s.db (s.trie.delete (accountKey C addr))
        ((table.coherent found).congr rfl rfl rfl) ?_ fun _ => ?_
      · exact fun addr' member' other => get_delete_other apart mem member' other
      · rw [Trie.get_delete, if_pos rfl]
    · have live : obj.deleted = false := by
        by_contra deleted
        rcases safe obj found (by simpa using deleted) with gone | clean
        · exact goes gone
        · simp [clean] at dirty
      obtain ⟨u, updated, same⟩ := map_eq_some_iff.mp ran
      cases same
      unfold updateStateObject at updated
      split_ifs at updated
      cases updated
      refine table.write mem _ _ _ (coherent_committed slots s.db (table.coherent found)) ?_ fun deleted => ?_
      · exact fun addr' member' other => get_insert_other apart mem member' other
      · rw [deleted_committed, live] at deleted
        cases deleted
    · cases ran
      refine table.write mem _ _ _ (coherent_committed slots s.db (table.coherent found)) (fun _ _ _ => rfl)
        fun deleted => ?_
      exact table.deleted found (by rwa [deleted_committed] at deleted)
    · cases ran
      exact table

/-- Objects elsewhere, and what is dirty, are as they were after a round. -/
theorem commitObject_frame (ran : commitObject d s addr = some (ok, t)) :
    (∀ addr', addr' ≠ addr → t.stateObjects.lookup addr' = s.stateObjects.lookup addr') ∧
      t.stateObjectsDirty = s.stateObjectsDirty ∧ t.journal = s.journal ∧ t.validRevisions = s.validRevisions ∧
      t.nextRevisionId = s.nextRevisionId := by
  cases found : s.stateObjects.lookup addr with
  | none =>
    rw [commitObject, found] at ran
    cases ran
    exact ⟨fun _ _ => rfl, rfl, rfl, rfl, rfl⟩
  | some obj =>
    rw [commitObject_eq found] at ran
    split_ifs at ran
    · cases ran
      exact ⟨fun _ other => lookup_insert_ne other, rfl, rfl, rfl, rfl⟩
    · obtain ⟨u, updated, same⟩ := map_eq_some_iff.mp ran
      cases same
      unfold updateStateObject at updated
      split_ifs at updated
      cases updated
      exact ⟨fun _ other => lookup_insert_ne other, rfl, rfl, rfl, rfl⟩
    · cases ran
      exact ⟨fun _ other => lookup_insert_ne other, rfl, rfl, rfl, rfl⟩
    · cases ran
      exact ⟨fun _ _ => rfl, rfl, rfl, rfl, rfl⟩

/-- The state with which the next round starts. -/
def undirty (s : StateDB C) (addr : Address) : StateDB C :=
  { s with stateObjectsDirty := s.stateObjectsDirty.erase addr }

/-- A round leaves the other objects as safe as they were. -/
theorem goesAt_undirty (ran : commitObject d s addr = some (ok, t)) (other : addr' ≠ addr)
    (obj : StateObject) : (t.undirty addr).goesAt d addr' obj = s.goesAt d addr' obj ∧
      (t.undirty addr).stateObjectsDirty.lookup addr' = s.stateObjectsDirty.lookup addr' := by
  obtain ⟨-, same, -⟩ := commitObject_frame ran
  have kept : (t.undirty addr).stateObjectsDirty.lookup addr' = s.stateObjectsDirty.lookup addr' := by
    rw [undirty, lookup_erase_ne other, same]
  exact ⟨by rw [goesAt, goesAt, kept], kept⟩

/-- The loop keeps the table, also if it ends with an error. -/
theorem TableSound.commitObjects (slots : C.SlotsApart K) (apart : C.AccountsApart A) {addrs : List Address}
    (distinct : addrs.Nodup) (table : s.TableSound A K)
    (safe : ∀ addr ∈ addrs, ∀ obj, s.stateObjects.lookup addr = some obj → obj.deleted = true →
      s.goesAt d addr obj = true ∨ s.stateObjectsDirty.lookup addr = none)
    (ran : commitObjects d addrs s = some (ok, t)) :
    t.TableSound A K ∧ t.validRevisions = s.validRevisions ∧ t.nextRevisionId = s.nextRevisionId := by
  induction addrs generalizing s with
  | nil =>
    cases ran
    exact ⟨table, rfl, rfl⟩
  | cons addr addrs ih =>
    obtain ⟨absent, distinct⟩ := List.nodup_cons.mp distinct
    obtain ⟨first, rest⟩ := List.forall_mem_cons.mp safe
    obtain ⟨⟨committed, s'⟩, round, ran⟩ := bind_eq_some_iff.mp ran
    have table' := table.commitObject slots apart first round
    obtain ⟨objects, -, -, revisions, nextRevision⟩ := commitObject_frame round
    dsimp only at ran
    split_ifs at ran
    · have safe' : ∀ addr' ∈ addrs, ∀ obj, (s'.undirty addr).stateObjects.lookup addr' = some obj → obj.deleted = true →
          (s'.undirty addr).goesAt d addr' obj = true ∨ (s'.undirty addr).stateObjectsDirty.lookup addr' = none := by
        intro addr' mem obj found deleted
        have other := ne_of_mem_of_not_mem mem absent
        obtain ⟨goes, dirty⟩ := goesAt_undirty round other obj
        rw [goes, dirty]
        exact rest addr' mem obj ((objects addr' other).symm.trans found) deleted
      obtain ⟨table'', revisions', nextRevision'⟩ := ih distinct (s := s'.undirty addr)
        ⟨table'.known, table'.coherent, table'.deleted⟩ safe' ran
      exact ⟨table'', revisions'.trans revisions, nextRevision'.trans nextRevision⟩
    · cases ran
      exact ⟨table', revisions, nextRevision⟩

theorem markDirty_lookup : s.markDirty.stateObjectsDirty.lookup addr ≠ none ↔
    s.stateObjectsDirty.lookup addr ≠ none ∨ s.Marked addr := by
  rw [markDirty, lookup_foldl_insert_ne_none, mem_dirties_iff]

/-- A removed object is not marked, so it is as dirty as before. -/
theorem Sound.recalled_markDirty (sound : s.Sound A K) (recalled : s.Recalled d)
    (found : s.stateObjects.lookup addr = some obj) (deleted : obj.deleted = true) :
    s.markDirty.goesAt d addr obj = true ∨ s.markDirty.stateObjectsDirty.lookup addr = none := by
  have unmarked : ¬ s.Marked addr := by
    intro marked
    rw [((sound.settled marked).live found).2] at deleted
    cases deleted
  rcases recalled addr obj found deleted with goes | clean
  · left
    have dirty : (s.stateObjectsDirty.lookup addr).isSome → (s.markDirty.stateObjectsDirty.lookup addr).isSome := by
      rw [← ne_none_iff_isSome, ← ne_none_iff_isSome, markDirty_lookup]
      exact .inl
    simp only [goesAt, Bool.or_eq_true, Bool.and_eq_true] at goes ⊢
    exact goes.imp_right fun ⟨⟨isDirty, delete⟩, empty⟩ => ⟨⟨dirty isDirty, delete⟩, empty⟩
  · right
    by_contra isDirty
    exact (markDirty_lookup.mp isDirty).elim (fun h => h clean) unmarked

/-- The state after `Commit` is sound and has no snapshots. -/
theorem Sound.commit (sound : s.Sound A K) (slots : C.SlotsApart K) (apart : C.AccountsApart A)
    (recalled : s.Recalled d) {root : Option Hash} (ran : s.commit d = some (root, t)) :
    t.Sound A K ∧ t.validRevisions = [] ∧ t.nextRevisionId = s.nextRevisionId := by
  obtain ⟨⟨committed, s'⟩, loop, ran⟩ := bind_eq_some_iff.mp ran
  have table : s.markDirty.TableSound A K := ⟨sound.known, sound.coherent, sound.deleted⟩
  obtain ⟨table', -, nextRevision⟩ := table.commitObjects slots apart s.stateObjects.keys_nodup
    (fun addr _ obj found deleted => sound.recalled_markDirty recalled found deleted) loop
  dsimp only at ran
  split_ifs at ran <;> cases ran
  all_goals
    exact ⟨.of_new rfl ⟨table'.known, table'.coherent, table'.deleted⟩, rfl, nextRevision⟩

section Copy

/-- A copy in the making. -/
structure CopyOf (s state : StateDB C) : Prop where
  frame : state = { ofTrie s.db s.trie with
    refund := s.refund
    logs := s.logs
    logSize := s.logSize
    preimages := s.preimages
    stateObjects := state.stateObjects
    stateObjectsDirty := state.stateObjectsDirty }
  objects : ∀ {addr obj}, state.stateObjects.lookup addr = some obj →
    ∃ obj', s.stateObjects.lookup addr = some obj' ∧ obj = obj'.deepCopy
  dirty : ∀ {addr}, state.stateObjectsDirty.lookup addr ≠ none →
    (s.stateObjectsDirty.lookup addr ≠ none ∨ s.Marked addr) ∧ state.stateObjects.lookup addr ≠ none

theorem CopyOf.copyObject (copied : s.CopyOf t) (found : s.stateObjects.lookup addr = some obj)
    (dirty : s.stateObjectsDirty.lookup addr ≠ none ∨ s.Marked addr) : s.CopyOf (t.copyObject addr obj) where
  frame := by
    rw [copied.frame]
    rfl
  objects {addr' obj'} held := by
    rw [StateDB.copyObject, setStateObject, lookup_insert_eq_ite] at held
    split_ifs at held with same
    · exact ⟨obj, same ▸ found, (some.inj held).symm⟩
    · exact copied.objects held
  dirty {addr'} isDirty := by
    rw [StateDB.copyObject, lookup_insert_eq_ite] at isDirty
    rw [StateDB.copyObject, setStateObject, lookup_insert_eq_ite]
    split_ifs at isDirty ⊢ with same
    · exact ⟨same ▸ dirty, some_ne_none _⟩
    · exact copied.dirty isDirty

/-- Everything `Copy` does. -/
theorem copy_spec (ran : s.copy = some t) : s.CopyOf t := by
  have start : s.CopyOf { ofTrie s.db s.trie with
      refund := s.refund, logs := s.logs, logSize := s.logSize, preimages := s.preimages } :=
    ⟨rfl, nofun, fun isDirty => absurd rfl isDirty⟩
  have marked : ∀ (addrs : List Address) (state : StateDB C), (∀ addr ∈ addrs, s.Marked addr) → s.CopyOf state →
      s.CopyOf (addrs.foldl s.copyMarked state) := by
    intro addrs
    induction addrs with
    | nil => exact fun _ _ => id
    | cons addr addrs ih =>
      intro state all copied
      obtain ⟨first, rest⟩ := List.forall_mem_cons.mp all
      refine ih _ rest ?_
      unfold copyMarked
      split
      · exact copied
      · exact copied.copyObject ‹_› (.inr first)
  have dirty : ∀ (addrs : List Address) (state : StateDB C),
      (∀ addr ∈ addrs, s.stateObjectsDirty.lookup addr ≠ none) → s.CopyOf state →
      addrs.foldlM s.copyDirty state = some t → s.CopyOf t := by
    intro addrs
    induction addrs with
    | nil =>
      intro state _ copied ran
      exact some.inj ran ▸ copied
    | cons addr addrs ih =>
      intro state all copied ran
      obtain ⟨first, rest⟩ := List.forall_mem_cons.mp all
      obtain ⟨state', round, ran⟩ := bind_eq_some_iff.mp ran
      refine ih state' rest ?_ ran
      unfold copyDirty at round
      split at round
      · exact some.inj round ▸ copied
      · obtain ⟨obj, found, rfl⟩ := map_eq_some_iff.mp round
        exact copied.copyObject found (.inl first)
  refine dirty _ _ (fun addr mem => ?_) (marked _ _ (fun addr mem => mem_dirties_iff.mp mem) start) ran
  exact ne_none_iff_exists'.mpr (mem_keys_iff_exists.mp mem)

theorem Sound.copy (sound : s.Sound A K) (ran : s.copy = some t) : t.Sound A K := by
  have copied := copy_spec ran
  refine .of_new (by rw [copied.frame]; rfl) ⟨fun found => ?_, fun found => ?_, fun {addr obj} found deleted => ?_⟩
  · obtain ⟨obj, held, -⟩ := copied.objects found
    exact sound.known held
  · obtain ⟨obj, held, rfl⟩ := copied.objects found
    exact (sound.coherent held).deepCopy
  · obtain ⟨obj, held, rfl⟩ := copied.objects found
    rw [copied.frame]
    exact sound.deleted held deleted

end Copy

theorem Sound.reset (sound : s.Sound A K) (root : Hash) : (s.reset root).Sound A K := by
  unfold StateDB.reset
  split
  · exact sound
  · exact (Sound.ofTrie s.db _).congr rfl rfl rfl

end StateDB

end KKChain
