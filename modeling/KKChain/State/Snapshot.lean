import KKChain.Machine.Run
import KKChain.State.Commit
import KKChain.State.Interface

/-! # Snapshots

A state database is used through a sequence of calls, among them snapshots and reverts in any nesting. A revision that
is still valid can be taken back, since all that happened after it is in the journal: a revert to a later revision
removes a part of it, and one to an earlier revision, or the end of the transaction, makes the revision invalid.
-/

namespace KKChain

open List Option

variable {C : Crypto} {A : Set Address} {K : Set Hash} {r : Revision} {revid : ℕ}

/-- A call of a state database. After `copy` the copy is used. -/
inductive StateCall where
  | query (q : Query)
  | update (m : Update)
  | snapshot
  | revertToSnapshot (revid : ℕ)
  | finalise (deleteEmptyObjects : Bool)
  | commit (deleteEmptyObjects : Bool)
  | reset (root : Hash)
  | copy

namespace StateCall

/-- The state after a call, if it does not panic. -/
def run (s : StateDB C) : StateCall → Option (StateDB C)
  | query q => some (q.ask s).2
  | update m => some (m.apply s)
  | snapshot => some s.snapshot.2
  | revertToSnapshot revid => s.revertToSnapshot revid
  | finalise d => s.finalise d
  | commit d => (s.commit d).map Prod.snd
  | reset root => some (s.reset root)
  | copy => s.copy

/-- The addresses and slots of the call are among those given. -/
def Within (A : Set Address) (K : Set Hash) : StateCall → Prop
  | query q => q.Within A K
  | update m => m.Within A K
  | _ => True

/-- A commit finds no dirty account that was removed as empty. -/
def Recalls (s : StateDB C) : StateCall → Prop
  | commit d => s.Recalled d
  | _ => True

end StateCall

/-- The calls of a state database, one after the other. -/
abbrev StateRun (s : StateDB C) (calls : List (StateDB C × StateCall × StateDB C)) (t : StateDB C) : Prop :=
  Run (fun s call t => call.run s = some t) s calls t

namespace StateDB

variable {s t u : StateDB C} {apart : C.SlotsApart K}

/-- The revisions are ordered by their identifiers and by how much of the journal they keep. -/
structure Ordered (s : StateDB C) : Prop where
  pairwise : s.validRevisions.Pairwise fun r r' => r.id < r'.id ∧ r.journalIndex ≤ r'.journalIndex
  issued : ∀ r ∈ s.validRevisions, r.id < s.nextRevisionId
  within : ∀ r ∈ s.validRevisions, r.journalIndex ≤ s.journal.entries.length

namespace Ordered

theorem of_nil (none : s.validRevisions = []) : s.Ordered := by
  constructor <;> simp [none]

theorem of_journaled (ordered : s.Ordered) (journaled : Journaled apart A s t) : t.Ordered where
  pairwise := journaled.revisions ▸ ordered.pairwise
  issued := by
    rw [journaled.revisions, journaled.nextRevision]
    exact ordered.issued
  within r mem := (ordered.within r (journaled.revisions ▸ mem)).trans journaled.length

theorem snapshot (ordered : s.Ordered) : s.snapshot.2.Ordered where
  pairwise := by
    refine pairwise_append.mpr ⟨ordered.pairwise, pairwise_singleton _ _, fun r mem r' member' => ?_⟩
    obtain rfl := mem_singleton.mp member'
    exact ⟨ordered.issued r mem, ordered.within r mem⟩
  issued r mem := by
    rcases mem_append.mp mem with old | new
    · exact (ordered.issued r old).trans (Nat.lt_succ_self _)
    · obtain rfl := mem_singleton.mp new
      exact Nat.lt_succ_self _
  within r mem := by
    rcases mem_append.mp mem with old | new
    · exact ordered.within r old
    · obtain rfl := mem_singleton.mp new
      exact le_rfl

/-- The search finds a revision by its identifier. -/
theorem find (ordered : s.Ordered) (mem : r ∈ s.validRevisions) :
    s.validRevisions[s.validRevisions.findIdx fun revision => r.id ≤ revision.id]? = some r := by
  have pairwise := ordered.pairwise
  generalize s.validRevisions = revisions at mem pairwise ⊢
  induction revisions with
  | nil => cases mem
  | cons first rest ih =>
    obtain ⟨before, pairwise⟩ := pairwise_cons.mp pairwise
    rw [findIdx_cons]
    rcases mem_cons.mp mem with rfl | mem
    · simp
    · have later : ¬ r.id ≤ first.id := not_le.mpr (before r mem).1
      simp only [later, decide_false, cond_false, getElem?_cons_succ]
      exact ih mem pairwise

end Ordered

/-- Everything a revert does. -/
theorem revertToSnapshot_spec (apart : C.SlotsApart K) (sound : s.Sound A K) (ran : s.revertToSnapshot revid = some t) :
    ∃ idx revision u, s.validRevisions[idx]? = some revision ∧ revision.id = revid ∧
      (undoLog A K apart).undoTo revision.journalIndex s = some u ∧
      t = { u with validRevisions := s.validRevisions.take idx } := by
  unfold revertToSnapshot at ran
  dsimp only at ran
  split at ran
  · cases ran
  · rename_i revision found
    split_ifs at ran with same
    obtain ⟨u, undone, rfl⟩ := map_eq_some_iff.mp ran
    have frame := undoTo_frame apart sound undone
    exact ⟨_, revision, u, found, not_not.mp same, undone, by rw [frame.2.2.1]⟩

theorem revertToSnapshot_eq (apart : C.SlotsApart K) (sound : s.Sound A K) (ordered : s.Ordered)
    (mem : r ∈ s.validRevisions) (undone : (undoLog A K apart).undoTo r.journalIndex s = some u) :
    ∃ idx, s.revertToSnapshot r.id = some { u with validRevisions := s.validRevisions.take idx } := by
  unfold revertToSnapshot
  refine ⟨s.validRevisions.findIdx fun revision => r.id ≤ revision.id, ?_⟩
  have frame := undoTo_frame apart sound undone
  have ran : s.revertJournal r.journalIndex = some u := undone
  simp only [ordered.find mem, ne_eq, not_true, if_false, ran, map_some, frame.2.2.1]

/-- A revision that a revert leaves is older than the one it goes to. -/
theorem Ordered.before (ordered : s.Ordered) {idx : ℕ} {revision : Revision}
    (found : s.validRevisions[idx]? = some revision) (mem : r ∈ s.validRevisions.take idx) :
    r.id < revision.id ∧ r.journalIndex ≤ revision.journalIndex := by
  have pairwise := ordered.pairwise
  rw [← take_append_drop idx s.validRevisions] at pairwise
  refine (pairwise_append.mp pairwise).2.2 r mem revision (mem_of_getElem? (i := 0) ?_)
  rw [getElem?_drop, add_zero, found]

theorem Ordered.revertToSnapshot (slots : C.SlotsApart K) (sound : s.Sound A K) (ordered : s.Ordered)
    (ran : s.revertToSnapshot revid = some t) : t.Sound A K ∧ t.Ordered := by
  obtain ⟨idx, revision, u, found, rfl, undone, rfl⟩ := revertToSnapshot_spec slots sound ran
  have mem := mem_of_getElem? found
  obtain ⟨sound', length⟩ := UndoLog.undoTo_spec sound (ordered.within _ mem) undone
  obtain ⟨-, -, -, nextRevision⟩ := undoTo_frame slots sound undone
  refine ⟨sound'.congr rfl rfl rfl, ordered.pairwise.sublist (take_sublist ..), fun r inTake => ?_, fun r inTake => ?_⟩
  · exact (ordered.issued r (mem_of_mem_take inTake)).trans_eq nextRevision.symm
  · exact (ordered.before found inTake).2.trans_eq length.symm

theorem finalise_revisions {d : Bool} (ran : s.finalise d = some t) :
    t.validRevisions = [] ∧ t.nextRevisionId = s.nextRevisionId ∧
      ∃ t', Finalised d s.journal.dirties.keys s t' ∧ t = t'.clearJournalAndRefund := by
  obtain ⟨t', ran', finalised, -⟩ | ⟨ran', -⟩ := s.finalise_spec d
  · cases ran'.symm.trans ran
    refine ⟨rfl, ?_, t', finalised, rfl⟩
    change t'.nextRevisionId = _
    rw [finalised.frame]
  · rw [ran'] at ran
    cases ran

end StateDB

open StateDB

variable {s t u : StateDB C} {call : StateCall}

section Sound

variable (slots : C.SlotsApart K) (accounts : C.AccountsApart A)
include slots accounts

/-- Every call keeps a state database sound and its revisions in order. -/
theorem StateCall.run_sound (within : call.Within A K) (recalls : call.Recalls s) (sound : s.Sound A K)
    (ordered : s.Ordered) (ran : call.run s = some t) : t.Sound A K ∧ t.Ordered := by
  cases call with
  | query q =>
    cases ran
    obtain ⟨-, journaled, -⟩ := Query.ask_spec slots within sound
    exact ⟨journaled.sound, ordered.of_journaled journaled⟩
  | update m =>
    cases ran
    obtain ⟨journaled, -⟩ := Update.apply_spec slots within sound
    exact ⟨journaled.sound, ordered.of_journaled journaled⟩
  | snapshot =>
    cases ran
    exact ⟨sound.congr rfl rfl rfl, ordered.snapshot⟩
  | revertToSnapshot revid => exact ordered.revertToSnapshot slots sound ran
  | finalise d =>
    obtain ⟨revisions, -, t', finalised, rfl⟩ := finalise_revisions ran
    exact ⟨sound.finalised slots accounts finalised, .of_nil revisions⟩
  | commit d =>
    obtain ⟨⟨root, t⟩, committed, rfl⟩ := map_eq_some_iff.mp ran
    obtain ⟨sound', revisions, -⟩ := sound.commit slots accounts recalls committed
    exact ⟨sound', .of_nil revisions⟩
  | reset root =>
    cases ran
    refine ⟨sound.reset root, ?_⟩
    unfold StateDB.reset
    split
    · exact ordered
    · exact .of_nil rfl
  | copy =>
    refine ⟨sound.copy ran, .of_nil ?_⟩
    rw [(copy_spec ran).frame]
    rfl

theorem StateRun.sound {calls : List (StateDB C × StateCall × StateDB C)} (run : StateRun s calls t)
    (within : ∀ c ∈ calls, c.2.1.Within A K) (recalls : ∀ c ∈ calls, c.2.1.Recalls c.1) (sound : s.Sound A K)
    (ordered : s.Ordered) : t.Sound A K ∧ t.Ordered :=
  run.keeps (P := fun s => s.Sound A K ∧ s.Ordered)
    (fun c mem ran start => c.2.1.run_sound slots accounts (within c mem) (recalls c mem) start.1 start.2 ran)
    ⟨sound, ordered⟩

end Sound

/-- If the revision is still valid, what happened since can be taken back. -/
def Tracks (slots : C.SlotsApart K) (A : Set Address) (s : StateDB C) (id : ℕ) (t : StateDB C) : Prop :=
  id < t.nextRevisionId ∧ ∀ r ∈ t.validRevisions, r.id = id → r.journalIndex = s.journal.entries.length ∧
    (undoLog A K slots).Restores s t ∧ s.journal.entries.length ≤ t.journal.entries.length ∧ s.strayMarks ≤ t.strayMarks

section Tracks

variable {slots : C.SlotsApart K} {id : ℕ}

theorem Tracks.of_nil (issued : id < t.nextRevisionId) (none : t.validRevisions = []) : Tracks slots A s id t :=
  ⟨issued, by simp [none]⟩

/-- The state right after the snapshot. -/
theorem Tracks.snapshot (sound : s.Sound A K) (ordered : s.Ordered) :
    Tracks slots A s s.nextRevisionId s.snapshot.2 := by
  refine ⟨Nat.lt_succ_self _, fun r mem same => ?_⟩
  rcases mem_append.mp mem with old | new
  · exact absurd same (ordered.issued r old).ne
  · obtain rfl := mem_singleton.mp new
    exact ⟨rfl, .of_view (sound.congr rfl rfl rfl) rfl, le_rfl, le_rfl⟩

theorem Tracks.of_journaled (tracks : Tracks slots A s id t) (sound : t.Sound A K) (journaled : Journaled slots A t u) :
    Tracks slots A s id u := by
  refine ⟨tracks.1.trans_eq journaled.nextRevision.symm, fun r mem same => ?_⟩
  obtain ⟨index, restores, length, marks⟩ := tracks.2 r (journaled.revisions ▸ mem) same
  exact ⟨index, restores.trans journaled.restores sound journaled.sound length journaled.length,
    length.trans journaled.length, marks.trans journaled.marks⟩

/-- A call on the same state database keeps track. -/
theorem Tracks.run (tracks : Tracks slots A s id t) (within : call.Within A K) (accounts : C.AccountsApart A)
    (recalls : call.Recalls t) (own : call ≠ .copy) (sound : t.Sound A K) (ordered : t.Ordered)
    (ran : call.run t = some u) : Tracks slots A s id u := by
  cases call with
  | query q =>
    cases ran
    exact tracks.of_journaled sound (Query.ask_spec slots within sound).2.1
  | update m =>
    cases ran
    exact tracks.of_journaled sound (Update.apply_spec slots within sound).1
  | snapshot =>
    cases ran
    refine ⟨tracks.1.trans (Nat.lt_succ_self _), fun r mem same => ?_⟩
    rcases mem_append.mp mem with old | new
    · obtain ⟨index, restores, length, marks⟩ := tracks.2 r old same
      have looks : (undoLog A K slots).Restores t t.snapshot.2 := .of_view (sound.congr rfl rfl rfl) rfl
      exact ⟨index, restores.trans looks sound (sound.congr rfl rfl rfl) length le_rfl, length, marks⟩
    · obtain rfl := mem_singleton.mp new
      exact absurd same tracks.1.ne'
  | revertToSnapshot revid =>
    obtain ⟨idx, revision, v, found, rfl, undone, rfl⟩ := revertToSnapshot_spec slots sound ran
    obtain ⟨-, marks', -, nextRevision⟩ := undoTo_frame slots sound undone
    refine ⟨tracks.1.trans_eq nextRevision.symm, fun r mem same => ?_⟩
    obtain ⟨index, restores, length, marks⟩ := tracks.2 r (mem_of_mem_take mem) same
    have bound := ordered.within _ (mem_of_getElem? found)
    have lower : s.journal.entries.length ≤ revision.journalIndex := index ▸ (ordered.before found mem).2
    obtain ⟨sound', length'⟩ := UndoLog.undoTo_spec sound bound undone
    have kept := restores.of_undoTo sound lower bound undone
    have looks : (undoLog A K slots).Restores v { v with validRevisions := t.validRevisions.take idx } :=
      .of_view (sound'.congr rfl rfl rfl) rfl
    refine ⟨index, kept.trans looks sound' (sound'.congr rfl rfl rfl) (lower.trans_eq length'.symm) le_rfl, ?_, ?_⟩
    · exact lower.trans_eq length'.symm
    · exact marks.trans_eq marks'.symm
  | finalise d =>
    obtain ⟨revisions, nextRevision, -⟩ := finalise_revisions ran
    exact .of_nil (tracks.1.trans_eq nextRevision.symm) revisions
  | commit d =>
    obtain ⟨⟨root, v⟩, committed, rfl⟩ := map_eq_some_iff.mp ran
    obtain ⟨-, revisions, nextRevision⟩ := sound.commit slots accounts recalls committed
    exact .of_nil (tracks.1.trans_eq nextRevision.symm) revisions
  | reset root =>
    cases ran
    unfold StateDB.reset
    split
    · exact tracks
    · exact .of_nil tracks.1 rfl
  | copy => exact absurd rfl own

end Tracks

/-- The state database with other marks. -/
def StateDB.withDirties (s : StateDB C) (dirties : GoMap Address ℤ) : StateDB C :=
  { s with journal := { s.journal with dirties := dirties } }

/-- `u` answers like `s`. It has the same marks, with the exception of the one for the precompile, and with the marks
of `s` it leads to the same root. -/
structure Restored (A : Set Address) (K : Set Hash) (s u : StateDB C) : Prop where
  answers : ∀ q : Query, q.Within A K → (q.ask u).1 = (q.ask s).1
  marks : ∀ addr, addr ≠ ripemd → u.journal.dirties.lookup addr = s.journal.dirties.lookup addr
  root : ∀ dirties : GoMap Address ℤ, (∀ addr, dirties.lookup addr ≠ none ↔ s.Marked addr) → ∀ d,
    ((u.withDirties dirties).intermediateRoot d).map Prod.fst = (s.intermediateRoot d).map Prod.fst

section Restored

theorem Journal.Counted.lookup_eq {j j' : Journal} (counted : j.Counted) (counted' : j'.Counted) {addr : Address}
    (same : j'.mark addr = j.mark addr) : j'.dirties.lookup addr = j.dirties.lookup addr := by
  unfold Journal.mark at same
  cases found : j.dirties.lookup addr with
  | none =>
    cases found' : j'.dirties.lookup addr with
    | none => rfl
    | some n =>
      have positive := counted'.positive found'
      simp only [found, found', getD_some, getD_none] at same
      omega
  | some n =>
    have positive := counted.positive found
    cases found' : j'.dirties.lookup addr with
    | none =>
      simp only [found, found', getD_some, getD_none] at same
      omega
    | some n' => simpa [found, found'] using same

/-- States with the same journal and ledger look alike. -/
theorem Restored.of_view (slots : C.SlotsApart K) (accounts : C.AccountsApart A) (soundS : s.Sound A K)
    (soundU : u.Sound A K) (entries : u.journal.entries = s.journal.entries) (ledger : u.ledger = s.ledger)
    (marks : s.strayMarks ≤ u.strayMarks) : Restored A K s u := by
  have counts : ∀ addr, u.journal.count addr = s.journal.count addr := fun addr => by
    rw [Journal.count, Journal.count, entries]
  refine ⟨fun q within => ?_, fun addr other => ?_, fun dirties sameMarks d => ?_⟩
  · rw [(Query.ask_spec slots within soundU).1, (Query.ask_spec slots within soundS).1, ledger]
  · refine soundS.counted.lookup_eq soundU.counted ?_
    rw [soundU.counted.mark_eq other, soundS.counted.mark_eq other, counts]
  · -- a mark of the first state is also one of the second, where the account is settled
    have marked : ∀ addr, s.Marked addr → u.Marked addr := by
      intro addr marked
      refine soundU.counted.lookup_ne_none.mpr ?_
      have positive := soundS.counted.lookup_ne_none.mp marked
      have counted := counts addr
      by_cases precompile : addr = ripemd
      · subst precompile
        unfold strayMarks at marks
        omega
      · have eqU := soundU.counted.mark_eq precompile
        have eqS := soundS.counted.mark_eq precompile
        omega
    have settled : ∀ {addr}, (u.withDirties dirties).Marked addr → (u.withDirties dirties).Settled addr :=
      fun {addr} inDirties => soundU.settled (marked addr ((sameMarks addr).mp inDirties))
    have known : ∀ {addr obj}, (u.withDirties dirties).stateObjects.lookup addr = some obj → addr ∈ A := soundU.known
    exact intermediateRoot_congr accounts soundS.known known soundS.settled settled ledger sameMarks d

/-- A revision that is still valid can be reverted to, and everything is as it was. -/
theorem Tracks.revert {slots : C.SlotsApart K} (accounts : C.AccountsApart A) {id : ℕ} (soundS : s.Sound A K)
    (soundT : t.Sound A K) (orderedT : t.Ordered) (tracks : Tracks slots A s id t)
    (live : id ∈ t.validRevisions.map Revision.id) :
    ∃ u, t.revertToSnapshot id = some u ∧ Restored A K s u ∧ u.ledger = s.ledger := by
  obtain ⟨r, mem, same⟩ := mem_map.mp live
  obtain ⟨index, ⟨u, undone, soundU, looks⟩, length, marks⟩ := tracks.2 r mem same
  have undoneTo : (undoLog A K slots).undoTo r.journalIndex t = some u := by rwa [index]
  obtain ⟨idx, reverted⟩ := revertToSnapshot_eq slots soundT orderedT mem undoneTo
  obtain ⟨-, marks', -⟩ := undoTo_frame slots soundT undone
  obtain ⟨entries, ledger⟩ := Prod.mk.inj looks
  rw [same] at reverted
  exact ⟨_, reverted, .of_view slots accounts soundS (soundU.congr rfl rfl rfl) entries ledger
    (marks.trans_eq marks'.symm),
    ledger⟩

/-- A snapshot that is still valid can be reverted to, however the calls were nested, and everything is as it was. -/
theorem revert_restores (slots : C.SlotsApart K) (accounts : C.AccountsApart A) {db : StateDatabase C}
    {trie : Trie Account} {calls calls' : List (StateDB C × StateCall × StateDB C)}
    (made : StateRun (ofTrie db trie) calls s) (run : StateRun s.snapshot.2 calls' t)
    (own : ∀ c ∈ calls', c.2.1 ≠ .copy) (within : ∀ c ∈ calls ++ calls', c.2.1.Within A K)
    (recalls : ∀ c ∈ calls ++ calls', c.2.1.Recalls c.1) (live : s.snapshot.1 ∈ t.validRevisions.map Revision.id) :
    ∃ u, t.revertToSnapshot s.snapshot.1 = some u ∧ Restored A K s u := by
  rw [forall_mem_append] at within recalls
  obtain ⟨sound, ordered⟩ := made.sound slots accounts within.1 recalls.1 (.ofTrie db trie) (.of_nil rfl)
  obtain ⟨⟨soundT, orderedT⟩, tracks⟩ := run.keeps
    (P := fun t => (t.Sound A K ∧ t.Ordered) ∧ Tracks slots A s s.nextRevisionId t)
    (fun c member ran ⟨⟨sound, ordered⟩, tracks⟩ =>
      ⟨c.2.1.run_sound slots accounts (within.2 c member) (recalls.2 c member) sound ordered ran,
        tracks.run (within.2 c member) accounts (recalls.2 c member) (own c member) sound ordered ran⟩)
    ⟨⟨sound.congr rfl rfl rfl, ordered.snapshot⟩, .snapshot sound ordered⟩
  obtain ⟨u, reverted, restored, -⟩ := tracks.revert accounts sound soundT orderedT live
  exact ⟨u, reverted, restored⟩

/-- An account with a balance. -/
def funded : StateDB .numeral := (ofTrie (.blank .numeral) .empty).addBalance 7 5

/-- The same with a slot written and, after a second snapshot, destroyed. -/
def spent : StateDB .numeral := ((funded.snapshot.2.setState 7 1 9).snapshot.2.suicide 7).2

theorem spent_reverts :
    ∃ t, spent.revertToSnapshot 1 = some t ∧ funded.snapshot.1 ∈ t.validRevisions.map Revision.id := by
  have reverts : (spent.revertToSnapshot 1).any (fun t => (t.validRevisions.map Revision.id).contains 0) = true := by
    decide +kernel
  cases ran : spent.revertToSnapshot 1 with
  | none =>
    rw [ran] at reverts
    cases reverts
  | some t =>
    rw [ran] at reverts
    exact ⟨t, rfl, contains_iff_mem.mp reverts⟩

theorem revert_restores_nested :
    ∃ t u, spent.revertToSnapshot 1 = some t ∧ t.revertToSnapshot funded.snapshot.1 = some u ∧
    Restored {7} {1} funded u := by
  obtain ⟨t, reverted, live⟩ := spent_reverts
  have made : StateRun (ofTrie (.blank .numeral) .empty) _ funded :=
    .cons (l := .update (.addBalance 7 5)) rfl (.nil _)
  have last : StateRun spent [(spent, .revertToSnapshot 1, t)] t := .cons reverted (.nil t)
  have run : StateRun funded.snapshot.2 _ t := .cons (l := .update (.setState 7 1 9)) rfl
    (.cons (l := .snapshot) rfl (.cons (l := .update (.suicide 7)) rfl last))
  obtain ⟨u, restored⟩ :=
    revert_restores (A := {7}) (K := {1}) (Set.injOn_singleton ..) (Set.injOn_singleton ..) made run
    (by simp) (by simp [StateCall.Within, Update.Within]) (by simp [StateCall.Recalls]) live
  exact ⟨t, u, reverted, restored⟩

/-- An account that was touched and is empty. -/
def touched : StateDB .numeral := (ofTrie (.blank .numeral) .empty).addBalance 7 0

/-- The account is removed at the end of the transaction and written back by the commit. It does not exist, but after a
change of it was taken back it does. -/
theorem revert_finds_recalled : ∃ calls s u, StateRun (ofTrie (.blank .numeral) .empty) calls s ∧
    (s.snapshot.2.addBalance 7 1).revertToSnapshot s.snapshot.1 = some u ∧ (s.exist 7).1 = false ∧
    (u.exist 7).1 = true := by
  have runs : ((touched.finalise true).any fun s => (s.commit false).any fun r => !(r.2.exist 7).1 &&
      ((r.2.snapshot.2.addBalance 7 1).revertToSnapshot r.2.snapshot.1).any fun u => (u.exist 7).1) = true := by
    decide +kernel
  obtain ⟨s, finalised, runs⟩ := (Option.any_eq_true ..).mp runs
  obtain ⟨⟨root, s'⟩, committed, runs⟩ := (Option.any_eq_true ..).mp runs
  obtain ⟨absent, runs⟩ := Bool.and_eq_true_iff.mp runs
  obtain ⟨u, reverted, present⟩ := (Option.any_eq_true ..).mp runs
  have last : StateRun s [(s, .commit false, s')] s' := .cons (by simp [StateCall.run, committed]) (.nil s')
  have finalises : StateRun touched [(touched, .finalise true, s), (s, .commit false, s')] s' := .cons finalised last
  have run : StateRun (ofTrie (.blank .numeral) .empty) _ s' := .cons (l := .update (.addBalance 7 0)) rfl finalises
  exact ⟨_, s', u, run, reverted, by simpa using absent, present⟩

end Restored

end KKChain
