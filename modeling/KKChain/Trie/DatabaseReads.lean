import KKChain.Trie.Database
import Mathlib.Logic.Relation

/-! # Reads during `Cap` and `Commit`

A node leaves the cache only once it is on disk with the bytes that it had in the cache: what the second phase drops is
part of what the first has written. So at every moment all that was readable is so with the same bytes, whatever the
shape of the graph and of the flush list, and also if the call faults.
-/

namespace KKChain.Trie

open Relation List Function

/-- All that could be read can be read, with the same bytes. -/
def Database.Keeps (db d : Database) : Prop := ∀ {h b}, db.node h = some b → d.node h = some b

namespace Batch

variable {table : Hash → Option Bytes} {writes : List (Hash × Bytes)} {h : Hash}

theorem store_concat (w : Hash × Bytes) : store table (writes ++ [w]) = update (store table writes) w.1 (some w.2) := by
  simp [store, foldl_append]

/-- A table holds what it held before or what was written. -/
theorem store_cases (table : Hash → Option Bytes) (writes : List (Hash × Bytes)) (h : Hash) :
    store table writes h = table h ∨ ∃ w ∈ writes, w.1 = h ∧ store table writes h = some w.2 := by
  induction writes generalizing table with
  | nil => exact .inl rfl
  | cons w writes ih =>
    rcases ih (update table w.1 (some w.2)) with before | ⟨w', mem, key, held⟩
    · by_cases here : h = w.1
      · refine .inr ⟨w, .head _, here.symm, before.trans ?_⟩
        rw [here, update_self]
      · exact .inl (before.trans (update_of_ne here _ _))
    · exact .inr ⟨w', .tail _ mem, key, held⟩

end Batch

/-- The disk holds of the node what the cache does. -/
def Database.Encodes (db₀ db : Database) (h : Hash) : Prop :=
  ∃ n, db₀.nodes.lookup h = some n ∧ n.content.rlp ≠ none ∧ db.disk h = n.content.rlp

section Writing

variable {db₀ db : Database} {T T' : Hash → Prop} {b : Batch} {w : Watched} {hash h : Hash} {n : CachedNode}

/-- The database differs from `db₀` in what is on disk, and there by encodings of cached nodes of `T` only. -/
structure Writes (db₀ : Database) (T : Hash → Prop) (db : Database) : Prop where
  nodes : db.nodes = db₀.nodes
  oldest : db.oldest = db₀.oldest
  newest : db.newest = db₀.newest
  disk : ∀ h, db.disk h = db₀.disk h ∨ T h ∧ db₀.Encodes db h

/-- Nothing that is not cached changes on disk. -/
theorem disk_of_missing (disk : db.disk h = db₀.disk h ∨ T h ∧ db₀.Encodes db h) (missing : db₀.nodes.lookup h = none) :
    db.disk h = db₀.disk h := by
  rcases disk with same | ⟨-, n, found, -⟩
  · exact same
  · rw [missing] at found
    cases found

theorem Writes.keeps (writes : Writes db₀ T db) : db₀.Keeps db := by
  intro h b read
  unfold Database.node at read ⊢
  rw [writes.nodes]
  cases found : db₀.nodes.lookup h with
  | some n => rwa [found] at read
  | none =>
    rw [found] at read
    exact (disk_of_missing (writes.disk h) found).trans read

/-- The batch holds encodings of cached nodes of `T`. -/
def Faithful (db₀ : Database) (T : Hash → Prop) (b : Batch) : Prop :=
  ∀ w ∈ b.writes, T w.1 ∧ ∃ n, db₀.nodes.lookup w.1 = some n ∧ n.content.rlp = some w.2

/-- Once the batch is written, the disk has the node. -/
def Saved (db₀ db : Database) (b : Batch) (h : Hash) : Prop :=
  ∀ {n}, db₀.nodes.lookup h = some n → n.content.rlp ≠ none ∧ Batch.store db.disk b.writes h = n.content.rlp

def Unharmed (db₀ : Database) (w : Watched) : Prop := ∀ d ∈ w.seen, db₀.Keeps d

/-- While nodes are written: those of `T`, and no others, are on disk or in the batch. -/
structure Writing (db₀ : Database) (T : Hash → Prop) (b : Batch) (w : Watched) : Prop where
  writes : Writes db₀ T w.db
  faithful : Faithful db₀ T b
  saved : ∀ {h}, T h → Saved db₀ w.db b h
  unharmed : Unharmed db₀ w

theorem Writing.start (db₀ : Database) : Writing db₀ (fun _ => False) .empty ⟨db₀, []⟩ where
  writes := ⟨rfl, rfl, rfl, fun _ => .inl rfl⟩
  faithful := by simp [Faithful, Batch.empty]
  saved := False.elim
  unharmed := by simp [Unharmed]

/-- Nodes that are not cached need no writing. -/
theorem Writing.exchange (writing : Writing db₀ T b w) (more : ∀ {h}, T h → T' h)
    (fewer : ∀ {h}, T' h → T h ∨ db₀.nodes.lookup h = none) : Writing db₀ T' b w where
  writes :=
    { writing.writes with disk := fun h => (writing.writes.disk h).imp_right fun ⟨mem, held⟩ => ⟨more mem, held⟩ }
  faithful x mem := ⟨more (writing.faithful x mem).1, (writing.faithful x mem).2⟩
  saved mem n found := by
    rcases fewer mem with mem | missing
    · exact writing.saved mem found
    · rw [missing] at found
      cases found
  unharmed := writing.unharmed

theorem Faithful.write (faithful : Faithful db₀ T b) (writes : Writes db₀ T db) : Writes db₀ T (db.write b) where
  nodes := writes.nodes
  oldest := writes.oldest
  newest := writes.newest
  disk h := by
    rcases Batch.store_cases db.disk b.writes h with before | ⟨w, mem, rfl, held⟩
    · rcases writes.disk h with same | ⟨mem, n, found, solid, held⟩
      · exact .inl (before.trans same)
      · exact .inr ⟨mem, n, found, solid, before.trans held⟩
    · obtain ⟨inside, n, found, encoded⟩ := faithful w mem
      exact .inr ⟨inside, n, found, by simp [encoded], held.trans encoded.symm⟩

/-- Writing the batch keeps everything that was saved with it. -/
theorem Writing.write (writing : Writing db₀ T b w) :
    Writing db₀ T .empty ⟨w.db.write b, w.db.write b :: w.seen⟩ where
  writes := writing.faithful.write writing.writes
  faithful := by simp [Faithful, Batch.empty]
  saved mem _ found := writing.saved mem found
  unharmed := forall_mem_cons.mpr ⟨(writing.faithful.write writing.writes).keeps, writing.unharmed⟩

theorem writeIf_spec (full : Bool) :
    Proc.Spec (Writing db₀ T b) (writeIf full b) (Writing db₀ T) fun _ => Unharmed db₀ := by
  refine .ite (fun _ => ?_) fun _ => .pure fun _ writing => writing
  exact .bind (Q := fun _ => Writing db₀ T .empty) (.update fun _ writing => writing.write) fun _ =>
    .pure fun _ writing => writing

theorem putPreimages_spec (preimages : List (Sigma fun _ : Hash => Bytes)) :
    Proc.Spec (Writing db₀ T b) (putPreimages preimages b) (Writing db₀ T) fun _ => Unharmed db₀ := by
  induction preimages generalizing b with
  | nil => exact .pure fun _ writing => writing
  | cons p preimages ih =>
    refine .bind (Q := Writing db₀ T) ?_ fun _ => ih
    exact (writeIf_spec _).pre (fun _ writing => { writing with })

/-- A node that is put into the batch is saved. -/
theorem Writing.put {enc : Bytes} (writing : Writing db₀ T b w) (found : db₀.nodes.lookup hash = some n)
    (encoded : n.content.rlp = some enc) : Writing db₀ (fun h => T h ∨ h = hash) (b.put hash enc) w where
  writes :=
    { writing.writes with disk := fun h => (writing.writes.disk h).imp_right fun ⟨mem, held⟩ => ⟨.inl mem, held⟩ }
  faithful := by
    intro x mem
    rcases mem_append.mp mem with mem | mem
    · obtain ⟨inside, known⟩ := writing.faithful x mem
      exact ⟨.inl inside, known⟩
    · obtain rfl := mem_singleton.mp mem
      exact ⟨.inr rfl, n, found, encoded⟩
  saved {h} mem n' found' := by
    by_cases here : h = hash
    · subst here
      cases found.symm.trans found'
      refine ⟨by simp [encoded], ?_⟩
      rw [encoded, Batch.put, Batch.store_concat, update_self]
    · obtain ⟨solid, held⟩ := writing.saved (mem.resolve_right here) found'
      refine ⟨solid, ?_⟩
      rw [Batch.put, Batch.store_concat, update_of_ne here, held]
  unharmed := writing.unharmed

theorem putNode_spec (found : db₀.nodes.lookup hash = some n) :
    Proc.Spec (Writing db₀ T b) (putNode hash n b) (Writing db₀ fun h => T h ∨ h = hash) fun _ => Unharmed db₀ := by
  refine .bind (Q := fun enc w => n.content.rlp = some enc ∧ Writing db₀ T b w)
    (.orFault (fun _ encoded _ writing => ⟨encoded, writing⟩) fun _ _ writing => writing.unharmed) fun enc => ?_
  exact (writeIf_spec _).pre (fun _ start => start.2.put found start.1)

/-- From `p` to `c` through cached nodes. -/
def Database.Refers (db : Database) : Hash → Hash → Prop :=
  ReflTransGen fun p c => ∃ n, db.nodes.lookup p = some n ∧ c ∈ n.childs

theorem Database.Refers.cases {p c : Hash} (refers : db₀.Refers p c) (found : db₀.nodes.lookup p = some n) :
    p = c ∨ ∃ x ∈ n.childs, db₀.Refers x c := by
  rcases refers.cases_head with same | ⟨x, ⟨n', found', child⟩, rest⟩
  · exact .inl same
  · cases found.symm.trans found'
    exact .inr ⟨x, child, rest⟩

/-- `commit` saves all that the node refers to. -/
theorem commit_spec (fuel : ℕ) : Proc.Spec (Writing db₀ T b) (Database.commit fuel hash b)
    (Writing db₀ fun h => T h ∨ db₀.Refers hash h) fun _ => Unharmed db₀ := by
  induction fuel generalizing hash T b with
  | zero => exact .throw fun _ writing => writing.unharmed
  | succ fuel ih =>
    have children : ∀ (cs : List Hash) T b,
      Proc.Spec (Writing db₀ T b) (cs.foldlM (fun b child => Database.commit fuel child b) b)
        (Writing db₀ fun h => T h ∨ ∃ c ∈ cs, db₀.Refers c h) fun _ => Unharmed db₀ := by
      intro cs
      induction cs with
      | nil => exact fun T b => .pure fun _ writing => writing.exchange .inl (by simpa using .inl)
      | cons c cs ihs =>
        refine fun T b => .bind (Q := Writing db₀ fun h => T h ∨ db₀.Refers c h) ih fun b => ?_
        refine (ihs _ b).post (fun _ _ writing => writing.exchange ?_ ?_)
        · rintro h ((before | refers) | ⟨x, mem, refers⟩)
          · exact .inl before
          · exact .inr ⟨c, .head _, refers⟩
          · exact .inr ⟨x, .tail _ mem, refers⟩
        · rintro h (before | ⟨x, mem, refers⟩)
          · exact .inl (.inl (.inl before))
          · rcases mem_cons.mp mem with rfl | mem
            · exact .inl (.inl (.inr refers))
            · exact .inl (.inr ⟨x, mem, refers⟩)
    rw [Database.commit]
    refine .get_bind fun w => ?_
    cases found : w.db.nodes.lookup hash with
    | none =>
      rintro s ⟨rfl, writing⟩
      refine writing.exchange .inl ?_
      rw [writing.writes.nodes] at found
      rintro h (before | refers)
      · exact .inl before
      · rcases refers.cases_head with rfl | ⟨x, ⟨n', found', -⟩, -⟩
        · exact .inr found
        · rw [found] at found'
          cases found'
    | some n =>
      by_cases stored : db₀.nodes.lookup hash = some n
      · refine .bind (Q := Writing db₀ fun h => T h ∨ ∃ c ∈ n.childs, db₀.Refers c h)
          ((children n.childs T b).pre (fun _ start => start.2)) fun b => ?_
        refine (putNode_spec stored).post (fun _ _ writing => writing.exchange ?_ ?_)
        · rintro h ((before | ⟨c, child, refers⟩) | rfl)
          · exact .inl before
          · exact .inr (.head ⟨n, stored, child⟩ refers)
          · exact .inr .refl
        · rintro h (before | refers)
          · exact .inl (.inl (.inl before))
          · rcases refers.cases stored with same | below
            · exact .inl (.inr same.symm)
            · exact .inl (.inl (.inr below))
      · rintro s ⟨rfl, writing⟩
        exact absurd (writing.writes.nodes ▸ found) stored

/-- The flush list leads over some nodes from the first of them to what is behind. -/
inductive Leads (db₀ : Database) : Hash → List Hash → Hash → Prop
  | here (stop : Hash) : Leads db₀ stop [] stop
  | step {o stop : Hash} {n : CachedNode} {passed : List Hash} : o ≠ 0 → db₀.nodes.lookup o = some n →
      Leads db₀ n.flushNext passed stop → Leads db₀ o (o :: passed) stop

/-- The first loop of `Cap` saves the nodes that it passes. -/
theorem flushOldest_spec (limit : ℤ) (fuel : ℕ) (size : ℤ) (oldest : Hash) :
    Proc.Spec (Writing db₀ T b) (Database.flushOldest limit fuel size oldest b)
      (fun out w => ∃ passed, Writing db₀ (fun h => T h ∨ h ∈ passed) out.2 w ∧ Leads db₀ oldest passed out.1)
      fun _ => Unharmed db₀ := by
  induction fuel generalizing size oldest T b with
  | zero => exact .throw fun _ writing => writing.unharmed
  | succ fuel ih =>
    refine .ite (fun going => ?_) fun _ => .pure fun _ writing =>
      ⟨[], writing.exchange .inl (by simpa using .inl), .here oldest⟩
    refine .bind (Q := fun n w => db₀.nodes.lookup oldest = some n ∧ Writing db₀ T b w) ?_ fun n => ?_
    · refine .get_bind fun w => .orFault ?_ ?_
      · rintro n found s ⟨rfl, writing⟩
        exact ⟨writing.writes.nodes ▸ found, writing⟩
      · exact fun _ _ start => start.2.unharmed
    · intro s ⟨found, writing⟩
      refine Proc.Spec.bind (putNode_spec found) (fun b => ?_) s writing
      refine (ih (size - (3 * 32 + n.size : ℕ)) n.flushNext).post ?_
      rintro out w ⟨passed, writing, leads⟩
      refine ⟨oldest :: passed, writing.exchange ?_ ?_, .step going.2 found leads⟩
      · rintro h ((before | rfl) | mem)
        · exact .inl before
        · exact .inr (.head _)
        · exact .inr (.tail _ mem)
      · rintro h (before | mem)
        · exact .inl (.inl (.inl before))
        · rcases mem_cons.mp mem with rfl | mem
          · exact .inl (.inl (.inr rfl))
          · exact .inl (.inr mem)

end Writing

section Dropping

variable {db₀ db db' : Database} {T : Hash → Prop} {hash stop : Hash}

/-- The cache has lost nodes of `T` only; those are on disk, and nothing else there has changed. -/
structure Drops (db₀ : Database) (T : Hash → Prop) (db : Database) : Prop where
  kept : ∀ {h n}, db.nodes.lookup h = some n →
    ∃ n₀, db₀.nodes.lookup h = some n₀ ∧ n.content = n₀.content ∧ n.children = n₀.children
  dropped : ∀ {h}, db.nodes.lookup h = none → db₀.nodes.lookup h = none ∨ T h
  saved : ∀ {h n₀}, db₀.nodes.lookup h = some n₀ → T h → db.disk h = n₀.content.rlp
  disk : ∀ h, db.disk h = db₀.disk h ∨ T h ∧ db₀.Encodes db h

theorem Drops.keeps (drops : Drops db₀ T db) : db₀.Keeps db := by
  intro h b read
  unfold Database.node at read ⊢
  cases found : db₀.nodes.lookup h with
  | none =>
    rw [found] at read
    cases present : db.nodes.lookup h with
    | none => exact (disk_of_missing (drops.disk h) found).trans read
    | some n =>
      obtain ⟨n₀, found', -⟩ := drops.kept present
      rw [found] at found'
      cases found'
  | some n₀ =>
    rw [found] at read
    cases present : db.nodes.lookup h with
    | none =>
      have gone := (drops.dropped present).resolve_left (by simp [found])
      exact (drops.saved found gone).trans read
    | some n =>
      obtain ⟨n₁, found', content, -⟩ := drops.kept present
      cases found.symm.trans found'
      exact (congrArg Content.rlp content).trans read

/-- While nodes are dropped. -/
structure Dropping (db₀ : Database) (T : Hash → Prop) (w : Watched) : Prop where
  drops : Drops db₀ T w.db
  unharmed : Unharmed db₀ w

theorem Dropping.of_writing {b : Batch} {w : Watched} (writing : Writing db₀ T b w) :
    Dropping db₀ T ⟨w.db.write b, w.db.write b :: w.seen⟩ where
  drops := {
    kept := fun found => ⟨_, writing.writes.nodes ▸ found, rfl, rfl⟩
    dropped := fun gone => .inl (writing.writes.nodes ▸ gone)
    saved := fun found mem => (writing.saved mem found).2
    disk := (writing.faithful.write writing.writes).disk }
  unharmed := writing.write.unharmed

theorem Drops.seen {w : Watched} (drops : Drops db₀ T db) (unharmed : Unharmed db₀ w) :
    Dropping db₀ T ⟨db, db :: w.seen⟩ :=
  ⟨drops, forall_mem_cons.mpr ⟨drops.keeps, unharmed⟩⟩

theorem visibly_spec {f : Database → Database} (keeps : ∀ {db}, Drops db₀ T db → Drops db₀ T (f db)) :
    Proc.Spec (Dropping db₀ T) (visibly f) (fun _ => Dropping db₀ T) fun _ => Unharmed db₀ :=
  .update fun _ dropping => (keeps dropping.drops).seen dropping.unharmed

/-- Writes to other fields of a cached node drop nothing. -/
theorem Drops.update {f : CachedNode → CachedNode} (drops : Drops db₀ T db)
    (updated : db.update hash f = some db') (fields : ∀ n, (f n).content = n.content ∧ (f n).children = n.children) :
    Drops db₀ T db' := by
  obtain ⟨m, found, rfl⟩ := Option.map_eq_some_iff.mp updated
  refine ⟨fun {h n} present => ?_, fun {h} gone => ?_, drops.saved, drops.disk⟩
  · rw [AList.lookup_insert_eq_ite] at present
    split_ifs at present with here
    · subst here
      cases present
      obtain ⟨n₀, found₀, content, children⟩ := drops.kept found
      exact ⟨n₀, found₀, (fields m).1.trans content, (fields m).2.trans children⟩
    · exact drops.kept present
  · rw [AList.lookup_insert_eq_ite] at gone
    split_ifs at gone
    exact drops.dropped gone

theorem Drops.erase (drops : Drops db₀ T db) (mem : T hash) (oldest newest : Hash) (size : ℤ) :
    Drops db₀ T { db with nodes := db.nodes.erase hash, oldest, newest, nodesSize := size } := by
  refine ⟨fun {h n} present => ?_, fun {h} gone => ?_, drops.saved, drops.disk⟩
  all_goals
    rw [AList.lookup_erase_eq_ite] at *
  · split_ifs at present
    exact drops.kept present
  · split_ifs at gone with here
    · exact .inr (here ▸ mem)
    · exact drops.dropped gone

theorem Drops.clearPreimages (drops : Drops db₀ T db) : Drops db₀ T db.clearPreimages :=
  { drops with }

theorem Drops.unlink {n : CachedNode} (drops : Drops db₀ T db) (unlinked : db.unlink hash n = some db') :
    Drops db₀ T db' := by
  unfold Database.unlink at unlinked
  split_ifs at unlinked
  · refine Drops.update ?_ unlinked fun _ => ⟨rfl, rfl⟩
    exact { drops with }
  · refine Drops.update ?_ unlinked fun _ => ⟨rfl, rfl⟩
    exact { drops with }
  · obtain ⟨db₁, first, second⟩ := Option.bind_eq_some_iff.mp unlinked
    exact (drops.update first fun _ => ⟨rfl, rfl⟩).update second fun _ => ⟨rfl, rfl⟩

/-- `uncache` drops nodes of `T` only, if all that these refer to is in `T`. -/
theorem uncache_spec (closed : ∀ {p c n}, T p → db₀.nodes.lookup p = some n → c ∈ n.childs → T c) (fuel : ℕ)
    (mem : T hash) :
    Proc.Spec (Dropping db₀ T) (Database.uncache fuel hash) (fun _ => Dropping db₀ T) fun _ => Unharmed db₀ := by
  induction fuel generalizing hash with
  | zero => exact .throw fun _ dropping => dropping.unharmed
  | succ fuel ih =>
    refine .read fun s dropping => ?_
    cases found : s.db.nodes.lookup hash with
    | none => exact .pure fun _ same => same ▸ dropping
    | some n =>
      obtain ⟨n₀, found₀, content, children⟩ := dropping.drops.kept found
      have below : ∀ c ∈ n.childs, T c := fun c child => closed mem found₀ (by
        rwa [CachedNode.childs, content, children] at child)
      refine .bind (Q := fun db w => w = s ∧ Drops db₀ T db) (.orFault ?_ ?_) fun db => ?_
      · exact fun db unlinked _ same => ⟨same, dropping.drops.unlink unlinked⟩
      · rintro _ _ rfl
        exact dropping.unharmed
      · refine .bind (Q := fun _ => Dropping db₀ T) (.update ?_) fun _ => ?_
        · rintro _ ⟨rfl, drops⟩
          exact drops.seen dropping.unharmed
        · exact .bind (.forM fun c child => ih (below c child)) fun _ => visibly_spec fun drops => drops.erase mem _ _ _

/-- While nodes are dropped from the old end of the list. -/
structure Trims (db₀ : Database) (T : Hash → Prop) (oldest : Hash) (w : Watched) : Prop extends Dropping db₀ T w where
  oldest_eq : w.db.oldest = oldest
  same : ∀ {h n}, w.db.nodes.lookup h = some n → db₀.nodes.lookup h = some n

/-- The second loop of `Cap` drops nodes of `T` only. -/
theorem dropUntil_spec (fuel : ℕ) {oldest : Hash} {passed : List Hash} (leads : Leads db₀ oldest passed stop)
    (inside : ∀ h ∈ passed, T h) :
    Proc.Spec (Trims db₀ T oldest) (Database.dropUntil fuel stop) (fun _ w => Dropping db₀ T w ∧
      w.db.oldest = stop) fun _ => Unharmed db₀ := by
  induction fuel generalizing oldest passed with
  | zero => exact .throw fun _ trims => trims.unharmed
  | succ fuel ih =>
    refine .read fun s trims => .ite (fun arrived => .pure fun _ same => same ▸ ⟨trims.toDropping, arrived⟩)
      fun going => ?_
    obtain ⟨dropping, rfl, exact_⟩ := trims
    obtain - | ⟨some_, found₀, leads⟩ := leads
    · exact absurd rfl going
    rename_i n passed
    obtain ⟨mem, inside⟩ := forall_mem_cons.mp inside
    refine .bind (Q := fun n' w => w = s ∧ n' = n) (.get_bind fun w => .orFault ?_ ?_) fun n' => ?_
    · rintro n' found _ ⟨rfl, rfl⟩
      exact ⟨rfl, Option.some.inj ((exact_ found).symm.trans found₀)⟩
    · rintro _ _ ⟨rfl, rfl⟩
      exact dropping.unharmed
    · refine .bind (Q := fun _ => Trims db₀ T n.flushNext) (.update ?_) fun _ => ih leads inside
      rintro s ⟨rfl, rfl⟩
      have drops := dropping.drops.erase mem n'.flushNext s.db.newest (s.db.nodesSize - (32 + n'.size : ℕ))
      refine ⟨drops.seen dropping.unharmed, rfl, fun {h m} present => ?_⟩
      dsimp only [Database.dropOldest] at present
      rw [AList.lookup_erase_eq_ite] at present
      split_ifs at present
      exact exact_ present

theorem cutOldest_spec : Proc.Spec (fun w => Dropping db₀ T w ∧ w.db.oldest = stop) Database.cutOldest
    (fun _ w => Dropping db₀ T w ∧ w.db.oldest = stop) fun _ => Unharmed db₀ := by
  refine .read fun s start => .ite (fun _ => ?_) fun _ => .pure fun _ same => same ▸ start
  obtain ⟨dropping, arrived⟩ := start
  refine .bind (Q := fun db w => w = s ∧ Drops db₀ T db ∧ db.oldest = stop) (.orFault ?_ ?_) fun db => ?_
  · rintro db updated _ rfl
    obtain ⟨n, -, rfl⟩ := Option.map_eq_some_iff.mp updated
    exact ⟨rfl, dropping.drops.update updated fun _ => ⟨rfl, rfl⟩, arrived⟩
  · rintro _ _ rfl
    exact dropping.unharmed
  · refine .update ?_
    rintro _ ⟨rfl, drops, arrived⟩
    exact ⟨drops.seen dropping.unharmed, arrived⟩

end Dropping

section Calls

variable {db₀ : Database}

theorem cap_spec (db₀ : Database) (limit : ℤ) : Proc.Spec (fun w => w = ⟨db₀, []⟩) (Database.cap limit)
    (fun _ w => ∃ passed, Leads db₀ db₀.oldest passed w.db.oldest ∧ Dropping db₀ (· ∈ passed) w) fun _ =>
      Unharmed db₀ := by
  refine .read fun w start => ?_
  subst start
  refine .bind (Q := Writing db₀ fun _ => False) ((putPreimages_spec _).pre ?_) fun b => ?_
  · rintro s rfl
    exact .start db₀
  refine .bind (flushOldest_spec limit _ _ _) fun out => ?_
  refine .of_each fun s ⟨passed, writing, leads⟩ => ?_
  refine .bind (Q := fun _ => Trims db₀ (· ∈ passed) db₀.oldest) (.update ?_) fun _ => ?_
  · rintro _ rfl
    exact ⟨.of_writing (writing.exchange (fun mem => mem.resolve_left id) fun mem => .inl (.inr mem)),
      writing.writes.oldest, fun found => writing.writes.nodes ▸ found⟩
  refine .bind (Q := fun _ => Trims db₀ (· ∈ passed) db₀.oldest) (.update ?_) fun _ => ?_
  · rintro w ⟨dropping, first, exact_⟩
    split_ifs
    · exact ⟨dropping.drops.clearPreimages.seen dropping.unharmed, first, exact_⟩
    · exact ⟨dropping.drops.seen dropping.unharmed, first, exact_⟩
  · refine .bind (dropUntil_spec _ leads fun _ => id) fun _ =>
      cutOldest_spec.post (fun _ _ ⟨dropping, arrived⟩ => ?_)
    exact ⟨passed, arrived ▸ leads, dropping⟩

theorem commitRoot_spec (db₀ : Database) (root : Hash) :
    Proc.Spec (fun w => w = ⟨db₀, []⟩) (Database.commitRoot root) (fun _ => Dropping db₀ (db₀.Refers root))
      fun _ => Unharmed db₀ := by
  refine .get_bind fun w => ?_
  refine .bind (Q := Writing db₀ fun _ => False) ((putPreimages_spec _).pre ?_) fun b => ?_
  · rintro s ⟨rfl, rfl⟩
    exact .start db₀
  refine .bind (commit_spec _) fun b => ?_
  refine .bind (Q := fun _ => Dropping db₀ (db₀.Refers root)) (.update ?_) fun _ => ?_
  · exact fun s writing => .of_writing (writing.exchange (fun mem => mem.resolve_left id) fun mem => .inl (.inr mem))
  refine .bind (visibly_spec fun drops => drops.clearPreimages) fun _ => ?_
  refine uncache_spec (fun {p c n} above found child => ?_) _ .refl
  exact above.tail ⟨n, found, child⟩

/-- At every moment of a `Cap` or `Commit`, all that could be read before can be read, with the same bytes. -/
theorem reads_kept (db : Database) (call : Call) (moves : (∃ limit, call = .cap limit) ∨ ∃ root, call = .commit root) :
    ∀ d ∈ (call.run.after ⟨db, []⟩).seen, db.Keeps d := by
  rcases moves with ⟨limit, rfl⟩ | ⟨root, rfl⟩
  · refine ((cap_spec db limit).post (fun _ _ => ?_)).after rfl
    rintro ⟨passed, -, dropping⟩
    exact dropping.unharmed
  · exact ((commitRoot_spec db root).post (fun _ _ dropping => dropping.unharmed)).after rfl

end Calls

end KKChain.Trie
