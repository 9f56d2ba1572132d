import KKChain.Trie.Database

/-! # The flush list

The cached nodes form a doubly linked list in the order they came in, but for the meta root and for the nodes that
`uncache` is at work on. On such a list no pointer write of `insert`, `uncache` or `Cap` meets a missing node.
-/

namespace KKChain.Trie

open List Option AList

/-- The nodes in the list, and those that are cached but already out of it. -/
structure Flushes (db : Database) (unlinked : Hash → Prop) (l : List Hash) : Prop where
  linked : Linked 0 db.next db.prev l
  cached : ∀ {h}, db.nodes.lookup h ≠ none ↔ h = 0 ∨ h ∈ l ∨ unlinked h
  oldest : db.oldest = l.headD 0
  newest : ∀ {x}, l.getLast? = some x → db.newest = x

/-- What a cached node holds and refers to. -/
def CachedNode.view (n : CachedNode) : Content × AList fun _ : Hash => ℕ := (n.content, n.children)

/-- Two databases with the same nodes, whatever their lists and counters. -/
structure Same (db db' : Database) : Prop where
  disk : db'.disk = db.disk
  view : ∀ h, (db'.nodes.lookup h).map CachedNode.view = (db.nodes.lookup h).map CachedNode.view

theorem Same.trans {db db₁ db₂ : Database} (first : Same db db₁) (second : Same db₁ db₂) : Same db db₂ :=
  ⟨second.disk.trans first.disk, fun h => (second.view h).trans (first.view h)⟩

theorem Same.lookup {db db' : Database} {h : Hash} {n : CachedNode} (same : Same db db')
    (found : db'.nodes.lookup h = some n) :
    ∃ n₀, db.nodes.lookup h = some n₀ ∧ n.content = n₀.content ∧ n.children = n₀.children := by
  have view := same.view h
  rw [found, map_some, eq_comm, map_eq_some_iff] at view
  obtain ⟨n₀, found₀, fields⟩ := view
  obtain ⟨content, children⟩ := Prod.mk.inj fields
  exact ⟨n₀, found₀, content.symm, children.symm⟩

namespace Database

variable {db db' : Database} {hash h x : Hash} {n : CachedNode} {f : CachedNode → CachedNode} {l front back : List Hash}
  {unlinked : Hash → Prop}

theorem exists_update (db : Database) (hash : Hash) (present : db.nodes.lookup hash ≠ none)
    (f : CachedNode → CachedNode) : ∃ db', db.update hash f = some db' := by
  obtain ⟨n, found⟩ := ne_none_iff_exists'.mp present
  exact ⟨_, map_eq_some_iff.mpr ⟨n, found, rfl⟩⟩

section Update

variable (updated : db.update hash f = some db')
include updated

theorem lookup_update (h : Hash) :
    db'.nodes.lookup h = if h = hash then (db.nodes.lookup hash).map f else db.nodes.lookup h := by
  obtain ⟨n, found, rfl⟩ := map_eq_some_iff.mp updated
  rw [lookup_insert_eq_ite, found, map_some]

theorem update_fields :
    db'.disk = db.disk ∧ db'.oldest = db.oldest ∧ db'.newest = db.newest := by
  obtain ⟨n, -, rfl⟩ := map_eq_some_iff.mp updated
  exact ⟨rfl, rfl, rfl⟩

theorem cached_update (h : Hash) :
    db'.nodes.lookup h ≠ none ↔ db.nodes.lookup h ≠ none := by
  rw [lookup_update updated]
  split_ifs with here
  · rw [here, ne_eq, map_eq_none_iff]
  · rfl

/-- A write to one field does not show in the others. -/
theorem map_update {α : Type} {g : CachedNode → α} (field : ∀ n, g (f n) = g n) (h : Hash) :
    (db'.nodes.lookup h).map g = (db.nodes.lookup h).map g := by
  rw [lookup_update updated]
  split_ifs with here
  · rw [here, Option.map_map]
    exact congrArg (Option.map · _) (funext field)
  · rfl

theorem next_update (field : ∀ n, (f n).flushNext = n.flushNext) : db'.next = db.next :=
  funext fun h => congrArg (Option.getD · 0) (map_update updated field h)

theorem prev_update (field : ∀ n, (f n).flushPrev = n.flushPrev) : db'.prev = db.prev :=
  funext fun h => congrArg (Option.getD · 0) (map_update updated field h)

theorem same_update (field : ∀ n, (f n).view = n.view) : Same db db' :=
  ⟨(update_fields updated).1, map_update updated field⟩

theorem next_update_ne (other : h ≠ hash) : db'.next h = db.next h := by
  rw [next, lookup_update updated, if_neg other, next]

theorem prev_update_ne (other : h ≠ hash) : db'.prev h = db.prev h := by
  rw [prev, lookup_update updated, if_neg other, prev]

theorem next_update_self (field : ∀ n, (f n).flushNext = x) : db'.next hash = x := by
  obtain ⟨n, found, -⟩ := map_eq_some_iff.mp updated
  simp [next, lookup_update updated, found, field]

theorem prev_update_self (field : ∀ n, (f n).flushPrev = x) : db'.prev hash = x := by
  obtain ⟨n, found, -⟩ := map_eq_some_iff.mp updated
  simp [prev, lookup_update updated, found, field]

end Update

theorem next_of_lookup (found : db.nodes.lookup h = some n) : db.next h = n.flushNext := by rw [next, found]; rfl

theorem prev_of_lookup (found : db.nodes.lookup h = some n) : db.prev h = n.flushPrev := by rw [prev, found]; rfl

end Database

namespace Flushes

open Database

variable {db db' : Database} {hash h y : Hash} {n : CachedNode} {l front back : List Hash} {unlinked : Hash → Prop}

theorem oldest_eq_zero (flushes : Flushes db unlinked l) : db.oldest = 0 ↔ l = [] := by
  rw [flushes.oldest]
  cases l with
  | nil => simp
  | cons x l => simpa using fun none => flushes.linked.null_notMem (by simp [none])

theorem cached_of_mem (flushes : Flushes db unlinked l) (mem : h ∈ l) : db.nodes.lookup h ≠ none :=
  flushes.cached.mpr (.inr (.inl mem))

theorem headD_cached (front : List Hash) (flushes : Flushes db unlinked (front ++ back)) :
    db.nodes.lookup (back.headD 0) ≠ none := by
  cases back with
  | nil => exact flushes.cached.mpr (.inl rfl)
  | cons x back => exact flushes.cached_of_mem (by simp)

theorem ne_zero (flushes : Flushes db unlinked l) (mem : h ∈ l) : h ≠ 0 :=
  fun none => flushes.linked.null_notMem (none ▸ mem)

/-- There are at least as many nodes as the list has, and the meta root. -/
theorem length_lt (flushes : Flushes db unlinked l) : l.length < db.nodes.keys.length := by
  have nodup : (0 :: l).Nodup := nodup_cons.mpr ⟨flushes.linked.null_notMem, flushes.linked.nodup⟩
  have inside : 0 :: l ⊆ db.nodes.keys := by
    intro h mem
    rw [← AList.mem_keys, ← AList.lookup_isSome, Option.isSome_iff_ne_none, flushes.cached]
    exact (mem_cons.mp mem).imp_right .inl
  exact (subperm_of_subset nodup inside).length_le

theorem flushList_eq (flushes : Flushes db unlinked l) : db.flushList = l := by
  rw [Database.flushList, flushes.oldest]
  exact flushes.linked.walk_eq flushes.length_lt.le

/-- Lists are told by their pointers at both ends and in between. -/
theorem congr (flushes : Flushes db unlinked l) (next : db'.next = db.next) (prev : db'.prev = db.prev)
    (cached : ∀ h, db'.nodes.lookup h ≠ none ↔ db.nodes.lookup h ≠ none) (oldest : db'.oldest = db.oldest)
    (newest : db'.newest = db.newest) : Flushes db' unlinked l where
  linked := by
    rw [next, prev]
    exact flushes.linked
  cached := (cached _).trans flushes.cached
  oldest := oldest.trans flushes.oldest
  newest last := newest.trans (flushes.newest last)

theorem cached_without (front : List Hash) (flushes : Flushes db unlinked (front ++ hash :: back)) :
    db.nodes.lookup h ≠ none ↔ h = 0 ∨ h ∈ front ++ back ∨ unlinked h ∨ h = hash := by
  rw [flushes.cached]
  simp only [mem_append, mem_cons]
  tauto

theorem next_eq (front : List Hash) (flushes : Flushes db unlinked (front ++ hash :: back))
    (found : db.nodes.lookup hash = some n) :
    n.flushNext = back.headD 0 := by
  rw [← next_of_lookup found, flushes.linked.next_eq]

/-- Without the oldest node, its successor is the oldest. -/
theorem unlink_oldest (flushes : Flushes db unlinked (hash :: back)) (found : db.nodes.lookup hash = some n) :
    ∃ db', db.unlink hash n = some db' ∧ Same db db' ∧ Flushes db' (fun h => unlinked h ∨ h = hash) back := by
  obtain ⟨db', updated⟩ := exists_update { db with oldest := back.headD 0 } (back.headD 0)
    (headD_cached [hash] flushes :) fun m => { m with flushPrev := 0 }
  have same := same_update updated fun _ => rfl
  obtain ⟨-, oldest, newest⟩ := update_fields updated
  refine ⟨db', ?_, ⟨same.disk, same.view⟩, ?_, (cached_update updated _).trans
    (cached_without [] flushes :), oldest, fun {x} last => newest.trans (flushes.newest ?_)⟩
  · rw [Database.unlink, if_pos (by rw [flushes.oldest, headD_cons]), next_eq [] flushes found]
    exact updated
  · refine Linked.remove [] flushes.linked (by simp) (by simp) (fun _ _ => ?_) fun mem other => ?_
    · rw [next_update updated fun _ => rfl]
      rfl
    · refine (prev_update_ne updated fun same => other ?_ :)
      cases back with
      | nil => cases mem
      | cons z back => simpa using same.symm
  · rw [getLast?_cons, last]
    rfl

/-- Without the newest node, its predecessor is the newest. -/
theorem unlink_newest (flushes : Flushes db unlinked (front ++ y :: [hash])) (found : db.nodes.lookup hash = some n) :
    ∃ db', db.unlink hash n = some db' ∧ Same db db' ∧ Flushes db' (fun h => unlinked h ∨ h = hash) (front ++ [y]) := by
  have shape : (front ++ [y]) ++ hash :: [] = front ++ y :: [hash] := by simp
  have back : n.flushPrev = y := by rw [← prev_of_lookup found, flushes.linked.prev_eq]
  have notFirst : hash ≠ db.oldest := by
    rw [flushes.oldest]
    have nodup := flushes.linked.nodup
    cases front with
    | nil => simpa [eq_comm] using nodup
    | cons z front =>
      rintro rfl
      simp at nodup
  obtain ⟨db', updated⟩ := exists_update { db with newest := y } y
    (flushes.cached_of_mem (by simp)) fun m => { m with flushNext := 0 }
  have same := same_update updated fun _ => rfl
  obtain ⟨-, oldest, newest⟩ := update_fields updated
  refine ⟨db', ?_, ⟨same.disk, same.view⟩, ?_, (cached_update updated _).trans ?_, ?_, fun {x} last => newest.trans ?_⟩
  · rw [Database.unlink, if_neg notFirst, if_pos (flushes.newest (by simp)).symm, back]
    exact updated
  · rw [← append_nil (front ++ [y])]
    refine Linked.remove _ (shape ▸ flushes.linked) (fun last => ?_) (by simp) (fun mem inner => ?_) fun _ _ => ?_
    · obtain rfl : y = _ := by simpa using last
      exact next_update_self updated fun _ => rfl
    · refine (next_update_ne updated fun same => inner ?_ :)
      rw [same]
      simp
    · rw [prev_update updated fun _ => rfl]
      rfl
  · have cached := cached_without (h := ‹_›) _ (shape ▸ flushes)
    rwa [append_nil] at cached
  · refine oldest.trans (flushes.oldest.trans ?_)
    cases front <;> simp
  · simpa using last

/-- Without a node in the middle, its neighbours are joined. -/
theorem unlink_middle {z : Hash} (flushes : Flushes db unlinked (front ++ y :: hash :: z :: back))
    (found : db.nodes.lookup hash = some n) : ∃ db', db.unlink hash n = some db' ∧ Same db db' ∧
      Flushes db' (fun h => unlinked h ∨ h = hash) (front ++ y :: z :: back) := by
  have shape : (front ++ [y]) ++ hash :: z :: back = front ++ y :: hash :: z :: back := by simp
  have shape' : (front ++ [y]) ++ z :: back = front ++ y :: z :: back := by simp
  have nodup := flushes.linked.nodup
  have notFirst : hash ≠ db.oldest := by
    rw [flushes.oldest]
    cases front with
    | nil =>
      rintro rfl
      simp at nodup
    | cons x front =>
      rintro rfl
      simp at nodup
  have notLast : hash ≠ db.newest := by
    obtain ⟨x, last⟩ : ∃ x, (z :: back).getLast? = some x := ⟨_, getLast?_cons⟩
    rw [flushes.newest (x := x) (by simpa [getLast?_append, getLast?_cons] using last)]
    rintro rfl
    have mem := mem_of_getLast? last
    simp [nodup_append] at nodup mem
    tauto
  obtain ⟨db₁, first⟩ := exists_update db y (flushes.cached_of_mem (by simp)) fun m => { m with flushNext := z }
  have cachedZ : db₁.nodes.lookup z ≠ none := (cached_update first z).mpr (flushes.cached_of_mem (by simp))
  obtain ⟨db', second⟩ := exists_update db₁ z cachedZ fun m => { m with flushPrev := y }
  obtain ⟨-, oldest, newest⟩ := update_fields first
  obtain ⟨-, oldest', newest'⟩ := update_fields second
  refine ⟨db', ?_, (same_update first fun _ => rfl).trans (same_update second fun _ => rfl), ?_, ?_, ?_, ?_⟩
  · rw [Database.unlink, if_neg notFirst, if_neg notLast, next_eq _ (shape ▸ flushes) found, headD_cons,
      ← prev_of_lookup found, flushes.linked.prev_eq]
    exact bind_eq_some_iff.mpr ⟨db₁, first, second⟩
  · have next := next_update second fun _ => rfl
    have prev := prev_update first fun _ => rfl
    rw [← shape']
    refine Linked.remove _ (shape ▸ flushes.linked) (fun last => ?_) (fun last head => ?_) (fun mem inner => ?_)
      fun mem inner => ?_
    · obtain rfl : y = _ := by simpa using last
      rw [next]
      exact next_update_self first fun _ => rfl
    · obtain rfl : y = _ := by simpa using last
      obtain rfl : z = _ := by simpa using head
      exact prev_update_self second fun _ => rfl
    · rw [next]
      exact next_update_ne first fun same => inner (by simp [same])
    · rw [prev_update_ne second fun same => inner (by simp [same]), prev]
  · rw [← shape']
    exact ((cached_update second _).trans (cached_update first _)).trans (cached_without _ (shape ▸ flushes))
  · refine oldest'.trans (oldest.trans (flushes.oldest.trans ?_))
    cases front <;> simp
  · intro x last
    refine newest'.trans (newest.trans (flushes.newest ?_))
    simpa [getLast?_append, getLast?_cons] using last

/-- `uncache` finds the neighbours of a node of the list, and takes it out. -/
theorem unlink (flushes : Flushes db unlinked (front ++ hash :: back)) (found : db.nodes.lookup hash = some n) :
    ∃ db', db.unlink hash n = some db' ∧ Same db db' ∧
      Flushes db' (fun h => unlinked h ∨ h = hash) (front ++ back) := by
  obtain rfl | ⟨front, y, rfl⟩ := front.eq_nil_or_concat'
  · exact unlink_oldest flushes found
  · rw [append_assoc, singleton_append] at flushes
    obtain - | ⟨z, back⟩ := back
    · rw [append_nil]
      exact unlink_newest flushes found
    · rw [append_assoc, singleton_append]
      exact unlink_middle flushes found

/-- A node out of the list leaves the cache. -/
theorem drop (flushes : Flushes db (fun h => unlinked h ∨ h = hash) l) (apart : ¬ unlinked hash) (outside : hash ∉ l)
    (some_ : hash ≠ 0) (n : CachedNode) : Flushes (db.drop hash n) unlinked l where
  linked := by
    refine flushes.linked.congr (fun mem => ?_) fun mem _ => ?_
    all_goals
      have other : _ ≠ hash := fun same => outside (same ▸ mem)
      simp only [Database.next, Database.prev, Database.drop, lookup_erase_eq_ite, if_neg other]
  cached {h} := by
    simp only [Database.drop, lookup_erase_eq_ite]
    split_ifs with here
    · subst here
      exact iff_of_false (fun absurd => absurd rfl) (by tauto)
    · rw [flushes.cached]
      simp [here]
  oldest := flushes.oldest
  newest := flushes.newest

/-- The oldest node leaves list and cache. -/
theorem dropOldest (flushes : Flushes db unlinked (hash :: back)) (apart : ¬ unlinked hash)
    (found : db.nodes.lookup hash = some n) : Flushes (db.dropOldest n) unlinked back := by
  have oldest : db.oldest = hash := flushes.oldest
  obtain ⟨fresh, -⟩ := nodup_cons.mp flushes.linked.nodup
  refine ⟨?_, fun {h} => ?_, next_eq [] flushes found, fun {x} last => flushes.newest ?_⟩
  · refine Linked.remove [] flushes.linked (by simp) (by simp) (fun mem _ => ?_) fun mem _ => ?_
    all_goals
      have other : _ ≠ hash := fun same => fresh (same ▸ mem)
      simp only [Database.next, Database.prev, Database.dropOldest, oldest, lookup_erase_eq_ite, if_neg other]
  · simp only [Database.dropOldest, oldest, lookup_erase_eq_ite]
    split_ifs with here
    · subst here
      have some_ := flushes.ne_zero (.head _)
      exact iff_of_false (fun absurd => absurd rfl) (by tauto)
    · rw [flushes.cached, mem_cons]
      simp [here]
  · rw [getLast?_cons, last]
    rfl

/-- Counting parents shows in no other field. -/
theorem map_addParents {α : Type} {g : CachedNode → α} (field : ∀ c k, g { c with parents := k } = g c)
    (nodes : AList fun _ : Hash => CachedNode) (children : List Hash) (h : Hash) :
    ((Database.addParents nodes children).lookup h).map g = (nodes.lookup h).map g := by
  induction children generalizing nodes with
  | nil => rfl
  | cons child children ih =>
    refine (ih _).trans ?_
    dsimp only
    cases found : nodes.lookup child with
    | none => rfl
    | some c =>
      dsimp only
      rw [lookup_insert_eq_ite]
      split_ifs with here
      · rw [here, found, map_some, map_some, field]
      · rfl

/-- The nodes with a new one, whose children have a parent more. -/
def entered (db : Database) (hash : Hash) (entry : CachedNode) : AList fun _ : Hash => CachedNode :=
  (Database.addParents db.nodes entry.childs).insert hash entry

section Enter

variable {entry : CachedNode} {db₁ db₂ : Database}

theorem map_entered (db : Database) (hash : Hash) (entry : CachedNode) {α : Type} {g : CachedNode → α}
    (field : ∀ c k, g { c with parents := k } = g c) (h : Hash) :
    ((entered db hash entry).lookup h).map g = if h = hash then some (g entry) else (db.nodes.lookup h).map g := by
  rw [entered, lookup_insert_eq_ite]
  split_ifs
  · rfl
  · exact map_addParents field _ _ h

theorem cached_entered (flushes : Flushes db unlinked l) {h : Hash} :
    (entered db hash entry).lookup h ≠ none ↔ h = 0 ∨ h ∈ l ++ [hash] ∨ unlinked h := by
  have unit := map_entered db hash entry (g := fun _ => ()) (fun _ _ => rfl) h
  rw [← isSome_iff_ne_none, ← isSome_map (f := fun _ => ()), unit, mem_append, mem_singleton]
  split_ifs with here
  · simp [here]
  · rw [isSome_map, isSome_iff_ne_none, flushes.cached]
    simp [here]

theorem next_entered (same : db₁.nodes = entered db hash entry) (h : Hash) :
    db₁.next h = if h = hash then entry.flushNext else db.next h := by
  rw [Database.next, same, map_entered _ _ _ (fun _ _ => rfl)]
  split_ifs <;> rfl

theorem prev_entered (same : db₁.nodes = entered db hash entry) (h : Hash) :
    db₁.prev h = if h = hash then entry.flushPrev else db.prev h := by
  rw [Database.prev, same, map_entered _ _ _ (fun _ _ => rfl)]
  split_ifs <;> rfl

/-- The first node of a list. -/
theorem enter_first (flushes : Flushes db unlinked []) (entry : CachedNode) (some_ : hash ≠ 0)
    (end_ : entry.flushNext = 0) (same : db₁.nodes = entered db hash entry) (oldest : db₁.oldest = hash)
    (newest : db₁.newest = hash) :
    Flushes db₁ unlinked [hash] where
  linked := by
    refine flushes.linked.concat (by simp) some_ ?_ (by simp) (by simp) (by simp)
    exact (next_entered same hash).trans ((if_pos rfl).trans end_)
  cached := by
    rw [same]
    exact cached_entered flushes
  oldest := oldest
  newest last := newest.trans (by simpa using last)

/-- A node behind the newest one. -/
theorem enter_behind {y : Hash} (flushes : Flushes db unlinked (front ++ [y])) (entry : CachedNode) (some_ : hash ≠ 0)
    (fresh : hash ∉ front ++ [y]) (end_ : entry.flushNext = 0) (before : entry.flushPrev = y)
    (updated : db₁.update y (fun n => { n with flushNext := hash }) = some db₂)
    (same : db₁.nodes = entered db hash entry) (first : db₁.oldest = db.oldest) :
    Flushes { db₂ with newest := hash } unlinked (front ++ [y] ++ [hash]) where
  linked := by
    have others : ∀ {h}, h ∈ front ++ [y] → h ≠ hash := fun mem same => fresh (same ▸ mem)
    refine flushes.linked.concat fresh some_ ?_ (fun last => ⟨?_, ?_⟩) (fun mem inner => ?_) fun mem => ?_
    · refine (next_update_ne updated (others (by simp)).symm :).trans ?_
      rw [next_entered same, if_pos rfl, end_]
    · obtain rfl : y = _ := by simpa using last
      exact (next_update_self updated fun _ => rfl :)
    · obtain rfl : y = _ := by simpa using last
      refine (congrFun (prev_update updated fun _ => rfl) hash :).trans ?_
      rw [prev_entered same, if_pos rfl, before]
    · refine (next_update_ne updated fun here => inner ?_ :).trans ?_
      · rw [here]
        simp
      · rw [next_entered same, if_neg (others mem)]
    · refine (congrFun (prev_update updated fun _ => rfl) _ :).trans ?_
      rw [prev_entered same, if_neg (others mem)]
  cached := (cached_update updated _).trans (same ▸ cached_entered flushes)
  oldest := by
    refine (update_fields updated).2.1.trans (first.trans (flushes.oldest.trans ?_))
    cases front <;> simp
  newest last := by simpa using last

end Enter

/-- `insert` finds the newest node, and the new one comes behind it. -/
theorem insert (flushes : Flushes db unlinked l) (missing : db.nodes.lookup hash = none) (blob : Bytes)
    (content : Content) :
    ∃ db', db.insert hash blob content = some db' ∧ db'.disk = db.disk ∧
      (∀ h, (db'.nodes.lookup h).map CachedNode.view =
        if h = hash then some (content, ∅) else (db.nodes.lookup h).map CachedNode.view) ∧
      Flushes db' unlinked (l ++ [hash]) := by
  have out : ¬ (hash = 0 ∨ hash ∈ l ∨ unlinked hash) := fun inside => flushes.cached.mpr inside missing
  simp only [not_or] at out
  obtain ⟨some_, fresh, -⟩ := out
  obtain ⟨size, total, insert_eq⟩ : ∃ size total, db.insert hash blob content =
      let db₁ := { db with nodes := entered db hash ⟨content, size, 0, ∅, db.newest, 0⟩, nodesSize := total }
      if db.oldest = (0 : Hash) then some { db₁ with oldest := hash, newest := hash }
      else (db₁.update db.newest fun n => { n with flushNext := hash }).map fun db => { db with newest := hash } :=
    ⟨_, _, by rw [Database.insert, missing]; rfl⟩
  have view := map_entered db hash ⟨content, size, 0, ∅, db.newest, 0⟩ (g := CachedNode.view) fun _ _ => rfl
  rw [insert_eq]
  dsimp only
  obtain rfl | ⟨front, y, rfl⟩ := l.eq_nil_or_concat'
  · rw [if_pos (flushes.oldest_eq_zero.mpr rfl)]
    exact ⟨_, rfl, rfl, view, flushes.enter_first ⟨content, size, 0, ∅, db.newest, 0⟩ some_ rfl rfl rfl rfl⟩
  · have newest : db.newest = y := flushes.newest (by simp)
    rw [if_neg fun none => by simpa using flushes.oldest_eq_zero.mp none, newest]
    rw [newest] at view
    obtain ⟨db₁, updated⟩ := exists_update { db with
      nodes := entered db hash ⟨content, size, 0, ∅, y, 0⟩, nodesSize := total } y
      ((cached_entered flushes).mpr (by simp)) fun n => { n with flushNext := hash }
    refine ⟨_, map_eq_some_iff.mpr ⟨db₁, newest ▸ updated, rfl⟩, (update_fields updated).1,
      fun h => (map_update updated (fun _ => rfl) h).trans (view h), ?_⟩
    exact flushes.enter_behind ⟨content, size, 0, ∅, y, 0⟩ some_ fresh rfl rfl updated rfl rfl

end Flushes

end KKChain.Trie
