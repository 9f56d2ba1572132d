import KKChain.Trie.DatabaseReads
import KKChain.Trie.FlushList
import KKChain.Machine.Run

/-! # Durability of the trie database

`Commit` does not look behind a node that is not cached: it takes everything below for written. That is so if nodes come
in after the nodes they refer to, since `Cap` writes the list from its old end. In runs where references are made in
that order, everything below a committed root is on disk.
-/

namespace KKChain.Trie

open Relation Database List Option AList

/-- A database, and the references that were made so far, also from nodes that are no longer cached. -/
structure Tracked where
  db : Database
  refs : Hash → Hash → Prop

/-- The references that a call makes, from the parent to the child. -/
def Call.makes (db : Database) : Call → Hash → Hash → Prop
  | insert hash _ content, p, c => db.nodes.lookup hash = none ∧ p = hash ∧ c ∈ content.children
  | reference child parent, p, c => db.nodes.lookup child ≠ none ∧ p = parent ∧ c = child
  | cap _, _, _ => False
  | commit _, _, _ => False

/-- The call returns. -/
def Tracked.Step (s : Tracked) (call : Call) (s' : Tracked) : Prop :=
  ∃ w, call.run.run ⟨s.db, []⟩ = .ok ⟨⟩ w ∧ s' = ⟨w.db, fun p c => s.refs p c ∨ call.makes s.db p c⟩

/-- References lead to lower nodes. A node comes in before it is referred to, the node that refers to it is newer, and
what is on disk comes to refer to nodes on disk only. The zero hash is no node's, and a hash has one encoding. -/
def Tracked.Ordered (rank : Hash → ℕ) (s : Tracked) : Call → Prop
  | .insert hash _ content => s.db.nodes.lookup hash = none →
      content.rlp ≠ none ∧ (∀ c ∈ content.children, c ≠ 0 ∧ rank c < rank hash) ∧
      (s.db.disk hash = none → ∀ p, p ≠ 0 → ¬ s.refs p hash) ∧
      ∀ b, s.db.disk hash = some b →
        content.rlp = some b ∧ ∀ c ∈ content.children, s.db.node c = none ∨ s.db.disk c ≠ none
  | .reference child parent => s.db.nodes.lookup child ≠ none → parent ≠ 0 →
      child ≠ 0 ∧ rank child < rank parent ∧
        (s.db.disk child ≠ none ∨ s.db.disk parent = none ∧ [child, parent].Sublist s.db.flushList)
  | .cap _ => True
  | .commit root => root ≠ 0

/-- The children of a cached node. -/
def Database.childs (db : Database) (h : Hash) : List Hash := ((db.nodes.lookup h).map CachedNode.childs).getD []

variable {n : CachedNode} {fuel : ℕ} {root : Hash}

section Views

variable {db db' : Database} {h c : Hash}

theorem Database.childs_eq (db : Database) (h : Hash) :
    db.childs h = (((db.nodes.lookup h).map CachedNode.view).map fun v => v.2.keys ++ v.1.children).getD [] := by
  unfold childs
  cases db.nodes.lookup h <;> rfl

theorem Database.node_eq {α : Type} (g : CachedNode → α) (f : α → Option Bytes) (enc : ∀ n, f (g n) = n.content.rlp) :
    db.node h = (((db.nodes.lookup h).map g).map f).getD (db.disk h) := by
  unfold node
  cases db.nodes.lookup h with
  | none => rfl
  | some n => exact (enc n).symm

theorem Database.childs_of_lookup (found : db.nodes.lookup h = some n) : db.childs h = n.childs := by
  rw [childs, found]
  rfl

theorem Database.node_of_lookup (found : db.nodes.lookup h = some n) : db.node h = n.content.rlp := by
  rw [node, found]

theorem Database.node_of_missing (missing : db.nodes.lookup h = none) : db.node h = db.disk h := by
  rw [node, missing]

theorem Database.cached_of_childs (child : c ∈ db.childs h) : ∃ n, db.nodes.lookup h = some n ∧ c ∈ n.childs := by
  unfold childs at child
  cases found : db.nodes.lookup h with
  | none =>
    rw [found] at child
    cases child
  | some n => exact ⟨n, rfl, by rwa [found] at child⟩

end Views

/-- The invariant: a reference leads to a node that is on disk or has never come in, or it is from a cached node that is
not on disk to an older one. -/
structure Sound (rank : Hash → ℕ) (s : Tracked) (l : List Hash) : Prop where
  flushes : Flushes s.db (fun _ => False) l
  metaRoot : s.db.node 0 = none
  solid : ∀ {h}, h ∈ l → s.db.node h ≠ none
  falls : ∀ {p c}, p ≠ 0 → c ∈ s.db.childs p → c ≠ 0 ∧ rank c < rank p
  same : ∀ {h b}, h ∈ l → s.db.disk h = some b → s.db.node h = some b
  order : ∀ {p c}, p ≠ 0 → s.refs p c → s.db.node c = none ∨ s.db.disk c ≠ none ∨
    s.db.disk p = none ∧ c ∈ s.db.childs p ∧ [c, p].Sublist l

section Sublists

variable {l l' front back : List Hash} {c p : Hash}

theorem filter_mem_of_sublist (sub : l'.Sublist l) (nodup : l.Nodup) : (l.filter fun x => decide (x ∈ l')) = l' := by
  induction sub with
  | slnil => rfl
  | @cons l₁ l₂ a sub ih =>
    obtain ⟨fresh, nodup⟩ := nodup_cons.mp nodup
    rw [filter_cons_of_neg (by simpa using fun mem => fresh (sub.subset mem)), ih nodup]
  | @cons_cons l₁ l₂ a sub ih =>
    obtain ⟨fresh, nodup⟩ := nodup_cons.mp nodup
    rw [filter_cons_of_pos (by simp)]
    congr 1
    refine Eq.trans (filter_congr fun x mem => ?_) (ih nodup)
    have other : x ≠ a := fun same => fresh (same ▸ mem)
    simp [other]

/-- Two elements of a part of the list are in the order of the list. -/
theorem pair_sublist (sub : l'.Sublist l) (nodup : l.Nodup) (pair : [c, p].Sublist l) (memC : c ∈ l') (memP : p ∈ l') :
    [c, p].Sublist l' := by
  have filtered := pair.filter fun x => decide (x ∈ l')
  rwa [filter_mem_of_sublist sub nodup, filter_cons_of_pos (by simpa using memC),
    filter_cons_of_pos (by simpa using memP), filter_nil] at filtered

theorem mem_of_pair (pair : [c, p].Sublist l) : c ∈ l ∧ p ∈ l :=
  ⟨pair.subset (by simp), pair.subset (by simp)⟩

end Sublists

section Insert

variable {rank : Hash → ℕ} {s : Tracked} {l : List Hash}

/-- A new node comes in behind everything it refers to. -/
theorem Sound.insert {hash : Hash} {blob : Bytes} {content : Content} {db' : Database} (sound : Sound rank s l)
    (ordered : s.Ordered rank (.insert hash blob content)) (missing : s.db.nodes.lookup hash = none)
    (entered : s.db.insert hash blob content = some db') :
    Sound rank ⟨db', fun p c => s.refs p c ∨ (Call.insert hash blob content).makes s.db p c⟩ (l ++ [hash]) := by
  obtain ⟨encoded, falls, unknown, again⟩ := ordered missing
  obtain ⟨_, entered', disk, view, flushes⟩ := sound.flushes.insert missing blob content
  cases entered.symm.trans entered'
  have fresh : hash ∉ l := fun mem => sound.flushes.cached_of_mem mem missing
  have childs : ∀ h, db'.childs h = if h = hash then content.children else s.db.childs h := by
    intro h
    rw [childs_eq, view, childs_eq]
    split_ifs <;> rfl
  have node : ∀ h, db'.node h = if h = hash then content.rlp else s.db.node h := by
    intro h
    rw [node_eq CachedNode.view (·.1.rlp) fun _ => rfl, view, disk, node_eq CachedNode.view (·.1.rlp) fun _ => rfl]
    split_ifs <;> rfl
  have nonzero : hash ≠ 0 := fun none => sound.flushes.cached.mpr (.inl none) missing
  refine ⟨flushes, ?_, fun {h} mem => ?_, fun {p c} some_ child => ?_, fun {h b} mem held => ?_,
    fun {p c} some_ ref => ?_⟩
  · rw [node, if_neg nonzero.symm, sound.metaRoot]
  · rw [node]
    split_ifs with here
    · exact encoded
    · exact sound.solid (by simpa [here] using mem)
  · rw [childs] at child
    split_ifs at child with here
    · exact here ▸ falls c child
    · exact sound.falls some_ child
  · rw [disk] at held
    rw [node]
    split_ifs with here
    · exact (again b (here ▸ held)).1
    · exact sound.same (by simpa [here] using mem) held
  · rw [disk]
    rcases ref with ref | ⟨-, rfl, child⟩
    · rcases sound.order some_ ref with unread | stored | ⟨volatile, child, pair⟩
      · refine .inl ?_
        rw [node]
        split_ifs with here
        · subst here
          exact absurd ref (unknown (node_of_missing missing ▸ unread) _ some_)
        · exact unread
      · exact .inr (.inl stored)
      · have other : p ≠ hash := fun same => fresh (same ▸ (mem_of_pair pair).2)
        exact .inr (.inr ⟨volatile, by rwa [childs, if_neg other], pair.trans (sublist_append_left l [hash])⟩)
    · obtain ⟨nonzero, lower⟩ := falls c child
      have other : c ≠ p := fun same => by simp [same] at lower
      by_cases unread : s.db.node c = none
      · exact .inl (by rwa [node, if_neg other])
      by_cases stored : s.db.disk c = none
      swap
      · exact .inr (.inl stored)
      have volatile : s.db.disk p = none := by
        by_contra held
        obtain ⟨b, held⟩ := ne_none_iff_exists'.mp held
        exact ((again b held).2 c child).elim unread fun written => written stored
      have cached : s.db.nodes.lookup c ≠ none := fun gone => unread ((node_of_missing gone).trans stored)
      have memC : c ∈ l := by simpa [nonzero] using (sound.flushes.cached.mp cached).resolve_left nonzero
      refine .inr (.inr ⟨volatile, by rwa [childs, if_pos rfl], ?_⟩)
      exact (singleton_sublist.mpr memC).append (Sublist.refl [p])

end Insert

section Reference

variable {rank : Hash → ℕ} {s : Tracked} {l : List Hash} {db db' : Database} {child parent : Hash}

/-- `reference` adds one child to the parent, and nothing else shows. -/
structure Adopts (db : Database) (parent child : Hash) (db' : Database) : Prop where
  disk : db'.disk = db.disk
  node : db'.node = db.node
  childs : ∀ {p c}, c ∈ db'.childs p ↔ c ∈ db.childs p ∨ p = parent ∧ c = child
  flushes : ∀ {l}, Flushes db (fun _ => False) l → Flushes db' (fun _ => False) l

theorem adopts_of_reference (known : db.nodes.lookup child ≠ none) (linked : db.reference child parent = some db') :
    Adopts db parent child db' := by
  obtain ⟨c₀, found⟩ := ne_none_iff_exists'.mp known
  unfold Database.reference at linked
  rw [found] at linked
  dsimp only at linked
  cases foundP : db.nodes.lookup parent with
  | none =>
    rw [foundP] at linked
    cases linked
  | some p =>
    rw [foundP] at linked
    dsimp only at linked
    split_ifs at linked with twice
    · cases linked
      refine ⟨rfl, rfl, fun {q c} => ⟨.inl, ?_⟩, id⟩
      rintro (held | ⟨rfl, rfl⟩)
      · exact held
      · rw [childs_of_lookup foundP, CachedNode.childs, mem_append]
        refine .inl (mem_keys_iff_exists.mpr ?_)
        exact ne_none_iff_exists'.mp twice.1
    · obtain ⟨db₁, first, second⟩ := bind_eq_some_iff.mp linked
      obtain ⟨disk, oldest, newest⟩ := update_fields first
      obtain ⟨disk', oldest', newest'⟩ := update_fields second
      have content : ∀ h, (db'.nodes.lookup h).map CachedNode.content =
          (db.nodes.lookup h).map CachedNode.content := fun h =>
        (map_update second (fun _ => rfl) h).trans (map_update first (fun _ => rfl) h)
      refine ⟨disk'.trans disk, funext fun h => ?_, fun {q c} => ?_, fun flushes => flushes.congr ?_ ?_ ?_ ?_ ?_⟩
      · rw [node_eq CachedNode.content Content.rlp fun _ => rfl, content, disk', disk, ← node_eq _ _ fun _ => rfl]
      · by_cases here : q = parent
        · subst here
          have foundQ : ∃ p₁, db₁.nodes.lookup q = some p₁ ∧ p₁.view = p.view := by
            have view := map_update (g := CachedNode.view) first (fun _ => rfl) q
            rw [foundP, map_some, map_eq_some_iff] at view
            exact view
          obtain ⟨p₁, found₁, view⟩ := foundQ
          obtain ⟨contentEq, childrenEq⟩ := Prod.mk.inj view
          have found' := lookup_update second q
          rw [if_pos rfl, found₁, map_some] at found'
          rw [childs_of_lookup found', childs_of_lookup foundP, CachedNode.childs, CachedNode.childs,
            List.mem_append, List.mem_append, contentEq, childrenEq, ← AList.mem_keys, AList.mem_insert,
              ← AList.mem_keys]
          tauto
        · have view := (lookup_update second q)
          rw [if_neg here] at view
          have same : db'.childs q = db.childs q := by
            rw [childs_eq, childs_eq, view, map_update first fun _ => rfl]
          rw [same]
          simp [here]
      · exact (next_update second fun _ => rfl).trans (next_update first fun _ => rfl)
      · exact (prev_update second fun _ => rfl).trans (prev_update first fun _ => rfl)
      · exact fun h => (cached_update second h).trans (cached_update first h)
      · exact oldest'.trans oldest
      · exact newest'.trans newest

theorem Sound.reference (sound : Sound rank s l) (ordered : s.Ordered rank (.reference child parent))
    (known : s.db.nodes.lookup child ≠ none) (linked : s.db.reference child parent = some db') :
    Sound rank ⟨db', fun p c => s.refs p c ∨ (Call.reference child parent).makes s.db p c⟩ l := by
  have adopts := adopts_of_reference known linked
  refine ⟨adopts.flushes sound.flushes, by rw [adopts.node, sound.metaRoot], fun mem => ?_, fun some_ held => ?_,
    fun mem held => ?_, fun {p c} some_ ref => ?_⟩
  · rw [adopts.node]
    exact sound.solid mem
  · rcases adopts.childs.mp held with held | ⟨rfl, rfl⟩
    · exact sound.falls some_ held
    · obtain ⟨nonzero, lower, -⟩ := ordered known some_
      exact ⟨nonzero, lower⟩
  · rw [adopts.node]
    exact sound.same mem (adopts.disk ▸ held)
  · rw [adopts.disk, adopts.node]
    rcases ref with ref | ⟨-, rfl, rfl⟩
    · refine (sound.order some_ ref).imp_right fun rest => rest.imp_right ?_
      rintro ⟨volatile, held, pair⟩
      exact ⟨volatile, adopts.childs.mpr (.inl held), pair⟩
    · obtain ⟨-, -, stored | ⟨volatile, pair⟩⟩ := ordered known some_
      · exact .inr (.inl stored)
      · exact .inr (.inr ⟨volatile, adopts.childs.mpr (.inr ⟨rfl, rfl⟩), sound.flushes.flushList_eq ▸ pair⟩)

end Reference

section Returns

variable {rank : Hash → ℕ} {db₀ : Database} {l path : List Hash} {b : Batch} {hash : Hash}

/-- Only the disk has changed so far. -/
structure Calm (db₀ : Database) (w : Watched) : Prop where
  nodes : w.db.nodes = db₀.nodes
  oldest : w.db.oldest = db₀.oldest
  newest : w.db.newest = db₀.newest

theorem writeIf_returns (full : Bool) (b : Batch) :
    Proc.Spec (Calm db₀) (writeIf full b) (fun _ => Calm db₀) fun _ _ => False := by
  refine .ite (fun _ => ?_) fun _ => .pure fun _ => id
  exact .bind (Q := fun _ => Calm db₀) (.update fun _ calm => ⟨calm.nodes, calm.oldest, calm.newest⟩) fun _ =>
    .pure fun _ => id

theorem putPreimages_returns (db₀ : Database) (preimages : List (Sigma fun _ : Hash => Bytes)) (b : Batch) :
    Proc.Spec (Calm db₀) (putPreimages preimages b) (fun _ => Calm db₀) fun _ _ => False := by
  induction preimages generalizing b with
  | nil => exact .pure fun _ => id
  | cons p preimages ih => exact .bind (writeIf_returns _ _) ih

theorem putNode_returns (solid : n.content.rlp ≠ none) (b : Batch) :
    Proc.Spec (Calm db₀) (putNode hash n b) (fun _ => Calm db₀) fun _ _ => False := by
  refine .bind (Q := fun _ => Calm db₀) (.orFault (fun _ _ _ => id) fun missing => absurd missing solid) fun enc => ?_
  exact writeIf_returns _ _

/-- The cached graph has no circles, and its nodes have encodings. -/
structure Grounded (rank : Hash → ℕ) (db₀ : Database) : Prop where
  solid : ∀ {h n}, h ≠ 0 → db₀.nodes.lookup h = some n → n.content.rlp ≠ none
  falls : ∀ {p n c}, p ≠ 0 → db₀.nodes.lookup p = some n → c ∈ n.childs → c ≠ 0 ∧ rank c < rank p

/-- The nodes on the way from the root, which are all above the one that is visited. -/
structure Above (rank : Hash → ℕ) (db₀ : Database) (hash : Hash) (path : List Hash) : Prop where
  nodup : path.Nodup
  cached : ∀ {a}, a ∈ path → db₀.nodes.lookup a ≠ none
  higher : ∀ {a}, a ∈ path → rank hash < rank a

theorem Above.length_le (above : Above rank db₀ hash path) : path.length ≤ db₀.nodes.keys.length := by
  refine (List.subperm_of_subset above.nodup fun a mem => ?_).length_le
  rw [← AList.mem_keys, ← AList.lookup_isSome, Option.isSome_iff_ne_none]
  exact above.cached mem

theorem Above.child {c : Hash} (above : Above rank db₀ hash path)
    (found : db₀.nodes.lookup hash = some n) (lower : rank c < rank hash) : Above rank db₀ c (hash :: path) where
  nodup := nodup_cons.mpr ⟨fun mem => lt_irrefl _ (above.higher mem), above.nodup⟩
  cached {a} mem := by
    rcases mem_cons.mp mem with rfl | mem
    · simp [found]
    · exact above.cached mem
  higher {a} mem := by
    rcases mem_cons.mp mem with rfl | mem
    · exact lower
    · exact lower.trans (above.higher mem)

theorem commit_returns (grounded : Grounded rank db₀) (above : Above rank db₀ hash path)
    (enough : fuel + path.length = db₀.nodes.keys.length + 1) (some_ : hash ≠ 0) :
    Proc.Spec (Calm db₀) (Database.commit fuel hash b) (fun _ => Calm db₀) fun _ _ => False := by
  induction fuel generalizing hash path b with
  | zero =>
    have := above.length_le
    omega
  | succ fuel ih =>
    refine .get_bind fun w => ?_
    rintro s ⟨rfl, calm⟩
    cases found : s.db.nodes.lookup hash with
    | none => exact calm
    | some n =>
      rw [calm.nodes] at found
      have children : ∀ cs : List Hash, (∀ c ∈ cs, c ∈ n.childs) → ∀ b, Proc.Spec (Calm db₀)
          (cs.foldlM (fun b child => Database.commit fuel child b) b) (fun _ => Calm db₀) fun _ _ => False := by
        intro cs
        induction cs with
        | nil => exact fun _ _ => .pure fun _ => id
        | cons c cs ihs =>
          intro inside b
          obtain ⟨child, inside⟩ := forall_mem_cons.mp inside
          obtain ⟨nonzero, lower⟩ := grounded.falls some_ found child
          refine .bind (ih (above.child found lower) ?_ nonzero) fun b => ihs inside b
          simp only [length_cons]
          omega
      exact Proc.Spec.bind (children n.childs (fun _ => id) b)
        (fun b => putNode_returns (grounded.solid some_ found) b) s calm

/-- While nodes are dropped: the list has what is left but for the nodes on the way from the root. -/
structure Tidy (db₀ : Database) (l path : List Hash) (w : Watched) : Prop where
  kept : ∀ {h n}, w.db.nodes.lookup h = some n →
    ∃ n₀, db₀.nodes.lookup h = some n₀ ∧ n.content = n₀.content ∧ n.children = n₀.children
  list : ∃ l', l'.Sublist l ∧ (∀ a ∈ path, a ∉ l') ∧ Flushes w.db (· ∈ path) l'

theorem uncache_returns (grounded : Grounded rank db₀) (above : Above rank db₀ hash path)
    (enough : fuel + path.length = db₀.nodes.keys.length + 1) (some_ : hash ≠ 0) :
    Proc.Spec (Tidy db₀ l path) (Database.uncache fuel hash) (fun _ => Tidy db₀ l path) fun _ _ => False := by
  induction fuel generalizing hash path with
  | zero =>
    have := above.length_le
    omega
  | succ fuel ih =>
    refine .read fun s tidy => ?_
    cases found : s.db.nodes.lookup hash with
    | none => exact .pure fun _ same => same ▸ tidy
    | some n =>
      obtain ⟨n₀, found₀, content, children⟩ := tidy.kept found
      obtain ⟨l', sub, apart, flushes⟩ := tidy.list
      have outside : hash ∉ path := fun mem => lt_irrefl _ (above.higher mem)
      have mem : hash ∈ l' := by
        have inside := flushes.cached.mp (by simp [found] : s.db.nodes.lookup hash ≠ none)
        exact (inside.resolve_left some_).resolve_right outside
      obtain ⟨front, back, rfl⟩ := append_of_mem mem
      obtain ⟨db', unlinked, same, flushes'⟩ := flushes.unlink found
      refine .orFault_bind unlinked ?_
      have below : ∀ c ∈ n.childs, c ≠ 0 ∧ rank c < rank hash := fun c child => by
        rw [CachedNode.childs, content, children] at child
        exact grounded.falls some_ found₀ child
      refine .bind (Q := fun _ => Tidy db₀ l (hash :: path)) (.update ?_) fun _ =>
        .bind (.forM fun c child => ?_) fun _ => .update ?_
      · rintro _ rfl
        have nodup := flushes.linked.nodup
        refine ⟨fun {h m} present => ?_, front ++ back,
          (by simp : (front ++ back).Sublist (front ++ hash :: back)).trans sub, ?_, ?_⟩
        · obtain ⟨m₁, found₁, content₁, children₁⟩ := same.lookup present
          obtain ⟨m₀, found₀, content₀, children₀⟩ := tidy.kept found₁
          exact ⟨m₀, found₀, content₁.trans content₀, children₁.trans children₀⟩
        · refine forall_mem_cons.mpr ⟨fun again => ?_, fun a mem again => apart a mem ?_⟩
          · rw [nodup_middle] at nodup
            exact (nodup_cons.mp nodup).1 again
          · rw [mem_append, mem_cons]
            exact (mem_append.mp again).imp_right .inr
        · refine ⟨flushes'.linked, fun {h} => flushes'.cached.trans ?_, flushes'.oldest, flushes'.newest⟩
          rw [mem_cons, or_comm (a := h ∈ path)]
      · obtain ⟨nonzero, lower⟩ := below c child
        refine ih (above.child found₀ lower) ?_ nonzero
        simp only [length_cons]
        omega
      · rintro w tidy
        obtain ⟨l', sub, apart, flushes⟩ := tidy.list
        obtain ⟨free, apart⟩ := forall_mem_cons.mp apart
        refine ⟨fun {h m} present => ?_, l', sub, apart, Flushes.drop ?_ outside free some_ n⟩
        · simp only [Database.drop, lookup_erase_eq_ite] at present
          split_ifs at present
          exact tidy.kept present
        · refine ⟨flushes.linked, fun {h} => flushes.cached.trans ?_, flushes.oldest, flushes.newest⟩
          rw [mem_cons, or_comm (a := h = hash)]

theorem Calm.flushes {w : Watched} {unlinked : Hash → Prop} (calm : Calm db₀ w) (flushes : Flushes db₀ unlinked l) :
    Flushes w.db unlinked l := by
  refine flushes.congr ?_ ?_ (fun h => by rw [calm.nodes]) calm.oldest calm.newest
  · unfold Database.next
    rw [calm.nodes]
  · unfold Database.prev
    rw [calm.nodes]

/-- `Commit` returns, with a list again. -/
theorem commitRoot_returns (grounded : Grounded rank db₀) (flushes : Flushes db₀ (fun _ => False) l)
    (some_ : root ≠ 0) :
    Proc.Spec (fun w => w = ⟨db₀, []⟩) (Database.commitRoot root)
      (fun _ w => ∃ l', l'.Sublist l ∧ Flushes w.db (fun _ => False) l') fun _ _ => False := by
  have above : Above rank db₀ root [] := ⟨.nil, by simp, by simp⟩
  refine .get_bind fun w => ?_
  rintro s ⟨rfl, rfl⟩
  refine Proc.Spec.bind (putPreimages_returns db₀ _ _) (fun b => ?_) _ ⟨rfl, rfl, rfl⟩
  refine .bind (commit_returns grounded above rfl some_) fun b => ?_
  refine .bind (Q := fun _ => Calm db₀) (.update fun _ calm => ⟨calm.nodes, calm.oldest, calm.newest⟩) fun _ => ?_
  refine .bind (Q := fun _ => Tidy db₀ l []) (.update fun w calm => ?_) fun _ => ?_
  · have calm : Calm db₀ ⟨w.db.clearPreimages, w.db.clearPreimages :: w.seen⟩ := ⟨calm.nodes, calm.oldest, calm.newest⟩
    refine ⟨fun {h n} present => ⟨n, calm.nodes ▸ present, rfl, rfl⟩, l, .refl l, by simp, ?_⟩
    have list := calm.flushes flushes
    exact ⟨list.linked, list.cached.trans (by simp), list.oldest, list.newest⟩
  · refine (uncache_returns grounded above rfl some_).post (fun _ w tidy => ?_)
    obtain ⟨l', sub, -, list⟩ := tidy.list
    exact ⟨l', sub, list.linked, list.cached.trans (by simp), list.oldest, list.newest⟩

end Returns

section Drop

variable {rank : Hash → ℕ} {s : Tracked} {l l' : List Hash} {T : Hash → Prop} {db₀ db : Database} {h : Hash}

/-- Dropping nodes changes no read. -/
theorem Drops.node_eq (drops : Drops db₀ T db) : db.node = db₀.node := by
  funext h
  cases present : db.nodes.lookup h with
  | some n =>
    obtain ⟨n₀, found, content, -⟩ := drops.kept present
    rw [node_of_lookup present, node_of_lookup found, content]
  | none =>
    rw [node_of_missing present]
    cases found : db₀.nodes.lookup h with
    | none => rw [node_of_missing found, disk_of_missing (drops.disk h) found]
    | some n₀ =>
      have gone := (drops.dropped present).resolve_left (by simp [found])
      rw [drops.saved found gone, node_of_lookup found]

theorem Drops.childs_eq (drops : Drops db₀ T db) (present : db.nodes.lookup h ≠ none) : db.childs h = db₀.childs h := by
  obtain ⟨n, present⟩ := ne_none_iff_exists'.mp present
  obtain ⟨n₀, found, content, children⟩ := drops.kept present
  rw [childs_of_lookup present, childs_of_lookup found, CachedNode.childs, content, children, CachedNode.childs]

theorem Sound.cached_mem (sound : Sound rank s l) (some_ : h ≠ 0) (cached : s.db.nodes.lookup h ≠ none) : h ∈ l := by
  simpa using (sound.flushes.cached.mp cached).resolve_left some_

theorem Sound.grounded (sound : Sound rank s l) : Grounded rank s.db where
  solid some_ found := by
    rw [← node_of_lookup found]
    exact sound.solid (sound.cached_mem some_ (by simp [found]))
  falls some_ found child := sound.falls some_ (by rwa [childs_of_lookup found])

/-- Dropping nodes together with the older ones they refer to keeps the order. -/
theorem Sound.drops (sound : Sound rank s l) (drops : Drops s.db T db) (flushes : Flushes db (fun _ => False) l')
    (sub : l'.Sublist l) (closed : ∀ {p c}, T p → c ∈ s.db.childs p → [c, p].Sublist l → T c) :
    Sound rank ⟨db, s.refs⟩ l' := by
  have node := drops.node_eq
  refine ⟨flushes, by rw [node, sound.metaRoot], fun mem => ?_, fun {p c} some_ child => ?_, fun {h b} mem held => ?_,
    fun {p c} some_ ref => ?_⟩
  · rw [node]
    exact sound.solid (sub.subset mem)
  · obtain ⟨n, found, -⟩ := cached_of_childs child
    have present : db.nodes.lookup p ≠ none := fun gone => by simp [gone] at found
    exact sound.falls some_ (drops.childs_eq present ▸ child)
  · rw [node]
    rcases drops.disk h with before | ⟨-, n, found, -, now⟩
    · exact sound.same (sub.subset mem) (before ▸ held)
    · rw [node_of_lookup found, ← now, held]
  · rw [node]
    rcases sound.order some_ ref with unread | stored | ⟨volatile, child, pair⟩
    · exact .inl unread
    · refine .inr (.inl ?_)
      rcases drops.disk c with before | ⟨-, n, found, solid, now⟩
      · rwa [before]
      · rwa [now]
    · obtain ⟨memC, memP⟩ := mem_of_pair pair
      by_cases moved : T c
      · refine .inr (.inl ?_)
        obtain ⟨n, found⟩ := ne_none_iff_exists'.mp (sound.flushes.cached_of_mem memC)
        rw [drops.saved found moved, ← node_of_lookup found]
        exact sound.solid memC
      · have left : ∀ {h}, h ∈ l → ¬ T h → h ∈ l' := fun mem out => by
          have cached : db.nodes.lookup _ ≠ none := fun gone =>
            (drops.dropped gone).elim (sound.flushes.cached_of_mem mem) out
          simpa using (flushes.cached.mp cached).resolve_left (sound.flushes.ne_zero mem)
        have movedP : ¬ T p := fun moved' => moved (closed moved' child pair)
        have volatile' : db.disk p = none := by
          rcases drops.disk p with before | ⟨absurd_, -⟩
          · exact before.trans volatile
          · exact absurd absurd_ movedP
        have stillP := left memP movedP
        refine .inr (.inr ⟨volatile', ?_, pair_sublist sub sound.flushes.linked.nodup pair (left memC moved) stillP⟩)
        rwa [drops.childs_eq (flushes.cached_of_mem stillP)]

/-- `Commit` keeps the order, and leaves all that the root refers to on disk. -/
theorem Sound.commit (sound : Sound rank s l) (some_ : root ≠ 0) :
    ∃ w, (Call.commit root).run.run ⟨s.db, []⟩ = .ok ⟨⟩ w ∧ Drops s.db (s.db.Refers root) w.db ∧
      ∃ l', Sound rank ⟨w.db, s.refs⟩ l' := by
  have spec := (commitRoot_spec s.db root).and (commitRoot_returns sound.grounded sound.flushes some_)
  obtain ⟨⟨⟩, w, ran, dropping, l', sub, flushes⟩ := spec.exists_ok ⟨rfl, rfl⟩ fun _ _ fault => fault.2
  refine ⟨w, ran, dropping.drops, l', sound.drops dropping.drops flushes sub fun {p c} refers child _ => ?_⟩
  obtain ⟨n, found, held⟩ := cached_of_childs child
  exact refers.tail ⟨n, found, held⟩

end Drop

section Cap

variable {rank : Hash → ℕ} {db₀ : Database} {l front back mid : List Hash}

theorem cached_bind {α : Type} {P : Watched → Prop} {x : Hash} {f : CachedNode → Proc Empty Watched α}
    {R : α → Watched → Prop} {E : Fault Empty → Watched → Prop} (found : ∀ w, P w → w.db.nodes.lookup x = some n)
    (rest : Proc.Spec P (f n) R E) :
    Proc.Spec P (cached x >>= f) R E :=
  .read fun s start => .orFault_bind (found s start) (rest.pre fun _ same => same ▸ start)

theorem flushOldest_returns (front : List Hash) (flushes : Flushes db₀ (fun _ => False) (front ++ back))
    (grounded : Grounded rank db₀) (limit : ℤ) (enough : back.length < fuel) (size : ℤ) (b : Batch) :
    Proc.Spec (Calm db₀) (Database.flushOldest limit fuel size (back.headD 0) b)
      (fun out w => Calm db₀ w ∧ ∃ mid rest, back = mid ++ rest ∧ out.1 = rest.headD 0) fun _ _ => False := by
  induction fuel generalizing front back size b with
  | zero => omega
  | succ fuel ih =>
    refine .ite (fun going => ?_) fun _ => .pure fun _ calm => ⟨calm, [], back, rfl, rfl⟩
    obtain - | ⟨x, back⟩ := back
    · exact absurd rfl going.2
    obtain ⟨n, found⟩ := ne_none_iff_exists'.mp (flushes.cached_of_mem (h := x) (by simp))
    refine cached_bind (fun w calm => by rwa [calm.nodes]) ?_
    refine .bind (putNode_returns (grounded.solid going.2 found) b) fun b => ?_
    have shape : (front ++ [x]) ++ back = front ++ x :: back := by simp
    rw [flushes.next_eq _ found]
    refine (ih _ (shape ▸ flushes) (by simpa using enough) _ b).post ?_
    rintro out w ⟨calm, mid, rest, rfl, stop⟩
    exact ⟨calm, x :: mid, rest, rfl, stop⟩

theorem dropUntil_returns (mid : List Hash) (enough : mid.length < fuel) :
    Proc.Spec (fun w => Flushes w.db (fun _ => False) (mid ++ back)) (Database.dropUntil fuel (back.headD 0))
      (fun _ w => Flushes w.db (fun _ => False) back) fun _ _ => False := by
  induction fuel generalizing mid with
  | zero => omega
  | succ fuel ih =>
    refine .read fun s flushes => ?_
    obtain - | ⟨x, mid⟩ := mid
    · rw [if_pos (by simpa using flushes.oldest)]
      exact .pure fun _ same => same ▸ flushes
    · have oldest : s.db.oldest = x := flushes.oldest
      have going : ¬ s.db.oldest = back.headD 0 := by
        rw [oldest]
        cases back with
        | nil => exact flushes.ne_zero (by simp)
        | cons y back =>
          rintro rfl
          have nodup := flushes.linked.nodup
          simp at nodup
      rw [if_neg going, oldest]
      obtain ⟨n, found⟩ := ne_none_iff_exists'.mp (flushes.cached_of_mem (h := x) (by simp))
      refine cached_bind (fun w same => same ▸ found) ?_
      refine .bind (Q := fun _ w => Flushes w.db (fun _ => False) (mid ++ back)) (.update ?_) fun _ =>
        ih mid (by simpa using enough)
      rintro _ rfl
      exact flushes.dropOldest id found

theorem cutOldest_returns : Proc.Spec (fun w => Flushes w.db (fun _ => False) back) Database.cutOldest
    (fun _ w => Flushes w.db (fun _ => False) back) fun _ _ => False := by
  refine .read fun s flushes => .ite (fun some_ => ?_) fun _ => .pure fun _ same => same ▸ flushes
  obtain - | ⟨x, back⟩ := back
  · exact absurd flushes.oldest some_
  have oldest : s.db.oldest = x := flushes.oldest
  obtain ⟨db', updated⟩ := exists_update s.db x (flushes.cached_of_mem (by simp)) fun n => { n with flushPrev := 0 }
  rw [oldest]
  refine .orFault_bind updated (.update fun _ _ => ?_)
  obtain ⟨-, oldest', newest⟩ := update_fields updated
  refine ⟨flushes.linked.congr (fun _ => ?_) fun mem inner => ?_, (cached_update updated _).trans flushes.cached,
    oldest'.trans flushes.oldest, fun last => newest.trans (flushes.newest last)⟩
  · exact congrFun (next_update updated fun _ => rfl) _
  · exact prev_update_ne updated fun same => inner (by simp [same])

theorem cap_returns (grounded : Grounded rank db₀) (flushes : Flushes db₀ (fun _ => False) l) (limit : ℤ) :
    Proc.Spec (fun w => w = ⟨db₀, []⟩) (Database.cap limit)
      (fun _ w => ∃ mid back, l = mid ++ back ∧ Flushes w.db (fun _ => False) back) fun _ _ => False := by
  have short := flushes.length_lt
  unfold Database.cap
  refine .get_bind fun w => ?_
  rintro s ⟨rfl, rfl⟩
  refine Proc.Spec.bind (putPreimages_returns db₀ _ _) (fun b => ?_) _ ⟨rfl, rfl, rfl⟩
  dsimp only
  rw [flushes.oldest]
  refine .bind (flushOldest_returns [] flushes grounded limit (by omega) _ b) fun out => ?_
  obtain ⟨stop, b⟩ := out
  rintro s ⟨calm, mid, rest, rfl, rfl⟩
  refine Proc.Spec.bind (Q := fun _ => Calm db₀) (P := Calm db₀) (.update ?_) (fun _ => ?_) s calm
  · exact fun _ calm => ⟨calm.nodes, calm.oldest, calm.newest⟩
  refine .bind (Q := fun _ => Calm db₀) (.update fun _ calm => ?_) fun _ => ?_
  · split_ifs
    all_goals exact ⟨calm.nodes, calm.oldest, calm.newest⟩
  refine .bind ((dropUntil_returns mid ?_).pre (fun _ calm => calm.flushes flushes))
    fun _ => cutOldest_returns.post (fun _ _ list => ⟨mid, rest, rfl, list⟩)
  rw [length_append] at short
  omega

/-- The nodes that the list leads over are a front part of it. -/
theorem leads_split (front : List Hash) (flushes : Flushes db₀ (fun _ => False) (front ++ back)) {passed : List Hash}
    {stop : Hash} (leads : Leads db₀ (back.headD 0) passed stop) :
    ∃ rest, back = passed ++ rest ∧ stop = rest.headD 0 := by
  induction passed generalizing front back with
  | nil =>
    cases leads
    exact ⟨back, rfl, rfl⟩
  | cons x passed ih =>
    obtain - | ⟨y, back⟩ := back
    · obtain - | ⟨some_, -⟩ := leads
      exact absurd rfl some_
    · obtain - | ⟨some_, found, leads⟩ := leads
      have shape : (front ++ [y]) ++ back = front ++ y :: back := by simp
      rw [flushes.next_eq _ found] at leads
      obtain ⟨rest, rfl, stop⟩ := ih _ (shape ▸ flushes) leads
      exact ⟨rest, rfl, stop⟩

/-- A list is cut in one place only by what comes first behind it. -/
theorem split_unique {mid' back' : List Hash} (nodup : (mid ++ back).Nodup) (some_ : (0 : Hash) ∉ mid ++ back)
    (same : mid ++ back = mid' ++ back') (heads : back.headD 0 = back'.headD 0) : mid = mid' := by
  obtain - | ⟨x, back⟩ := back
  · obtain - | ⟨y, back'⟩ := back'
    · simpa using same
    · obtain rfl : (0 : Hash) = y := heads
      exact absurd (by simp [same]) some_
  · obtain - | ⟨y, back'⟩ := back'
    · obtain rfl : x = 0 := heads
      exact absurd (by simp) some_
    · obtain rfl : x = y := heads
      rw [nodup_middle, nodup_cons, mem_append, not_or] at nodup
      exact ((append_cons_inj_of_notMem nodup.1.1 nodup.1.2).mp same).1

theorem Sound.cap {s : Tracked} (sound : Sound rank s l) (limit : ℤ) :
    ∃ w, (Call.cap limit).run.run ⟨s.db, []⟩ = .ok ⟨⟩ w ∧ ∃ l', Sound rank ⟨w.db, s.refs⟩ l' := by
  have spec := (cap_spec s.db limit).and (cap_returns sound.grounded sound.flushes limit)
  obtain ⟨⟨⟩, w, ran, ⟨passed, leads, dropping⟩, mid, back, rfl, flushes⟩ :=
    spec.exists_ok ⟨rfl, rfl⟩ fun _ _ fault => fault.2
  refine ⟨w, ran, back, sound.drops dropping.drops flushes (sublist_append_right mid back) ?_⟩
  have nodup := sound.flushes.linked.nodup
  rw [sound.flushes.oldest] at leads
  obtain ⟨rest, same, stop⟩ := leads_split [] sound.flushes leads
  obtain rfl := split_unique nodup sound.flushes.linked.null_notMem same (flushes.oldest.symm.trans stop)
  intro p c mem child pair
  -- what is older than a node of the front part is in it
  obtain ⟨first, second, shape, inFront, inBack⟩ := sublist_append_iff.mp pair
  obtain - | ⟨x, first⟩ := first
  · rw [nil_append] at shape
    have behind : p ∈ back := inBack.subset (by simp [← shape])
    exact absurd rfl ((nodup_append.mp nodup).2.2 p mem p behind)
  · obtain ⟨rfl, -⟩ := cons.inj shape
    exact inFront.subset (.head _)

end Cap

section Runs

variable {rank : Hash → ℕ} {s s' : Tracked} {l : List Hash} {call : Call}

theorem Sound.new (disk preimages : Hash → Option Bytes) (refs : Hash → Hash → Prop) :
    Sound rank ⟨.new disk preimages, refs⟩ [] := by
  have missing : ∀ {h : Hash}, h ≠ 0 → (Database.new disk preimages).nodes.lookup h = none := fun {h} some_ => by
    rw [Database.new, ← insert_empty, lookup_insert_ne some_, lookup_empty]
  have present : (Database.new disk preimages).nodes.lookup 0 = some .metaRoot := by
    rw [Database.new, ← insert_empty, lookup_insert]
  refine ⟨⟨.nil _ _, fun {h} => ?_, rfl, by simp⟩, ?_, by simp, fun {p c} some_ child => ?_, by simp,
    fun {p c} _ _ => ?_⟩
  · by_cases zero : h = 0
    · rw [zero, present]
      simp
    · exact iff_of_false (fun held => held (missing zero)) (by simpa using zero)
  · rw [node_of_lookup present]
    rfl
  · rw [Database.childs, missing some_] at child
    cases child
  · by_cases zero : c = 0
    · exact .inl (by rw [zero, node_of_lookup present]; rfl)
    · rw [node_of_missing (missing zero)]
      exact (em _).imp_right .inl

theorem Sound.step (sound : Sound rank s l) (ordered : s.Ordered rank call) (step : s.Step call s') :
    ∃ l', Sound rank s' l' := by
  obtain ⟨w, ran, rfl⟩ := step
  cases call with
  | insert hash blob content =>
    simp only [Call.run, Proc.bind_eq_ok, Proc.get_eq_ok, Proc.orFault_eq_ok] at ran
    obtain ⟨_, _, ⟨rfl, rfl⟩, db', _, ⟨entered, rfl⟩, ran⟩ := ran
    obtain rfl := Proc.modify_eq_ok.mp ran
    cases known : s.db.nodes.lookup hash with
    | none => exact ⟨_, sound.insert ordered known entered⟩
    | some n =>
      rw [Database.insert, known] at entered
      cases entered
      refine ⟨l, ?_⟩
      simpa [Call.makes, known] using sound
  | reference child parent =>
    simp only [Call.run, Proc.bind_eq_ok, Proc.get_eq_ok, Proc.orFault_eq_ok] at ran
    obtain ⟨_, _, ⟨rfl, rfl⟩, db', _, ⟨linked, rfl⟩, ran⟩ := ran
    obtain rfl := Proc.modify_eq_ok.mp ran
    by_cases known : s.db.nodes.lookup child = none
    · rw [Database.reference, known] at linked
      cases linked
      refine ⟨l, ?_⟩
      simpa [Call.makes, known] using sound
    · exact ⟨l, sound.reference ordered known linked⟩
  | cap limit =>
    obtain ⟨w', ran', l', kept⟩ := sound.cap limit
    rw [ran] at ran'
    cases ran'
    exact ⟨l', by simpa [Call.makes] using kept⟩
  | commit root =>
    obtain ⟨w', ran', -, l', kept⟩ := sound.commit ordered
    rw [ran] at ran'
    cases ran'
    exact ⟨l', by simpa [Call.makes] using kept⟩

theorem sound_of_run {s₀ : Tracked} {ts : List (Tracked × Call × Tracked)} (run : Run Tracked.Step s₀ ts s)
    (ordered : ∀ u ∈ ts, u.1.Ordered rank u.2.1) (start : ∃ l, Sound rank s₀ l) : ∃ l, Sound rank s l :=
  run.keeps (P := fun s => ∃ l, Sound rank s l) (fun u mem step ⟨_, sound⟩ => sound.step (ordered u mem) step) start

/-- What can be reached from the root is on disk, or cached and reached through cached nodes. -/
theorem Sound.reach (sound : Sound rank s l) {h : Hash} (some_ : root ≠ 0)
    (path : ReflTransGen (fun p c => s.refs p c ∧ s.db.node c ≠ none) root h) :
    h ≠ 0 ∧ (s.db.node h = none ∨ s.db.disk h ≠ none ∨ s.db.nodes.lookup h ≠ none ∧ s.db.Refers root h) := by
  induction path with
  | refl =>
    refine ⟨some_, ?_⟩
    by_cases cached : s.db.nodes.lookup root = none
    · rw [node_of_missing cached]
      exact (em _).imp_right .inl
    · exact .inr (.inr ⟨cached, .refl⟩)
  | @tail p c _ edge ih =>
    obtain ⟨nonzero, above⟩ := ih
    refine ⟨fun zero => edge.2 (zero ▸ sound.metaRoot), ?_⟩
    rcases sound.order nonzero edge.1 with unread | stored | ⟨volatile, child, pair⟩
    · exact .inl unread
    · exact .inr (.inl stored)
    · obtain ⟨memC, memP⟩ := mem_of_pair pair
      obtain ⟨n, found, held⟩ := cached_of_childs child
      rcases above with unread | stored | ⟨-, refers⟩
      · exact absurd unread (sound.solid memP)
      · exact absurd volatile stored
      · exact .inr (.inr ⟨sound.flushes.cached_of_mem memC, refers.tail ⟨n, found, held⟩⟩)

/-- At every moment of a `Cap` or `Commit`, all that could be read can be read, with the same bytes. And after a run
whose references are made in order, `Commit` returns, and then everything that can be reached from the root is on disk.
-/
theorem commit_durable (s : Tracked) :
    (∀ call : Call, ((∃ limit, call = .cap limit) ∨ ∃ root, call = .commit root) →
      ∀ d ∈ (call.run.after ⟨s.db, []⟩).seen, s.db.Keeps d) ∧
    ∀ {disk preimages : Hash → Option Bytes} {refs : Hash → Hash → Prop} {ts : List (Tracked × Call × Tracked)}
      {rank : Hash → ℕ}, Run Tracked.Step ⟨.new disk preimages, refs⟩ ts s → (∀ u ∈ ts, u.1.Ordered rank u.2.1) →
      ∀ root, root ≠ 0 → ∃ s', s.Step (.commit root) s' ∧
        ∀ {h b}, ReflTransGen (fun p c => s.refs p c ∧ s.db.node c ≠ none) root h → s.db.node h = some b →
          s'.db.disk h = some b := by
  refine ⟨fun call => reads_kept s.db call, ?_⟩
  intro disk preimages refs ts rank run ordered root some_
  obtain ⟨l, sound⟩ := sound_of_run run ordered ⟨[], .new disk preimages refs⟩
  obtain ⟨w, ran, drops, -⟩ := sound.commit some_
  refine ⟨_, ⟨w, ran, rfl⟩, fun {h b} path read => ?_⟩
  obtain ⟨nonzero, unread | stored | ⟨cached, refers⟩⟩ := sound.reach some_ path
  · rw [read] at unread
    cases unread
  · have before : s.db.disk h = some b := by
      obtain ⟨b', held⟩ := ne_none_iff_exists'.mp stored
      by_cases cached : s.db.nodes.lookup h = none
      · rwa [node_of_missing cached] at read
      · rw [held, ← sound.same (sound.cached_mem nonzero cached) held, read]
    rcases drops.disk h with same | ⟨-, n, found, -, now⟩
    · exact same.trans before
    · exact now.trans ((node_of_lookup found).symm.trans read)
  · obtain ⟨n, found⟩ := ne_none_iff_exists'.mp cached
    exact (drops.saved found refers).trans ((node_of_lookup found).symm.trans read)

end Runs

section Examples

/-- The state after a call. -/
def Tracked.after (s : Tracked) (call : Call) : Tracked :=
  ⟨(call.run.after ⟨s.db, []⟩).db, fun p c => s.refs p c ∨ call.makes s.db p c⟩

theorem step_after (s : Tracked) (call : Call) (returned : ∃ u w, call.run.run ⟨s.db, []⟩ = .ok u w) :
    s.Step call (s.after call) := by
  obtain ⟨⟨⟩, w, ran⟩ := returned
  exact ⟨w, ran, by rw [Tracked.after, Proc.after_of_ok ran]⟩

/-- A database over an empty disk. -/
def Tracked.blank : Tracked := ⟨.new (fun _ => none) fun _ => none, fun _ _ => False⟩

/-- A node under hash 1 that refers to hash 2. -/
def insertParent : Call := .insert 1 (List.replicate 35 0) (.node (.short [0] (.hash 2)))

/-- A node under hash 2. -/
def insertChild : Call := .insert 2 [7] (.blob [7])

/-- Hash 1 is above all others. -/
def oneOnTop (h : Hash) : ℕ := if h = 1 then 1 else 0

/-- A child that comes in before its parent is on disk after a `Commit` of the parent. -/
theorem commit_durable_child_first : ∃ s', ((Tracked.blank.after insertChild).after insertParent).Step (.commit 1) s' ∧
    s'.db.disk 2 = some [7] := by
  have first : Tracked.blank.Ordered oneOnTop insertChild := by
    intro _
    exact ⟨by simp [Content.rlp], by simp [Content.children], fun _ _ _ => id, fun b held => by cases held⟩
  have second : (Tracked.blank.after insertChild).Ordered oneOnTop insertParent := by
    refine fun _ =>
      ⟨by simp [Content.rlp, Stored.isNil], fun c child => ?_, fun _ p _ => ?_, fun b held => by cases held⟩
    · obtain rfl := mem_singleton.mp child
      decide
    · rintro (made | ⟨-, -, child⟩)
      · exact made
      · cases child
  have run := Run.cons (step_after .blank insertChild (by decide +kernel))
    (Run.cons (step_after _ insertParent (by decide +kernel)) (.nil _))
  obtain ⟨s', step, written⟩ := (commit_durable _).2 run
    (forall_mem_cons.mpr ⟨first, forall_mem_singleton.mpr second⟩) 1 (by decide)
  exact ⟨s', step, written (.single ⟨.inr ⟨by decide +kernel, rfl, by decide⟩, by decide +kernel⟩) (by decide +kernel)⟩

/-- A child that comes in after its parent is lost to a `Commit` of the parent if `Cap` has written the parent only: it
can be reached and read, but it is not on disk. -/
theorem commit_volatile : ∃ ts s s', Run Tracked.Step .blank ts s ∧ s.Step (.commit 1) s' ∧
    s.refs 1 2 ∧ s.db.node 2 = some [7] ∧ s'.db.disk 2 = none := by
  have run := Run.cons (step_after .blank insertParent (by decide +kernel))
    (Run.cons (step_after _ insertChild (by decide +kernel))
      (Run.cons (step_after _ (.cap 97) (by decide +kernel)) (.nil _)))
  refine ⟨_, _, _, run, step_after _ _ (by decide +kernel), ?_, by decide +kernel, by decide +kernel⟩
  exact .inl (.inl (.inr ⟨by decide +kernel, rfl, by decide⟩))

end Examples

end KKChain.Trie
