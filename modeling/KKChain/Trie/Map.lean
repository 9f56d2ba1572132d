import KKChain.Trie.Update

/-! # Tries as finite maps

A trie carries the proof that its nodes are canonical and hold values at whole byte keys only, so its
operations cannot panic. Two tries that find the same values are the same trie: the shape of the
nodes says nothing about the order in which they were filled.
-/

namespace KKChain

open List

namespace Trie.Node

variable {V : Type} {children : Nibble → Node V} {n : Node V} {key k : Key}

/-- A node that is there leads to a value. -/
theorem Canonical.exists_get (canonical : Canonical n) (present : n ≠ .nil) :
    ∃ k v, Terminated k ∧ n.get k = some v := by
  induction canonical with
  | nil => exact (present rfl).elim
  | @leaf key v ends => exact ⟨key, v, ends, by simp [get_short]⟩
  | @extension key children nonempty digits below ih =>
    obtain ⟨k, v, ends, found⟩ := ih (by simp)
    exact ⟨key ++ k, v, (terminated_append digits).mpr ends, by simpa using found⟩
  | @full children below here two ih =>
    obtain ⟨i, -, -, used, -⟩ := two
    by_cases atEnd : i = 16
    · subst atEnd
      obtain ⟨v, held⟩ := here.resolve_left used
      exact ⟨[16], v, by simp [Terminated], by simp [held]⟩
    · obtain ⟨k, v, ends, found⟩ := ih i atEnd used
      exact ⟨i :: k, v, (terminated_cons_of_ne atEnd).mpr ends, found⟩

/-- A full node finds values behind two different nibbles. -/
theorem Canonical.exists_get_two (canonical : Canonical (Node.full children)) :
    ∃ x y k k' v w, x ≠ y ∧ Terminated (x :: k) ∧ Terminated (y :: k') ∧
      (Node.full children).get (x :: k) = some v ∧ (Node.full children).get (y :: k') = some w := by
  obtain - | - | - | ⟨below, here, two⟩ := canonical
  have behind : ∀ i, children i ≠ .nil → ∃ k v, Terminated (i :: k) ∧ (children i).get k = some v := by
    intro i used
    by_cases atEnd : i = 16
    · subst atEnd
      obtain ⟨v, held⟩ := here.resolve_left used
      exact ⟨[], v, by simp [Terminated], by simp [held]⟩
    · obtain ⟨k, v, ends, found⟩ := (below i atEnd).exists_get used
      exact ⟨k, v, (terminated_cons_of_ne atEnd).mpr ends, found⟩
  obtain ⟨x, y, part, left, right⟩ := two
  obtain ⟨k, v, ends, found⟩ := behind x left
  obtain ⟨k', w, terminated', found'⟩ := behind y right
  exact ⟨x, y, k, k', v, w, part, ends, terminated', found, found'⟩

/-- A key that starts two keys which part is a front of what they share. -/
theorem prefix_of_branch {front rest rest' : Key} {x y : Nibble} (part : x ≠ y)
    (left : k <+: front ++ x :: rest) (right : k <+: front ++ y :: rest') : k <+: front := by
  rcases prefix_or_prefix_of_prefix left (prefix_append front (x :: rest)) with within | ⟨mid, rfl⟩
  · exact within
  · obtain - | ⟨m, mid⟩ := mid
    · simp
    · rw [prefix_append_right_inj] at left right
      obtain ⟨rfl, -⟩ := cons_prefix_cons.mp left
      obtain ⟨same, -⟩ := cons_prefix_cons.mp right
      exact (part same).elim

/-- The keys of an extension's full node part right behind the extension's key. -/
theorem extension_key_prefix {key' : Key} {children' : Nibble → Node V} (digits : Digits key)
    (below : Canonical (full children))
    (same : ∀ k, Terminated k → (short key (full children)).get k = (short key' (full children')).get k) :
    key' <+: key := by
  obtain ⟨x, y, k, k', v, w, part, ends, terminated', found, found'⟩ := below.exists_get_two
  have starts : ∀ k v, Terminated k → (full children).get k = some v → key' <+: key ++ k := by
    intro k v ends found
    by_contra outside
    have := same (key ++ k) ((terminated_append digits).mpr ends)
    rw [get_short_append, found, get_short_eq_none outside] at this
    simp at this
  exact prefix_of_branch part (starts _ _ ends found) (starts _ _ terminated' found')

/-- A short node never finds the same as a full node: all its keys start with the same nibble. -/
theorem short_ne_full (nonempty : key ≠ []) (canonical : Canonical (full children))
    (same : ∀ k, Terminated k → (short key n).get k = (full children).get k) : False := by
  obtain ⟨x, y, k, k', v, w, part, ends, terminated', found, found'⟩ := canonical.exists_get_two
  obtain ⟨z, key, rfl⟩ := exists_cons_of_ne_nil nonempty
  have first := (same _ ends).trans found
  have second := (same _ terminated').trans found'
  rw [get_short_cons] at first second
  split_ifs at first second with left right
  exact part (left.symm.trans right)

/-- A leaf finds one key only, an extension at least two. -/
theorem leaf_ne_extension {v : V} (ends : Terminated k) (digits : Digits key) (below : Canonical (full children))
    (same : ∀ k', Terminated k' → (short k (value v)).get k' = (short key (full children)).get k') : False := by
  obtain ⟨x, y, rest, rest', a, b, part, left, right, found, found'⟩ := below.exists_get_two
  have only : ∀ k' w, Terminated k' → (full children).get k' = some w → key ++ k' = k := by
    intro k' w valid held
    have closed := (terminated_append digits).mpr valid
    have := same (key ++ k') closed
    rw [get_leaf ends closed, get_short_append, held] at this
    by_contra other
    simp [other] at this
  have both := (only _ _ left found).trans (only _ _ right found').symm
  exact part (cons.inj (append_cancel_left both)).1

/-- A canonical node that finds nothing is nil. -/
theorem Canonical.eq_nil (canonical : Canonical n) (empty : ∀ k, Terminated k → n.get k = none) : n = .nil := by
  by_contra present
  obtain ⟨k, v, ends, found⟩ := canonical.exists_get present
  simp [empty k ends] at found

/-- Canonical nodes with the same lookups are equal. -/
theorem Canonical.ext {n' : Node V} (left : Canonical n) (right : Canonical n')
    (same : ∀ k, Terminated k → n.get k = n'.get k) : n = n' := by
  induction left generalizing n' with
  | nil => exact (right.eq_nil fun k valid => (same k valid).symm).symm
  | @leaf k v ends =>
    cases right with
    | nil => exact (Canonical.leaf ends).eq_nil same
    | @leaf k' w terminated' =>
      have here := same k ends
      rw [get_leaf ends ends, get_leaf terminated' ends, if_pos rfl] at here
      split_ifs at here with sameKey
      rw [sameKey, Option.some.inj here]
    | extension _ digits below => exact (leaf_ne_extension ends digits below same).elim
    | full below here two =>
      exact (short_ne_full (by rintro rfl; exact ends) (.full below here two) same).elim
  | @extension key children nonempty digits below ih =>
    cases right with
    | nil => exact (Canonical.extension nonempty digits below).eq_nil same
    | leaf ends =>
      exact (leaf_ne_extension ends digits below fun k valid => (same k valid).symm).elim
    | @extension key' children' _ digits' below' =>
      have shorter := extension_key_prefix digits below same
      have longer := extension_key_prefix digits' below' fun k valid => (same k valid).symm
      obtain rfl : key = key' := longer.eq_of_length_le shorter.length_le
      have inner := ih below' fun k valid => by
        simpa using same (key ++ k) ((terminated_append digits).mpr valid)
      rw [inner]
    | full below' here two => exact (short_ne_full nonempty (.full below' here two) same).elim
  | @full children below here two ih =>
    cases right with
    | nil => exact (Canonical.full below here two).eq_nil same
    | leaf ends =>
      exact (short_ne_full (by rintro rfl; exact ends) (.full below here two)
        fun k valid => (same k valid).symm).elim
    | extension nonempty =>
      exact (short_ne_full nonempty (.full below here two) fun k valid => (same k valid).symm).elim
    | @full children' below' here' two' =>
      congr 1
      funext i
      by_cases atEnd : i = 16
      · subst atEnd
        have last := same [16] (by simp [Terminated])
        rcases here with empty | ⟨v, held⟩ <;> rcases here' with empty' | ⟨w, held'⟩ <;> simp_all
      · exact ih i atEnd (below' i atEnd) fun k valid =>
          same (i :: k) ((terminated_cons_of_ne atEnd).mpr valid)

end Trie.Node

open Trie

/-- A trie in memory: canonical nodes, with values at byte keys only. -/
structure Trie (V : Type) where
  root : Node V
  canonical : root.Canonical
  wholeKeys : ∀ k, Terminated k → root.get k ≠ none → ∃ key, k = keybytesToHex key

namespace Trie

variable {V : Type}

def empty : Trie V := ⟨.nil, .nil, by simp⟩

def get (t : Trie V) (key : Bytes) : Option V := t.root.get (keybytesToHex key)

theorem ext_get {t t' : Trie V} (same : ∀ key, t.get key = t'.get key) : t = t' := by
  have nodes : t.root = t'.root := by
    refine t.canonical.ext t'.canonical fun k ends => ?_
    by_contra different
    have found : t.root.get k ≠ none ∨ t'.root.get k ≠ none := by
      by_contra none
      push Not at none
      exact different (none.1.trans none.2.symm)
    obtain ⟨key, rfl⟩ := found.elim (t.wholeKeys k ends) (t'.wholeKeys k ends)
    exact different (same key)
  cases t
  cases t'
  cases nodes
  rfl

/-- Take over the root an operation at `key` returns, which by its specification is not a panic. -/
def adopt (t : Trie V) (key : Bytes) (found : Option V) :
    (outcome : Option (Bool × Node V)) → Node.Yields t.root (keybytesToHex key) found outcome → Trie V
  | some (_, n), yields =>
    have updates : Node.Updates t.root (keybytesToHex key) found n := by
      obtain ⟨_, _, ran, updates, -⟩ := yields
      cases ran
      exact updates
    ⟨n, updates.canonical, fun k ends held => by
      rw [updates.get_eq k ends] at held
      split_ifs at held with same
      · exact ⟨key, same⟩
      · exact t.wholeKeys k ends held⟩
  | none, yields => False.elim (by obtain ⟨_, _, ran, -⟩ := yields; cases ran)

/-- The only effect of an operation is at its key. -/
theorem get_adopt (t : Trie V) (key key' : Bytes) (found : Option V) (outcome : Option (Bool × Node V))
    (yields : Node.Yields t.root (keybytesToHex key) found outcome) :
    (t.adopt key found outcome yields).get key' = if key' = key then found else t.get key' := by
  obtain ⟨dirty, n, rfl, updates, -⟩ := yields
  change n.get (keybytesToHex key') = _
  rw [updates.get_eq _ (keybytesToHex_terminated key'), if_congr keybytesToHex_injective.eq_iff rfl rfl]
  rfl

theorem root_adopt (t : Trie V) (key : Bytes) (found : Option V) {outcome : Option (Bool × Node V)}
    {out : Bool × Node V} (ran : outcome = some out) (yields : Node.Yields t.root (keybytesToHex key) found outcome) :
    (t.adopt key found outcome yields).root = out.2 := by
  subst ran
  rfl

/-- `insert` at the root. -/
def insert [DecidableEq V] (t : Trie V) (key : Bytes) (v : V) : Trie V :=
  t.adopt key (some v) (t.root.insert (keybytesToHex key) (.value v))
    (Node.insert_spec t.canonical (keybytesToHex_terminated key) v)

/-- `delete` at the root. -/
def delete (t : Trie V) (key : Bytes) : Trie V :=
  t.adopt key none (t.root.delete (keybytesToHex key))
    (Node.delete_yields t.canonical (keybytesToHex_terminated key))

theorem root_insert [DecidableEq V] (t : Trie V) (key : Bytes) (v : V) :
    ∃ dirty, t.root.insert (keybytesToHex key) (.value v) = some (dirty, (t.insert key v).root) := by
  obtain ⟨dirty, n, ran, -⟩ := Node.insert_spec t.canonical (keybytesToHex_terminated key) v
  exact ⟨dirty, by rw [ran, insert, root_adopt t key (some v) ran]⟩

theorem root_delete (t : Trie V) (key : Bytes) :
    ∃ dirty, t.root.delete (keybytesToHex key) = some (dirty, (t.delete key).root) := by
  obtain ⟨dirty, n, ran, -⟩ := Node.delete_yields t.canonical (keybytesToHex_terminated key)
  exact ⟨dirty, by rw [ran, delete, root_adopt t key none ran]⟩

theorem get_insert [DecidableEq V] (t : Trie V) (key key' : Bytes) (v : V) :
    (t.insert key v).get key' = if key' = key then some v else t.get key' := get_adopt ..

theorem get_delete (t : Trie V) (key key' : Bytes) :
    (t.delete key).get key' = if key' = key then none else t.get key' := get_adopt ..

end Trie

end KKChain
