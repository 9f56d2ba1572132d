import KKChain.Trie.Node

/-! # Inserting and deleting

On canonical nodes and terminated keys `insert` and `delete` never panic, keep the node canonical
and change what a lookup finds at their key only.
-/

namespace KKChain.Trie.Node

open List Option Function

variable {V : Type} {children : Nibble → Node V} {n val n' : Node V} {key k rest front rest' : Key} {found : Option V}
    {dirty : Bool}

/-- What an operation on `n` at `key` returns: a canonical node that finds `found` at `key` and agrees
with `n` elsewhere. -/
structure Updates (n : Node V) (key : Key) (found : Option V) (n' : Node V) : Prop where
  canonical : Canonical n'
  get_eq : ∀ k, Terminated k → n'.get k = if k = key then found else n.get k

/-- The outcome of `insertNil` and a short node at the place where the keys part. -/
theorem updates_split {x y : Nibble} (v : V) (part : x ≠ y) (digits : Digits front) (fits : Fits x (insertNil rest n))
    (ends : Terminated (front ++ y :: rest')) : Updates (short (front ++ x :: rest) n) (front ++ y :: rest') (some v)
      (if front.length = 0 then branch x (insertNil rest n) y (insertNil rest' (value v))
        else short front (branch x (insertNil rest n) y (insertNil rest' (value v)))) := by
  have tail : Terminated (y :: rest') := (terminated_append digits).mp ends
  have canonical := Canonical.branch part fits (fits_insertNil_value tail v)
  have result : ∀ key, (if front.length = 0 then branch x (insertNil rest n) y (insertNil rest' (value v))
      else short front (branch x (insertNil rest n) y (insertNil rest' (value v)))).get key =
      (short front (branch x (insertNil rest n) y (insertNil rest' (value v)))).get key := by
    intro key
    split_ifs with empty
    · simp [length_eq_zero_iff.mp empty, get_short]
    · rfl
  refine ⟨?_, fun k valid => ?_⟩
  · split_ifs with empty
    · exact canonical
    · exact .extension (by simpa [length_eq_zero_iff] using empty) digits canonical
  · rw [result]
    by_cases starts : front <+: k
    · obtain ⟨k, rfl⟩ := starts
      rw [terminated_append digits] at valid
      obtain - | ⟨z, k⟩ := k
      · exact (not_terminated_nil valid).elim
      simp only [get_short_append, get_branch, get_insertNil, get_short_append_append, get_short_cons,
        append_cancel_left_eq]
      by_cases atY : z = y
      · subst atY
        rcases terminated_cons.mp tail with ⟨rfl, rfl⟩ | ⟨digit, tail⟩
        · simp [(by simpa [terminated_cons] using valid : k = []), get_short]
        · rw [terminated_cons_of_ne digit] at valid
          simp [get_leaf tail valid, part]
      · by_cases atX : z = x
        · simp [atX, part]
        · simp [atY, atX, Ne.symm atX]
    · have other : k ≠ front ++ y :: rest' := by
        rintro rfl
        exact starts (prefix_append _ _)
      have outside : ¬ front ++ x :: rest <+: k := fun within =>
        starts ((prefix_append _ _).trans within)
      rw [get_short_eq_none starts, if_neg other, get_short_eq_none outside]

/-- A digit key is the front of a terminated key, or they part. -/
theorem Digits.prefix_or_branch (digits : Digits k) (ends : Terminated key) :
    k <+: key ∨ ∃ front x y rest rest', k = front ++ x :: rest ∧ key = front ++ y :: rest' ∧ x ≠ y ∧ Digits front := by
  have closed : Terminated (k ++ [16]) := (terminated_append digits).mpr (by simp [Terminated])
  rcases closed.eq_or_branch ends with rfl | ⟨front, x, y, rest, rest', left, rfl, part, all⟩
  · exact .inl (prefix_append _ _)
  · rcases append_eq_append_iff.mp left with ⟨mid, rfl, tail⟩ | ⟨mid, rfl, tail⟩
    · obtain - | ⟨m, mid⟩ := mid
      · simp only [append_nil]
        exact .inl (prefix_append _ _)
      · simp only [cons_append, cons.injEq] at tail
        obtain ⟨rfl, tail⟩ := tail
        simp at tail
    · obtain - | ⟨m, mid⟩ := mid
      · simp only [append_nil] at *
        exact .inl (prefix_append _ _)
      · simp only [cons_append, cons.injEq] at tail
        obtain ⟨rfl, -⟩ := tail
        exact .inr ⟨front, x, y, mid, rest', rfl, rfl, part, all⟩

/-- The outcome of an operation: an update of `n`, which is `n` itself unless reported as a change. -/
def Yields (n : Node V) (key : Key) (found : Option V) (outcome : Option (Bool × Node V)) : Prop :=
  ∃ dirty n', outcome = some (dirty, n') ∧ Updates n key found n' ∧ (dirty = false → n' = n)

/-- Rebuilding is putting the child back, whether it changed or not. -/
theorem rebuild_eq {old : Node V} {put : Node V → Node V} (same : put n = old)
    (clean : dirty = false → n' = n) : rebuild old put (dirty, n') = (dirty, put n') := by
  cases dirty with
  | true => rfl
  | false => rw [clean rfl, same]; rfl

/-- A child that was replaced updates the full node at the keys through it. -/
theorem get_update_child {x : Nibble}
    (below : ∀ k, Terminated (x :: k) → n.get k = if k = key then found else (children x).get k) (k : Key)
    (ends : Terminated k) : (full (update children x n)).get k =
      if k = x :: key then found else (full children).get k := by
  obtain - | ⟨z, k⟩ := k
  · exact (not_terminated_nil ends).elim
  by_cases same : z = x
  · subst same
    simp [below k ends]
  · simp [same]

/-- An update below a short node is one at the longer key. -/
theorem get_short_update (digits : Digits k)
    (below : ∀ key, Terminated key → n'.get key = if key = rest then found else n.get key) (key : Key)
    (ends : Terminated key) : (short k n').get key = if key = k ++ rest then found else (short k n).get key := by
  by_cases starts : k <+: key
  · obtain ⟨key, rfl⟩ := starts
    simp [below key ((terminated_append digits).mp ends)]
  · have other : key ≠ k ++ rest := by
      rintro rfl
      exact starts (prefix_append _ _)
    rw [get_short_eq_none starts, get_short_eq_none starts, if_neg other]

section Insert

variable [DecidableEq V]

theorem insert_short_of_prefix (nonempty : k ++ key ≠ []) :
    (short k n).insert (k ++ key) val = (n.insert key val).map (rebuild (short k n) (short k)) := by
  obtain ⟨x, rest, shape⟩ := exists_cons_of_ne_nil nonempty
  rw [shape, insert, ← shape]
  simp

theorem insert_short_of_branch {x y : Nibble} (part : x ≠ y) :
    (short (front ++ x :: rest) n).insert (front ++ y :: rest') val =
      some (true, if front.length = 0 then branch x (insertNil rest n) y (insertNil rest' val)
        else short front (branch x (insertNil rest n) y (insertNil rest' val))) := by
  obtain ⟨z, tail, shape⟩ := exists_cons_of_ne_nil (by simp : front ++ y :: rest' ≠ [])
  rw [shape, insert, ← shape]
  simp [prefixLen_branch part.symm]

theorem insert_full_cons (children : Nibble → Node V) (x : Nibble) (key : Key) (val : Node V) :
    (full children).insert (x :: key) val =
      ((children x).insert key val).map
        (rebuild (full children) fun nn => full (update children x nn)) := rfl

/-- At the end of the key the value takes the place of a value or of nothing. -/
theorem insert_nil_key (n : Node V) (v : V) (plain : n = nil ∨ ∃ w, n = value w) :
    ∃ dirty, n.insert [] (value v) = some (dirty, value v) ∧ (dirty = false → value v = n) := by
  rcases plain with rfl | ⟨w, rfl⟩
  · exact ⟨true, rfl, by simp⟩
  · exact ⟨w != v, rfl, fun same => by rw [show w = v by simpa using same]⟩

/-- Inserting into a full node returns a full node. -/
theorem insert_full_shape (nonempty : key ≠ []) (ran : (full children).insert key val = some (dirty, n')) :
    ∃ children', n' = full children' := by
  obtain ⟨x, key, rfl⟩ := exists_cons_of_ne_nil nonempty
  obtain ⟨⟨changed, nn⟩, -, result⟩ := map_eq_some_iff.mp ran
  cases changed <;> simp only [rebuild, Bool.false_eq_true, ↓reduceIte, Prod.mk.injEq] at result <;>
    exact ⟨_, result.2.symm⟩

/-- `insert` stores the value at its key. -/
theorem insert_spec (canonical : Canonical n) (ends : Terminated key) (v : V) :
    Yields n key (some v) (n.insert key (value v)) := by
  have nonempty : key ≠ [] := by
    rintro rfl
    exact ends
  induction canonical generalizing key with
  | nil =>
    refine ⟨true, short key (value v), by simp [insert, insertNil, nonempty], ⟨.leaf ends, ?_⟩, by simp⟩
    intro k valid
    simp [get_leaf ends valid]
  | @leaf k w left =>
    rcases left.eq_or_branch ends with rfl | ⟨front, x, y, rest, rest', rfl, rfl, part, digits⟩
    · obtain ⟨dirty, ran, clean⟩ := insert_nil_key (value w) v (.inr ⟨w, rfl⟩)
      have step : (short k (value w)).insert (k ++ []) (value v) = _ :=
        insert_short_of_prefix (by rwa [append_nil])
      rw [append_nil, ran, map_some, rebuild_eq rfl clean] at step
      refine ⟨dirty, _, step, ⟨.leaf ends, fun key valid => ?_⟩, fun same => by rw [clean same]⟩
      rw [get_leaf ends valid, get_leaf ends valid]
      split_ifs <;> rfl
    · have fits : Fits x (insertNil rest (value w)) :=
        fits_insertNil_value ((terminated_append digits).mp left) w
      exact ⟨true, _, insert_short_of_branch part, updates_split v part digits fits ends, by simp⟩
  | @extension k children inner digits below ih =>
    rcases Digits.prefix_or_branch digits ends with
      ⟨rest, rfl⟩ | ⟨front, x, y, rest, rest', rfl, rfl, part, front'⟩
    · have tail : Terminated rest := (terminated_append digits).mp ends
      have rest' : rest ≠ [] := by
        rintro rfl
        exact tail
      obtain ⟨dirty, n', ran, updates, clean⟩ := ih tail rest'
      obtain ⟨children', rfl⟩ := insert_full_shape rest' ran
      have step : (short k (Node.full children)).insert (k ++ rest) (value v) = _ :=
        insert_short_of_prefix nonempty
      rw [ran, map_some, rebuild_eq rfl clean] at step
      exact ⟨dirty, _, step, ⟨.extension inner digits updates.canonical,
        get_short_update digits updates.get_eq⟩, fun same => by rw [clean same]⟩
    · have fits : Fits x (insertNil rest (full children)) :=
        fits_insertNil_full (fun z mem => digits z (mem_append_right _ mem)) below
      exact ⟨true, _, insert_short_of_branch part, updates_split v part front' fits ends, by simp⟩
  | @full children below here two ih =>
    obtain ⟨x, key, rfl⟩ := exists_cons_of_ne_nil nonempty
    have same : Node.full (update children x (children x)) = Node.full children := by
      rw [update_eq_self]
    have two' : ∀ n : Node V, n ≠ Node.nil → ∃ i j, i ≠ j ∧ update children x n i ≠ Node.nil ∧
        update children x n j ≠ Node.nil := by
      intro n present
      obtain ⟨i, j, part, left, right⟩ := two
      refine ⟨i, j, part, ?_, ?_⟩ <;> rw [update_apply] <;> split_ifs <;> assumption
    rcases terminated_cons.mp ends with ⟨rfl, rfl⟩ | ⟨digit, tail⟩
    · obtain ⟨dirty, ran, clean⟩ := insert_nil_key (children 16) v here
      refine ⟨dirty, full (update children 16 (value v)), ?_, ⟨.full ?_ ?_ (two' _ (by simp)), ?_⟩, ?_⟩
      · rw [insert_full_cons, ran, map_some, rebuild_eq same clean]
      · intro i digit
        simpa [digit] using below i digit
      · simp
      · apply get_update_child
        intro k valid
        simp [(by simpa [terminated_cons] using valid : k = [])]
      · intro unchanged
        rw [clean unchanged, same]
    · have rest' : key ≠ [] := by
        rintro rfl
        exact tail
      obtain ⟨dirty, n', ran, updates, clean⟩ := ih x digit tail rest'
      have present : n' ≠ Node.nil := by
        rintro rfl
        have := updates.get_eq key tail
        simp at this
      refine ⟨dirty, full (update children x n'), ?_, ⟨.full ?_ ?_ (two' n' present), ?_⟩, ?_⟩
      · rw [insert_full_cons, ran, map_some, rebuild_eq same clean]
      · intro i digit'
        rw [update_apply]
        split_ifs
        · exact updates.canonical
        · exact below i digit'
      · simpa [digit.symm] using here
      · apply get_update_child
        intro k valid
        exact updates.get_eq k ((terminated_cons_of_ne digit).mp valid)
      · intro unchanged
        rw [clean unchanged, same]

end Insert

section Delete

theorem delete_short_of_prefix (nonempty : key ≠ []) :
    (short k n).delete (k ++ key) = (n.delete key).map (rebuild (short k n) (extend k)) := by
  simp [delete, nonempty]

theorem delete_short_of_branch {x y : Nibble} (part : x ≠ y) :
    (short (front ++ x :: rest) n).delete (front ++ y :: rest') =
      some (false, short (front ++ x :: rest) n) := by
  simp [delete, prefixLen_branch part.symm]

theorem delete_full_cons (children : Nibble → Node V) (x : Nibble) (key : Key) :
    (full children).delete (x :: key) =
      ((children x).delete key).map
        (rebuild (full children) fun nn => reduce (update children x nn)) := rfl

/-- Contracting a node into the short node above it keeps its lookups. -/
theorem contract_spec {pos : Nibble} (fits : Fits pos n) : Canonical (contract pos n) ∧ contract pos n ≠ nil ∧
      ∀ z k, (contract pos n).get (z :: k) = if z = pos then n.get k else none := by
  have bare : ∀ z k, (short [pos] n).get (z :: k) = if z = pos then n.get k else none := by
    intro z k
    rw [get_short_cons, if_congr eq_comm rfl rfl]
    simp [get_short]
  by_cases atEnd : pos = 16
  · subst atEnd
    obtain ⟨v, rfl⟩ := fits_sixteen.mp fits
    exact ⟨.leaf (by simp [Terminated]), by simp [contract], bare⟩
  · obtain ⟨canonical, present⟩ := (fits_digit atEnd).mp fits
    have merged : ∀ (key : Key) (val : Node V) (z : Nibble) (k : Key),
        (short (pos :: key) val).get (z :: k) = if z = pos then (short key val).get k else none := by
      intro key val z k
      rw [get_short_cons, if_congr eq_comm rfl rfl]
    cases canonical with
    | nil => exact (present rfl).elim
    | @leaf key v ends =>
      simp only [contract, atEnd, ↓reduceIte]
      exact ⟨.leaf ((terminated_cons_of_ne atEnd).mpr ends), by simp, merged _ _⟩
    | @extension key children nonempty digits below =>
      simp only [contract, atEnd, ↓reduceIte]
      exact ⟨.extension (by simp) (by simpa [Digits, atEnd] using digits) below, by simp, merged _ _⟩
    | @full children below here two =>
      exact ⟨.extension (by simp) (by simpa [Digits] using atEnd) (.full below here two), by simp [contract], bare⟩

/-- The child positions in use. -/
theorem mem_used {i : Nibble} : i ∈ (finRange 17).filter (fun i => !(children i).isNil) ↔ children i ≠ nil := by
  simp

theorem reduce_of_two (two : ∃ i j, i ≠ j ∧ children i ≠ nil ∧ children j ≠ nil) : reduce children = full children := by
  unfold reduce
  split
  next pos single =>
    obtain ⟨i, j, part, left, right⟩ := two
    rw [← mem_used, single, mem_singleton] at left right
    exact (part (left.trans right.symm)).elim
  next => rfl

/-- A full node with a child left is reduced to a canonical node with the same lookups. -/
theorem reduce_spec (below : ∀ i, i ≠ 16 → Canonical (children i))
    (here : children 16 = nil ∨ ∃ v, children 16 = value v) (one : ∃ i, children i ≠ nil) :
    Canonical (reduce children) ∧ reduce children ≠ nil ∧
      ∀ k, Terminated k → (reduce children).get k = (full children).get k := by
  by_cases two : ∃ i j, i ≠ j ∧ children i ≠ nil ∧ children j ≠ nil
  · rw [reduce_of_two two]
    exact ⟨.full below here two, by simp, fun k _ => rfl⟩
  · push Not at two
    obtain ⟨pos, present⟩ := one
    have others : ∀ i, i ≠ pos → children i = nil := fun i other => two pos i other.symm present
    have single : (finRange 17).filter (fun i => !(children i).isNil) = [pos] := by
      rw [← perm_singleton, perm_ext_iff_of_nodup ((nodup_finRange 17).filter _) (by simp)]
      intro i
      rw [mem_used, mem_singleton]
      exact ⟨fun used => by_contra fun other => used (others i other), fun same => same ▸ present⟩
    have fits : Fits pos (children pos) := by
      by_cases atEnd : pos = 16
      · subst atEnd
        exact fits_sixteen.mpr (here.resolve_left present)
      · exact (fits_digit atEnd).mpr ⟨below pos atEnd, present⟩
    obtain ⟨canonical, nonempty, lookups⟩ := contract_spec fits
    have reduced : reduce children = contract pos (children pos) := by
      unfold reduce
      rw [single]
    rw [reduced]
    refine ⟨canonical, nonempty, fun k ends => ?_⟩
    obtain - | ⟨z, k⟩ := k
    · exact (not_terminated_nil ends).elim
    rw [lookups, get_full_cons]
    split_ifs with same
    · rw [same]
    · rw [others z same, get_nil]

/-- Merging a short node with what is left below it keeps the lookups. -/
theorem extend_spec (nonempty : k ≠ []) (digits : Digits k) (canonical : Canonical n) (present : n ≠ nil) :
    Canonical (extend k n) ∧ ∀ key, (extend k n).get key = (short k n).get key := by
  have merged : ∀ (k' : Key) (val : Node V) (key : Key),
      (short (k ++ k') val).get key = (short k (short k' val)).get key := by
    intro k' val key
    by_cases starts : k <+: key
    · obtain ⟨key, rfl⟩ := starts
      rw [get_short_append_append, get_short_append]
    · rw [get_short_eq_none starts,
        get_short_eq_none fun within => starts ((prefix_append _ _).trans within)]
  cases canonical with
  | nil => exact (present rfl).elim
  | leaf ends => exact ⟨.leaf ((terminated_append digits).mpr ends), merged _ _⟩
  | @extension key children inner digits' below =>
    refine ⟨.extension (by simp [nonempty]) ?_ below, merged _ _⟩
    intro x mem
    exact (mem_append.mp mem).elim (digits x) (digits' x)
  | full below here two => exact ⟨.extension nonempty digits (.full below here two), fun _ => rfl⟩

/-- `delete` removes the value at its key, and leaves something of a full node. -/
theorem delete_spec (canonical : Canonical n) (ends : Terminated key) :
    ∃ dirty n', n.delete key = some (dirty, n') ∧ Updates n key none n' ∧ (dirty = false → n' = n) ∧
      ((∃ children, n = full children) → n' ≠ nil) := by
  induction canonical generalizing key with
  | nil => exact ⟨false, nil, rfl, ⟨.nil, by simp⟩, by simp, by simp⟩
  | @leaf k w left =>
    rcases left.eq_or_branch ends with rfl | ⟨front, x, y, rest, rest', rfl, rfl, part, digits⟩
    · have whole : prefixLen k k = k.length := by simpa using prefixLen_append_left k []
      refine ⟨true, nil, by simp [delete, whole], ⟨.nil, fun key valid => ?_⟩, by simp, by simp⟩
      rw [get_leaf ends valid]
      split_ifs <;> rfl
    · refine ⟨false, _, delete_short_of_branch part, ⟨.leaf left, fun key valid => ?_⟩, by simp, by simp⟩
      split_ifs with same
      · rw [same, get_short_append_append, get_short_cons, if_neg part]
      · rfl
  | @extension k children nonempty digits below ih =>
    rcases Digits.prefix_or_branch digits ends with
      ⟨rest, rfl⟩ | ⟨front, x, y, rest, rest', rfl, rfl, part, front'⟩
    · have tail : Terminated rest := (terminated_append digits).mp ends
      obtain ⟨dirty, n', ran, updates, clean, left⟩ := ih tail
      obtain ⟨canonical, lookups⟩ := extend_spec nonempty digits updates.canonical (left ⟨children, rfl⟩)
      have step : (short k (Node.full children)).delete (k ++ rest) = _ :=
        delete_short_of_prefix (by rintro rfl; exact tail)
      have same : extend k (Node.full children) = short k (Node.full children) := rfl
      rw [ran, map_some, rebuild_eq same clean] at step
      refine ⟨dirty, _, step, ⟨canonical, fun key valid => ?_⟩, fun same => by rw [clean same]; rfl, by simp⟩
      rw [lookups, get_short_update digits updates.get_eq key valid]
    · refine ⟨false, _, delete_short_of_branch part, ⟨.extension nonempty digits below, fun key valid => ?_⟩,
        by simp, by simp⟩
      split_ifs with same
      · rw [same, get_short_append_append, get_short_cons, if_neg part]
      · rfl
  | @full children below here two ih =>
    obtain ⟨x, key, rfl⟩ : ∃ x rest, key = x :: rest := by
      cases key with
      | nil => exact (not_terminated_nil ends).elim
      | cons x rest => exact ⟨x, rest, rfl⟩
    have same : reduce (update children x (children x)) = Node.full children := by
      rw [update_eq_self, reduce_of_two two]
    have one : ∀ n : Node V, ∃ i, update children x n i ≠ Node.nil := by
      intro n
      obtain ⟨i, j, part, left, right⟩ := two
      by_cases atX : i = x
      · exact ⟨j, by rwa [update_of_ne (atX ▸ part.symm)]⟩
      · exact ⟨i, by rwa [update_of_ne atX]⟩
    rcases terminated_cons.mp ends with ⟨rfl, rfl⟩ | ⟨digit, tail⟩
    · obtain ⟨dirty, ran, clean⟩ : ∃ dirty, (children 16).delete [] = some (dirty, Node.nil) ∧
          (dirty = false → Node.nil = children 16) := by
        rcases here with empty | ⟨v, held⟩
        · exact ⟨false, by rw [empty]; rfl, fun _ => empty.symm⟩
        · exact ⟨true, by rw [held]; rfl, by simp⟩
      obtain ⟨canonical, present, lookups⟩ := @reduce_spec V (update children 16 Node.nil)
        (fun i digit => by simpa [digit] using below i digit) (by simp) (one _)
      refine ⟨dirty, _, ?_, ⟨canonical, fun k valid => ?_⟩, fun unchanged => ?_, fun _ => present⟩
      · rw [delete_full_cons, ran, map_some, rebuild_eq same clean]
      · rw [lookups k valid]
        refine get_update_child (fun k' valid' => ?_) k valid
        simp [(by simpa [terminated_cons] using valid' : k' = [])]
      · rw [clean unchanged, same]
    · obtain ⟨dirty, n', ran, updates, clean, -⟩ := ih x digit tail
      obtain ⟨canonical, present, lookups⟩ := @reduce_spec V (update children x n')
        (fun i digit' => by
          rw [update_apply]
          split_ifs
          · exact updates.canonical
          · exact below i digit')
        (by simpa [digit.symm] using here) (one _)
      refine ⟨dirty, _, ?_, ⟨canonical, fun k valid => ?_⟩, fun unchanged => ?_, fun _ => present⟩
      · rw [delete_full_cons, ran, map_some, rebuild_eq same clean]
      · rw [lookups k valid]
        exact get_update_child (fun k' valid' => updates.get_eq k' ((terminated_cons_of_ne digit).mp valid')) k valid
      · rw [clean unchanged, same]

theorem delete_yields (canonical : Canonical n) (ends : Terminated key) : Yields n key none (n.delete key) := by
  obtain ⟨dirty, n', ran, updates, clean, -⟩ := delete_spec canonical ends
  exact ⟨dirty, n', ran, updates, clean⟩

end Delete

end KKChain.Trie.Node
