import KKChain.Trie.Key
import Mathlib.Logic.Function.Basic

/-! # Trie nodes

The node operations of a trie whose nodes are all in memory, over any type of values. They recurse
along the key as the Go code does; `none` is a run-time panic. `Canonical` is the minimal form that
`insert` and `delete` keep, and on canonical nodes both act on the lookup function as an update at
one key.
-/

namespace KKChain.Trie

open Function

/-- `node`: value, short and full nodes, with `nil` for the nil interface. -/
inductive Node (V : Type) where
  | nil
  | value (v : V)
  | short (key : Key) (val : Node V)
  | full (children : Nibble → Node V)

namespace Node

variable {V : Type} {n : Node V} {x y : Nibble} {rest : Key}

def isNil : Node V → Bool
  | nil => true
  | _ => false

@[simp] theorem isNil_iff : n.isNil = true ↔ n = nil := by
  cases n <;> simp [isNil]

@[simp] theorem isNil_eq_false_iff : n.isNil = false ↔ n ≠ nil := by
  cases n <;> simp [isNil]

/-- `tryGet`. -/
def get : Node V → Key → Option V
  | nil, _ => none
  | value v, _ => some v
  | short k val, key => if k <+: key then val.get (key.drop k.length) else none
  | full _, [] => none
  | full children, x :: key => (children x).get key

/-- `insert` into a nil node, which always succeeds. -/
def insertNil (key : Key) (val : Node V) : Node V := if key = [] then val else short key val

/-- A full node with two children, as `insert` makes it where two keys part. -/
def branch (x : Nibble) (left : Node V) (y : Nibble) (right : Node V) : Node V :=
  full (Function.update (Function.update (fun _ => nil) x left) y right)

/-- `insert` over a value at the end of the key, which expects a value again. -/
def insertHere [DecidableEq V] (v : V) : Node V → Option (Bool × Node V)
  | value w => some (v != w, value w)
  | _ => none

/-- Put a changed child back into its parent; an unchanged child leaves the old parent. -/
def rebuild (old : Node V) (put : Node V → Node V) (child : Bool × Node V) : Bool × Node V :=
  if child.1 then (true, put child.2) else (false, old)

/-- `insert`: whether the node changed, and the new node. -/
def insert [DecidableEq V] : Node V → Key → Node V → Option (Bool × Node V)
  | nil, key, val => some (true, insertNil key val)
  | value v, [], val => insertHere v val
  | value _, _ :: _, _ => none
  | short _ _, [], val => some (true, val)
  | short k n, x :: key, val =>
    let matchlen := prefixLen (x :: key) k
    if matchlen = k.length then
      (n.insert ((x :: key).drop matchlen) val).map (rebuild (short k n) (short k))
    else
      match k.drop matchlen, (x :: key).drop matchlen with
      | a :: k', b :: key' =>
        let split := branch a (insertNil k' n) b (insertNil key' val)
        some (true, if matchlen = 0 then split else short ((x :: key).take matchlen) split)
      | _, _ => none
  | full _, [], val => some (true, val)
  | full children, x :: key, val =>
    ((children x).insert key val).map
      (rebuild (full children) fun nn => full (Function.update children x nn))

/-- The short node that replaces a full node whose only child is `n` at `pos`. -/
def contract (pos : Nibble) (n : Node V) : Node V :=
  match n with
  | short k val => if pos = 16 then short [pos] n else short (pos :: k) val
  | _ => short [pos] n

/-- `delete`'s reduction of a full node that may have a single child left. -/
def reduce (children : Nibble → Node V) : Node V :=
  match (List.finRange 17).filter fun i => !(children i).isNil with
  | [pos] => contract pos (children pos)
  | _ => full children

/-- A short node over what is left of its child, merged with it if that is a short node too. -/
def extend (k : Key) : Node V → Node V
  | short k' val => short (k ++ k') val
  | n => short k n

/-- `delete`: whether the node changed, and the new node. -/
def delete : Node V → Key → Option (Bool × Node V)
  | nil, _ => some (false, nil)
  | value _, _ => some (true, nil)
  | short k n, key =>
    let matchlen := prefixLen key k
    if matchlen < k.length then some (false, short k n)
    else if matchlen = key.length then some (true, nil)
    else (n.delete (key.drop k.length)).map (rebuild (short k n) (extend k))
  | full _, [] => none
  | full children, x :: key =>
    ((children x).delete key).map
      (rebuild (full children) fun nn => reduce (Function.update children x nn))

/-- The minimal form of a node on the way to terminated keys: short nodes are leaves or lead to a
full node, and full nodes have two children at least. -/
inductive Canonical : Node V → Prop
  | nil : Canonical nil
  | leaf {key : Key} {v : V} (ends : Terminated key) : Canonical (short key (value v))
  | extension {key : Key} {children : Nibble → Node V} (nonempty : key ≠ []) (digits : Digits key)
      (below : Canonical (full children)) : Canonical (short key (full children))
  | full {children : Nibble → Node V} (below : ∀ i, i ≠ 16 → Canonical (children i))
      (here : children 16 = Node.nil ∨ ∃ v, children 16 = value v)
      (two : ∃ i j, i ≠ j ∧ children i ≠ Node.nil ∧ children j ≠ Node.nil) : Canonical (full children)

@[simp] theorem get_nil (key : Key) : (nil : Node V).get key = none := rfl
@[simp] theorem get_value (v : V) (key : Key) : (value v).get key = some v := rfl
@[simp] theorem get_full_cons (children : Nibble → Node V) (x : Nibble) (key : Key) :
    (full children).get (x :: key) = (children x).get key := rfl

theorem get_short (k : Key) (n : Node V) (key : Key) :
    (short k n).get key = if k <+: key then n.get (key.drop k.length) else none := by
  rw [get]

@[simp] theorem get_short_append (k : Key) (n : Node V) (key : Key) :
    (short k n).get (k ++ key) = n.get key := by
  simp [get_short]

theorem get_short_eq_none {k key : Key} (other : ¬ k <+: key) : (short k n).get key = none := by
  simp [get_short, other]

theorem get_short_append_append (front k : Key) (n : Node V) (key : Key) :
    (short (front ++ k) n).get (front ++ key) = (short k n).get key := by
  simp [get_short, List.prefix_append_right_inj, ← List.drop_drop]

theorem get_short_cons (x y : Nibble) (k : Key) (n : Node V) (key : Key) :
    (short (x :: k) n).get (y :: key) = if x = y then (short k n).get key else none := by
  split_ifs with same
  · subst same
    exact get_short_append_append [x] k n key
  · exact get_short_eq_none (by simp [List.cons_prefix_cons, same])

/-- A leaf holds a value at its own key only. -/
theorem get_leaf {k key : Key} {v : V} (left : Terminated k) (right : Terminated key) :
    (short k (value v)).get key = if key = k then some v else none := by
  rcases left.eq_or_branch right with rfl | ⟨front, x, y, rest, rest', rfl, rfl, part, -⟩
  · simp [get_short]
  · simp [get_short_append_append, get_short_cons, part, part.symm]

/-- `insertNil` does not show in lookups whether it made a short node. -/
theorem get_insertNil (k : Key) (n : Node V) (key : Key) :
    (insertNil k n).get key = (short k n).get key := by
  unfold insertNil
  split_ifs with empty
  · simp [get_short, empty]
  · rfl

theorem get_branch (left right : Node V) (z : Nibble) (key : Key) : (branch x left y right).get (z :: key) =
      if z = y then right.get key else if z = x then left.get key else none := by
  simp only [branch, get_full_cons, update_apply]
  split_ifs <;> rfl

/-- What may stand below nibble `x` of a full node. -/
def Fits (x : Nibble) (n : Node V) : Prop := if x = 16 then ∃ v, n = value v else Canonical n ∧ n ≠ nil

theorem fits_sixteen : Fits 16 n ↔ ∃ v, n = value v := by simp [Fits]

theorem fits_digit (digit : x ≠ 16) : Fits x n ↔ Canonical n ∧ n ≠ nil := by
  simp [Fits, digit]

theorem Fits.ne_nil (fits : Fits x n) : n ≠ nil := by
  unfold Fits at fits
  split_ifs at fits
  · obtain ⟨v, rfl⟩ := fits
    simp
  · exact fits.2

theorem Canonical.branch {left right : Node V} (part : x ≠ y) (fitsLeft : Fits x left)
    (fitsRight : Fits y right) : Canonical (branch x left y right) := by
  have child : ∀ i, Fits i (update (update (fun _ => Node.nil) x left) y right i) ∨
      update (update (fun _ => (Node.nil : Node V)) x left) y right i = Node.nil := by
    intro i
    by_cases atY : i = y
    · subst atY
      simp [fitsRight]
    · by_cases atX : i = x
      · subst atX
        simp [atY, fitsLeft]
      · simp [atY, atX]
  refine .full (fun i digit => ?_) ?_ ⟨x, y, part, ?_, ?_⟩
  · rcases child i with fits | empty
    · exact ((fits_digit digit).mp fits).1
    · rw [empty]
      exact .nil
  · rcases child 16 with fits | empty
    · exact .inr (fits_sixteen.mp fits)
    · exact .inl empty
  · simpa [part] using fitsLeft.ne_nil
  · simpa using fitsRight.ne_nil

/-- A leaf cut behind nibble `x` fits below `x`. -/
theorem fits_insertNil_value (ends : Terminated (x :: rest)) (v : V) : Fits x (insertNil rest (value v)) := by
  rcases terminated_cons.mp ends with ⟨rfl, rfl⟩ | ⟨digit, ends⟩
  · exact fits_sixteen.mpr ⟨v, rfl⟩
  · have nonempty : rest ≠ [] := by
      rintro rfl
      exact ends
    rw [fits_digit digit, insertNil, if_neg nonempty]
    exact ⟨.leaf ends, by simp⟩

/-- An extension cut behind nibble `x` fits below `x`. -/
theorem fits_insertNil_full {children : Nibble → Node V}
    (digits : Digits (x :: rest)) (canon : Canonical (full children)) : Fits x (insertNil rest (full children)) := by
  rw [fits_digit (digits x (by simp)), insertNil]
  split_ifs with empty
  · exact ⟨canon, by simp⟩
  · exact ⟨.extension empty (fun y mem => digits y (by simp [mem])) canon, by simp⟩

end Node

end KKChain.Trie
