import Mathlib.Data.List.Basic
import Mathlib.Order.Lattice

/-! # Binary heaps

A list is a heap if no entry is before its parent, the entry at half the position. An entry that may be out of place
moves up or down by changing places with its parent or its first child. `Heap` carries the order. Its operations are
described by the entries up to order, and by the first entry, which is before or level with all of them.
-/

namespace BinaryHeap

open List Option

variable {α κ : Type*} [LinearOrder κ] (key : α → κ) {fuel : ℕ}

/-- The entries at two positions change places. -/
def swap (l : List α) (i j : ℕ) : List α :=
  match l[i]?, l[j]? with
  | some x, some y => (l.set i y).set j x
  | _, _ => l

/-- The entry at a position moves up until its parent is not after it. -/
def up : ℕ → List α → ℕ → List α
  | 0, l, _ => l
  | fuel + 1, l, j =>
    match l[j]?, l[(j - 1) / 2]? with
    | some x, some p => if key x < key p then up fuel (swap l ((j - 1) / 2) j) ((j - 1) / 2) else l
    | _, _ => l

def firstChild (l : List α) (i : ℕ) : Option (ℕ × α) :=
  match l[2 * i + 1]?, l[2 * i + 2]? with
  | none, _ => none
  | some x, none => some (2 * i + 1, x)
  | some x, some y => if key y < key x then some (2 * i + 2, y) else some (2 * i + 1, x)

/-- The entry at a position moves down until it is not after its children. -/
def down : ℕ → List α → ℕ → List α
  | 0, l, _ => l
  | fuel + 1, l, i =>
    match l[i]?, firstChild key l i with
    | some x, some (j, y) => if key y < key x then down fuel (swap l i j) j else l
    | _, _ => l

/-- The positions below `i` are brought into order, the last one first. -/
def heapify : ℕ → List α → List α
  | 0, l => l
  | i + 1, l => heapify i (down key l.length l i)

/-- The entry at a position leaves: the last one takes its place and moves to where it belongs. -/
def removeAt (l : List α) (i : ℕ) : List α :=
  let l' := (swap l i (l.length - 1)).dropLast
  up key (i + 1) (down key l'.length l' i) i

/-- The entry at a position is not before its parent. -/
def Ordered (l : List α) (c : ℕ) : Prop := ∀ x p, l[c]? = some x → l[(c - 1) / 2]? = some p → key p ≤ key x

def IsHeap (l : List α) : Prop := ∀ c, Ordered key l c

variable {key} in
/-- What is read twice at a position is one entry. -/
theorem key_le_of_read {l : List α} {i : ℕ} {x y : α} (first : l[i]? = some x) (second : l[i]? = some y) :
    key x ≤ key y :=
  (congrArg key (some.inj (first.symm.trans second))).le

section Swap

variable {l : List α} {i j : ℕ} {x y : α}

theorem swap_eq (first : l[i]? = some x) (second : l[j]? = some y) : swap l i j = (l.set i y).set j x := by
  rw [swap, first, second]

theorem getElem?_swap (first : l[i]? = some x) (second : l[j]? = some y) (k : ℕ) :
    (swap l i j)[k]? = if k = j then some x else if k = i then some y else l[k]? := by
  have bound := (List.getElem?_eq_some_iff.mp first).1
  have bound' := (List.getElem?_eq_some_iff.mp second).1
  rw [swap_eq first second, getElem?_set, length_set, getElem?_set]
  simp only [eq_comm (a := j), eq_comm (a := i), bound, bound', if_true]

theorem swap_perm (l : List α) (i j : ℕ) : (swap l i j).Perm l := by
  unfold swap
  split
  · rename_i x y first second
    obtain ⟨bound, rfl⟩ := List.getElem?_eq_some_iff.mp first
    obtain ⟨bound', rfl⟩ := List.getElem?_eq_some_iff.mp second
    exact set_set_perm bound bound'
  · exact .refl l

end Swap

theorem up_perm (fuel : ℕ) (l : List α) (j : ℕ) : (up key fuel l j).Perm l := by
  induction fuel generalizing l j with
  | zero => exact .refl l
  | succ fuel ih =>
    rw [up]
    split
    · split
      · exact (ih _ _).trans (swap_perm ..)
      · exact .refl l
    · exact .refl l

theorem down_perm (fuel : ℕ) (l : List α) (i : ℕ) : (down key fuel l i).Perm l := by
  induction fuel generalizing l i with
  | zero => exact .refl l
  | succ fuel ih =>
    rw [down]
    split
    · split
      · exact (ih _ _).trans (swap_perm ..)
      · exact .refl l
    · exact .refl l

theorem heapify_perm (i : ℕ) (l : List α) : (heapify key i l).Perm l := by
  induction i generalizing l with
  | zero => exact .refl l
  | succ i ih => exact (ih _).trans (down_perm ..)

/-- The entry that leaves and those that stay. -/
theorem removeAt_perm {l : List α} {i : ℕ} {x : α} (found : l[i]? = some x) : l.Perm (x :: removeAt key l i) := by
  have bound := (List.getElem?_eq_some_iff.mp found).1
  obtain ⟨y, last⟩ : ∃ y, l[l.length - 1]? = some y := ⟨_, List.getElem?_eq_getElem (by omega)⟩
  have moved : (swap l i (l.length - 1)).getLast? = some x := by
    rw [getLast?_eq_getElem?, (swap_perm ..).length_eq, getElem?_swap found last, if_pos rfl]
  have split := dropLast_append_getLast? x moved
  refine (swap_perm l i (l.length - 1)).symm.trans ?_
  rw [← split]
  refine (perm_append_singleton ..).trans (Perm.cons x ?_)
  exact ((up_perm ..).trans (down_perm ..)).symm

section Up

variable {key} {l : List α} {j : ℕ}

/-- What moving up needs: only the entry at `j` may be before its parent, and its children are not. -/
structure Rises (key : α → κ) (l : List α) (j : ℕ) : Prop where
  rest : ∀ c ≠ j, Ordered key l c
  grand : 0 < j → ∀ c, 0 < c → (c - 1) / 2 = j → ∀ x g, l[c]? = some x → l[(j - 1) / 2]? = some g → key g ≤ key x

theorem up_of_ordered (ordered : Ordered key l j) (fuel : ℕ) : up key fuel l j = l := by
  cases fuel with
  | zero => rfl
  | succ fuel =>
    rw [up]
    split
    · rename_i x p found parent
      rw [if_neg (not_lt.mpr (ordered x p found parent))]
    · rfl

/-- After changing places with its parent, the entry at the parent's position is the only one that may be out of place.
-/
theorem Rises.step (rises : Rises key l j) {x p : α} (found : l[j]? = some x) (parent : l[(j - 1) / 2]? = some p)
    (before : key x < key p) : Rises key (swap l ((j - 1) / 2) j) ((j - 1) / 2) := by
  have positive : 0 < j := by
    rcases Nat.eq_zero_or_pos j with rfl | positive
    · exact absurd (key_le_of_read parent found) before.not_ge
    · exact positive
  have read := getElem?_swap parent found
  -- the siblings of `j` are not before `p`, which is after `x`
  have sibling : ∀ c, 0 < c → (c - 1) / 2 = (j - 1) / 2 → ∀ z, (swap l ((j - 1) / 2) j)[c]? = some z →
      key p ≤ key z := by
    intro c above same z at_
    by_cases equal : c = j
    · rw [read, if_pos equal] at at_
      exact (congrArg key (some.inj at_)).le
    · rw [read, if_neg equal, if_neg (by omega)] at at_
      exact rises.rest c equal z p at_ (same ▸ parent)
  constructor
  · intro c other z q at_ above
    rcases Nat.eq_zero_or_pos c with rfl | pos
    · exact key_le_of_read above at_
    by_cases same : (c - 1) / 2 = (j - 1) / 2
    · rw [read, if_neg (by omega), if_pos same] at above
      exact (congrArg key (some.inj above)).ge.trans (before.le.trans (sibling c pos same z at_))
    · rw [read, if_neg (by rintro rfl; exact same rfl), if_neg other] at at_
      by_cases below : (c - 1) / 2 = j
      · rw [read, if_pos below] at above
        exact (congrArg key (some.inj above)).ge.trans (rises.grand positive c pos below z p at_ parent)
      · rw [read, if_neg below, if_neg same] at above
        exact rises.rest c (by rintro rfl; exact same rfl) z q at_ above
  · intro pos c above same z g at_ grand
    rw [read, if_neg (by omega), if_neg (by omega)] at grand
    exact (rises.rest ((j - 1) / 2) (by omega) p g parent grand).trans (sibling c above same z at_)

theorem isHeap_up (rises : Rises key l j) (enough : j < fuel) : IsHeap key (up key fuel l j) := by
  induction fuel generalizing l j with
  | zero => omega
  | succ fuel ih =>
    have stays (ordered : Ordered key l j) : IsHeap key l := by
      intro c
      by_cases equal : c = j
      · exact equal ▸ ordered
      · exact rises.rest c equal
    rw [up]
    split
    · rename_i x p found parent
      by_cases before : key x < key p
      · rw [if_pos before]
        have positive : j ≠ 0 := by
          rintro rfl
          exact absurd (key_le_of_read parent found) before.not_ge
        exact ih (rises.step found parent before) (by omega)
      · rw [if_neg before]
        refine stays fun x' p' found' parent' => ?_
        cases found'.symm.trans found
        cases parent'.symm.trans parent
        exact not_lt.mp before
    · rename_i none
      exact stays fun x p found parent => (none x p found parent).elim

end Up

section Down

variable {key} {l : List α} {lo i j : ℕ}

/-- What moving down needs, for the positions whose parent is at `lo` or after: only the children of `i` may be before
it, and they are not before its parent. -/
structure Sinks (key : α → κ) (lo : ℕ) (l : List α) (i : ℕ) : Prop where
  low : lo ≤ i
  rest : ∀ c, lo ≤ (c - 1) / 2 → (c - 1) / 2 ≠ i → Ordered key l c
  grand : 0 < i → lo ≤ (i - 1) / 2 → ∀ c, 0 < c → (c - 1) / 2 = i →
    ∀ x g, l[c]? = some x → l[(i - 1) / 2]? = some g → key g ≤ key x

theorem firstChild_eq_some {y : α} (chosen : firstChild key l i = some (j, y)) :
    (j = 2 * i + 1 ∨ j = 2 * i + 2) ∧ l[j]? = some y ∧
      ∀ c, 0 < c → (c - 1) / 2 = i → ∀ z, l[c]? = some z → key y ≤ key z := by
  have children (c : ℕ) (above : 0 < c) (same : (c - 1) / 2 = i) : c = 2 * i + 1 ∨ c = 2 * i + 2 := by omega
  unfold firstChild at chosen
  split at chosen
  · cases chosen
  · rename_i x first second
    cases chosen
    refine ⟨.inl rfl, first, fun c above same z at_ => ?_⟩
    rcases children c above same with rfl | rfl
    · exact key_le_of_read first at_
    · simp [second] at at_
  · rename_i x y' first second
    split at chosen
    · rename_i less
      cases chosen
      refine ⟨.inr rfl, second, fun c above same z at_ => ?_⟩
      rcases children c above same with rfl | rfl
      · exact less.le.trans (key_le_of_read first at_)
      · exact key_le_of_read second at_
    · rename_i less
      cases chosen
      refine ⟨.inl rfl, first, fun c above same z at_ => ?_⟩
      rcases children c above same with rfl | rfl
      · exact key_le_of_read first at_
      · exact (not_lt.mp less).trans (key_le_of_read second at_)

theorem firstChild_eq_none (absent : firstChild key l i = none) {c : ℕ} (above : 0 < c) (same : (c - 1) / 2 = i) :
    l[c]? = none := by
  unfold firstChild at absent
  split at absent
  · rename_i first
    rw [getElem?_eq_none_iff] at first ⊢
    omega
  · cases absent
  · split at absent <;> cases absent

theorem down_of_ordered {x : α} (found : l[i]? = some x)
    (below : ∀ c, 0 < c → (c - 1) / 2 = i → ∀ z, l[c]? = some z → key x ≤ key z) (fuel : ℕ) :
    down key fuel l i = l := by
  cases fuel with
  | zero => rfl
  | succ fuel =>
    rw [down]
    split
    · rename_i x' j y found' chosen
      cases found'.symm.trans found
      obtain ⟨side, at_, -⟩ := firstChild_eq_some chosen
      rw [if_neg (not_lt.mpr (below j (by omega) (by omega) y at_))]
    · rfl

/-- After changing places with its first child, the entry at the child's position is the only one whose children may be
out of place. -/
theorem Sinks.step (sinks : Sinks key lo l i) {x y : α} (found : l[i]? = some x)
    (chosen : firstChild key l i = some (j, y)) (before : key y < key x) : Sinks key lo (swap l i j) j := by
  obtain ⟨side, child, least⟩ := firstChild_eq_some chosen
  have read := getElem?_swap found child
  have low := sinks.low
  refine ⟨by omega, ?_, ?_⟩
  · intro c reach other z q at_ above
    rcases Nat.eq_zero_or_pos c with rfl | pos
    · exact key_le_of_read above at_
    by_cases same : (c - 1) / 2 = i
    · rw [read, if_neg other, if_pos same] at above
      cases above
      by_cases equal : c = j
      · rw [read, if_pos equal] at at_
        cases at_
        exact before.le
      · rw [read, if_neg equal, if_neg (by omega)] at at_
        exact least c pos same z at_
    · rw [read, if_neg other, if_neg same] at above
      rw [read, if_neg (by rintro rfl; omega)] at at_
      by_cases equal : c = i
      · rw [if_pos equal] at at_
        cases at_
        subst equal
        exact sinks.grand pos reach j (by omega) (by omega) y q child above
      · rw [if_neg equal] at at_
        exact sinks.rest c reach same z q at_ above
  · intro pos reach c above same z g at_ grand
    have parent : (j - 1) / 2 = i := by omega
    rw [read, if_neg (by omega), if_pos parent] at grand
    rw [read, if_neg (by omega), if_neg (by omega)] at at_
    cases grand
    exact sinks.rest c (by omega) (by omega) z y at_ (same ▸ child)

theorem ordered_down (sinks : Sinks key lo l i) (enough : l.length ≤ fuel + i) :
    ∀ c, lo ≤ (c - 1) / 2 → Ordered key (down key fuel l i) c := by
  induction fuel generalizing l i with
  | zero =>
    intro c reach
    show Ordered key l c
    by_cases same : (c - 1) / 2 = i
    · intro x p _ parent
      have := (List.getElem?_eq_some_iff.mp parent).1
      omega
    · exact sinks.rest c reach same
  | succ fuel ih =>
    -- the children are not before the entry, if it stays
    have stays (ordered : ∀ x, l[i]? = some x → ∀ c, 0 < c → (c - 1) / 2 = i → ∀ z, l[c]? = some z → key x ≤ key z) :
        ∀ c, lo ≤ (c - 1) / 2 → Ordered key l c := by
      intro c reach
      by_cases same : (c - 1) / 2 = i
      · intro z x at_ parent
        rcases Nat.eq_zero_or_pos c with rfl | pos
        · exact key_le_of_read parent at_
        · exact ordered x (same ▸ parent) c pos same z at_
      · exact sinks.rest c reach same
    rw [down]
    split
    · rename_i x j y found chosen
      obtain ⟨side, child, least⟩ := firstChild_eq_some chosen
      split
      · rename_i before
        refine ih (sinks.step found chosen before) ?_
        rw [(swap_perm ..).length_eq]
        omega
      · rename_i before
        refine stays fun x' found' c above same z at_ => ?_
        cases found'.symm.trans found
        exact (not_lt.mp before).trans (least c above same z at_)
    · rename_i none
      refine stays fun x found c above same z at_ => ?_
      cases chosen : firstChild key l i with
      | none => simp [firstChild_eq_none chosen above same] at at_
      | some child => exact (none x child.1 child.2 found chosen).elim

end Down

variable {key}

theorem isHeap_heapify {i : ℕ} {l : List α} (ordered : ∀ c, i ≤ (c - 1) / 2 → Ordered key l c) :
    IsHeap key (heapify key i l) := by
  induction i generalizing l with
  | zero => exact fun c => ordered c (Nat.zero_le _)
  | succ i ih =>
    refine ih
      (ordered_down ⟨Nat.le_refl i, fun c reach other => ordered c (by omega), fun pos reach => by omega⟩ (by omega))

theorem isHeap_init (l : List α) : IsHeap key (heapify key (l.length / 2) l) := by
  refine isHeap_heapify fun c reach x p at_ _ => ?_
  have := (List.getElem?_eq_some_iff.mp at_).1
  rcases Nat.eq_zero_or_pos c with rfl | pos
  · rename_i parent
    exact key_le_of_read parent at_
  · omega

theorem isHeap_push {l : List α} (heap : IsHeap key l) (x : α) :
    IsHeap key (up key (l.length + 1) (l ++ [x]) l.length) := by
  refine isHeap_up ⟨?_, ?_⟩ (by omega)
  · intro c other z p at_ parent
    have bound := (List.getElem?_eq_some_iff.mp at_).1
    rw [length_append, length_singleton] at bound
    rw [getElem?_append_left (by omega)] at at_ parent
    exact heap c z p at_ parent
  · intro pos c above same z g at_
    have bound := (List.getElem?_eq_some_iff.mp at_).1
    rw [length_append, length_singleton] at bound
    omega

theorem isHeap_removeAt {l : List α} (heap : IsHeap key l) {i : ℕ} {x : α} (found : l[i]? = some x) :
    IsHeap key (removeAt key l i) := by
  have bound := (List.getElem?_eq_some_iff.mp found).1
  obtain ⟨y, last⟩ : ∃ y, l[l.length - 1]? = some y := ⟨_, List.getElem?_eq_getElem (by omega)⟩
  set l' := (swap l i (l.length - 1)).dropLast with dropped
  have read (k : ℕ) : l'[k]? =
      if k < l.length - 1 then if k = i then some y else l[k]? else none := by
    rw [dropped, List.getElem?_dropLast, (swap_perm ..).length_eq]
    by_cases inside : k < l.length - 1
    · rw [if_pos inside, if_pos inside, getElem?_swap found last, if_neg (by omega)]
    · rw [if_neg inside, if_neg inside]
  -- an entry that is not the moved one is where it was
  have kept {k : ℕ} {z : α} (at_ : l'[k]? = some z) (other : k ≠ i) : l[k]? = some z := by
    rw [read, if_neg other] at at_
    exact (Option.ite_none_right_eq_some.mp at_).2
  have rest : ∀ c ≠ i, (c - 1) / 2 ≠ i → Ordered key l' c :=
    fun c here above z p at_ parent => heap c z p (kept at_ here) (kept parent above)
  have below : ∀ c, 0 < c → (c - 1) / 2 = i → ∀ z, l'[c]? = some z → key x ≤ key z :=
    fun c above same z at_ => heap c z x (kept at_ (by omega)) (same ▸ found)
  have grand : 0 < i → ∀ c, 0 < c → (c - 1) / 2 = i → ∀ z g, l'[c]? = some z →
      l'[(i - 1) / 2]? = some g → key g ≤ key z :=
    fun pos c above same z g at_ parent =>
      (heap i x g found (kept parent (by omega))).trans (below c above same z at_)
  rw [removeAt]
  by_cases ordered : Ordered key l' i
  · -- the moved entry belongs here or below
    have sinks : Sinks key 0 l' i :=
      ⟨Nat.zero_le _, fun c _ other => if here : c = i then here ▸ ordered
        else rest c here other, fun pos _ => grand pos⟩
    have heap' : IsHeap key (down key l'.length l' i) :=
      fun c => ordered_down sinks (by omega) c (Nat.zero_le _)
    show IsHeap key (up key (i + 1) _ i)
    rwa [up_of_ordered (heap' i)]
  · -- the moved entry is before its parent, and so before its children
    unfold Ordered at ordered
    push Not at ordered
    obtain ⟨z, p, at_, parent, before⟩ := ordered
    have pos : 0 < i := by
      rcases Nat.eq_zero_or_pos i with rfl | pos
      · exact absurd (key_le_of_read parent at_) before.not_ge
      · exact pos
    have first : ∀ c, 0 < c → (c - 1) / 2 = i → ∀ w, l'[c]? = some w → key z ≤ key w :=
      fun c above same w there => before.le.trans (grand pos c above same w p there parent)
    show IsHeap key (up key (i + 1) (down key _ l' i) i)
    rw [down_of_ordered at_ first]
    refine isHeap_up ⟨fun c here => ?_, fun pos => grand pos⟩ (by omega)
    by_cases same : (c - 1) / 2 = i
    · intro w q there above
      rcases Nat.eq_zero_or_pos c with rfl | pos
      · exact key_le_of_read above there
      · cases at_.symm.trans (same ▸ above)
        exact first c pos same w there
    · exact rest c here same

/-- The first entry of a heap is before or level with all of them. -/
theorem IsHeap.le_of_mem {l : List α} (heap : IsHeap key l) {r x : α} (root : l[0]? = some r) (mem : x ∈ l) :
    key r ≤ key x := by
  have all : ∀ (c : ℕ) (z : α), l[c]? = some z → key r ≤ key z := by
    intro c
    induction c using Nat.strongRecOn with
    | ind c ih =>
      intro z at_
      rcases Nat.eq_zero_or_pos c with rfl | pos
      · exact key_le_of_read root at_
      · have bound := (List.getElem?_eq_some_iff.mp at_).1
        obtain ⟨p, parent⟩ : ∃ p, l[(c - 1) / 2]? = some p := ⟨_, getElem?_eq_getElem (by omega)⟩
        exact (ih _ (by omega) p parent).trans (heap c z p at_ parent)
  obtain ⟨c, at_⟩ := getElem?_of_mem mem
  exact all c x at_

end BinaryHeap

open BinaryHeap

/-- A list in heap order. -/
structure Heap {α κ : Type*} [LinearOrder κ] (key : α → κ) where
  entries : List α
  isHeap : IsHeap key entries

namespace Heap

variable {α κ : Type*} [LinearOrder κ] {key : α → κ}

def empty : Heap key := ⟨[], fun _ x _ at_ => by simp at at_⟩

def init (l : List α) : Heap key := ⟨heapify key (l.length / 2) l, isHeap_init l⟩

def push (h : Heap key) (x : α) : Heap key :=
  ⟨up key (h.entries.length + 1) (h.entries ++ [x]) h.entries.length, isHeap_push h.isHeap x⟩

/-- `heap.Remove`; out of range nothing happens. -/
def remove (h : Heap key) (i : ℕ) : Heap key :=
  match found : h.entries[i]? with
  | none => h
  | some _ => ⟨removeAt key h.entries i, isHeap_removeAt h.isHeap found⟩

def root (h : Heap key) : Option α := h.entries[0]?

/-- `heap.Pop`: the root, and the heap without it. -/
def pop (h : Heap key) : Option (α × Heap key) := h.root.map fun x => (x, h.remove 0)

variable (h : Heap key) {x y : α}

theorem entries_init (l : List α) : (init l : Heap key).entries.Perm l := heapify_perm ..

theorem entries_push (x : α) : (h.push x).entries.Perm (x :: h.entries) :=
  (up_perm ..).trans (List.perm_append_singleton ..)

variable {h} {h' : Heap key}

theorem entries_remove {i : ℕ} (found : h.entries[i]? = some x) : h.entries.Perm (x :: (h.remove i).entries) := by
  rw [remove]
  split
  · rename_i absent
    rw [absent] at found
    cases found
  · exact removeAt_perm key found

theorem root_eq_none : h.root = none ↔ h.entries = [] := by
  rw [root, List.getElem?_eq_none_iff, Nat.le_zero, List.length_eq_zero_iff]

theorem root_le (root : h.root = some x) (mem : y ∈ h.entries) : key x ≤ key y := h.isHeap.le_of_mem root mem

theorem pop_eq_none : h.pop = none ↔ h.entries = [] := by rw [pop, Option.map_eq_none_iff, root_eq_none]

theorem root_of_pop (popped : h.pop = some (x, h')) : h.root = some x := by
  obtain ⟨r, root, rest⟩ := Option.map_eq_some_iff.mp popped
  rw [root, (Prod.mk.inj rest).1]

theorem entries_pop (popped : h.pop = some (x, h')) : h.entries.Perm (x :: h'.entries) := by
  have root := root_of_pop popped
  rw [pop, root, Option.map_some, Option.some.injEq, Prod.mk.injEq] at popped
  exact popped.2 ▸ entries_remove root

theorem pop_le (popped : h.pop = some (x, h')) (mem : y ∈ h.entries) : key x ≤ key y :=
  root_le (root_of_pop popped) mem

end Heap
