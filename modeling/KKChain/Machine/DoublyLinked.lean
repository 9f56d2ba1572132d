import Mathlib.Data.List.Chain
import Mathlib.Data.List.Nodup

/-! # Doubly linked lists

The cells of a doubly linked list live in a store and name their neighbours by key; a null key stands for none. The
first cell's back pointer may hold anything, as nothing follows it. Adding a cell at the end and taking one out rewrite
the pointers of the neighbours only, so both are said of any new pointers that agree with the old ones elsewhere.
-/

variable {K : Type}

/-- In a chain without repetition, nothing comes before the first element or after the last. -/
theorem List.IsChain.inner {R : K → K → Prop} {l : List K} (chain : l.IsChain R) (nodup : l.Nodup) :
    l.IsChain fun x y => R x y ∧ (x ∈ l ∧ l.getLast? ≠ some x) ∧ y ∈ l ∧ l.head? ≠ some y := by
  induction l with
  | nil => exact .nil
  | cons a l ih =>
    obtain - | ⟨b, l⟩ := l
    · exact .singleton a
    obtain ⟨first, rest⟩ := List.isChain_cons_cons.mp chain
    obtain ⟨fresh, nodup'⟩ := List.nodup_cons.mp nodup
    refine List.isChain_cons_cons.mpr ⟨⟨first, ⟨mem_cons_self, ?_⟩, by simp, ?_⟩, ?_⟩
    · rw [getLast?_cons_cons]
      exact fun last => fresh (mem_of_getLast? last)
    · rw [head?_cons]
      exact fun same => fresh (by simp [Option.some.inj same])
    · refine (ih rest nodup').imp ?_
      rintro x y ⟨related, ⟨memX, last⟩, memY, -⟩
      refine ⟨related, ⟨mem_cons_of_mem _ memX, by rwa [getLast?_cons_cons]⟩, mem_cons_of_mem _ memY, ?_⟩
      rw [head?_cons]
      exact fun same => fresh (Option.some.inj same ▸ memY)

/-- The pointers lead along the list and back. -/
structure Linked (null : K) (next prev : K → K) (l : List K) : Prop where
  nodup : l.Nodup
  null_notMem : null ∉ l
  chain : l.IsChain fun x y => next x = y ∧ prev y = x
  last : ∀ {x}, l.getLast? = some x → next x = null

namespace Linked

variable {null : K} {next prev next' prev' : K → K} {l front back : List K} {x : K}

theorem nil (next prev : K → K) : Linked null next prev [] := ⟨.nil, by simp, .nil, by simp⟩

/-- The next pointer of a cell leads to the rest of the list. -/
theorem next_eq (linked : Linked null next prev (front ++ x :: back)) : next x = back.headD null := by
  obtain - | ⟨y, back⟩ := back
  · exact linked.last (by simp)
  · exact (List.isChain_append_cons_cons.mp linked.chain).2.1.1

theorem prev_eq {y : K} (linked : Linked null next prev (front ++ y :: x :: back)) : prev x = y :=
  (List.isChain_append_cons_cons.mp linked.chain).2.1.2

/-- Pointers that agree with the old ones inside of a part of the list lead along it. -/
theorem chain_congr (nodup : l.Nodup) (chain : l.IsChain fun x y => next x = y ∧ prev y = x)
    (nexts : ∀ {y}, y ∈ l → l.getLast? ≠ some y → next' y = next y)
    (prevs : ∀ {y}, y ∈ l → l.head? ≠ some y → prev' y = prev y) :
    l.IsChain fun x y => next' x = y ∧ prev' y = x := by
  refine (chain.inner nodup).imp ?_
  rintro x y ⟨⟨forth, back⟩, ⟨memX, inner⟩, memY, inner'⟩
  exact ⟨by rw [nexts memX inner, forth], by rw [prevs memY inner', back]⟩

theorem congr (linked : Linked null next prev l) (nexts : ∀ {y}, y ∈ l → next' y = next y)
    (prevs : ∀ {y}, y ∈ l → l.head? ≠ some y → prev' y = prev y) : Linked null next' prev' l where
  nodup := linked.nodup
  null_notMem := linked.null_notMem
  chain := chain_congr linked.nodup linked.chain (fun mem _ => nexts mem) prevs
  last end_ := by rw [nexts (List.mem_of_getLast? end_), linked.last end_]

/-- A new cell at the end. -/
theorem concat (linked : Linked null next prev l) (fresh : x ∉ l) (some_ : x ≠ null) (own : next' x = null)
    (link : ∀ {y}, l.getLast? = some y → next' y = x ∧ prev' x = y)
    (nexts : ∀ {y}, y ∈ l → l.getLast? ≠ some y → next' y = next y) (prevs : ∀ {y}, y ∈ l → prev' y = prev y) :
    Linked null next' prev' (l ++ [x]) where
  nodup := List.nodup_append.mpr ⟨linked.nodup, List.nodup_singleton x, by
    intro y mem z own same
    rw [List.mem_singleton.mp own] at same
    exact fresh (same ▸ mem)⟩
  null_notMem := by
    rw [List.mem_append, List.mem_singleton, not_or]
    exact ⟨linked.null_notMem, some_.symm⟩
  chain := by
    refine List.isChain_append.mpr ⟨chain_congr linked.nodup linked.chain nexts fun mem _ => prevs mem,
      .singleton x, ?_⟩
    intro y last z first
    obtain rfl : x = z := by simpa using first
    exact link last
  last end_ := by
    obtain rfl : x = _ := by simpa using end_
    exact own

/-- A cell is taken out. -/
theorem remove (front : List K) (linked : Linked null next prev (front ++ x :: back))
    (link : ∀ {y}, front.getLast? = some y → next' y = back.headD null)
    (backlink : ∀ {y z}, front.getLast? = some y → back.head? = some z → prev' z = y)
    (nexts : ∀ {y}, y ∈ front ++ back → front.getLast? ≠ some y → next' y = next y)
    (prevs : ∀ {y}, y ∈ front ++ back → back.head? ≠ some y → prev' y = prev y) :
    Linked null next' prev' (front ++ back) := by
  obtain ⟨before, after, apart⟩ := List.nodup_append.mp linked.nodup
  obtain ⟨-, after⟩ := List.nodup_cons.mp after
  have outside : ∀ {y}, y ∈ back → front.getLast? ≠ some y := fun mem last =>
    apart _ (List.mem_of_getLast? last) _ (.tail _ mem) rfl
  obtain ⟨chain, rest, -⟩ := List.isChain_append.mp linked.chain
  refine ⟨linked.nodup.sublist (by simp), fun mem => linked.null_notMem ?_, ?_, ?_⟩
  · rw [List.mem_append, List.mem_cons]
    exact (List.mem_append.mp mem).imp_right .inr
  · refine List.isChain_append.mpr ⟨?_, ?_, fun y last z first => ⟨?_, backlink last first⟩⟩
    · refine chain_congr before chain (fun mem => nexts (List.mem_append_left _ mem)) fun mem _ => ?_
      refine prevs (List.mem_append_left _ mem) fun first => ?_
      exact apart _ mem _ (.tail _ (List.mem_of_head? first)) rfl
    · refine chain_congr after rest.tail (fun mem _ => nexts (List.mem_append_right _ mem) (outside mem)) ?_
      exact fun mem => prevs (List.mem_append_right _ mem)
    · rw [link last]
      cases back <;> simp_all
  · intro y end_
    by_cases empty : back = []
    · subst empty
      rw [link (by simpa using end_), List.headD_nil]
    · rw [List.getLast?_append_of_ne_nil _ empty] at end_
      have mem := List.mem_of_getLast? end_
      rw [nexts (List.mem_append_right _ mem) (outside mem)]
      refine linked.last ?_
      rw [List.getLast?_append_of_ne_nil _ (List.cons_ne_nil x back), List.getLast?_cons]
      simp [end_]

/-- The cells met along the next pointers. -/
def walk [DecidableEq K] (null : K) (next : K → K) : ℕ → K → List K
  | 0, _ => []
  | fuel + 1, x => if x = null then [] else x :: walk null next fuel (next x)

/-- The walk from the first cell is the list. -/
theorem walk_eq [DecidableEq K] (linked : Linked null next prev l) {fuel : ℕ} (enough : l.length ≤ fuel) :
    walk null next fuel (l.headD null) = l := by
  suffices rest : ∀ back front, l = front ++ back → back.length ≤ fuel →
    walk null next fuel (back.headD null) = back from
    rest l [] rfl enough
  clear enough
  intro back
  induction back generalizing fuel with
  | nil =>
    intro front _ _
    cases fuel with
    | zero => rfl
    | succ fuel => exact if_pos rfl
  | cons x back ih =>
    intro front shape enough
    subst shape
    obtain - | fuel := fuel
    · simp at enough
    have some_ : x ≠ null := fun none => linked.null_notMem (by simp [none])
    rw [List.headD_cons, walk, if_neg some_, linked.next_eq,
      ih (front ++ [x]) (by simp) (by simpa using enough)]

end Linked
