import KKChain.Core.Reorg
import KKChain.TxPool.Promotion

/-! # The pool after a change of the head

`reset` offers the transactions of a branch that was left again. It brings the two heads to one number, goes down with
both until their hashes are the same, and collects the transactions of the blocks it passes.
-/

namespace KKChain

open Lineage List

variable {B : Backend}

namespace BlockChain

variable (bc : BlockChain B)

/-- The loops of `reset` that go down one branch to a number and collect its transactions. Nothing if a parent is
missing. -/
def collectTo (target : ℕ) : ℕ → List Transaction → Block → Except (Fault PoolError) (Option (List Transaction × Block))
  | 0, _, _ => .error .diverges
  | fuel + 1, txs, block =>
    if target < block.numberU64 then
      match bc.parentOf block with
      | none => .ok none
      | some parent => collectTo target fuel (txs ++ block.txs) parent
    else .ok (some (txs, block))

/-- The loop of `reset` that goes down both branches. -/
def collectBoth : ℕ → List Transaction → List Transaction → Block → Block →
    Except (Fault PoolError) (Option (List Transaction × List Transaction))
  | 0, _, _, _, _ => .error .diverges
  | fuel + 1, discarded, included, rem, add =>
    if rem.hash B.crypto ≠ add.hash B.crypto then
      match bc.parentOf rem with
      | none => .ok none
      | some rem' =>
        match bc.parentOf add with
        | none => .ok none
        | some add' => collectBoth fuel (discarded ++ rem.txs) (included ++ add.txs) rem' add'
    else .ok (some (discarded, included))

/-- The loops of `reset`, and the transactions that are in the old branch only. -/
def collect (fuel : ℕ) (rem add : Block) : Except (Fault PoolError) (Option (List Transaction)) := do
  match ← bc.collectTo add.numberU64 fuel [] rem with
  | none => .ok none
  | some (discarded, rem) =>
    match ← bc.collectTo rem.numberU64 fuel [] add with
    | none => .ok none
    | some (included, add) =>
      match ← bc.collectBoth fuel discarded included rem add with
      | none => .ok none
      | some (discarded, included) => .ok (some (txDifference B.crypto discarded included))

/-- The distance of two numbers, computed with 64-bit floats. -/
def reorgDepth (old new : ℕ) : ℕ := roundEven 53 ((roundEven 53 old : ℤ) - roundEven 53 new).natAbs

/-- The transactions to add again; nothing if a branch is not rooted. A head that is not stored is dereferenced. -/
def reinject (fuel : ℕ) (oldHead newHead : Header) : Except (Fault PoolError) (Option (List Transaction)) :=
  if oldHead.hashOf B.crypto ≠ newHead.parentHash then
    if 64 < reorgDepth oldHead.numberU64 newHead.numberU64 then .ok (some [])
    else
      match bc.getBlock (oldHead.hashOf B.crypto) oldHead.numberU64,
        bc.getBlock (newHead.hashOf B.crypto) newHead.numberU64 with
      | some rem, some add => bc.collect fuel rem add
      | _, _ => .error .panic
  else .ok (some [])

/-- The first part of `reset`: what is added to the pool again, with the new head and its state. Nothing if `reset`
returns before. -/
def offer (fuel : ℕ) (oldHead newHead : Option Header) :
    Except (Fault PoolError) (Option (List Transaction × Header × B.State)) := do
  let txs ← match oldHead, newHead with
    | none, _ => .ok (some [])
    | some _, none => .error .panic
    | some old, some new => bc.reinject fuel old new
  match txs with
  | none => .ok none
  | some txs =>
    let head := newHead.getD bc.currentBlock.header
    match B.openState bc.stateDb head.stateRoot with
    | .error (.error _) => .ok none
    | .error _ => .error .panic
    | .ok state => .ok (some (txs, head, state))

/-- The blocks of two branches. -/
def Branches (old new : Block) : Set Block := {x | bc.AncestorOf x old ∨ bc.AncestorOf x new}

/-- Two blocks of one tree, all of whose ancestors are stored. The parent of a block is the block whose hash it names,
one number below it, and blocks are told apart by their hashes. -/
structure Tree (old new : Block) : Prop where
  stored : ∀ {x}, x ∈ bc.Branches old new → bc.getBlock (x.hash B.crypto) x.numberU64 = some x
  parent : ∀ {x}, x ∈ bc.Branches old new → x.numberU64 ≠ 0 →
    ∃ p, bc.parentOf x = some p ∧ x.numberU64 = p.numberU64 + 1
  root : ∀ {x}, x ∈ bc.Branches old new → x.numberU64 = 0 → bc.parentOf x = none
  linked : ∀ {x y}, x ∈ bc.Branches old new → y ∈ bc.Branches old new → y.hash B.crypto = x.header.parentHash →
    bc.parentOf x = some y
  apart : ∀ {x y}, x ∈ bc.Branches old new → y ∈ bc.Branches old new → x.hash B.crypto = y.hash B.crypto → x = y
  shared : (Common bc.parentOf old new).Nonempty

variable {bc} {old new x last block : Block} {blocks : List Block} {fuel target : ℕ}
    {txs discarded included : List Transaction}

namespace Tree

theorem graded (tree : bc.Tree old new) : Graded bc.parentOf Block.numberU64 (bc.Branches old new) where
  closed inside step := inside.imp (fun lower => lower.trans (.up step .refl)) fun lower => lower.trans (.up step .refl)
  height {x p} inside step := by
    have positive : x.numberU64 ≠ 0 := fun zero => by
      rw [tree.root inside zero] at step
      cases step
    obtain ⟨p', read, number⟩ := tree.parent inside positive
    rw [number, Option.some.inj (step.symm.trans read)]

theorem symm (tree : bc.Tree old new) : bc.Tree new old where
  stored inside := tree.stored inside.symm
  parent inside := tree.parent inside.symm
  root inside := tree.root inside.symm
  linked first second := tree.linked first.symm second.symm
  apart first second := tree.apart first.symm second.symm
  shared := common_comm old new ▸ tree.shared

/-- The tree below an ancestor of one of the blocks that has the same ancestors in common. -/
theorem below (tree : bc.Tree old new) (lower : bc.AncestorOf x old)
    (same : Common bc.parentOf old new = Common bc.parentOf x new) :
    bc.Tree x new := by
  have inside : ∀ {y}, y ∈ bc.Branches x new → y ∈ bc.Branches old new := fun mem =>
    mem.imp_left fun ancestor => lower.trans ancestor
  exact {
    stored := fun mem => tree.stored (inside mem)
    parent := fun mem => tree.parent (inside mem)
    root := fun mem => tree.root (inside mem)
    linked := fun first second => tree.linked (inside first) (inside second)
    apart := fun first second => tree.apart (inside first) (inside second)
    shared := same ▸ tree.shared }

/-- A block that is not the other one and not below it has a parent. -/
theorem step (tree : bc.Tree old new) (apart : old ≠ new) (high : new.numberU64 ≤ old.numberU64) :
    ∃ p, bc.parentOf old = some p ∧ old.numberU64 = p.numberU64 + 1 ∧ bc.Tree p new ∧
      Common bc.parentOf old new = Common bc.parentOf p new := by
  have positive : old.numberU64 ≠ 0 := fun zero => by
    have none := common_eq_empty tree.graded (.inl .refl) (.inr .refl) apart high (tree.root (.inl .refl) zero)
    exact absurd none tree.shared.ne_empty
  obtain ⟨p, read, number⟩ := tree.parent (.inl .refl) positive
  have same := common_parent tree.graded (.inl .refl) (.inr .refl) apart high read
  exact ⟨p, read, number, tree.below (.up read .refl) same, same⟩

/-- One branch is followed down to the number of the other block. -/
theorem collectTo (tree : bc.Tree old new) (enough : old.numberU64 < fuel) :
    ∃ blocks last, Descends bc last blocks old ∧ last.numberU64 = min old.numberU64 new.numberU64 ∧ bc.Tree last new ∧
      Common bc.parentOf old new = Common bc.parentOf last new ∧
      bc.collectTo new.numberU64 fuel txs old = .ok (some (txs ++ blocks.flatMap Block.txs, last)) := by
  induction fuel generalizing old txs with
  | zero => omega
  | succ fuel ih =>
    rw [BlockChain.collectTo]
    by_cases higher : new.numberU64 < old.numberU64
    · obtain ⟨p, read, number, tree', same⟩ := tree.step (fun same => by simp [same] at higher) higher.le
      obtain ⟨blocks, last, descends, level, tree', same', ran⟩ := @ih _ (txs ++ old.txs) tree' (by omega)
      refine ⟨old :: blocks, last, .cons read number descends, by omega, tree', same.trans same', ?_⟩
      rw [if_pos higher, read, flatMap_cons, ← append_assoc]
      exact ran
    · exact ⟨[], old, .nil, by omega, tree, rfl, by simp [higher]⟩

/-- Both branches are followed down to the highest block they share. -/
theorem collectBoth (tree : bc.Tree old new) (level : old.numberU64 = new.numberU64) (enough : old.numberU64 < fuel) :
    ∃ olds news x, Descends bc x olds old ∧ Descends bc x news new ∧
      IsMeet bc.parentOf Block.numberU64 old new (some x) ∧
      bc.collectBoth fuel discarded included old new =
        .ok (some (discarded ++ olds.flatMap Block.txs, included ++ news.flatMap Block.txs)) := by
  induction fuel generalizing old new discarded included with
  | zero => omega
  | succ fuel ih =>
    rw [BlockChain.collectBoth]
    by_cases same : old = new
    · subst same
      exact ⟨[], [], old, .nil, .nil, isMeet_self tree.graded (.inl .refl), by simp⟩
    · have apart : old.hash B.crypto ≠ new.hash B.crypto := fun hash => same (tree.apart (.inl .refl) (.inr .refl) hash)
      obtain ⟨p, readOld, numberOld, tree', first⟩ := tree.step same level.ge
      obtain ⟨q, readNew, numberNew, tree', second⟩ :=
        tree'.symm.step (fun same => by rw [same] at level; omega) (by omega)
      obtain ⟨olds, news, x, left, right, meets, ran⟩ :=
        @ih _ _ (discarded ++ old.txs) (included ++ new.txs) tree'.symm (by omega) (by omega)
      refine ⟨old :: olds, new :: news, x, .cons readOld numberOld left, .cons readNew numberNew right, ?_, ?_⟩
      · rw [common_comm new p, common_comm q p] at second
        exact (isMeet_congr (first.trans second)).mpr meets
      · rw [if_pos apart, readOld, readNew, flatMap_cons, flatMap_cons, ← append_assoc, ← append_assoc]
        exact ran

/-- What is collected for two blocks is in the blocks of the old branch above the highest shared one. -/
theorem collect (tree : bc.Tree old new) (enough : max old.numberU64 new.numberU64 < fuel) :
    ∃ olds news x, Descends bc x olds old ∧ Descends bc x news new ∧
      IsMeet bc.parentOf Block.numberU64 old new (some x) ∧
      bc.collect fuel old new =
        .ok (some (txDifference B.crypto (olds.flatMap Block.txs) (news.flatMap Block.txs))) := by
  obtain ⟨enoughOld, enoughNew⟩ := max_lt_iff.mp enough
  obtain ⟨olds, old', descends, levelOld, tree', first, ranOld⟩ := @collectTo _ _ _ _ _ [] tree enoughOld
  obtain ⟨news, new', descends', levelNew, tree', second, ranNew⟩ := @collectTo _ _ _ _ _ [] tree'.symm enoughNew
  obtain ⟨olds', news', x, left, right, meets, ran⟩ :=
    @collectBoth _ _ _ _ _ (olds.flatMap Block.txs) (news.flatMap Block.txs)
    tree'.symm (by omega) (by omega : old'.numberU64 < fuel)
  refine ⟨olds ++ olds', news ++ news', x, left.trans descends, right.trans descends', ?_, ?_⟩
  · rw [common_comm new old', common_comm new' old'] at second
    exact (isMeet_congr (first.trans second)).mpr meets
  · simp only [nil_append] at ranOld ranNew
    simp only [BlockChain.collect, ranOld, ranNew, ran, bind, Except.bind, flatMap_append]

end Tree

/-- The blocks of a walk are the ancestors above its end. -/
theorem Descends.mem_iff (descends : Descends bc last blocks block)
    (graded : Graded bc.parentOf Block.numberU64 {x | bc.AncestorOf x block}) :
    x ∈ blocks ↔ bc.AncestorOf x block ∧ last.numberU64 < x.numberU64 := by
  rw [descends.ancestor_iff]
  constructor
  · exact fun mem => ⟨.inl mem, (descends.number_lt x mem).1⟩
  · rintro ⟨mem | lower, above⟩
    · exact mem
    · have inside : last ∈ {x | bc.AncestorOf x block} := descends.ancestor_iff.mpr (.inr .refl)
      exact absurd (lower.height_le graded inside) (not_le.mpr above)

/-- The transaction is in a block of the branch of a head, above a number. -/
def InBranch (bc : BlockChain B) (head : Block) (number : ℕ) (tx : Transaction) : Prop :=
  ∃ x, bc.AncestorOf x head ∧ number < x.numberU64 ∧ tx ∈ x.txs

/-- The transactions of the blocks of a walk. -/
theorem Descends.inBranch_iff (descends : Descends bc last blocks block)
    (graded : Graded bc.parentOf Block.numberU64 {x | bc.AncestorOf x block}) (tx : Transaction) :
    tx ∈ blocks.flatMap Block.txs ↔ bc.InBranch block last.numberU64 tx := by
  simp only [mem_flatMap, descends.mem_iff graded, InBranch, and_assoc]

namespace Tree

theorem gradedOld (tree : bc.Tree old new) : Graded bc.parentOf Block.numberU64 {x | bc.AncestorOf x old} where
  closed inside step := inside.trans (.up step .refl)
  height inside step := tree.graded.height (.inl inside) step

/-- The head of a branch is found under the hash of its header. -/
theorem getBlock (tree : bc.Tree old new) : old.hash B.crypto = old.header.hashOf B.crypto ∧
    bc.getBlock (old.header.hashOf B.crypto) old.header.numberU64 = some old := by
  have stored := tree.stored (.inl .refl)
  have hash := (Database.fresh_of_readBlock stored).hash (C := B.crypto)
  exact ⟨hash, hash ▸ stored⟩

end Tree

/-- What is to be added again is exactly what only the old branch holds. -/
theorem reinject_of_tree (tree : bc.Tree old new) (enough : max old.numberU64 new.numberU64 < fuel)
    (shallow : reorgDepth old.numberU64 new.numberU64 ≤ 64) :
    ∃ x txs, IsMeet bc.parentOf Block.numberU64 old new (some x) ∧
      bc.reinject fuel old.header new.header = .ok (some txs) ∧
      ∀ tx, tx ∈ txs ↔ bc.InBranch old x.numberU64 tx ∧
        ¬∃ tx', bc.InBranch new x.numberU64 tx' ∧ tx'.hashOf B.crypto = tx.hashOf B.crypto := by
  obtain ⟨hashOld, storedOld⟩ := tree.getBlock
  obtain ⟨-, storedNew⟩ := tree.symm.getBlock
  rw [reinject]
  by_cases child : old.header.hashOf B.crypto = new.header.parentHash
  · -- the new head is a child of the old one, which is the highest block they share
    have step := tree.linked (.inr .refl) (.inl .refl) (hashOld.trans child)
    refine ⟨old, [], ⟨⟨.refl, .up step .refl⟩, fun y common => common.1.height_le tree.graded (.inl .refl)⟩,
      if_neg (not_not.mpr child), fun tx => ?_⟩
    simp only [not_mem_nil, false_iff, not_and]
    rintro ⟨x, ancestor, above, -⟩
    exact absurd (ancestor.height_le tree.graded (.inl .refl)) (not_le.mpr above)
  · obtain ⟨olds, news, x, left, right, meets, ran⟩ := tree.collect enough
    refine ⟨x, txDifference B.crypto (olds.flatMap Block.txs) (news.flatMap Block.txs), meets, ?_, fun tx => ?_⟩
    · have shallow' : ¬64 < reorgDepth old.header.numberU64 new.header.numberU64 := not_lt.mpr shallow
      rw [if_pos child, if_neg shallow', storedOld, storedNew]
      exact ran
    · simp [txDifference, -mem_flatMap, left.inBranch_iff tree.gradedOld, right.inBranch_iff tree.symm.gradedOld]

end BlockChain

namespace TxPool

def reset {signer : InitialSigner} (env : Surroundings) (accounts : B.State → AccountState)
    (bc : BlockChain B) (fuel : ℕ) (oldHead newHead : Option Header) :
    Proc PoolError (TxPool B.crypto signer) Unit := do
  match ← Proc.ofExcept (bc.offer fuel oldHead newHead) with
  | none => pure ()
  | some (txs, head, state) => settle env txs (accounts state) head.gasLimit

/-- After a change of the head within a tree, `reset` adds exactly the transactions again that are in the old branch
above the highest shared block and not in the new one. -/
theorem reset_offers (signer : InitialSigner) {bc : BlockChain B} {old new : Block} {fuel : ℕ} {state : B.State}
    (tree : bc.Tree old new) (enough : max old.numberU64 new.numberU64 < fuel)
    (shallow : BlockChain.reorgDepth old.numberU64 new.numberU64 ≤ 64)
    (opened : B.openState bc.stateDb new.header.stateRoot = .ok state) :
    ∃ x txs, IsMeet bc.parentOf Block.numberU64 old new (some x) ∧
      (∀ tx, tx ∈ txs ↔ bc.InBranch old x.numberU64 tx ∧
        ¬∃ tx', bc.InBranch new x.numberU64 tx' ∧ tx'.hashOf B.crypto = tx.hashOf B.crypto) ∧
      bc.offer fuel (some old.header) (some new.header) = .ok (some (txs, new.header, state)) ∧
      ∀ env accounts,
        (reset env accounts bc fuel (some old.header) (some new.header) : Proc _ (TxPool B.crypto signer) Unit) =
        settle env txs (accounts state) new.header.gasLimit := by
  obtain ⟨x, txs, meets, ran, exactly⟩ := BlockChain.reinject_of_tree tree enough shallow
  have offers : bc.offer fuel (some old.header) (some new.header) = .ok (some (txs, new.header, state)) := by
    simp only [BlockChain.offer, ran, bind, Except.bind, Option.getD_some, opened]
  refine ⟨x, txs, meets, exactly, offers, fun env accounts => ?_⟩
  rw [reset, offers]
  rfl

end TxPool

namespace Backend.tally

/-- The chain over other states. -/
def withStates (states : List Hash) : BlockChain Backend.tally := { beforeReorg with stateDb := states }

theorem mem_branches (states : List Hash) {x : Block} :
    x ∈ (withStates states).Branches newHead oldHead → x ∈ [newHead, newParent, oldHead, genesis.block] := by
  have root := reads_beforeReorg.1
  have first : beforeReorg.AncestorOf x newHead ↔ _ := descends_newHead.ancestor_iff_mem root
  have second : beforeReorg.AncestorOf x oldHead ↔ _ := descends_oldHead.ancestor_iff_mem root
  rintro (ancestor | ancestor)
  · rcases first.mp ancestor with mem | rfl
    · simp only [mem_cons, not_mem_nil, or_false] at mem ⊢
      exact mem.elim .inl fun same => .inr (.inl same)
    · simp
  · rcases second.mp ancestor with mem | rfl
    · obtain rfl := mem_singleton.mp mem
      simp
    · simp

theorem blocks_beforeReorg : ∀ x ∈ [newHead, newParent, oldHead, genesis.block],
    beforeReorg.getBlock (x.hash .numeral) x.numberU64 = some x ∧
    (x.numberU64 ≠ 0 → (beforeReorg.parentOf x).any fun p => x.numberU64 = p.numberU64 + 1) ∧
    (x.numberU64 = 0 → beforeReorg.parentOf x = none) ∧
    ∀ y ∈ [newHead, newParent, oldHead, genesis.block],
      (y.hash .numeral = x.header.parentHash → beforeReorg.parentOf x = some y) ∧
        (x.hash .numeral = y.hash .numeral → x = y) := by
  decide +kernel

theorem tree_withStates (states : List Hash) : (withStates states).Tree newHead oldHead where
  stored inside := (blocks_beforeReorg _ (mem_branches states inside)).1
  parent inside positive := by
    obtain ⟨p, read, number⟩ :=
      (Option.any_eq_true ..).mp ((blocks_beforeReorg _ (mem_branches states inside)).2.1 positive)
    exact ⟨p, read, of_decide_eq_true number⟩
  root inside zero := (blocks_beforeReorg _ (mem_branches states inside)).2.2.1 zero
  linked first second named :=
    ((blocks_beforeReorg _ (mem_branches states first)).2.2.2 _ (mem_branches states second)).1 named
  apart first second same :=
    ((blocks_beforeReorg _ (mem_branches states first)).2.2.2 _ (mem_branches states second)).2 same
  shared :=
    ⟨genesis.block, .up reads_beforeReorg.2.2.2.1 (.up reads_beforeReorg.2.2.1 .refl), .up reads_beforeReorg.2.1 .refl⟩

end Backend.tally

open Backend.tally in
/-- The longer branch is left, and one of its two transfers is in the other one. -/
theorem TxPool.reset_offers_one : ∃ x txs, IsMeet (withStates [0]).parentOf Block.numberU64 newHead oldHead (some x) ∧
    (∀ tx, tx ∈ txs ↔ (withStates [0]).InBranch newHead x.numberU64 tx ∧
      ¬∃ tx', (withStates [0]).InBranch oldHead x.numberU64 tx' ∧ tx'.hashOf .numeral = tx.hashOf .numeral) ∧
    (withStates [0]).offer 3 (some newHead.header) (some oldHead.header) =
      .ok (some (txs, oldHead.header, (0 : Hash))) := by
  obtain ⟨x, txs, meets, exactly, offers, -⟩ := TxPool.reset_offers ⟨1⟩ (tree_withStates [0])
    (show max newHead.numberU64 oldHead.numberU64 < 3 by decide) (by decide +kernel)
    (show Backend.tally.openState (withStates [0]).stateDb oldHead.header.stateRoot = .ok (0 : Hash) from rfl)
  exact ⟨x, txs, meets, exactly, offers⟩

open Backend.tally in
/-- If the state of the new head can not be opened then nothing is added again. -/
theorem TxPool.offer_of_missing_state : (withStates []).Tree newHead oldHead ∧
    BlockChain.reorgDepth newHead.numberU64 oldHead.numberU64 ≤ 64 ∧
    (withStates []).reinject 3 newHead.header oldHead.header = .ok (some [InitialSigner.transfer 8 0]) ∧
    (withStates []).offer 3 (some newHead.header) (some oldHead.header) = .ok none := by
  have collected : (withStates []).reinject 3 newHead.header oldHead.header =
      .ok (some [InitialSigner.transfer 8 0]) := by
    decide +kernel
  refine ⟨tree_withStates [], by decide +kernel, collected, ?_⟩
  simp only [BlockChain.offer, collected, bind, Except.bind, Option.getD_some]
  rfl

end KKChain
