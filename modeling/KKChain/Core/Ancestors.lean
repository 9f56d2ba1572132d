import KKChain.Consensus.Pow
import KKChain.Machine.Lineage

/-! # Ancestors of stored headers

`FindCommonAncestor` brings two headers to one number and then goes down with both until their hashes are the same.
`GetAncestor` follows parents until it meets the canonical chain and jumps from there; the steps before are limited by a
budget that the caller keeps. Both are compared with plainly following parents (`Lineage`).
-/

namespace KKChain

open Lineage UInt64 Database

namespace Database

variable (C : Crypto) (db : Database)

/-- The header that is stored as the parent of another one. -/
def parentHeader (header : Header) : Option Header := db.headers (pred64 header.numberU64, header.parentHash)

/-- The loops of `FindCommonAncestor` that bring one of the headers down to `number`. -/
def lowerTo (number : ℕ) : ℕ → Header → Except (Fault Empty) (Option Header)
  | 0, _ => .error .diverges
  | fuel + 1, a =>
    if number < a.numberU64 then
      match db.parentHeader a with
      | none => .ok none
      | some a => lowerTo number fuel a
    else .ok (some a)

/-- The loop of `FindCommonAncestor` that goes down with both. -/
def lowerBoth : ℕ → Header → Header → Except (Fault Empty) (Option Header)
  | 0, _, _ => .error .diverges
  | fuel + 1, a, b =>
    if a.hashOf C ≠ b.hashOf C then
      match db.parentHeader a with
      | none => .ok none
      | some a =>
        match db.parentHeader b with
        | none => .ok none
        | some b => lowerBoth fuel a b
    else .ok (some a)

def findCommonAncestor (fuel : ℕ) (a b : Header) : Except (Fault Empty) (Option Header) := do
  match ← db.lowerTo b.numberU64 fuel a with
  | none => .ok none
  | some a =>
    match ← db.lowerTo a.numberU64 fuel b with
    | none => .ok none
    | some b => db.lowerBoth C fuel a b

def HasHeader (header : Header) : Prop := db.headers (header.numberU64, header.hashOf C) = some header

/-- The headers are linked by parent hash and number: each is stored under its own number and hash, and one of number
zero has no parent. -/
structure LinkedHeaders : Prop where
  keyed : ∀ {number hash header}, db.headers (number, hash) = some header →
    header.numberU64 = number ∧ header.hashOf C = hash
  root : ∀ {header}, db.HasHeader C header → header.numberU64 = 0 → db.parentHeader header = none

variable {C db} {a b header : Header} {fuel number : ℕ} {hash : Hash}

theorem LinkedHeaders.hasHeader (linked : db.LinkedHeaders C)
    (read : db.headers (number, hash) = some header) : db.HasHeader C header := by
  obtain ⟨rfl, rfl⟩ := linked.keyed read
  exact read

/-- A parent is one below. -/
theorem LinkedHeaders.graded (linked : db.LinkedHeaders C) :
    Graded db.parentHeader Header.numberU64 {header | db.HasHeader C header} where
  closed _ read := linked.hasHeader read
  height {a p} stored read := by
    obtain ⟨number, -⟩ := linked.keyed read
    obtain ⟨m, next⟩ : ∃ m, a.numberU64 = m + 1 := by
      apply Nat.exists_eq_succ_of_ne_zero
      intro zero
      rw [linked.root stored zero] at read
      cases read
    rw [number, next, pred64_succ (next ▸ a.numberU64_lt)]

/-- Stored headers are told apart by number and hash. -/
theorem HasHeader.eq (first : db.HasHeader C a) (second : db.HasHeader C b) (number : a.numberU64 = b.numberU64)
    (hash : a.hashOf C = b.hashOf C) : a = b := by
  rw [HasHeader, number, hash] at first
  exact Option.some.inj (first.symm.trans second)

/-- A header is brought down without a change to the ancestors it shares with a header of the number given. -/
theorem lowerTo_spec (linked : db.LinkedHeaders C) (storedA : db.HasHeader C a) (storedB : db.HasHeader C b)
    (enough : a.numberU64 < fuel) : ∃ r, db.lowerTo b.numberU64 fuel a = .ok r ∧
      match r with
      | none => Common db.parentHeader a b = ∅
      | some a' => db.HasHeader C a' ∧ a'.numberU64 = min a.numberU64 b.numberU64 ∧
          Common db.parentHeader a b = Common db.parentHeader a' b := by
  induction fuel generalizing a with
  | zero => omega
  | succ fuel ih =>
    rw [lowerTo]
    by_cases higher : b.numberU64 < a.numberU64
    · rw [if_pos higher]
      have apart : a ≠ b := fun same => by simp [same] at higher
      cases read : db.parentHeader a with
      | none => exact ⟨none, rfl, common_eq_empty linked.graded storedA storedB apart higher.le read⟩
      | some p =>
        have below := linked.graded.height storedA read
        obtain ⟨r, ran, outcome⟩ := ih (linked.graded.closed storedA read) (by omega)
        rw [common_parent linked.graded storedA storedB apart higher.le read,
          show min a.numberU64 b.numberU64 = min p.numberU64 b.numberU64 by omega]
        exact ⟨r, ran, outcome⟩
    · rw [if_neg higher]
      exact ⟨some a, rfl, storedA, (min_eq_left (not_lt.mp higher)).symm, rfl⟩

/-- Going down with two headers of one number ends at the highest common ancestor. -/
theorem lowerBoth_spec (linked : db.LinkedHeaders C) (storedA : db.HasHeader C a) (storedB : db.HasHeader C b)
    (level : a.numberU64 = b.numberU64) (enough : a.numberU64 < fuel) :
    ∃ r, db.lowerBoth C fuel a b = .ok r ∧ IsMeet db.parentHeader Header.numberU64 a b r := by
  have graded := linked.graded
  induction fuel generalizing a b with
  | zero => omega
  | succ fuel ih =>
    rw [lowerBoth]
    by_cases same : a.hashOf C = b.hashOf C
    · obtain rfl := storedA.eq storedB level same
      rw [if_neg (not_not.mpr rfl)]
      exact ⟨some a, rfl, isMeet_self graded storedA⟩
    · rw [if_pos same]
      have apart : a ≠ b := fun same' => same (by rw [same'])
      cases readA : db.parentHeader a with
      | none => exact ⟨none, rfl, common_eq_empty graded storedA storedB apart level.ge readA⟩
      | some p =>
        have storedP : db.HasHeader C p := graded.closed storedA readA
        have belowA := graded.height storedA readA
        have first := common_parent graded storedA storedB apart level.ge readA
        have apart' : b ≠ p := fun same' => by rw [← same'] at belowA; omega
        cases readB : db.parentHeader b with
        | none =>
          refine ⟨none, rfl, first.trans ?_⟩
          rw [common_comm]
          exact common_eq_empty graded storedB storedP apart' (by omega) readB
        | some q =>
          have belowB := graded.height storedB readB
          have second := common_parent graded storedB storedP apart' (by omega) readB
          rw [common_comm b p, common_comm q p] at second
          obtain ⟨r, ran, meets⟩ := ih storedP (graded.closed storedB readB) (by omega) (by omega)
          exact ⟨r, ran, (isMeet_congr (first.trans second)).mpr meets⟩

/-- `FindCommonAncestor` returns the highest header that is an ancestor of both, or nothing if they share none. A loop
goes down at least one number a round. -/
theorem findCommonAncestor_isMeet (linked : db.LinkedHeaders C) (storedA : db.HasHeader C a)
    (storedB : db.HasHeader C b) (enough : max a.numberU64 b.numberU64 < fuel) :
    ∃ r, db.findCommonAncestor C fuel a b = .ok r ∧ IsMeet db.parentHeader Header.numberU64 a b r := by
  obtain ⟨enoughA, enoughB⟩ := max_lt_iff.mp enough
  obtain ⟨r, ran, outcome⟩ := lowerTo_spec linked storedA storedB enoughA
  cases r with
  | none => exact ⟨none, by simp [findCommonAncestor, ran, bind, Except.bind], outcome⟩
  | some a' =>
    obtain ⟨storedA', numberA, sameA⟩ := outcome
    obtain ⟨r, ran', outcome⟩ := lowerTo_spec linked storedB storedA' enoughB
    simp only [isMeet_congr sameA, isMeet_comm (a := a')]
    cases r with
    | none => exact ⟨none, by simp [findCommonAncestor, ran, ran', bind, Except.bind], outcome⟩
    | some b' =>
      obtain ⟨storedB', numberB, sameB⟩ := outcome
      obtain ⟨r, ran'', meets⟩ := lowerBoth_spec linked storedA' storedB' (by omega) (by omega : a'.numberU64 < fuel)
      refine ⟨r, by simp [findCommonAncestor, ran, ran', ran'', bind, Except.bind], ?_⟩
      rw [isMeet_congr sameB, isMeet_comm]
      exact meets

/-- The tables with these blocks under their hashes, and a canonical chain over some of them. -/
def ofEntries (entries chain : List (Hash × Block)) : Database where
  headers key := (entries.find? fun e => (e.2.numberU64, e.1) = key).map (·.2.header)
  headerNumber hash := (entries.find? (·.1 = hash)).map (·.2.numberU64)
  bodies key := (entries.find? fun e => (e.2.numberU64, e.1) = key).map (·.2.txs)
  tds _ := none
  canonical number := (chain.find? (·.2.numberU64 = number)).map Prod.fst
  headBlock := chain.head?.map Prod.fst
  headHeader := chain.head?.map Prod.fst
  txLookup _ := none

theorem mem_of_headers_ofEntries {entries chain : List (Hash × Block)}
    (read : (ofEntries entries chain).headers (number, hash) = some header) :
    ∃ block, (hash, block) ∈ entries ∧ block.header = header ∧ header.numberU64 = number := by
  obtain ⟨⟨key, block⟩, found, rfl⟩ := Option.map_eq_some_iff.mp read
  have isKey := List.find?_some found
  rw [decide_eq_true_eq, Prod.mk.injEq] at isKey
  obtain ⟨isNumber, rfl⟩ := isKey
  exact ⟨block, List.mem_of_find?_eq_some found, rfl, isNumber⟩

theorem linkedHeaders_ofEntries {entries chain : List (Hash × Block)}
    (keyed : ∀ e ∈ entries, e.2.header.hashOf C = e.1)
    (root : ∀ e ∈ entries, e.2.numberU64 = 0 → (ofEntries entries chain).parentHeader e.2.header = none) :
    (ofEntries entries chain).LinkedHeaders C where
  keyed {number hash header} read := by
    obtain ⟨block, mem, isHeader, isNumber⟩ := mem_of_headers_ofEntries read
    have isHash := keyed (hash, block) mem
    rw [isHeader] at isHash
    exact ⟨isNumber, isHash⟩
  root {header} stored zero := by
    obtain ⟨block, mem, isHeader, -⟩ := mem_of_headers_ofEntries stored
    rw [← isHeader] at zero ⊢
    exact root (header.hashOf C, block) mem zero

end Database

namespace Backend.tally

/-- A block without transactions. -/
def plain (parent : Hash) (number : ℕ) (nonce : BitVec 64) : Block :=
  .fresh (header parent number (10 * number) 131072 0 nonce) []

/-- Two blocks on the genesis block and one beside them. -/
def forked : List (Hash × Block) :=
  [(hash 0, genesis.block), (hash 1, plain (hash 0) 1 1), (hash 2, plain (hash 1) 2 2), (hash 3, plain (hash 0) 1 3)]

theorem hashOf_forked : ∀ e ∈ forked, e.2.header.hashOf .numeral = e.1 := by decide +kernel

end Backend.tally

open Backend.tally Database in
/-- The common ancestor of the upper block and the one beside. -/
theorem findCommonAncestor_forked : (ofEntries forked []).LinkedHeaders .numeral ∧
    ∃ r, (ofEntries forked []).findCommonAncestor .numeral 3 (plain (hash 1) 2 2).header
        (plain (hash 0) 1 3).header = .ok r ∧
      IsMeet (ofEntries forked []).parentHeader Header.numberU64 (plain (hash 1) 2 2).header
        (plain (hash 0) 1 3).header r := by
  have linked : (ofEntries forked []).LinkedHeaders .numeral :=
    linkedHeaders_ofEntries hashOf_forked (by decide +kernel)
  have storedA : (ofEntries forked []).HasHeader .numeral (plain (hash 1) 2 2).header := by
    rw [HasHeader, hashOf_forked (hash 2, plain (hash 1) 2 2) (by simp [forked])]
    decide +kernel
  have storedB : (ofEntries forked []).HasHeader .numeral (plain (hash 0) 1 3).header := by
    rw [HasHeader, hashOf_forked (hash 3, plain (hash 0) 1 3) (by simp [forked])]
    decide +kernel
  exact ⟨linked, findCommonAncestor_isMeet linked storedA storedB (by decide +kernel)⟩

/-- `ReadCanonicalHash`: zero if there is none. -/
def Database.readCanonicalHash (db : Database) (number : ℕ) : Hash := (db.canonical number).getD 0

namespace BlockChain

variable {B : Backend} (bc : BlockChain B)

/-- The loop of `GetAncestor`, which runs at most `ancestor` times, with the budget that is left. -/
def ancestorLoop : ℕ → Hash → UInt64 → UInt64 → (Hash × UInt64) × UInt64
  | 0, hash, number, maxNonCanonical => ((hash, number), maxNonCanonical)
  | ancestor + 1, hash, number, maxNonCanonical =>
    if bc.db.readCanonicalHash number.toNat = hash then
      let number := number - .ofNat (ancestor + 1)
      ((bc.db.readCanonicalHash number.toNat, number), maxNonCanonical)
    else if maxNonCanonical = 0 then ((0, 0), maxNonCanonical)
    else match bc.getHeader hash number.toNat with
      | none => ((0, 0), maxNonCanonical - 1)
      | some header => ancestorLoop ancestor header.parentHash (number - 1) (maxNonCanonical - 1)

/-- `GetAncestor`: hash and number of an ancestor, and the budget that is left. -/
def getAncestor (hash : Hash) (number ancestor maxNonCanonical : UInt64) : (Hash × UInt64) × UInt64 :=
  if ancestor > number then ((0, 0), maxNonCanonical)
  else if ancestor = 1 then
    match bc.getHeader hash number.toNat with
    | some header => ((header.parentHash, number - 1), maxNonCanonical)
    | none => ((0, 0), maxNonCanonical)
  else bc.ancestorLoop ancestor.toNat hash number maxNonCanonical

/-- Hash and number of the block that a stored one names as its parent. -/
def parentKey : Hash × ℕ → Option (Hash × ℕ)
  | (_, 0) => none
  | (hash, number + 1) => (bc.getHeader hash (number + 1)).map fun header => (header.parentHash, number)

/-- The canonical index is consistent: every entry is stored and its parent is the entry below. Stored headers have
their parents stored, and none has the hash that stands for absence. -/
structure ConsistentIndex : Prop where
  entry : ∀ {number hash}, bc.db.canonical number = some hash → ∃ header, bc.getHeader hash number = some header ∧
    ∀ m, number = m + 1 → bc.db.canonical m = some header.parentHash
  parent : ∀ {number hash header}, bc.getHeader hash (number + 1) = some header →
    (bc.getHeader header.parentHash number).isSome
  nonzero : ∀ number, bc.getHeader 0 number = none

variable {bc} {hash : Hash} {header : Header} {number : ℕ}

theorem canonical_of_read (known : hash ≠ 0) (read : bc.db.readCanonicalHash number = hash) :
    bc.db.canonical number = some hash := by
  cases entry : bc.db.canonical number with
  | none =>
    rw [readCanonicalHash, entry] at read
    exact absurd read.symm known
  | some found =>
    rw [readCanonicalHash, entry] at read
    exact congrArg some read

namespace ConsistentIndex

variable (index : bc.ConsistentIndex)

include index

theorem ne_zero (stored : (bc.getHeader hash number).isSome) : hash ≠ 0 := by
  rintro rfl
  rw [index.nonzero number] at stored
  cases stored

/-- From an entry of the index, parents are the entries below. -/
theorem nth_canonical (k : ℕ) (entry : bc.db.canonical (number + k) = some hash) :
    nth bc.parentKey k (hash, number + k) = some (bc.db.readCanonicalHash number, number) := by
  induction k generalizing hash with
  | zero => simp [nth, readCanonicalHash, show bc.db.canonical number = some hash from entry]
  | succ k ih =>
    obtain ⟨header, read, below⟩ := index.entry entry
    have step : bc.parentKey (hash, number + k + 1) = some (header.parentHash, number + k) := by
      rw [parentKey, show bc.getHeader hash (number + k + 1) = some header from read]
      rfl
    rw [← add_assoc, nth_succ_of_parent step]
    exact ih (below (number + k) rfl)

end ConsistentIndex

/-- The outcome of a walk over `ancestor` parents: what following them gives, or the empty result if the block is not
stored or the budget is smaller than the distance. The budget does not grow, so it did not wrap. -/
def Reaches (bc : BlockChain B) (ancestor : ℕ) (hash : Hash) (number maxNonCanonical : UInt64)
    (outcome : (Hash × UInt64) × UInt64) : Prop :=
  (nth bc.parentKey ancestor (hash, number.toNat) = some (outcome.1.1, outcome.1.2.toNat) ∨
    outcome.1 = (0, 0) ∧ ((bc.getHeader hash number.toNat).isSome → maxNonCanonical.toNat < ancestor)) ∧
  outcome.2.toNat ≤ maxNonCanonical.toNat

theorem toNat_pred {number : UInt64} (positive : 0 < number.toNat) : (number - 1).toNat + 1 = number.toNat := by
  have bound := number.toNat_lt
  rw [UInt64.toNat_sub]
  simp
  omega

theorem nth_parentKey {number : UInt64} (positive : 0 < number.toNat)
    (read : bc.getHeader hash number.toNat = some header) (k : ℕ) :
    nth bc.parentKey (k + 1) (hash, number.toNat) = nth bc.parentKey k (header.parentHash, (number - 1).toNat) := by
  apply nth_succ_of_parent
  rw [← toNat_pred positive] at read ⊢
  rw [parentKey, read]
  rfl

theorem ConsistentIndex.ancestorLoop (index : bc.ConsistentIndex) (ancestor : ℕ) {number maxNonCanonical : UInt64}
    (known : hash ≠ 0) (within : ancestor ≤ number.toNat) :
    bc.Reaches ancestor hash number maxNonCanonical (bc.ancestorLoop ancestor hash number maxNonCanonical) := by
  induction ancestor generalizing hash number maxNonCanonical with
  | zero => exact ⟨.inl rfl, le_rfl⟩
  | succ ancestor ih =>
    rw [BlockChain.ancestorLoop]
    split_ifs with joined spent
    · -- the path has joined the canonical chain
      have entry := canonical_of_read known joined
      have left : (number - .ofNat (ancestor + 1)).toNat + (ancestor + 1) = number.toNat := by
        have bound := number.toNat_lt
        rw [UInt64.toNat_sub_of_le, UInt64.toNat_ofNat_of_lt']
        · omega
        · exact lt_of_le_of_lt within bound
        · rw [le_iff_toNat_le, toNat_ofNat_of_lt' (lt_of_le_of_lt within bound)]
          exact within
      rw [← left] at entry
      refine ⟨.inl ?_, le_rfl⟩
      dsimp only
      rw [← index.nth_canonical (ancestor + 1) entry, left]
    · exact ⟨.inr ⟨rfl, fun _ => by simp [spent]⟩, le_rfl⟩
    · have positive : 0 < maxNonCanonical.toNat := by
        apply Nat.pos_of_ne_zero
        intro zero
        exact spent (UInt64.toNat_inj.mp zero)
      have less := toNat_pred positive
      cases read : bc.getHeader hash number.toNat with
      | none => exact ⟨.inr ⟨rfl, fun stored => by simp [read] at stored⟩, by dsimp only; omega⟩
      | some header =>
        have pred : (number - 1).toNat + 1 = number.toNat := toNat_pred (by omega)
        have stored := index.parent (pred ▸ read)
        have rest : bc.Reaches ancestor header.parentHash (number - 1) (maxNonCanonical - 1) _ :=
          ih (index.ne_zero stored) (by omega)
        obtain ⟨reached, bound⟩ := rest
        refine ⟨?_, by dsimp only; omega⟩
        rw [nth_parentKey (by omega) read]
        rcases reached with reached | ⟨empty, few⟩
        · exact .inl reached
        · refine .inr ⟨empty, fun _ => ?_⟩
          have := few stored
          omega

/-- `GetAncestor` gives what following parents gives or the empty result, and the budget does not underflow. The result
is empty only if the distance is greater than the number or than the budget, or the block is not stored. -/
theorem ConsistentIndex.getAncestor_nth (index : bc.ConsistentIndex) (known : hash ≠ 0)
    (number ancestor maxNonCanonical : UInt64) :
    let outcome := bc.getAncestor hash number ancestor maxNonCanonical
    (nth bc.parentKey ancestor.toNat (hash, number.toNat) = some (outcome.1.1, outcome.1.2.toNat) ∨
      outcome.1 = (0, 0) ∧ ((bc.getHeader hash number.toNat).isSome → ancestor.toNat ≤ number.toNat →
        maxNonCanonical.toNat < ancestor.toNat)) ∧
    outcome.2.toNat ≤ maxNonCanonical.toNat := by
  unfold BlockChain.getAncestor
  split_ifs with beyond one
  · rw [gt_iff_lt, lt_iff_toNat_lt] at beyond
    exact ⟨.inr ⟨rfl, fun _ within => absurd beyond (not_lt.mpr within)⟩, le_rfl⟩
  · subst one
    rw [gt_iff_lt, lt_iff_toNat_lt, not_lt] at beyond
    cases read : bc.getHeader hash number.toNat with
    | none => exact ⟨.inr ⟨rfl, fun stored => by simp at stored⟩, le_rfl⟩
    | some header => exact ⟨.inl (nth_parentKey (lt_of_lt_of_le (by decide) beyond) read 0), le_rfl⟩
  · rw [gt_iff_lt, lt_iff_toNat_lt, not_lt] at beyond
    obtain ⟨reached, bound⟩ : bc.Reaches _ _ _ maxNonCanonical _ := index.ancestorLoop ancestor.toNat known beyond
    exact ⟨reached.imp_right fun ⟨empty, few⟩ => ⟨empty, fun stored _ => few stored⟩, bound⟩

end BlockChain

namespace Backend.tally

/-- The canonical chain with the upper block as its head. -/
def upperChain : List (Hash × Block) :=
  [(hash 2, plain (hash 1) 2 2), (hash 1, plain (hash 0) 1 1), (hash 0, genesis.block)]

def upper : BlockChain Backend.tally where
  db := .ofEntries forked upperChain
  stateDb := ([0] : List Hash)
  currentBlock := plain (hash 1) 2 2
  genesisBlock := genesis.block

theorem consistentIndex_upper : upper.ConsistentIndex where
  entry {number hash} entry := by
    obtain ⟨⟨hash, c⟩, found, rfl⟩ := Option.map_eq_some_iff.mp entry
    have isNumber := List.find?_some found
    rw [decide_eq_true_eq] at isNumber
    have isNumber : c.numberU64 = number := isNumber
    subst isNumber
    have facts : ∀ e ∈ upperChain, upper.getHeader e.1 e.2.numberU64 = some e.2.header ∧
        (e.2.numberU64 ≠ 0 → upper.db.canonical (e.2.numberU64 - 1) = some e.2.header.parentHash) := by decide +kernel
    obtain ⟨read, below⟩ := facts _ (List.mem_of_find?_eq_some found)
    refine ⟨c.header, read, fun m next => ?_⟩
    have next : c.numberU64 = m + 1 := next
    rw [show m = c.numberU64 - 1 by omega]
    exact below (by dsimp only; omega)
  parent {number hash header} read := by
    obtain ⟨b, mem, rfl, isNumber⟩ := mem_of_headers_ofEntries read
    have facts : ∀ e ∈ forked, e.2.header.numberU64 ≠ 0 →
        (upper.getHeader e.2.header.parentHash (e.2.header.numberU64 - 1)).isSome := by decide +kernel
    rw [show number = b.header.numberU64 - 1 by omega]
    exact facts (hash, b) mem (by dsimp only; omega)
  nonzero number := by
    cases read : upper.getHeader 0 number with
    | none => rfl
    | some header =>
      obtain ⟨b, mem, -⟩ := mem_of_headers_ofEntries read
      have facts : ∀ e ∈ forked, e.1 ≠ 0 := by decide
      exact absurd rfl (facts _ mem)

end Backend.tally

open Backend.tally in
/-- From the upper block, two back and without a budget. -/
theorem getAncestor_upper : upper.ConsistentIndex ∧
    (let outcome := upper.getAncestor (hash 2) 2 2 0
    (nth upper.parentKey 2 (hash 2, 2) = some (outcome.1.1, outcome.1.2.toNat) ∨
      outcome.1 = (0, 0) ∧ ((upper.getHeader (hash 2) 2).isSome → 2 ≤ 2 → 0 < 2)) ∧ outcome.2.toNat ≤ 0) :=
  ⟨consistentIndex_upper, consistentIndex_upper.getAncestor_nth (by decide) 2 2 0⟩

end KKChain
