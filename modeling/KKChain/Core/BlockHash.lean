import KKChain.Consensus.GasLimit
import KKChain.Core.Ancestors

/-! # Block hashes for contracts

The function that `GetHashFn` makes walks along the parents of the executing header and keeps the hashes it has met in a
cache by number, cut to a word. A number is met within 2 ^ 64 parents, so no walk gets far enough to meet a word twice,
and what is in the cache is what a walk would find.
-/

namespace KKChain

open Lineage Option Function
open KKChain.Pow (Headers parentOf)

namespace GetHash

/-- `cache`, by the low word of the number. -/
abbrev Cache := ℕ → Option Hash

variable (chain : Headers) (ref : Header) (fuel n : ℕ)

/-- The loop along the parents. -/
def walk (n : ℕ) : ℕ → Option Header → Cache → Except (Fault Empty) (Hash × Cache)
  | 0, _, _ => .error .diverges
  | _ + 1, none, cache => .ok (0, cache)
  | fuel + 1, some header, cache =>
    let cache := Function.update cache (pred64 header.numberU64) (some header.parentHash)
    if n = pred64 header.numberU64 then .ok (header.parentHash, cache)
    else walk n fuel (chain (pred64 header.numberU64) header.parentHash) cache

/-- The cache before the first walk. -/
def initial : Cache := Function.update (fun _ => none) (pred64 ref.numberU64) (some ref.parentHash)

/-- The function that `GetHashFn` returns, with the cache as it is and as it leaves it. -/
def getHash (cache : Option Cache) : Except (Fault Empty) (Hash × Option Cache) :=
  let cache := cache.getD (initial ref)
  match cache n with
  | some hash => .ok (hash, some cache)
  | none => (walk chain n fuel (chain (pred64 ref.numberU64) ref.parentHash) cache).map (Prod.map id some)

/-- `opBlockhash`: the word it pushes for the number it pops. -/
def opBlockhash (num : ℕ) (cache : Option Cache) : Except (Fault Empty) (Hash × Option Cache) :=
  if ref.number - 257 < num ∧ num < ref.number then getHash chain ref fuel (num % 2 ^ 64) cache else .ok (0, cache)

end GetHash

namespace Pow

/-- Headers are stored under their own number and hash. -/
def Keyed (C : Crypto) (headers : Headers) : Prop :=
  ∀ number hash header, headers number hash = some header → header.numberU64 = number ∧ header.hashOf C = hash

/-- The headers of one store are in the other. -/
def Within (chain headers : Headers) : Prop :=
  ∀ number hash header, chain number hash = some header → headers number hash = some header

variable {C : Crypto} {headers chain : Headers} {ref header : Header} {i : ℕ}

theorem Within.refl (headers : Headers) : Within headers headers := fun _ _ _ => id

theorem Within.nth (within : Within chain headers) (reached : nth (parentOf chain) i ref = some header) :
    Lineage.nth (parentOf headers) i ref = some header := by
  induction i generalizing ref with
  | zero => exact reached
  | succ i ih =>
    obtain ⟨parent, read, reached⟩ := bind_eq_some_iff.mp reached
    rw [nth_succ_of_parent (within _ _ _ read)]
    exact ih reached

/-- The number goes down by one with each parent. -/
theorem Keyed.number_nth (keyed : Keyed C headers) (reached : Lineage.nth (parentOf headers) i ref = some header) :
    (header.numberU64 + i) % 2 ^ 64 = ref.numberU64 := by
  induction i generalizing ref with
  | zero =>
    obtain rfl := some.inj reached
    exact Nat.mod_eq_of_lt ref.numberU64_lt
  | succ i ih =>
    obtain ⟨parent, read, reached⟩ := bind_eq_some_iff.mp reached
    have below := ih reached
    have bound := ref.numberU64_lt
    rw [(keyed _ _ _ read).1, pred64] at below
    omega

end Pow

namespace GetHash

variable {C : Crypto} {headers chain : Headers} {ref header : Header} {fuel n depth i : ℕ} {cache cache' : Cache}

/-- Each hash of the cache is named by a header on the way, and the one the executing header names is there. -/
structure Coherent (headers : Headers) (ref : Header) (cache : Cache) : Prop where
  named : ∀ number hash, cache number = some hash →
    ∃ i header, i < 2 ^ 64 ∧ nth (parentOf headers) i ref = some header ∧
    header.parentHash = hash ∧ pred64 header.numberU64 = number
  first : cache (pred64 ref.numberU64) ≠ none

theorem Coherent.update (coherent : Coherent headers ref cache) (shallow : i < 2 ^ 64)
    (reached : nth (parentOf headers) i ref = some header) :
    Coherent headers ref (update cache (pred64 header.numberU64) (some header.parentHash)) where
  named number hash found := by
    rw [update_apply] at found
    split_ifs at found with same
    · exact ⟨i, header, shallow, reached, some.inj found, same.symm⟩
    · exact coherent.named number hash found
  first := by
    rw [update_apply]
    split_ifs
    · exact some_ne_none _
    · exact coherent.first

theorem Coherent.initial : Coherent headers ref (initial ref) where
  named number hash found := by
    rw [GetHash.initial, update_apply] at found
    split_ifs at found with same
    exact ⟨0, ref, by norm_num, rfl, some.inj found, same.symm⟩
  first := by
    rw [GetHash.initial, update_self]
    exact some_ne_none _

theorem coherent_none : ∀ c ∈ (none : Option Cache), Coherent headers ref c := fun _ mem => nomatch mem

theorem walk_some (parent : Header) : walk chain n (fuel + 1) (some parent) cache =
    if n = pred64 parent.numberU64 then
      .ok (parent.parentHash, update cache (pred64 parent.numberU64) (some parent.parentHash))
    else walk chain n fuel (parentOf chain parent)
      (update cache (pred64 parent.numberU64) (some parent.parentHash)) := by
  rw [walk, parentOf]

/-- The walk meets every word, and finds at the depth of that word what is stored there. -/
theorem walk_spec (keyed : Pow.Keyed C headers) (within : Pow.Within chain headers) (shallow : depth < 2 ^ 64)
    (word : n < 2 ^ 64) (position : (n + 1 + depth) % 2 ^ 64 = ref.numberU64) (before : i < depth)
    (reached : nth (parentOf chain) i ref = some header) (coherent : Coherent headers ref cache)
    (enough : depth - i < fuel) :
    ∃ result cache', walk chain n fuel (parentOf chain header) cache = .ok (result, cache') ∧
      Coherent headers ref cache' ∧
      ∀ last, nth (parentOf chain) depth ref = some last → result = last.parentHash := by
  induction fuel generalizing i header cache with
  | zero => omega
  | succ fuel ih =>
    have next := nth_succ_of_nth reached
    cases read : parentOf chain header with
    | none =>
      refine ⟨0, cache, rfl, coherent, fun last found => ?_⟩
      obtain ⟨_, through⟩ := nth_of_le found before
      rw [next, read] at through
      cases through
    | some parent =>
      rw [read] at next
      have known := within.nth next
      have coherent' := coherent.update (by omega) known
      have number := keyed.number_nth known
      have met : n = pred64 parent.numberU64 ↔ i + 1 = depth := by
        rw [pred64]
        omega
      by_cases last : i + 1 = depth
      · subst last
        refine ⟨parent.parentHash, _, ?_, coherent', fun last found => ?_⟩
        · rw [walk_some, if_pos (met.mpr rfl)]
        · rw [some.inj (next.symm.trans found)]
      · rw [walk_some, if_neg (mt met.mp last)]
        exact ih (by omega) next coherent' (by omega)

/-- Every query returns and leaves a coherent cache, and it finds what is stored at its depth. -/
theorem getHash_spec (keyed : Pow.Keyed C headers) (within : Pow.Within chain headers) {cache : Option Cache}
    (coherent : ∀ c ∈ cache, Coherent headers ref c) (shallow : depth < 2 ^ 64) (word : n < 2 ^ 64)
    (position : (n + 1 + depth) % 2 ^ 64 = ref.numberU64) (enough : 2 ^ 64 ≤ fuel) :
    ∃ result cache', getHash chain ref fuel n cache = .ok (result, some cache') ∧ Coherent headers ref cache' ∧
      ∀ last, nth (parentOf chain) depth ref = some last → result = last.parentHash := by
  have start : Coherent headers ref (cache.getD (initial ref)) := by
    cases cache with
    | none => exact .initial
    | some cache => exact coherent cache rfl
  rw [getHash]
  generalize cache.getD (initial ref) = cache at start
  cases found : cache n with
  | some hash =>
    obtain ⟨i, header, shallow', reached, rfl, met⟩ := start.named n hash found
    refine ⟨header.parentHash, cache, rfl, start, fun last reached' => ?_⟩
    have number := keyed.number_nth reached
    have same : i = depth := by
      rw [pred64] at met
      omega
    rw [same, within.nth reached'] at reached
    rw [some.inj reached]
  | none =>
    have deeper : 0 < depth := by
      by_contra zero
      apply start.first
      have own : pred64 ref.numberU64 = n := by
        rw [pred64]
        omega
      rw [own, found]
    have reaches : depth - 0 < fuel := by omega
    obtain ⟨result, cache', walked, coherent', finds⟩ :=
      walk_spec keyed within shallow word position deeper rfl start reaches
    exact ⟨result, cache', congrArg (Except.map (Prod.map id some)) walked, coherent', finds⟩

/-- A query of the function, on the headers that are stored at the time. -/
def Query (headers : Headers) (ref : Header) (fuel : ℕ) (cache : Option Cache) (query : Headers × ℕ)
    (cache' : Option Cache) : Prop :=
  Pow.Within query.1 headers ∧ query.2 < 2 ^ 64 ∧
    ∃ result, getHash query.1 ref fuel query.2 cache = .ok (result, cache')

/-- The depth at which a word is met. -/
theorem exists_depth (ref : Header) (n : ℕ) : ∃ depth < 2 ^ 64, (n + 1 + depth) % 2 ^ 64 = ref.numberU64 :=
  ⟨(ref.numberU64 + 2 ^ 64 * (n + 1) - (n + 1)) % 2 ^ 64, Nat.mod_lt _ (by norm_num), by
    have bound := ref.numberU64_lt
    omega⟩

theorem Query.coherent (keyed : Pow.Keyed C headers) (enough : 2 ^ 64 ≤ fuel) {cache cache' : Option Cache}
    {query : Headers × ℕ} (step : Query headers ref fuel cache query cache')
    (coherent : ∀ c ∈ cache, Coherent headers ref c) : ∀ c ∈ cache', Coherent headers ref c := by
  obtain ⟨within, word, result, ran⟩ := step
  obtain ⟨depth, shallow, position⟩ := exists_depth ref query.2
  obtain ⟨_, after, ran', coherent', -⟩ := getHash_spec keyed within coherent shallow word position enough
  rw [ran'] at ran
  cases ran
  rintro _ ⟨⟩
  exact coherent'

/-- After any queries, `BLOCKHASH` gives the hash of the stored ancestor at each number it lets through. -/
theorem opBlockhash_ancestor (keyed : Pow.Keyed C headers) (enough : 2 ^ 64 ≤ fuel) {cache : Option Cache}
    {ts : List (Option Cache × (Headers × ℕ) × Option Cache)} (run : Run (Query headers ref fuel) none ts cache)
    (within : Pow.Within chain headers) {num : ℕ} (passes : ref.number - 257 < num ∧ num < ref.number)
    {ancestor : Header} (stored : nth (parentOf chain) (ref.number - num).toNat ref = some ancestor) :
    ancestor.numberU64 = num % 2 ^ 64 ∧
      ∃ cache', opBlockhash chain ref fuel num cache = .ok (ancestor.hashOf C, cache') := by
  have coherent : ∀ c ∈ cache, Coherent headers ref c :=
    run.keeps (P := fun cache => ∀ c ∈ cache, Coherent headers ref c) (fun _ _ step => step.coherent keyed enough)
      coherent_none
  obtain ⟨depth, below⟩ : ∃ depth, (ref.number - num).toNat = depth + 1 := ⟨(ref.number - num).toNat - 1, by omega⟩
  have number := keyed.number_nth (within.nth stored)
  have bound := ancestor.numberU64_lt
  have own : ref.numberU64 = ref.number.natAbs % 2 ^ 64 := rfl
  have height : ancestor.numberU64 = num % 2 ^ 64 := by omega
  obtain ⟨child, reached⟩ := nth_of_le stored (k := depth) (by omega)
  have link := nth_succ_of_nth reached
  rw [← below, stored] at link
  have named := (keyed _ _ _ (within _ _ _ link.symm)).2
  have position : (num % 2 ^ 64 + 1 + depth) % 2 ^ 64 = ref.numberU64 := by omega
  obtain ⟨result, cache', ran, -, finds⟩ := getHash_spec keyed within coherent (by omega) (by omega) position enough
  refine ⟨height, some cache', ?_⟩
  rw [opBlockhash, if_pos passes, ran, finds child reached, named]

/-- The headers of the tables of a chain. -/
def headersOf (db : Database) : Headers := fun number hash => db.headers (number, hash)

theorem keyed_headersOf {db : Database} (linked : db.LinkedHeaders C) : Pow.Keyed C (headersOf db) :=
  fun _ _ _ => linked.keyed

open Backend.tally Database in
/-- Block 3 over a stored chain: after a query for block 1, the hash of the genesis block is found. -/
theorem opBlockhash_forked : ∃ cache cache',
    Run (Query (headersOf (ofEntries forked [])) (plain (hash 2) 3 4).header (2 ^ 64)) none
      [(none, (headersOf (ofEntries forked []), 1), cache)] cache ∧
    opBlockhash (headersOf (ofEntries forked [])) (plain (hash 2) 3 4).header (2 ^ 64) 0 cache =
      .ok (genesis.header.hashOf .numeral, cache') := by
  have linked : (ofEntries forked []).LinkedHeaders .numeral :=
    linkedHeaders_ofEntries hashOf_forked (by decide +kernel)
  have keyed := keyed_headersOf linked
  have position : (1 + 1 + 1) % 2 ^ 64 = (plain (hash 2) 3 4).header.numberU64 := by decide
  obtain ⟨result, cache, ran, -⟩ :=
    getHash_spec keyed (.refl _) coherent_none (by norm_num) (by norm_num) position le_rfl
  have query : Query (headersOf (ofEntries forked [])) (plain (hash 2) 3 4).header (2 ^ 64) none
      (headersOf (ofEntries forked []), 1) (some cache) := ⟨.refl _, by norm_num, result, ran⟩
  have run := Run.cons query (.nil (some cache))
  have stored : nth (parentOf (headersOf (ofEntries forked []))) 3 (plain (hash 2) 3 4).header =
      some genesis.header := by
    decide +kernel
  have passes : (plain (hash 2) 3 4).header.number - 257 < (0 : ℕ) ∧
    (0 : ℕ) < (plain (hash 2) 3 4).header.number := by decide
  obtain ⟨-, cache', found⟩ := opBlockhash_ancestor keyed le_rfl run (.refl _) passes stored
  exact ⟨_, cache', run, found⟩

end GetHash

end KKChain
