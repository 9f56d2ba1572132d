import KKChain.Core.Ancestors
import Mathlib.Data.List.MinMax

/-! # Requests for headers

A peer asks for headers from an origin on, by hash or by number, with a number of headers to skip in between, towards
the head or towards the genesis block. The traversals by hash check that they do not leave the 64 bits of a number; the
traversals by number do not, or only before the increment of the skip: where the sum wraps, the reply goes on with a
header of the wrapped number if the chain has one.
-/

namespace KKChain

open Lineage List Option UInt64

namespace BlockChain

variable {B : Backend} (bc : BlockChain B)

def getHeaderByNumber (number : ℕ) : Option Header :=
  if bc.db.readCanonicalHash number = 0 then none else bc.getHeader (bc.db.readCanonicalHash number) number

def getHeaderByHash (hash : Hash) : Option Header := do
  let number ← bc.db.headerNumber hash
  bc.getHeader hash number

end BlockChain

namespace HeaderRequest

def softResponseLimit : ℤ := 2 * 1024 * 1024

def estHeaderJSONSize : ℤ := 500

def MaxHeaderFetch : ℕ := 192

structure GetBlockHeadersMsg where
  startHash : Bytes
  startNum : UInt64
  amount : UInt64
  skip : UInt64
  reverse : Bool

def GetBlockHeadersMsg.hashMode (msg : GetBlockHeadersMsg) : Bool := msg.startHash.length == 32

/-- The variables of the loop. -/
structure Gathering where
  unknown : Bool
  first : Bool
  bytes : ℤ
  headers : List Header
  originNum : UInt64
  originHash : Hash
  maxNonCanonical : UInt64

section Handler

variable {B : Backend} (bc : BlockChain B) (msg : GetBlockHeadersMsg)

/-- The next header of the query. The first one asked for by its hash gives the number to go on with. -/
def retrieve (g : Gathering) : Option Header × Gathering :=
  if msg.hashMode then
    if g.first then
      match bc.getHeaderByHash g.originHash with
      | none => (none, { g with first := false })
      | some origin => (some origin, { g with first := false, originNum := .ofNat origin.numberU64 })
    else (bc.getHeader g.originHash g.originNum.toNat, g)
  else (bc.getHeaderByNumber g.originNum.toNat, g)

/-- Advance to the next header of the query. -/
def advance (origin : Header) (g : Gathering) : Gathering :=
  match msg.hashMode, msg.reverse with
  | true, true =>
    -- hash based, towards the genesis block
    if msg.skip + 1 = 0 then { g with unknown := true }
    else
      let found := bc.getAncestor g.originHash g.originNum (msg.skip + 1) g.maxNonCanonical
      { g with
        originHash := found.1.1
        originNum := found.1.2
        maxNonCanonical := found.2
        unknown := found.1.1 = 0 }
  | true, false =>
    -- hash based, towards the leaf
    let current : UInt64 := .ofNat origin.numberU64
    let next := current + msg.skip + 1
    if next ≤ current then { g with unknown := true }
    else
      match bc.getHeaderByNumber next.toNat with
      | none => { g with unknown := true }
      | some header =>
        let found := bc.getAncestor (header.hashOf B.crypto) next (msg.skip + 1) g.maxNonCanonical
        if found.1.1 = g.originHash then
          { g with originHash := header.hashOf B.crypto, originNum := next, maxNonCanonical := found.2 }
        else { g with unknown := true, maxNonCanonical := found.2 }
  | false, true =>
    -- number based, towards the genesis block
    if g.originNum ≥ msg.skip + 1 then { g with originNum := g.originNum - (msg.skip + 1) }
    else { g with unknown := true }
  | false, false =>
    -- number based, towards the leaf
    { g with originNum := g.originNum + (msg.skip + 1) }

/-- The condition of the loop; a large amount is a negative `int`. -/
def Gathering.goesOn (g : Gathering) : Bool :=
  !g.unknown && decide ((g.headers.length : ℤ) < msg.amount.toBitVec.toInt) && decide (g.bytes < softResponseLimit) &&
    decide (g.headers.length < MaxHeaderFetch)

def gather : ℕ → Gathering → Except (Fault Empty) (List Header)
  | 0, g => if g.goesOn msg then .error .diverges else .ok g.headers
  | fuel + 1, g =>
    if g.goesOn msg then
      match retrieve bc msg g with
      | (none, g) => .ok g.headers
      | (some origin, g) =>
        gather fuel (advance bc msg origin
          { g with headers := g.headers ++ [origin], bytes := g.bytes + estHeaderJSONSize })
    else .ok g.headers

/-- The variables before the loop. -/
def Gathering.start : Gathering where
  unknown := false
  first := true
  bytes := 0
  headers := []
  originNum := msg.startNum
  originHash := .ofBytes msg.startHash
  maxNonCanonical := 100

inductive HandlerError where
  | emptyMsgContent
deriving DecidableEq

/-- `handleGetBlockHeaders`: the headers of the reply. -/
def handleGetBlockHeaders (fuel : ℕ) : Option GetBlockHeadersMsg → Except (Fault HandlerError) (List Header)
  | none => .error (.error .emptyMsgContent)
  | some msg => (gather bc msg fuel (.start msg)).mapError (Fault.map Empty.elim)

end Handler

/-! ### What a reply is to be -/

section Spec

variable {B : Backend} (bc : BlockChain B)

/-- The distance of two headers of the reply, without wraparound. -/
def GetBlockHeadersMsg.stride (msg : GetBlockHeadersMsg) : ℕ := msg.skip.toNat + 1

/-- How many headers the reply has at most. -/
def GetBlockHeadersMsg.limit (msg : GetBlockHeadersMsg) : ℕ := min msg.amount.toBitVec.toInt.toNat MaxHeaderFetch

/-- The number of the first header: the one that is asked for, or that of the header with the hash that is. -/
def GetBlockHeadersMsg.origin (msg : GetBlockHeadersMsg) : ℕ :=
  if msg.hashMode then ((bc.getHeaderByHash (.ofBytes msg.startHash)).map Header.numberU64).getD 0
  else msg.startNum.toNat

/-- The numbers of the headers are those that the request names. -/
def Exact (msg : GetBlockHeadersMsg) (headers : List Header) : Prop :=
  ∀ (i : ℕ) (header : Header), headers[i]? = some header → (header.numberU64 : ℤ) =
    if msg.reverse then (msg.origin bc : ℤ) - i * msg.stride else msg.origin bc + i * msg.stride

/-- Hash and number of a header. -/
def keyOf (header : Header) : Hash × ℕ := (header.hashOf B.crypto, header.numberU64)

/-- The headers are ancestors of one block. -/
def OnOneChain (headers : List Header) : Prop :=
  ∃ top, ∀ header ∈ headers, Ancestor bc.parentKey (keyOf (B := B) header) top

/-- Headers are stored under their own number and hash, and the canonical index is consistent. -/
structure ConsistentChain : Prop extends bc.ConsistentIndex where
  keyed : ∀ {number hash header}, bc.getHeader hash number = some header →
    header.numberU64 = number ∧ header.hashOf B.crypto = hash

/-- No number that is reached by wraparound has a header. -/
def Unwrapped (msg : GetBlockHeadersMsg) : Prop :=
  msg.hashMode ∨
    if msg.reverse then msg.stride = 2 ^ 64 → msg.limit ≤ 1 ∨ bc.getHeaderByNumber msg.startNum.toNat = none
    else ∀ i < msg.limit, (∀ j < i, (bc.getHeaderByNumber (msg.startNum.toNat + j * msg.stride)).isSome) →
      2 ^ 64 ≤ msg.startNum.toNat + i * msg.stride →
        bc.getHeaderByNumber ((msg.startNum.toNat + i * msg.stride) % 2 ^ 64) = none

end Spec

section Loop

variable {B : Backend} {bc : BlockChain B} {msg : GetBlockHeadersMsg} {g : Gathering} {fuel number : ℕ}
    {header : Header}

theorem ConsistentChain.keyOf_eq (chain : ConsistentChain bc) {hash : Hash}
    (read : bc.getHeader hash number = some header) :
    keyOf (B := B) header = (hash, number) := by
  obtain ⟨same, hashed⟩ := chain.keyed read
  rw [keyOf, same, hashed]

theorem ConsistentChain.getHeaderByNumber (chain : ConsistentChain bc)
    (read : bc.getHeaderByNumber number = some header) :
    keyOf (B := B) header = (bc.db.readCanonicalHash number, number) ∧
      bc.db.canonical number = some (bc.db.readCanonicalHash number) := by
  rw [BlockChain.getHeaderByNumber] at read
  split_ifs at read with zero
  exact ⟨chain.keyOf_eq read, BlockChain.canonical_of_read zero rfl⟩

/-- The number goes down by one with each parent. -/
theorem nth_parentKey_snd {k : ℕ} {key key' : Hash × ℕ} (reached : nth bc.parentKey k key = some key') :
    key'.2 + k = key.2 := by
  induction k generalizing key with
  | zero =>
    cases reached
    rfl
  | succ k ih =>
    obtain ⟨mid, step, rest⟩ := bind_eq_some_iff.mp reached
    have below := ih rest
    obtain ⟨hash, - | number⟩ := key
    · cases step
    · obtain ⟨header, -, rfl⟩ := map_eq_some_iff.mp step
      omega

theorem goesOn_iff : g.goesOn msg ↔ g.unknown = false ∧ (g.headers.length : ℤ) < msg.amount.toBitVec.toInt ∧
    g.bytes < softResponseLimit ∧ g.headers.length < MaxHeaderFetch := by
  simp [Gathering.goesOn, and_assoc]

/-- The bytes counted are those of the headers gathered. -/
def Gathering.Counted (g : Gathering) : Prop := g.bytes = g.headers.length * estHeaderJSONSize

/-- The limit on the bytes is never the one that ends the loop. -/
theorem Gathering.Counted.goesOn_iff (counted : g.Counted) :
    g.goesOn msg ↔ g.unknown = false ∧ g.headers.length < msg.limit := by
  rw [HeaderRequest.goesOn_iff, counted, GetBlockHeadersMsg.limit, estHeaderJSONSize, softResponseLimit, MaxHeaderFetch]
  constructor
  · rintro ⟨known, amount, -, fetch⟩
    exact ⟨known, by omega⟩
  · rintro ⟨known, few⟩
    exact ⟨known, by omega, by omega, by omega⟩

/-- A header is taken. -/
def Gathering.take (g : Gathering) (origin : Header) : Gathering :=
  { g with headers := g.headers ++ [origin], bytes := g.bytes + estHeaderJSONSize }

theorem Gathering.Counted.take (counted : g.Counted) (origin : Header) : (g.take origin).Counted := by
  rw [Counted] at counted ⊢
  simp only [Gathering.take, length_append, length_singleton, counted]
  push_cast
  ring

theorem advance_keeps (origin : Header) : (advance bc msg origin g).headers = g.headers ∧
    (advance bc msg origin g).bytes = g.bytes ∧ (advance bc msg origin g).first = g.first := by
  unfold advance
  split
  · split_ifs <;> exact ⟨rfl, rfl, rfl⟩
  · dsimp only
    split_ifs
    · exact ⟨rfl, rfl, rfl⟩
    · split
      · exact ⟨rfl, rfl, rfl⟩
      · split_ifs <;> exact ⟨rfl, rfl, rfl⟩
  · split_ifs <;> exact ⟨rfl, rfl, rfl⟩
  · exact ⟨rfl, rfl, rfl⟩

theorem retrieve_keeps {found : Option Header} {g' : Gathering} (ran : retrieve bc msg g = (found, g')) :
    g'.headers = g.headers ∧ g'.bytes = g.bytes := by
  unfold retrieve at ran
  split_ifs at ran
  · split at ran <;> cases ran <;> exact ⟨rfl, rfl⟩
  all_goals
    cases ran
    exact ⟨rfl, rfl⟩

/-- An induction over the loop: what holds at its end, if it breaks off or its condition fails, and is carried back
over a round, holds of the result. With fuel for all headers that may still come the loop ends. -/
theorem gather_induction (bc : BlockChain B) {P : Gathering → List Header → Prop}
    (stop : ∀ g, ¬ (g.unknown = false ∧ g.headers.length < msg.limit) → P g g.headers)
    (missing : ∀ g g', retrieve bc msg g = (none, g') → P g g.headers)
    (round : ∀ g g' origin result, g.unknown = false → g.headers.length < msg.limit →
      retrieve bc msg g = (some origin, g') →
      P (advance bc msg origin (g'.take origin)) result → P g result)
    (counted : g.Counted) (enough : msg.limit < fuel + g.headers.length + 1) :
    ∃ result, gather bc msg fuel g = .ok result ∧ P g result := by
  induction fuel generalizing g with
  | zero =>
    have done : ¬ g.goesOn msg := by
      rw [counted.goesOn_iff]
      omega
    rw [gather, if_neg done]
    exact ⟨g.headers, rfl, stop g (counted.goesOn_iff.not.mp done)⟩
  | succ fuel ih =>
    rw [gather]
    by_cases again : g.goesOn msg
    · obtain ⟨known, few⟩ := counted.goesOn_iff.mp again
      rw [if_pos again]
      rcases found : retrieve bc msg g with ⟨- | origin, g'⟩
      · exact ⟨g'.headers, rfl, (retrieve_keeps found).1 ▸ missing g g' found⟩
      · obtain ⟨headers, bytes⟩ := retrieve_keeps found
        have counted' : g'.Counted := by rw [Gathering.Counted, headers, bytes, counted]
        have taken := counted'.take origin
        obtain ⟨kept, size, -⟩ := @advance_keeps _ bc msg (g'.take origin) origin
        have next : (advance bc msg origin (g'.take origin)).Counted := by rw [Gathering.Counted, kept, size, taken]
        obtain ⟨result, ran, holds⟩ := ih next (by
          rw [kept]
          simp only [Gathering.take, length_append, length_singleton, headers]
          omega)
        exact ⟨result, ran, round g g' origin result known few found holds⟩
    · rw [if_neg again]
      exact ⟨g.headers, rfl, stop g (counted.goesOn_iff.not.mp again)⟩

/-- The reply has as many headers as were asked for, or as are sent at once, or fewer. -/
theorem length_gather {headers : List Header} (counted : g.Counted) (enough : msg.limit < fuel + g.headers.length + 1)
    (few : g.headers.length ≤ msg.limit) (ran : gather bc msg fuel g = .ok headers) : headers.length ≤ msg.limit := by
  obtain ⟨result, ran', bound⟩ := gather_induction bc
    (P := fun g result => g.headers.length ≤ msg.limit → result.length ≤ msg.limit) (fun _ _ => id) (fun _ _ _ => id)
    (fun g g' origin result _ few found rest _ => rest (by
      rw [(advance_keeps origin).1, Gathering.take, length_append, (retrieve_keeps found).1]
      exact few)) counted enough
  obtain rfl : result = headers := Except.ok.inj (ran'.symm.trans ran)
  exact bound few

theorem counted_start : (Gathering.start msg).Counted := by simp [Gathering.Counted, Gathering.start]

theorem limit_lt (enough : MaxHeaderFetch < fuel) : msg.limit < fuel + (Gathering.start msg).headers.length + 1 := by
  have : msg.limit ≤ MaxHeaderFetch := min_le_right _ _
  omega

end Loop

/-! ### By hash -/

section ByHash

variable {B : Backend} {bc : BlockChain B} {msg : GetBlockHeadersMsg} {g g' : Gathering} {origin : Header}

/-- Two headers at the distance of the request, the later one further in its direction. -/
def Link (bc : BlockChain B) (msg : GetBlockHeadersMsg) (header : Header) (key : Hash × ℕ) : Prop :=
  if msg.reverse then nth bc.parentKey msg.stride (keyOf (B := B) header) = some key
  else nth bc.parentKey msg.stride key = some (keyOf (B := B) header)

/-- The headers gathered so far by hash, and where the next one is. -/
structure Linked (bc : BlockChain B) (msg : GetBlockHeadersMsg) (g : Gathering) : Prop where
  chain : g.headers.IsChain fun header next => Link bc msg header (keyOf (B := B) next)
  first : g.first = g.headers.isEmpty
  hash : g.first = true → g.originHash = .ofBytes msg.startHash
  head : ∀ header ∈ g.headers.head?, bc.getHeaderByHash (.ofBytes msg.startHash) = some header
  pending : g.unknown = false → ∀ last ∈ g.headers.getLast?, Link bc msg last (g.originHash, g.originNum.toNat)

theorem linked_start : Linked bc msg (.start msg) where
  chain := .nil
  first := rfl
  hash _ := rfl
  head _ mem := by simp [Gathering.start] at mem
  pending _ _ mem := by simp [Gathering.start] at mem

theorem toNat_skip (msg : GetBlockHeadersMsg) : (msg.skip + 1).toNat = msg.stride % 2 ^ 64 := by
  simp [UInt64.toNat_add, GetBlockHeadersMsg.stride]

theorem toNat_skip_succ (nonzero : msg.skip + 1 ≠ 0) : (msg.skip + 1).toNat = msg.stride := by
  have bound : msg.stride ≤ 2 ^ 64 := msg.skip.toNat_lt
  have wrap := toNat_skip msg
  have : (msg.skip + 1).toNat ≠ 0 := fun zero => nonzero (UInt64.toNat_inj.mp zero)
  omega

variable (chain : ConsistentChain bc)
include chain

/-- `GetAncestor` of a stored block over the distance of the request, unless it returns nothing. -/
theorem nth_of_getAncestor {hash : Hash} {number maxNonCanonical : UInt64}
    (nonzero : msg.skip + 1 ≠ 0) (known : hash ≠ 0)
    (found : (bc.getAncestor hash number (msg.skip + 1) maxNonCanonical).1.1 ≠ 0) :
    nth bc.parentKey msg.stride (hash, number.toNat) =
      some ((bc.getAncestor hash number (msg.skip + 1) maxNonCanonical).1.1,
        (bc.getAncestor hash number (msg.skip + 1) maxNonCanonical).1.2.toNat) := by
  have outcome := (chain.toConsistentIndex.getAncestor_nth known number (msg.skip + 1) maxNonCanonical).1
  rw [toNat_skip_succ nonzero] at outcome
  refine outcome.resolve_right fun ⟨empty, _⟩ => found ?_
  rw [empty]

variable (mode : msg.hashMode = true)
include mode

/-- What is retrieved is the header that was pending, and the variables name it. -/
theorem Linked.retrieved (linked : Linked bc msg g) (known : g.unknown = false)
    (found : retrieve bc msg g = (some origin, g')) :
    bc.getHeader g'.originHash g'.originNum.toNat = some origin ∧ g'.first = false ∧
      (∀ header ∈ (g.headers ++ [origin]).head?, bc.getHeaderByHash (.ofBytes msg.startHash) = some header) ∧
      ∀ last ∈ g.headers.getLast?, Link bc msg last (keyOf (B := B) origin) := by
  have bound := origin.numberU64_lt
  rw [retrieve, if_pos mode] at found
  split_ifs at found with first
  · have none : g.headers = [] := by simpa [first] using linked.first
    cases read : bc.getHeaderByHash g.originHash with
    | none => simp [read] at found
    | some header =>
      rw [read] at found
      cases found
      obtain ⟨number, -, stored⟩ := bind_eq_some_iff.mp read
      obtain ⟨same, -⟩ := chain.keyed stored
      refine ⟨?_, rfl, ?_, ?_⟩
      · rwa [toNat_ofNat_of_lt' bound, same]
      · simpa [none, ← linked.hash first] using read
      · simp [none]
  · have nonempty : g.headers ≠ [] := fun none => first (by rw [linked.first, none]; rfl)
    obtain ⟨read, rfl⟩ := Prod.mk.inj found
    refine ⟨read, by simpa using first, ?_, ?_⟩
    · rw [head?_append_of_ne_nil _ nonempty]
      exact linked.head
    · rw [chain.keyOf_eq read]
      exact linked.pending known

/-- After a round the next header is pending again, or the loop ends. -/
theorem pending_advance (hash : g.originHash ≠ 0)
    (key : keyOf (B := B) origin = (g.originHash, g.originNum.toNat))
    (known : (advance bc msg origin g).unknown = false) :
    Link bc msg origin ((advance bc msg origin g).originHash, (advance bc msg origin g).originNum.toNat) := by
  have number : origin.numberU64 = g.originNum.toNat := congrArg Prod.snd key
  cases direction : msg.reverse with
  | true =>
    rw [Link, if_pos direction, key]
    simp only [advance, mode, direction] at known ⊢
    by_cases wrapped : msg.skip + 1 = 0
    · simp [wrapped] at known
    · simp only [wrapped, if_false] at known ⊢
      exact nth_of_getAncestor chain wrapped hash (by simpa using known)
  | false =>
    rw [Link, if_neg (by simp [direction]), key]
    simp only [advance, mode, direction, number, UInt64.ofNat_toNat] at known ⊢
    by_cases overflow : g.originNum + msg.skip + 1 ≤ g.originNum
    · simp [overflow] at known
    simp only [overflow, if_false] at known ⊢
    cases read : bc.getHeaderByNumber (g.originNum + msg.skip + 1).toNat with
    | none =>
      simp only [read] at known
      cases known
    | some header =>
      simp only [read] at known ⊢
      by_cases joined : (bc.getAncestor (header.hashOf B.crypto) (g.originNum + msg.skip + 1) (msg.skip + 1)
          g.maxNonCanonical).1.1 = g.originHash
      · simp only [joined, if_true] at known ⊢
        have nonzero : msg.skip + 1 ≠ 0 := fun zero =>
          overflow (by rw [UInt64.add_assoc, zero, UInt64.add_zero]; exact UInt64.le_refl _)
        obtain ⟨keyed, canonical⟩ := chain.getHeaderByNumber read
        have hashed : header.hashOf B.crypto ≠ 0 := by
          obtain ⟨stored, found, -⟩ := chain.entry canonical
          rw [show header.hashOf B.crypto = _ from congrArg Prod.fst keyed]
          exact chain.toConsistentIndex.ne_zero (by rw [found]; rfl)
        have reached := nth_of_getAncestor chain nonzero hashed (by rwa [joined])
        have below := nth_parentKey_snd reached
        have sum : (g.originNum + msg.skip + 1).toNat = g.originNum.toNat + msg.stride := by
          have start := g.originNum.toNat_lt
          have skip := msg.skip.toNat_lt
          rw [UInt64.not_le, UInt64.lt_iff_toNat_lt] at overflow
          have wrap : (g.originNum + msg.skip + 1).toNat = (g.originNum.toNat + msg.skip.toNat + 1) % 2 ^ 64 := by
            simp [UInt64.toNat_add]
          rw [GetBlockHeadersMsg.stride]
          omega
        rw [reached, joined]
        dsimp only at below
        congr 2
        omega
      · simp [joined] at known

/-- A round keeps the headers linked. -/
theorem Linked.round (linked : Linked bc msg g) (known : g.unknown = false)
    (found : retrieve bc msg g = (some origin, g')) : Linked bc msg (advance bc msg origin (g'.take origin)) := by
  obtain ⟨stored, first, head, link⟩ := linked.retrieved chain mode known found
  have same : (g'.take origin).headers = g.headers ++ [origin] := by rw [Gathering.take, (retrieve_keeps found).1]
  have hash : (g'.take origin).originHash ≠ 0 :=
    chain.toConsistentIndex.ne_zero (isSome_iff_exists.mpr ⟨origin, stored⟩)
  obtain ⟨kept, -, started⟩ := @advance_keeps _ bc msg (g'.take origin) origin
  rw [show (g'.take origin).first = false from first] at started
  constructor
  · rw [kept, same, isChain_append]
    refine ⟨linked.chain, .singleton _, fun last mem next here => ?_⟩
    obtain rfl : origin = next := by simpa using here
    exact link last mem
  · rw [started, kept, same]
    simp
  · rw [started]
    intro start
    cases start
  · rw [kept, same]
    exact head
  · rw [kept, same]
    intro known' last mem
    obtain rfl : origin = last := by simpa using mem
    exact pending_advance chain mode hash (chain.keyOf_eq stored) known'

/-- By hash, consecutive headers of the reply are linked, and the first one is the one asked for. -/
theorem gather_linked {fuel : ℕ} (enough : MaxHeaderFetch < fuel) :
    ∃ headers, gather bc msg fuel (.start msg) = .ok headers ∧
      headers.IsChain (fun header next => Link bc msg header (keyOf (B := B) next)) ∧
      ∀ header ∈ headers.head?, bc.getHeaderByHash (.ofBytes msg.startHash) = some header := by
  obtain ⟨headers, ran, holds⟩ := gather_induction bc (P := fun g headers => Linked bc msg g →
      headers.IsChain (fun header next => Link bc msg header (keyOf (B := B) next)) ∧
      ∀ header ∈ headers.head?, bc.getHeaderByHash (.ofBytes msg.startHash) = some header)
    (fun g _ linked => ⟨linked.chain, linked.head⟩) (fun g _ _ linked => ⟨linked.chain, linked.head⟩)
    (fun g g' origin result known _ found rest linked => rest (linked.round chain mode known found)) counted_start
    (limit_lt enough)
  exact ⟨headers, ran, holds linked_start⟩

end ByHash

/-! ### By number -/

section ByNumber

variable {B : Backend} {bc : BlockChain B} {msg : GetBlockHeadersMsg} {g : Gathering} {origin : Header}

/-- The number after `n`, unless the traversal ends there. -/
def nextNum (msg : GetBlockHeadersMsg) (n : UInt64) : Option UInt64 :=
  if msg.reverse then if n ≥ msg.skip + 1 then some (n - (msg.skip + 1)) else none else some (n + (msg.skip + 1))

theorem advance_number (mode : msg.hashMode = false) : advance bc msg origin g =
    match nextNum msg g.originNum with
    | some n => { g with originNum := n }
    | none => { g with unknown := true } := by
  cases direction : msg.reverse with
  | true =>
    simp only [advance, mode, direction, nextNum, if_true]
    split_ifs <;> rfl
  | false => simp [advance, mode, direction, nextNum]

/-- What is left of a reply by number: the headers of the numbers from `originNum` on in turn, to the first that is
missing or to the limit. -/
structure Rest (bc : BlockChain B) (msg : GetBlockHeadersMsg) (g : Gathering) (rest : List Header) : Prop where
  ended : g.unknown = true → rest = []
  found : ∀ i header, rest[i]? = some header →
    ∃ n, nth (nextNum msg) i g.originNum = some n ∧ bc.getHeaderByNumber n.toNat = some header
  long : g.unknown = false → ∀ i, g.headers.length + i < msg.limit →
    (∀ j ≤ i, ∃ n, nth (nextNum msg) j g.originNum = some n ∧ (bc.getHeaderByNumber n.toNat).isSome) → i < rest.length

theorem Rest.round {rest : List Header} (mode : msg.hashMode = false) (known : g.unknown = false)
    (read : bc.getHeaderByNumber g.originNum.toNat = some origin)
    (later : Rest bc msg (advance bc msg origin (g.take origin)) rest) : Rest bc msg g (origin :: rest) := by
  rw [advance_number mode, show (g.take origin).originNum = g.originNum from rfl] at later
  refine ⟨fun unknown => by simp [known] at unknown, fun i header inside => ?_, fun _ i few all => ?_⟩
  · cases i with
    | zero =>
      obtain rfl : origin = header := by simpa using inside
      exact ⟨g.originNum, rfl, read⟩
    | succ i =>
      rw [getElem?_cons_succ] at inside
      cases next : nextNum msg g.originNum with
      | none =>
        rw [next] at later
        simp [later.ended rfl] at inside
      | some n =>
        rw [next] at later
        rw [nth_succ_of_parent next]
        exact later.found i header inside
  · cases i with
    | zero => simp
    | succ i =>
      obtain ⟨_, second, -⟩ := all 1 (by omega)
      obtain ⟨n, next, -⟩ := bind_eq_some_iff.mp second
      rw [next] at later
      have := later.long known i (by simp only [Gathering.take, length_append, length_singleton]; omega) fun j le => by
        have := all (j + 1) (by omega)
        rwa [nth_succ_of_parent next] at this
      simpa using this

/-- The headers of a reply by number are those of the numbers in turn, to the first that is missing or to the limit. -/
theorem gather_rest {fuel : ℕ} (mode : msg.hashMode = false) (enough : MaxHeaderFetch < fuel) :
    ∃ headers, gather bc msg fuel (.start msg) = .ok headers ∧ Rest bc msg (.start msg) headers := by
  have retrieved : ∀ g, retrieve bc msg g = (bc.getHeaderByNumber g.originNum.toNat, g) := fun g => by
    simp [retrieve, mode]
  obtain ⟨headers, ran, rest, rfl, holds⟩ := gather_induction bc
    (P := fun g headers => ∃ rest, headers = g.headers ++ rest ∧ Rest bc msg g rest)
    (fun g done => ⟨[], by simp, fun _ => rfl, by simp, fun known i few => absurd ⟨known, by omega⟩ done⟩)
    (fun g g' absent => ⟨[], by simp, fun _ => rfl, by simp, fun _ i _ all => by
      obtain ⟨n, first, stored⟩ := all 0 (Nat.zero_le _)
      cases first
      rw [(Prod.mk.inj ((retrieved g).symm.trans absent)).1] at stored
      cases stored⟩)
    (fun g g' origin result known _ found later => by
      obtain ⟨read, rfl⟩ := Prod.mk.inj ((retrieved g).symm.trans found)
      obtain ⟨rest, rfl, holds⟩ := later
      refine ⟨origin :: rest, ?_, holds.round mode known read⟩
      rw [(advance_keeps origin).1]
      exact append_assoc g.headers [origin] rest)
    counted_start (limit_lt enough)
  exact ⟨_, ran, holds⟩

theorem nth_forward (direction : msg.reverse = false) (i : ℕ) (n : UInt64) :
    ∃ m, nth (nextNum msg) i n = some m ∧ m.toNat = (n.toNat + i * msg.stride) % 2 ^ 64 := by
  induction i generalizing n with
  | zero => exact ⟨n, rfl, by rw [Nat.zero_mul, Nat.add_zero, Nat.mod_eq_of_lt n.toNat_lt]⟩
  | succ i ih =>
    have step : nextNum msg n = some (n + (msg.skip + 1)) := by simp [nextNum, direction]
    obtain ⟨m, reached, value⟩ := ih (n + (msg.skip + 1))
    refine ⟨m, (nth_succ_of_parent step i).trans reached, value.trans ?_⟩
    rw [UInt64.toNat_add, toNat_skip, Nat.add_mod_mod, Nat.mod_add_mod, Nat.succ_mul]
    congr 1
    omega

theorem nth_reverse (direction : msg.reverse = true) (small : msg.stride < 2 ^ 64) {i : ℕ} {n m : UInt64}
    (reached : nth (nextNum msg) i n = some m) : m.toNat + i * msg.stride = n.toNat := by
  have stride : (msg.skip + 1).toNat = msg.stride := by rw [toNat_skip, Nat.mod_eq_of_lt small]
  induction i generalizing n with
  | zero =>
    cases reached
    simp
  | succ i ih =>
    obtain ⟨n', step, reached⟩ := bind_eq_some_iff.mp reached
    simp only [nextNum, direction, if_true] at step
    split_ifs at step with enough
    cases step
    have below := ih reached
    rw [UInt64.toNat_sub_of_le _ _ enough, stride] at below
    have le : (msg.skip + 1).toNat ≤ n.toNat := le_iff_toNat_le.mp enough
    rw [Nat.succ_mul]
    omega

theorem nth_reverse_wrapped (direction : msg.reverse = true) (wrapped : msg.stride = 2 ^ 64) (i : ℕ) (n : UInt64) :
    nth (nextNum msg) i n = some n := by
  have zero : msg.skip + 1 = 0 := by
    apply UInt64.toNat_inj.mp
    rw [toNat_skip, wrapped]
    rfl
  have step : nextNum msg n = some n := by simp [nextNum, direction, zero]
  induction i with
  | zero => rfl
  | succ i ih => rw [nth_succ_of_parent step, ih]

end ByNumber

/-! ### The reply -/

section Reply

variable {B : Backend} {bc : BlockChain B} {msg : GetBlockHeadersMsg} {headers : List Header}

/-- Linked headers have the numbers of the request, counted from the first. -/
theorem number_of_isChain (linked : headers.IsChain fun header next => Link bc msg header (keyOf (B := B) next))
    (first : Header) (start : headers.head? = some first) {i : ℕ} {header : Header}
    (inside : headers[i]? = some header) :
    (header.numberU64 : ℤ) = if msg.reverse then (first.numberU64 : ℤ) - i * msg.stride
      else first.numberU64 + i * msg.stride := by
  induction headers generalizing first i with
  | nil => simp at start
  | cons h rest ih =>
    obtain rfl : h = first := by simpa using start
    cases i with
    | zero =>
      obtain rfl : h = header := by simpa using inside
      simp
    | succ i =>
      cases next : rest with
      | nil => simp [next] at inside
      | cons h' rest' =>
        rw [next, isChain_cons_cons] at linked
        have later := ih (next ▸ linked.2) h' (by rw [next]; rfl) (by simpa using inside)
        have link := linked.1
        rw [Link] at link
        cases direction : msg.reverse with
        | true =>
          rw [if_pos direction] at link
          have below : h'.numberU64 + msg.stride = h.numberU64 := nth_parentKey_snd link
          simp only [direction, if_true] at later ⊢
          push_cast
          rw [later, ← below]
          push_cast
          ring
        | false =>
          rw [if_neg (by simp [direction])] at link
          have below : h.numberU64 + msg.stride = h'.numberU64 := nth_parentKey_snd link
          simp only [direction, Bool.false_eq_true, if_false] at later ⊢
          rw [later, ← below]
          push_cast
          ring

theorem onOneChain_of_isChain (linked : headers.IsChain fun header next => Link bc msg header (keyOf (B := B) next)) :
    OnOneChain bc headers := by
  cases direction : msg.reverse with
  | true =>
    -- all are ancestors of the first
    suffices below : ∀ first ∈ headers.head?, ∀ header ∈ headers,
        Ancestor bc.parentKey (keyOf (B := B) header) (keyOf (B := B) first) by
      cases start : headers.head? with
      | none => exact ⟨(0, 0), by simp [head?_eq_none_iff.mp start]⟩
      | some first => exact ⟨_, below first start⟩
    induction headers with
    | nil => simp
    | cons h rest ih =>
      intro first start header mem
      obtain rfl : h = first := by simpa using start
      rcases mem_cons.mp mem with rfl | mem
      · exact .refl
      · cases next : rest with
        | nil => simp [next] at mem
        | cons h' rest' =>
          rw [next, isChain_cons_cons, Link, if_pos direction] at linked
          exact (ancestor_of_nth linked.1).trans (ih (next ▸ linked.2) h' (by rw [next]; rfl) header mem)
  | false =>
    induction headers with
    | nil => exact ⟨(0, 0), by simp⟩
    | cons h rest ih =>
      cases next : rest with
      | nil => exact ⟨keyOf (B := B) h, by simpa using Ancestor.refl⟩
      | cons h' rest' =>
        rw [next, isChain_cons_cons, Link, if_neg (by simp [direction])] at linked
        obtain ⟨top, above⟩ := ih (next ▸ linked.2)
        rw [next] at above
        refine ⟨top, forall_mem_cons.mpr ⟨?_, above⟩⟩
        exact (above h' (.head _)).trans (ancestor_of_nth linked.1)

theorem onOneChain_of_canonical (chain : ConsistentChain bc)
    (found : ∀ header ∈ headers, ∃ n, bc.getHeaderByNumber n = some header) : OnOneChain bc headers := by
  cases highest : headers.argmax Header.numberU64 with
  | none => exact ⟨(0, 0), by simp [argmax_eq_none.mp highest]⟩
  | some top =>
    obtain ⟨n, read⟩ := found top (argmax_mem highest)
    obtain ⟨key, canonical⟩ := chain.getHeaderByNumber read
    have number : top.numberU64 = n := congrArg Prod.snd key
    refine ⟨keyOf (B := B) top, fun header mem => ?_⟩
    obtain ⟨m, read'⟩ := found header mem
    have key' := (chain.getHeaderByNumber read').1
    have number' : header.numberU64 = m := congrArg Prod.snd key'
    have le := le_of_mem_argmax mem highest
    obtain ⟨k, rfl⟩ : ∃ k, n = m + k := ⟨n - m, by omega⟩
    rw [key, key']
    exact ancestor_of_nth (chain.toConsistentIndex.nth_canonical k canonical)

theorem ConsistentChain.numberU64_eq (chain : ConsistentChain bc) {n : UInt64} {header : Header}
    (read : bc.getHeaderByNumber n.toNat = some header) : header.numberU64 = n.toNat :=
  congrArg Prod.snd (chain.getHeaderByNumber read).1

/-- By hash, the numbers are those of the request. -/
theorem exact_of_isChain (mode : msg.hashMode = true)
    (linked : headers.IsChain fun header next => Link bc msg header (keyOf (B := B) next))
    (start : ∀ header ∈ headers.head?, bc.getHeaderByHash (.ofBytes msg.startHash) = some header) :
    Exact bc msg headers := by
  intro i header inside
  cases first : headers.head? with
  | none => simp [head?_eq_none_iff.mp first] at inside
  | some first' =>
    have origin : msg.origin bc = first'.numberU64 := by
      rw [GetBlockHeadersMsg.origin, if_pos mode, start first' first]
      rfl
    rw [origin]
    exact number_of_isChain linked first' first inside

section Numbers

variable (chain : ConsistentChain bc) (short : headers.length ≤ msg.limit) (rest : Rest bc msg (.start msg) headers)
include chain short rest

/-- Downwards by number, only a stride of 2 ^ 64 goes wrong: a second header would be the first one again. -/
theorem exact_iff_of_reverse (direction : msg.reverse = true) :
    (∀ (i : ℕ) (header : Header), headers[i]? = some header →
      (header.numberU64 : ℤ) = (msg.startNum.toNat : ℤ) - i * msg.stride) ↔
    (msg.stride = 2 ^ 64 → msg.limit ≤ 1 ∨ bc.getHeaderByNumber msg.startNum.toNat = none) := by
  have bound : msg.stride ≤ 2 ^ 64 := msg.skip.toNat_lt
  by_cases wrapped : msg.stride = 2 ^ 64
  · have stays := nth_reverse_wrapped direction wrapped
    constructor
    · intro right _
      by_contra more
      obtain ⟨many, stored⟩ := not_or.mp more
      have second : 1 < headers.length := rest.long rfl 1 (by rw [Gathering.start, length_nil]; omega)
        fun j _ => ⟨msg.startNum, stays j _, isSome_iff_ne_none.mpr stored⟩
      have below := right 1 _ (getElem?_eq_getElem second)
      have := msg.startNum.toNat_lt
      rw [wrapped] at below
      push_cast at below
      omega
    · intro few i header inside
      obtain ⟨n, reached, read⟩ := rest.found i header inside
      cases (stays i _).symm.trans reached
      have lt : i < headers.length := (List.getElem?_eq_some_iff.mp inside).1
      rcases few wrapped with one | none
      · obtain rfl : i = 0 := by omega
        simp [chain.numberU64_eq read, Gathering.start]
      · simp [Gathering.start, none] at read
  · refine iff_of_true (fun i header inside => ?_) fun same => absurd same wrapped
    obtain ⟨n, reached, read⟩ := rest.found i header inside
    have value : n.toNat + i * msg.stride = msg.startNum.toNat := nth_reverse direction (by omega) reached
    rw [chain.numberU64_eq read, ← value]
    push_cast
    ring

omit chain in
/-- Upwards by number, where no number with a header was reached by wraparound, none of the reply was. -/
theorem forward_small (direction : msg.reverse = false)
    (unwrapped : ∀ i < msg.limit, (∀ j < i, (bc.getHeaderByNumber (msg.startNum.toNat + j * msg.stride)).isSome) →
      2 ^ 64 ≤ msg.startNum.toNat + i * msg.stride →
        bc.getHeaderByNumber ((msg.startNum.toNat + i * msg.stride) % 2 ^ 64) = none)
    (i : ℕ) (lt : i < headers.length) :
    msg.startNum.toNat + i * msg.stride < 2 ^ 64 ∧
      (bc.getHeaderByNumber (msg.startNum.toNat + i * msg.stride)).isSome := by
  induction i using Nat.strong_induction_on with
  | _ i ih =>
    obtain ⟨n, reached, read⟩ := rest.found i _ (getElem?_eq_getElem lt)
    obtain ⟨n', reached', value⟩ := nth_forward direction i msg.startNum
    cases reached.symm.trans reached'
    have small : msg.startNum.toNat + i * msg.stride < 2 ^ 64 := by
      by_contra beyond
      have none := unwrapped i (by omega) (fun j less => (ih j less (by omega)).2) (by omega)
      rw [← value, read] at none
      cases none
    rw [Nat.mod_eq_of_lt small] at value
    exact ⟨small, by rw [← value, read]; rfl⟩

theorem exact_iff_of_forward (direction : msg.reverse = false) :
    (∀ (i : ℕ) (header : Header), headers[i]? = some header →
      (header.numberU64 : ℤ) = (msg.startNum.toNat : ℤ) + i * msg.stride) ↔
    ∀ i < msg.limit, (∀ j < i, (bc.getHeaderByNumber (msg.startNum.toNat + j * msg.stride)).isSome) →
      2 ^ 64 ≤ msg.startNum.toNat + i * msg.stride →
        bc.getHeaderByNumber ((msg.startNum.toNat + i * msg.stride) % 2 ^ 64) = none := by
  constructor
  · intro right i few before beyond
    by_contra stored
    -- the header of the wrapped number is in the reply
    have all : ∀ j ≤ i, ∃ n, nth (nextNum msg) j msg.startNum = some n ∧ (bc.getHeaderByNumber n.toNat).isSome := by
      intro j le
      obtain ⟨n, reached, value⟩ := nth_forward direction j msg.startNum
      refine ⟨n, reached, ?_⟩
      rcases Nat.lt_or_eq_of_le le with lt | rfl
      · obtain ⟨header, read⟩ := isSome_iff_exists.mp (before j lt)
        have small := header.numberU64_lt
        rw [show header.numberU64 = _ from congrArg Prod.snd (chain.getHeaderByNumber read).1] at small
        rw [value, Nat.mod_eq_of_lt small, read]
        rfl
      · rw [value]
        exact isSome_iff_ne_none.mpr stored
    have lt : i < headers.length := rest.long rfl i (by rw [Gathering.start, length_nil]; omega) all
    have given : headers[i].numberU64 = msg.startNum.toNat + i * msg.stride := by
      exact_mod_cast right i _ (getElem?_eq_getElem lt)
    have := headers[i].numberU64_lt
    omega
  · intro unwrapped i header inside
    have lt : i < headers.length := (List.getElem?_eq_some_iff.mp inside).1
    obtain ⟨n, reached, read⟩ := rest.found i header inside
    obtain ⟨n', reached', value⟩ := nth_forward direction i msg.startNum
    cases reached.symm.trans reached'
    rw [chain.numberU64_eq read, value, Nat.mod_eq_of_lt (forward_small short rest direction unwrapped i lt).1]
    push_cast
    rfl

/-- By number, the numbers are those of the request exactly if none of them is reached by wraparound. -/
theorem exact_iff_of_rest (mode : msg.hashMode = false) : Exact bc msg headers ↔ Unwrapped bc msg := by
  have origin : msg.origin bc = msg.startNum.toNat := by rw [GetBlockHeadersMsg.origin, if_neg (by simp [mode])]
  simp only [Unwrapped, mode, Bool.false_eq_true, false_or, Exact, origin]
  cases direction : msg.reverse with
  | true => exact exact_iff_of_reverse chain short rest direction
  | false => exact exact_iff_of_forward chain short rest direction

end Numbers

end Reply

/-- For every request the loop ends, the reply has no more headers than were asked for and are sent at once, and they
are on one chain. Their numbers are those of the request exactly if no number that is reached by wraparound has a
header. -/
theorem header_request_iff {B : Backend} {bc : BlockChain B} (chain : ConsistentChain bc) (msg : GetBlockHeadersMsg)
    (fuel : ℕ) (enough : MaxHeaderFetch < fuel) :
    ∃ headers, handleGetBlockHeaders bc fuel (some msg) = .ok headers ∧
      headers.length ≤ min msg.amount.toNat MaxHeaderFetch ∧ OnOneChain bc headers ∧
      (Exact bc msg headers ↔ Unwrapped bc msg) := by
  have limit : msg.limit ≤ min msg.amount.toNat MaxHeaderFetch := by
    rw [GetBlockHeadersMsg.limit, BitVec.toInt_eq_toNat_cond]
    simp only [toNat_toBitVec]
    split_ifs <;> omega
  cases mode : msg.hashMode with
  | true =>
    obtain ⟨headers, ran, linked, start⟩ := gather_linked chain mode enough
    have short := length_gather counted_start (limit_lt enough) (Nat.zero_le _) ran
    refine ⟨headers, by rw [handleGetBlockHeaders, ran]; rfl, short.trans limit, onOneChain_of_isChain linked, ?_⟩
    exact iff_of_true (exact_of_isChain mode linked start) (.inl mode)
  | false =>
    obtain ⟨headers, ran, rest⟩ := @gather_rest B bc msg fuel mode enough
    have short := length_gather counted_start (limit_lt enough) (Nat.zero_le _) ran
    refine ⟨headers, by rw [handleGetBlockHeaders, ran]; rfl, short.trans limit, ?_,
      exact_iff_of_rest chain short rest mode⟩
    refine onOneChain_of_canonical chain fun header member => ?_
    obtain ⟨i, inside⟩ := mem_iff_getElem?.mp member
    obtain ⟨n, -, read⟩ := rest.found i header inside
    exact ⟨_, read⟩

open Backend.tally in
theorem consistentChain_upper : ConsistentChain upper where
  toConsistentIndex := consistentIndex_upper
  keyed {number hash header} read := by
    obtain ⟨b, mem, rfl, isNumber⟩ := Database.mem_of_headers_ofEntries read
    have hashed : b.header.hashOf .numeral = hash := hashOf_forked (hash, b) mem
    exact ⟨isNumber, hashed⟩

/-- Three headers back from the head. -/
def backwards : GetBlockHeadersMsg := ⟨[], 2, 3, 0, true⟩

/-- Two headers, and all numbers there are in between. -/
def skipping : GetBlockHeadersMsg := ⟨[], 2, 2, .ofNat (2 ^ 64 - 1), false⟩

open Backend.tally in
theorem header_request_backwards : ConsistentChain upper ∧ MaxHeaderFetch < 193 ∧
    ∃ headers, handleGetBlockHeaders upper 193 (some backwards) = .ok headers ∧ Exact upper backwards headers := by
  obtain ⟨headers, ran, -, -, numbers⟩ := header_request_iff consistentChain_upper backwards 193 (by decide)
  exact ⟨consistentChain_upper, by decide, headers, ran, numbers.mpr (.inr (fun wrapped => absurd wrapped (by decide)))⟩

open Backend.tally in
/-- The head is sent twice. -/
theorem header_request_repeats : ConsistentChain upper ∧
    ∃ headers, handleGetBlockHeaders upper 193 (some skipping) = .ok headers ∧ ¬ Exact upper skipping headers := by
  have ran : handleGetBlockHeaders upper 193 (some skipping) =
      .ok [(plain (hash 1) 2 2).header, (plain (hash 1) 2 2).header] := by
    decide +kernel
  refine ⟨consistentChain_upper, _, ran, fun right => ?_⟩
  exact absurd (right 1 _ rfl) (by decide)

end HeaderRequest

end KKChain
