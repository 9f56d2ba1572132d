import KKChain.Core.Rawdb
import KKChain.Machine.Proc
import KKChain.Machine.Quota
import KKChain.ToMathlib.AList

/-! # The block fetcher

`Fetcher.loop` with its announcements, its import queue and the counters that limit both per peer. One round of the loop
imports from the queue and then handles one event. What the callbacks answer, how the priority queue breaks ties and
which announcement is drawn are answers from outside that are used up one after the other.

The announcements only ever reach the first of the four maps: nothing is put into `fetching` or `fetched`, and
`completing` is filled from `fetched`. So every counter is exact in every run.
-/

namespace KKChain

open Proc Quota List

/-- `announce`. `Notify` leaves the header out. -/
structure Announce where
  hash : Hash
  number : UInt64
  header : Option Header
  origin : String

structure Inject where
  origin : String
  block : Block
deriving DecidableEq

/-- `Fetcher`. The last field are the goroutines of `insert` that have not reported yet. -/
structure Fetcher where
  announces : String → Option ℤ
  announced : AList fun _ : Hash => List Announce
  fetching : AList fun _ : Hash => Announce
  fetched : AList fun _ : Hash => List Announce
  completing : AList fun _ : Hash => Announce
  queue : List Inject
  queues : String → Option ℤ
  queued : AList fun _ : Hash => Inject
  importing : List Inject

namespace Fetcher

def new : Fetcher := ⟨fun _ => none, ∅, ∅, ∅, ∅, [], fun _ => none, ∅, []⟩

def hashLimit : ℤ := 256
def blockLimit : ℤ := 64

/-- The counters of announcements after some of them were removed. -/
def release (f : Fetcher) (announcements : List Announce) : String → Option ℤ :=
  (announcements.map Announce.origin).foldl decrement f.announces

def forgetHash (f : Fetcher) (hash : Hash) : Fetcher :=
  let f := { f with
    announces := f.release ((f.announced.lookup hash).getD [])
    announced := f.announced.erase hash }
  let f := { f with
    announces := f.release (f.fetching.lookup hash).toList
    fetching := f.fetching.erase hash }
  let f := { f with
    announces := f.release ((f.fetched.lookup hash).getD [])
    fetched := f.fetched.erase hash }
  { f with
    announces := f.release (f.completing.lookup hash).toList
    completing := f.completing.erase hash }

def forgetBlock (f : Fetcher) (hash : Hash) : Fetcher :=
  match f.queued.lookup hash with
  | none => f
  | some insert => { f with queues := decrement f.queues insert.origin, queued := f.queued.erase hash }

end Fetcher

/-- The number of a block as a word. -/
def Block.number64 (block : Block) : UInt64 := .ofNat block.numberU64

/-- `float32` of a number: 24 significant bits, rounded to even. -/
def float32 (n : ℕ) : ℕ :=
  let e := n.log2 - 23
  let q := n / 2 ^ e
  let r := 2 * (n % 2 ^ e)
  (if 2 ^ e < r ∨ r = 2 ^ e ∧ q % 2 = 1 then q + 1 else q) * 2 ^ e

/-- What the fetcher is told from outside, in the order it asks. -/
structure Answers where
  /-- `chainHeight`. -/
  heights : ℕ → UInt64
  /-- Whether `getBlock` finds the block. -/
  known : ℕ → Bool
  /-- Whether an announcement is older than `fetchTimeout`. -/
  expired : ℕ → Bool
  /-- Which of the entries of highest priority comes first. -/
  ties : ℕ → ℕ
  /-- `rand.Intn`. -/
  draws : ℕ → ℕ

structure FetcherWorld where
  fetcher : Fetcher
  answers : Answers

/-- What the loop receives. `filter` is `FilterBlock`; the timer of `fetchTimer` is never looked at. -/
inductive FetcherEvent where
  | notify (announce : Announce)
  | inject (origin : String) (block : Block)
  | done (hash : Hash)
  | completeTimer
  | filter (peer : String) (blocks : List Block)

abbrev FetcherProc := Proc Empty FetcherWorld

namespace FetcherProc

variable (C : Crypto)

def fetcher : FetcherProc Fetcher := return (← get).fetcher

def modifyFetcher (g : Fetcher → Fetcher) : FetcherProc Unit := modify fun w => { w with fetcher := g w.fetcher }

/-- The next answer of a kind, which is used up. -/
def ask {α : Type} (read : Answers → α) (next : Answers → Answers) : FetcherProc α := do
  let w ← get
  set { w with answers := next w.answers }
  return read w.answers

def chainHeight : FetcherProc UInt64 := ask (·.heights 0) fun a => { a with heights := fun k => a.heights (k + 1) }

/-- `getBlock(hash) != nil`. -/
def hasBlock (_hash : Hash) : FetcherProc Bool := ask (·.known 0) fun a => { a with known := fun k => a.known (k + 1) }

def isExpired : FetcherProc Bool := ask (·.expired 0) fun a => { a with expired := fun k => a.expired (k + 1) }

def tie : FetcherProc ℕ := ask (·.ties 0) fun a => { a with ties := fun k => a.ties (k + 1) }

def draw : FetcherProc ℕ := ask (·.draws 0) fun a => { a with draws := fun k => a.draws (k + 1) }

def forgetHash (hash : Hash) : FetcherProc Unit := modifyFetcher (·.forgetHash hash)

def forgetBlock (hash : Hash) : FetcherProc Unit := modifyFetcher (·.forgetBlock hash)

/-- The check of a number against the chain height, as 64 bit integers. -/
def tooFar (number : UInt64) : FetcherProc Bool := do
  let dist := number.toInt64 - (← chainHeight).toInt64
  return decide (dist < -7) || decide (dist > 32)

def push (op : Inject) : FetcherProc Unit := modifyFetcher fun f => { f with queue := f.queue ++ [op] }

/-- `PopItem`: one of the entries with the lowest rounded number, if there is any. -/
def popItem : FetcherProc (Option Inject) := do
  let f ← fetcher
  let first := f.queue.filter fun op =>
    f.queue.all fun other => float32 op.block.numberU64 ≤ float32 other.block.numberU64
  match first[(← tie) % first.length]? with
  | none => return none
  | some op =>
    modifyFetcher fun f => { f with queue := f.queue.erase op }
    return some op

/-- `insert`: the import runs on its own and reports its hash at its end. -/
def insert (op : Inject) : FetcherProc Unit := modifyFetcher fun f => { f with importing := f.importing ++ [op] }

/-- Whether a queued block is past or already known. -/
def isStale (height : UInt64) (op : Inject) : FetcherProc Bool :=
  if op.block.number64 + 7 < height then pure true else hasBlock (op.block.hash C)

/-- The loop that imports queued blocks. -/
def importQueue (height : UInt64) : ℕ → FetcherProc Unit
  | 0 => throw .diverges
  | fuel + 1 => do
    match ← popItem with
    | none => return ()
    | some op =>
      if op.block.number64 > height + 1 then push op
      else
        let stale ← isStale C height op
        (if stale then forgetBlock (op.block.hash C) else insert op)
        importQueue height fuel

/-- The head of a round: expired fetches are dropped, then the queue is imported as far as it fits. -/
def prepare : FetcherProc Unit := do
  (← fetcher).fetching.entries.forM fun e => do
    if ← isExpired then forgetHash e.1
  let height ← chainHeight
  importQueue C height ((← fetcher).queue.length + 1)

def enqueue (peer : String) (block : Block) : FetcherProc Unit := do
  let hash := block.hash C
  let block := block.hashed C
  let count := count (← fetcher).queues peer + 1
  if count > Fetcher.blockLimit then forgetHash hash
  else if ← tooFar block.number64 then forgetHash hash
  else if ((← fetcher).queued.lookup hash).isNone then
    let op : Inject := ⟨peer, block⟩
    modifyFetcher fun f => { f with
      queues := Function.update f.queues peer (some count)
      queued := f.queued.insert hash op }
    push op

/-- The first announcement of each hash is looked at for its time. -/
def earliest (announced : AList fun _ : Hash => List Announce) : FetcherProc Unit :=
  if announced.entries.any (·.2.isEmpty) then throw .panic else return ()

/-- An announcement arrives. -/
def notify (announce : Announce) : FetcherProc Unit := do
  let count := count (← fetcher).announces announce.origin + 1
  if count > Fetcher.hashLimit then return ()
  else
    let far ← (if announce.number > 0 then tooFar announce.number else pure false)
    let f ← fetcher
    if far || (f.fetching.lookup announce.hash).isSome || (f.completing.lookup announce.hash).isSome then return ()
    else
      modifyFetcher fun f => { f with
        announces := Function.update f.announces announce.origin (some count)
        announced := f.announced.insert announce.hash ((f.announced.lookup announce.hash).getD [] ++ [announce]) }
      let f ← fetcher
      if f.announced.keys.length = 1 then earliest f.announced

/-- The completion timer ran out: one of the announcements of each fetched hash goes on to completion. -/
def complete : FetcherProc Unit := do
  (← fetcher).fetched.entries.forM fun e => do
    let announce ← orFault .panic e.2[(← draw) % e.2.length]?
    forgetHash e.1
    if !(← hasBlock e.1) then
      modifyFetcher fun f => { f with completing := f.completing.insert e.1 announce }
  earliest (← fetcher).fetched

/-- The completions that a delivered block is compared with: whether one matched, and the block for each whose hash is
still unknown. -/
def matchBlock (peer : String) (block : Block) : List (Σ _ : Hash, Announce) → FetcherProc (Bool × List Block)
  | [] => return (false, [])
  | ⟨hash, announce⟩ :: rest => do
    if ((← fetcher).queued.lookup hash).isSome then matchBlock peer block rest
    else
      let header ← orFault .panic announce.header
      if block.header.txRoot = header.txRoot ∧ announce.origin = peer then
        let known ← hasBlock hash
        if known then forgetHash hash
        let (_, blocks) ← matchBlock peer block rest
        return (true, if known then blocks else block :: blocks)
      else matchBlock peer block rest

/-- The delivered blocks: those that matched a completion, and the rest that is handed back. -/
def matchBlocks (peer : String) : List Block → FetcherProc (List Block × List Block)
  | [] => return ([], [])
  | block :: rest => do
    let (hit, found) ← matchBlock peer block (← fetcher).completing.entries
    let (blocks, left) ← matchBlocks peer rest
    return (found ++ blocks, if hit then left else block :: left)

/-- Blocks are delivered to `FilterBlock`. -/
def filter (peer : String) (delivered : List Block) : FetcherProc (List Block) := do
  let (blocks, left) ← matchBlocks peer delivered
  blocks.forM fun block => do
    match (← fetcher).completing.lookup (block.hash C) with
    | none => pure ()
    | some announce => enqueue C announce.origin block
  return left

/-- An import reports its hash; nothing is received if none with this hash runs. -/
def done (hash : Hash) : FetcherProc Unit := do
  match (← fetcher).importing.find? (·.block.hash C = hash) with
  | none => throw .diverges
  | some op =>
    modifyFetcher fun f => { f with importing := f.importing.erase op }
    forgetHash hash
    forgetBlock hash

def handle : FetcherEvent → FetcherProc Unit
  | .notify announce => notify announce
  | .inject origin block => enqueue C origin block
  | .done hash => done C hash
  | .completeTimer => complete
  | .filter peer blocks => do
    let _ ← filter C peer blocks

def round (event : FetcherEvent) : FetcherProc Unit := do
  prepare C
  handle C event

end FetcherProc

namespace Fetcher

variable {C : Crypto} {f : Fetcher} {held importing queue : List Inject} {op : Inject} {hash : Hash} {p : String}

/-- The peers of listed announcements, one for each. -/
def origins (m : AList fun _ : Hash => List Announce) : Multiset String :=
  ↑(m.entries.flatMap fun e => e.2.map Announce.origin)

theorem origins_erase (m : AList fun _ : Hash => List Announce) (hash : Hash) :
    origins m = ↑(((m.lookup hash).getD []).map Announce.origin) + origins (m.erase hash) := by
  cases found : m.lookup hash with
  | none =>
    rw [origins, origins, AList.entries_erase_of_lookup_eq_none found]
    simp
  | some l =>
    rw [origins, origins, Multiset.coe_add, Multiset.coe_eq_coe]
    exact (AList.entries_perm_of_lookup found).flatMap_right _

theorem origins_insert (m : AList fun _ : Hash => List Announce) (hash : Hash) (l : List Announce) :
    origins (m.insert hash l) = ↑(l.map Announce.origin) + origins (m.erase hash) := by
  rfl

/-- What every part of the loop keeps: announcements are only listed, and the counters and the queue agree with the
maps. Some operations may be taken from the queue and be in hand. -/
structure Settled (C : Crypto) (held : List Inject) (f : Fetcher) : Prop where
  fetching : f.fetching = ∅
  fetched : f.fetched = ∅
  completing : f.completing = ∅
  listed : ∀ e ∈ f.announced.entries, e.2 ≠ []
  announces : Counts f.announces (origins f.announced)
  announces_le : ∀ p, ((origins f.announced).count p : ℤ) ≤ hashLimit
  queues : Counts f.queues (f.queued.entries.map (·.2.origin))
  queues_le : ∀ p, ((f.queued.entries.map (·.2.origin)).count p : ℤ) ≤ blockLimit
  operations : f.queued.entries.Perm ((held ++ f.queue ++ f.importing).map fun op => ⟨op.block.hash C, op⟩)

theorem settled_new : new.Settled C [] := by
  refine ⟨rfl, rfl, rfl, by simp [new], counts_empty, fun p => by simp [new, origins, hashLimit], counts_empty,
    fun p => by simp [new, blockLimit], .refl _⟩

theorem queue_forgetBlock (f : Fetcher) (hash : Hash) : (f.forgetBlock hash).queue = f.queue := by
  unfold forgetBlock
  split <;> rfl

namespace Settled

/-- Announcements are only listed, so these are what is forgotten. -/
theorem forgetHash_eq (settled : f.Settled C held) (hash : Hash) : f.forgetHash hash = { f with
    announces := f.release ((f.announced.lookup hash).getD [])
    announced := f.announced.erase hash } := by
  have none_ : (∅ : AList fun _ : Hash => Announce).lookup hash = none := AList.lookup_empty hash
  have none' : (∅ : AList fun _ : Hash => List Announce).lookup hash = none := AList.lookup_empty hash
  obtain ⟨announces, announced, _, _, _, queue, queues, queued, importing⟩ := f
  obtain ⟨rfl, rfl, rfl⟩ := And.intro settled.fetching (And.intro settled.fetched settled.completing)
  rfl

/-- Announcements of a hash are removed with their counts. -/
theorem forgetHash (settled : f.Settled C held) (hash : Hash) : (f.forgetHash hash).Settled C held := by
  rw [settled.forgetHash_eq]
  have split := origins_erase f.announced hash
  refine { settled with listed := fun e mem => ?_, announces := ?_, announces_le := fun p => ?_ }
  · exact settled.listed e ((kerase_sublist hash f.announced.entries).subset mem)
  · apply Counts.decrementAll
    rw [← split]
    exact settled.announces
  · have bound := settled.announces_le p
    rw [split, Multiset.count_add] at bound
    dsimp only
    omega

/-- An operation in hand is the one that is noted under its hash. -/
theorem lookup_held (settled : f.Settled C (op :: held)) : f.queued.lookup (op.block.hash C) = some op := by
  apply AList.mem_lookup_iff.mpr
  exact settled.operations.mem_iff.mpr (by simp)

/-- An operation in hand is removed with its count. -/
theorem forgetBlock (settled : f.Settled C (op :: held)) : (f.forgetBlock (op.block.hash C)).Settled C held := by
  have found := settled.lookup_held
  have entry := AList.entries_perm_of_lookup found
  have owners : (f.queued.entries.map (·.2.origin) : Multiset String) =
      op.origin ::ₘ ((f.queued.erase (op.block.hash C)).entries.map (·.2.origin) : Multiset String) := by
    rw [Multiset.cons_coe, Multiset.coe_eq_coe]
    exact entry.map _
  rw [Fetcher.forgetBlock, found]
  refine { settled with queues := ?_, queues_le := fun p => ?_, operations := ?_ }
  · apply Counts.decrement
    rw [← owners]
    exact settled.queues
  · have bound := settled.queues_le p
    rw [← Multiset.coe_count, owners, Multiset.count_cons, Multiset.coe_count] at bound
    dsimp only
    omega
  · exact (entry.symm.trans settled.operations).cons_inv

/-- An operation that is in hand goes to the queue or to an import. -/
theorem hand_over (settled : f.Settled C (op :: held))
    (moved : (queue ++ importing).Perm (op :: (f.queue ++ f.importing))) :
    ({ f with queue, importing } : Fetcher).Settled C held := by
  refine { settled with operations := settled.operations.trans (.map _ ?_) }
  rw [append_assoc, append_assoc]
  exact (perm_middle.symm.trans (moved.symm.append_left held))

/-- An operation is taken in hand from the queue or from an import. -/
theorem take (settled : f.Settled C held) (moved : (f.queue ++ f.importing).Perm (op :: (queue ++ importing))) :
    ({ f with queue, importing } : Fetcher).Settled C (op :: held) := by
  refine { settled with operations := settled.operations.trans (.map _ ?_) }
  rw [append_assoc, append_assoc]
  exact (moved.append_left held).trans perm_middle

/-- One more announcement is listed and counted. -/
theorem announce (settled : f.Settled C held) {a : Announce} (below : count f.announces a.origin + 1 ≤ hashLimit) :
    ({ f with
      announces := Function.update f.announces a.origin (some (count f.announces a.origin + 1))
      announced := f.announced.insert a.hash ((f.announced.lookup a.hash).getD [] ++ [a]) } : Fetcher).Settled C
      held := by
  have owners : origins (f.announced.insert a.hash ((f.announced.lookup a.hash).getD [] ++ [a])) =
      a.origin ::ₘ origins f.announced := by
    rw [origins_insert, origins_erase f.announced a.hash, map_append, ← Multiset.coe_add, add_right_comm, add_comm]
    rfl
  refine { settled with listed := fun e mem => ?_, announces := ?_, announces_le := fun p => ?_ }
  · rw [AList.entries_insert] at mem
    rcases mem_cons.mp mem with rfl | mem
    · simp
    · exact settled.listed e ((kerase_sublist a.hash f.announced.entries).subset mem)
  · rw [owners]
    exact settled.announces.increment a.origin
  · rw [settled.announces.count_eq] at below
    have bound := settled.announces_le p
    rw [owners, Multiset.count_cons]
    split_ifs with same
    · rw [same]
      omega
    · omega

/-- One more operation is queued and counted. -/
theorem enqueue (settled : f.Settled C []) (op : Inject) (fresh : f.queued.lookup (op.block.hash C) = none)
    (below : count f.queues op.origin + 1 ≤ blockLimit) :
    ({ f with
      queues := Function.update f.queues op.origin (some (count f.queues op.origin + 1))
      queued := f.queued.insert (op.block.hash C) op
      queue := f.queue ++ [op] } : Fetcher).Settled C [] := by
  have entries : (f.queued.insert (op.block.hash C) op).entries = ⟨op.block.hash C, op⟩ :: f.queued.entries := by
    exact congrArg _ (AList.entries_erase_of_lookup_eq_none fresh)
  refine { settled with queues := ?_, queues_le := fun p => ?_, operations := ?_ }
  · rw [entries]
    exact settled.queues.increment op.origin
  · rw [settled.queues.count_eq, Multiset.coe_count] at below
    have bound := settled.queues_le p
    rw [entries, map_cons, count_cons]
    split_ifs with same
    · obtain rfl : op.origin = p := eq_of_beq same
      omega
    · omega
  · rw [entries]
    have perm := settled.operations.cons ⟨op.block.hash C, op⟩
    refine perm.trans ?_
    simp only [nil_append, append_assoc, map_append]
    exact perm_middle.symm

end Settled

end Fetcher

namespace FetcherProc

open Fetcher

variable {C : Crypto} {E : Fault Empty → FetcherWorld → Prop} {α β : Type} {P Q : Fetcher → Prop} {f : Fetcher}

/-- A property of the fetcher, whatever is answered. -/
def On (P : Fetcher → Prop) (w : FetcherWorld) : Prop := P w.fetcher

theorem spec_ask (read : Answers → α) (next : Answers → Answers) : Spec (On P) (ask read next) (fun _ => On P) E :=
  fun _ start => start

theorem spec_modifyFetcher {g : Fetcher → Fetcher} (step : ∀ f, P f → Q (g f)) :
    Spec (On P) (modifyFetcher g) (fun _ => On Q) E := fun w start => step w.fetcher start

theorem on_of_eq (holds : P f) : ∀ w, On (· = f) w → On P w := by
  rintro w rfl
  exact holds

/-- A triple used where the fetcher is known. -/
theorem spec_of_eq {x : FetcherProc α} {R : α → FetcherWorld → Prop} (holds : P f)
    (spec : Spec (On P) x R E) : Spec (On (· = f)) x R E :=
  spec.pre (on_of_eq holds)

theorem spec_fetcher_bind {k : Fetcher → FetcherProc β} {R : β → FetcherWorld → Prop}
    (rest : ∀ f, P f → Spec (On (· = f)) (k f) R E) : Spec (On P) (fetcher >>= k) R E :=
  fun w start => rest w.fetcher start w rfl

/-- The part of the loop that an operation in hand goes through. -/
def Popped (C : Crypto) (n : ℕ) : Option Inject → Fetcher → Prop
  | none, f => f.Settled C []
  | some op, f => f.Settled C [op] ∧ f.queue.length < n

theorem spec_popItem (n : ℕ) : Spec (On fun f => f.Settled C [] ∧ f.queue.length < n + 1) popItem
    (fun found => On (Popped C n found)) E := by
  refine spec_fetcher_bind fun f ⟨settled, bound⟩ => .bind (spec_ask _ _) fun i => ?_
  split
  · exact .pure (on_of_eq settled)
  · rename_i op found
    have mem : op ∈ f.queue := mem_of_mem_filter (mem_of_getElem? found)
    have shorter := length_erase_of_mem mem
    have positive := length_pos_of_mem mem
    refine .bind (spec_modifyFetcher fun g same => ?_) fun _ => .pure fun w start => start
    subst same
    exact ⟨settled.take ((perm_cons_erase mem).append_right _), by dsimp only; omega⟩

/-- The import loop ends with every operation queued or handed to an import. -/
theorem spec_importQueue (height : UInt64) (fuel : ℕ) :
    Spec (On fun f => f.Settled C [] ∧ f.queue.length < fuel) (importQueue C height fuel)
      (fun _ => On (Settled C [])) E := by
  induction fuel with
  | zero => exact fun w start => absurd start.2 (Nat.not_lt_zero _)
  | succ fuel ih =>
    refine Spec.bind (spec_popItem fuel) fun found => ?_
    cases found with
    | none => exact Spec.pure fun w settled => settled
    | some op =>
      apply Spec.ite
      · intro _
        refine spec_modifyFetcher fun f start => start.1.hand_over ?_
        rw [append_assoc]
        exact perm_middle
      · intro _
        refine Spec.bind (Q := fun _ => On (Popped C fuel (some op))) ?_ fun stale => Spec.bind ?_ fun _ => ih
        · exact Spec.ite (fun _ => Spec.pure fun w start => start) fun _ => spec_ask _ _
        · apply Spec.ite
          · intro _
            refine spec_modifyFetcher fun f start => ⟨start.1.forgetBlock, ?_⟩
            rw [queue_forgetBlock]
            exact start.2
          · intro _
            refine spec_modifyFetcher fun f start => ⟨start.1.hand_over ?_, start.2⟩
            rw [← append_assoc]
            exact perm_append_singleton ..

/-- The head of a round keeps the books and ends. -/
theorem spec_prepare : Spec (On (Settled C [])) (prepare C) (fun _ => On (Settled C [])) E := by
  refine spec_fetcher_bind fun f settled => ?_
  rw [settled.fetching]
  refine .bind (Q := fun _ => On (· = f)) (.pure fun w same => same) fun _ => ?_
  refine .bind (spec_ask _ _) fun height => spec_fetcher_bind fun f' same => ?_
  subst same
  exact spec_of_eq ⟨settled, Nat.lt_succ_self _⟩ (spec_importQueue height _)

theorem spec_forgetHash (held : List Inject) (hash : Hash) :
    Spec (On (Settled C held)) (forgetHash hash) (fun _ => On (Settled C held)) E :=
  spec_modifyFetcher fun _ settled => settled.forgetHash hash

theorem spec_tooFar (number : UInt64) : Spec (On P) (tooFar number) (fun _ => On P) E :=
  Spec.bind (spec_ask _ _) fun _ => .pure fun _ => id

/-- `enqueue` keeps the books. -/
theorem spec_enqueue (peer : String) (block : Block) :
    Spec (On (Settled C [])) (enqueue C peer block) (fun _ => On (Settled C [])) E := by
  refine spec_fetcher_bind fun f settled => ?_
  apply Spec.ite
  · intro _
    exact spec_of_eq settled (spec_forgetHash [] _)
  · intro below
    refine Spec.bind (spec_tooFar _) fun far => Spec.ite (fun _ => ?_) fun _ => spec_fetcher_bind fun f' isF => ?_
    · exact spec_of_eq settled (spec_forgetHash [] _)
    · subst isF
      apply Spec.ite
      · intro fresh
        have added := settled.enqueue ⟨peer, block.hashed C⟩ (Option.isNone_iff_eq_none.mp fresh) (not_lt.mp below)
        refine Spec.bind (Q := fun _ => On (· = { f' with
          queues := Function.update f'.queues peer (some (count f'.queues peer + 1))
          queued := f'.queued.insert (block.hash C) ⟨peer, block.hashed C⟩ })) ?_ fun _ => ?_
        · exact spec_modifyFetcher fun g same => by rw [same]
        · exact spec_modifyFetcher fun g same => by rw [same]; exact added
      · intro _
        exact Spec.pure (on_of_eq settled)

/-- The lists of announcements have a first one. -/
theorem spec_earliest {m : AList fun _ : Hash => List Announce} (listed : ∀ e ∈ m.entries, e.2 ≠ []) :
    Spec (On P) (earliest m) (fun _ => On P) E := by
  refine .ite (fun isEmpty => ?_) fun _ => .pure fun _ => id
  obtain ⟨e, mem, empty⟩ := any_eq_true.mp isEmpty
  exact absurd (isEmpty_iff.mp empty) (listed e mem)

/-- An announcement keeps the books. -/
theorem spec_notify (a : Announce) : Spec (On (Settled C [])) (notify a) (fun _ => On (Settled C [])) E := by
  refine spec_fetcher_bind fun f settled => ?_
  apply Spec.ite
  · intro _
    exact Spec.pure (on_of_eq settled)
  · intro below
    refine .bind (Q := fun _ => On (· = f)) (.ite (fun _ => spec_tooFar _) fun _ => .pure fun _ => id)
      fun far => spec_fetcher_bind fun f' isF => ?_
    subst isF
    refine .ite (fun _ => .pure (on_of_eq settled)) fun _ => ?_
    refine .bind (Q := fun _ => On (Settled C [])) (spec_modifyFetcher fun g isF => ?_) fun _ =>
      spec_fetcher_bind fun f settled => ?_
    · rw [isF]
      exact settled.announce (not_lt.mp below)
    · exact .ite (fun _ => spec_of_eq settled (spec_earliest settled.listed)) fun _ => .pure (on_of_eq settled)

/-- No hash is ever fetched, so none goes on to completion. -/
theorem spec_complete : Spec (On (Settled C [])) complete (fun _ => On (Settled C [])) E := by
  refine spec_fetcher_bind fun f settled => ?_
  rw [settled.fetched]
  refine .bind (Q := fun _ => On (· = f)) (.pure fun w same => same) fun _ => spec_fetcher_bind fun f' same => ?_
  subst same
  rw [settled.fetched]
  exact spec_of_eq settled (spec_earliest (by simp))

/-- No completion is waited for, so every delivered block is handed back. -/
theorem spec_matchBlocks (peer : String) (blocks : List Block) : Spec (On (Settled C [])) (matchBlocks peer blocks)
    (fun found w => found.1 = [] ∧ On (Settled C []) w) E := by
  induction blocks with
  | nil => exact .pure fun w settled => ⟨rfl, settled⟩
  | cons block rest ih =>
    refine spec_fetcher_bind fun f settled => ?_
    rw [settled.completing]
    refine .bind (Q := fun found w => found = (false, []) ∧ On (Settled C []) w)
      (.pure fun w same => ⟨rfl, on_of_eq settled w same⟩) fun found => .of_each fun w ⟨isEmpty, start⟩ => ?_
    subst isEmpty
    refine .bind (ih.pre (fun s same => same ▸ start)) fun found => ?_
    exact .pure fun w after => after

theorem spec_filter (peer : String) (blocks : List Block) :
    Spec (On (Settled C [])) (filter C peer blocks) (fun _ => On (Settled C [])) E := by
  refine .bind (spec_matchBlocks peer blocks) fun ⟨found, left⟩ => .of_each fun w ⟨isEmpty, start⟩ => ?_
  obtain rfl : found = [] := isEmpty
  refine .bind (Q := fun _ => On (Settled C [])) (.pure fun s same => same ▸ start) fun _ => ?_
  exact .pure fun _ => id

/-- The loop waits for the report of an import that does not run. -/
def Waits (C : Crypto) (event : FetcherEvent) (w : FetcherWorld) : Prop :=
  ∃ hash, event = .done hash ∧ ∀ op ∈ w.fetcher.importing, op.block.hash C ≠ hash

/-- The report of an import keeps the books; if there is none, nothing changes. -/
theorem spec_done (hash : Hash) : Spec (On (Settled C [])) (done C hash) (fun _ => On (Settled C []))
    fun _ w => Waits C (.done hash) w ∧ On (Settled C []) w := by
  refine spec_fetcher_bind fun f settled => ?_
  cases found : f.importing.find? (·.block.hash C = hash) with
  | none =>
    refine .throw fun w same => ⟨⟨hash, rfl, fun op mem => ?_⟩, on_of_eq settled w same⟩
    rw [show w.fetcher = f from same] at mem
    simpa using find?_eq_none.mp found op mem
  | some op =>
    have mem := mem_of_find?_eq_some found
    have isHash := find?_some found
    rw [decide_eq_true_eq] at isHash
    subst isHash
    refine .bind (Q := fun _ => On (Settled C [op])) (spec_modifyFetcher fun g same => ?_) fun _ =>
      Spec.bind (spec_forgetHash [op] _) fun _ => spec_modifyFetcher fun g settled => settled.forgetBlock
    rw [same]
    exact settled.take (((perm_cons_erase mem).append_left f.queue).trans perm_middle)

/-- A round keeps the books, and it returns or waits for an import that does not run. -/
theorem spec_round (event : FetcherEvent) : Spec (On (Settled C [])) (round C event) (fun _ => On (Settled C []))
    fun _ w => Waits C event w ∧ On (Settled C []) w := by
  refine .bind spec_prepare fun _ => ?_
  cases event with
  | notify announce => exact spec_notify announce
  | inject origin block => exact spec_enqueue origin block
  | done hash => exact spec_done hash
  | completeTimer => exact spec_complete
  | filter peer blocks => exact .bind (spec_filter peer blocks) fun _ => .pure fun _ => id

end FetcherProc

namespace Fetcher

/-- The peers of all announcements that are outstanding, in whichever of the four maps. -/
def outstanding (f : Fetcher) : Multiset String :=
  origins f.announced + ↑(f.fetching.entries.map (·.2.origin)) + origins f.fetched +
    ↑(f.completing.entries.map (·.2.origin))

/-- The counters are exact and within their limits, without entries at zero, and no block is queued or imported
twice. -/
structure Accounted (C : Crypto) (f : Fetcher) : Prop where
  announces : Counts f.announces f.outstanding
  announces_le : ∀ p, (f.outstanding.count p : ℤ) ≤ hashLimit
  queues : Counts f.queues ((f.queue ++ f.importing).map Inject.origin)
  queues_le : ∀ p, (((f.queue ++ f.importing).map Inject.origin).count p : ℤ) ≤ blockLimit
  once : ((f.queue ++ f.importing).map (·.block.hash C)).Nodup

theorem Settled.accounted {C : Crypto} {f : Fetcher} (settled : f.Settled C []) : f.Accounted C := by
  have listed : f.outstanding = origins f.announced := by
    rw [outstanding, settled.fetching, settled.fetched, settled.completing]
    simp [origins]
  have owners : (f.queued.entries.map (·.2.origin)).Perm ((f.queue ++ f.importing).map Inject.origin) := by
    have perm := settled.operations.map (·.2.origin)
    rwa [map_map] at perm
  have keys : (f.queued.entries.map Sigma.fst).Perm ((f.queue ++ f.importing).map (·.block.hash C)) := by
    have perm := settled.operations.map Sigma.fst
    rwa [map_map] at perm
  constructor
  · rw [listed]
    exact settled.announces
  · rw [listed]
    exact settled.announces_le
  · rw [← Multiset.coe_eq_coe.mpr owners]
    exact settled.queues
  · intro p
    rw [← owners.count_eq]
    exact settled.queues_le p
  · exact keys.nodup_iff.mp f.queued.nodupKeys

end Fetcher

open FetcherProc in
/-- However events and answers follow each other, the books are right at the start of every round of the loop and
where it waits for an event. -/
theorem fetcher_accounted (C : Crypto) (answers : Answers) (events : List FetcherEvent) :
    ((events.forM (round C)).after ⟨.new, answers⟩).fetcher.Accounted C ∧
      ((events.forM (round C) >>= fun _ => prepare C).after ⟨.new, answers⟩).fetcher.Accounted C := by
  have start : On (Fetcher.Settled C []) ⟨.new, answers⟩ := Fetcher.settled_new
  have rounds : Spec (On (Fetcher.Settled C [])) (events.forM (round C)) (fun _ => On (Fetcher.Settled C []))
      fun _ => On (Fetcher.Settled C []) :=
    Spec.forM fun event _ => (spec_round event).mono (fun _ => id) (fun _ _ => id) fun _ _ => And.right
  have waits := Spec.bind rounds fun _ => spec_prepare
  exact ⟨Fetcher.Settled.accounted (rounds.after start), Fetcher.Settled.accounted (waits.after start)⟩

open FetcherProc in
example :
    let quiet : Answers := ⟨fun _ => 0, fun _ => false, fun _ => false, fun _ => 0, fun _ => 0⟩
    let events : List FetcherEvent := [.notify ⟨1, 1, none, "a"⟩, .notify ⟨1, 1, none, "b"⟩, .notify ⟨2, 40, none, "a"⟩,
      .notify ⟨2, 2, none, "a"⟩]
    ((events.forM (round .numeral)).after ⟨.new, quiet⟩).fetcher.announces "a" = some 2 := by
  decide

end KKChain
