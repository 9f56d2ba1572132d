import KKChain.P2P.Registry
import KKChain.ToMathlib.XorMetric

/-! # The routing table

A bucket for each length of the prefix that an id has in common with the local one, most recently seen peers first. A
peer that is seen again moves to the front, and no peer makes room for another one. The local node is entered like any
other peer: it shares all bits with itself and is kept in the last bucket. The test before an insertion compares the
length the bucket still has, so that a bucket takes one peer more than `BucketSize`.
-/

namespace KKChain

open BigEndian List Except

namespace P2P

namespace Dht

/-- SHA-256, of which only the length of a sum matters. -/
structure Sha256 where
  sum : Bytes → Bytes
  length_sum : ∀ data, (sum data).length = 32

structure PeerID where
  id : ID
  hash : Bytes
deriving DecidableEq

namespace PeerID

/-- The content of the public key. -/
def key (p : PeerID) : Bytes := p.id.key

/-- `CreateID`. -/
def create (sha : Sha256) (address publicKey : Bytes) : PeerID := ⟨⟨some publicKey, address⟩, sha.sum publicKey⟩

def equals (p other : PeerID) : Bool := p.key == other.key || p.hash == other.hash

def less (p other : PeerID) : Bool := decide (p.hash < other.hash)

def xor (p other : PeerID) : PeerID := { p with hash := BigEndian.xor p.hash other.hash }

def leadingZeros8 (b : UInt8) : ℕ := 8 - b.toNat.size

/-- The loop of `PrefixLen`, from byte `i` on. -/
def firstBit (i : ℕ) : Bytes → Option ℕ
  | [] => none
  | b :: rest => if b ≠ 0 then some (i * 8 + leadingZeros8 b) else firstBit (i + 1) rest

def prefixLen (p : PeerID) : ℤ :=
  match firstBit 0 p.hash with
  | some n => n
  | none => p.hash.length * 8 - 1

end PeerID

def BucketSize : ℕ := 16

/-- `RoutingTable`: the buckets are lists with the front first. -/
structure RoutingTable where
  self : PeerID
  buckets : List (List PeerID)
  length_buckets : buckets.length = self.hash.length * 8
deriving DecidableEq

namespace RoutingTable

/-- `Bucket`: nil for a number out of range. -/
def bucket (t : RoutingTable) (id : ℤ) : Option (List PeerID) :=
  if 0 ≤ id then t.buckets[id.toNat]? else none

/-- The bucket `i` gets another content. -/
def setBucket (t : RoutingTable) (i : ℕ) (bucket : List PeerID) : RoutingTable :=
  { t with
    buckets := t.buckets.set i bucket
    length_buckets := by rw [List.length_set, t.length_buckets] }

/-- `Update` inside of a bucket. -/
def touch (target : PeerID) (bucket : List PeerID) : List PeerID :=
  match bucket.find? (·.equals target) with
  | none => if bucket.length ≤ BucketSize then target :: bucket else bucket
  | some element => element :: bucket.eraseP (·.equals target)

/-- `Update`. A nil bucket has no mutex to lock. -/
def update (t : RoutingTable) (target : PeerID) : Except (Fault Empty) RoutingTable :=
  if t.self.key.length ≠ target.key.length then .ok t
  else
    let bucketID := (target.xor t.self).prefixLen
    match t.bucket bucketID with
    | none => .error .panic
    | some bucket => .ok (t.setBucket bucketID.toNat (touch target bucket))

def removePeer (t : RoutingTable) (target : PeerID) : Except (Fault Empty) (Bool × RoutingTable) :=
  let bucketID := (target.xor t.self).prefixLen
  match t.bucket bucketID with
  | none => .error .panic
  | some bucket =>
    .ok (bucket.any (·.equals target), t.setBucket bucketID.toNat (bucket.eraseP (·.equals target)))

/-- The buckets `CreateRoutingTable` makes. -/
def empty (pid : PeerID) : RoutingTable :=
  ⟨pid, List.replicate (pid.hash.length * 8) [], List.length_replicate⟩

def createRoutingTable (pid : PeerID) : Except (Fault Empty) RoutingTable := (empty pid).update pid

/-- The calls that change a table. -/
inductive Call where
  | update (target : PeerID)
  | removePeer (target : PeerID)
deriving DecidableEq

def Call.peer : Call → PeerID
  | update target => target
  | removePeer target => target

def perform (t : RoutingTable) : Call → Except (Fault Empty) RoutingTable
  | .update target => t.update target
  | .removePeer target => (t.removePeer target).map Prod.snd

/-- A call that returns. -/
def Step (t : RoutingTable) (c : Call) (t' : RoutingTable) : Prop := t.perform c = .ok t'

/-- The bucket with number `i`, empty out of range. -/
def entries (t : RoutingTable) (i : ℕ) : List PeerID := t.buckets.getD i []

def peers (t : RoutingTable) : List PeerID := t.buckets.flatten

/-- The number of the bucket that is searched for a peer. -/
def slot (t : RoutingTable) (p : PeerID) : ℕ := ((p.xor t.self).prefixLen).toNat

/-- `PeerExists`, for an id of the table's length. -/
def Holds (t : RoutingTable) (p : PeerID) : Prop := ∃ q ∈ t.entries (t.slot p), q.equals p

/-- An id of the table's length. -/
structure Sized (t : RoutingTable) (p : PeerID) : Prop where
  length : p.hash.length = t.self.hash.length
  pos : 0 < t.self.hash.length

/-! ### Ids and bucket numbers -/

end RoutingTable

namespace PeerID

variable {p q r : PeerID}

theorem equals_iff : p.equals q ↔ p.key = q.key ∨ p.hash = q.hash := by simp [equals]

theorem equals_comm : p.equals q ↔ q.equals p := by
  rw [equals_iff, equals_iff, eq_comm, @eq_comm _ p.hash]

@[simp] theorem key_create (sha : Sha256) (address publicKey : Bytes) :
    (create sha address publicKey).key = publicKey := rfl

@[simp] theorem hash_create (sha : Sha256) (address publicKey : Bytes) :
    (create sha address publicKey).hash = sha.sum publicKey := rfl

theorem firstBit_eq (i : ℕ) (hash : Bytes) : firstBit i hash =
    if toNat hash = 0 then none else some (i * 8 + (hash.length * 8 - (toNat hash).size)) := by
  induction hash generalizing i with
  | nil => rfl
  | cons b rest ih =>
    have small := toNat_lt rest
    rw [show (256 : ℕ) = 2 ^ 8 from rfl, ← pow_mul] at small
    rw [firstBit, toNat_cons, show (256 : ℕ) = 2 ^ 8 from rfl, ← pow_mul]
    by_cases zero : b = 0
    · subst zero
      have bound := Nat.size_le.mpr small
      simp only [ne_eq, not_true_eq_false, if_false, ih, UInt8.toNat_zero, Nat.zero_mul, Nat.zero_add, length_cons]
      split
      · rfl
      · rw [Option.some.injEq]
        omega
    · have digit : b.toNat ≠ 0 := fun none => zero (UInt8.toNat_inj.mp none)
      have positive : 2 ^ (8 * rest.length) ≤ b.toNat * 2 ^ (8 * rest.length) := Nat.le_mul_of_pos_left _ (by omega)
      have := Nat.two_pow_pos (8 * rest.length)
      rw [if_pos zero, if_neg (by omega), Nat.size_mul_two_pow_add digit small, leadingZeros8, length_cons]
      congr 1
      omega

/-- The local id is treated as if its last bit differed. -/
theorem prefixLen_eq (nonempty : 0 < p.hash.length) :
    p.prefixLen = ((p.hash.length * 8 - max 1 (toNat p.hash).size : ℕ) : ℤ) := by
  rw [prefixLen, firstBit_eq]
  by_cases zero : toNat p.hash = 0
  · simp only [zero, if_true, Nat.size_zero]
    omega
  · have : 0 < (toNat p.hash).size := Nat.size_pos.mpr (Nat.pos_of_ne_zero zero)
    simp only [zero, if_false]
    rw [max_eq_right (by omega)]
    simp

end PeerID

namespace RoutingTable

section Slot

variable {t : RoutingTable} {p : PeerID}

theorem Sized.congr {t' : RoutingTable} (self : t'.self = t.self) (sized : t.Sized p) : t'.Sized p :=
  ⟨self ▸ sized.length, self ▸ sized.pos⟩

theorem Sized.nonempty (sized : t.Sized p) : 0 < (p.xor t.self).hash.length := by
  simp only [PeerID.xor, length_xor]
  exact sized.length ▸ sized.pos

theorem Sized.prefixLen (sized : t.Sized p) : (p.xor t.self).prefixLen = (t.slot p : ℤ) := by
  rw [slot, PeerID.prefixLen_eq sized.nonempty]
  simp

/-- The bucket of an id is numbered from the size of its distance to the local one. -/
theorem Sized.slot_eq (sized : t.Sized p) :
    t.slot p = t.self.hash.length * 8 - max 1 (toNat p.hash ^^^ toNat t.self.hash).size := by
  rw [slot, PeerID.prefixLen_eq sized.nonempty]
  simp only [PeerID.xor, length_xor, toNat_xor sized.length, sized.length]
  simp

theorem Sized.slot_lt (sized : t.Sized p) : t.slot p < t.buckets.length := by
  have := sized.pos
  rw [sized.slot_eq, t.length_buckets]
  omega

theorem Sized.bucket (sized : t.Sized p) : t.bucket (p.xor t.self).prefixLen = some (t.entries (t.slot p)) := by
  rw [sized.prefixLen, RoutingTable.bucket, if_pos (Int.natCast_nonneg _), Int.toNat_natCast, entries,
    getD_eq_getElem?_getD, getElem?_eq_getElem sized.slot_lt]
  rfl

/-- The bucket of an id is changed. -/
def amend (t : RoutingTable) (p : PeerID) (f : List PeerID → List PeerID) : RoutingTable :=
  t.setBucket (t.slot p) (f (t.entries (t.slot p)))

theorem update_eq (sized : t.Sized p) (keyed : p.key.length = t.self.key.length) :
    t.update p = .ok (t.amend p (touch p)) := by
  rw [update, if_neg (not_not.mpr keyed.symm)]
  dsimp only
  rw [sized.bucket]
  rfl

theorem update_of_ne (keyed : p.key.length ≠ t.self.key.length) : t.update p = .ok t := by
  rw [update, if_pos keyed.symm]

theorem removePeer_eq (sized : t.Sized p) :
    t.removePeer p = .ok ((t.entries (t.slot p)).any (·.equals p), t.amend p (·.eraseP (·.equals p))) := by
  rw [removePeer, sized.bucket]
  rfl

end Slot

section Buckets

variable {t : RoutingTable} {i : ℕ} {p q : PeerID} {f : List PeerID → List PeerID}

theorem Sized.entries_amend (sized : t.Sized p) : (t.amend p f).entries (t.slot p) = f (t.entries (t.slot p)) := by
  simp [entries, amend, setBucket, getD_eq_getElem?_getD, sized.slot_lt]

theorem entries_amend_of_ne (ne : t.slot p ≠ i) : (t.amend p f).entries i = t.entries i := by
  simp [entries, amend, setBucket, getD_eq_getElem?_getD, ne]

theorem Sized.amend_cases (sized : t.Sized p) (i : ℕ) :
    (t.amend p f).entries i = t.entries i ∨ i = t.slot p ∧ (t.amend p f).entries i = f (t.entries i) := by
  by_cases same : t.slot p = i
  · subst same
    exact .inr ⟨rfl, sized.entries_amend⟩
  · exact .inl (entries_amend_of_ne same)

theorem mem_peers : p ∈ t.peers ↔ ∃ i, p ∈ t.entries i := by
  simp only [peers, mem_flatten, entries, getD_eq_getElem?_getD]
  constructor
  · rintro ⟨bucket, mem, inside⟩
    obtain ⟨i, lt, rfl⟩ := mem_iff_getElem.mp mem
    exact ⟨i, by simpa [lt] using inside⟩
  · rintro ⟨i, inside⟩
    by_cases lt : i < t.buckets.length
    · rw [getElem?_eq_getElem lt, Option.getD_some] at inside
      exact ⟨_, getElem_mem lt, inside⟩
    · rw [getElem?_eq_none (Nat.le_of_not_lt lt)] at inside
      cases inside

theorem entries_empty (pid : PeerID) (i : ℕ) : (empty pid).entries i = [] := by
  simp only [entries, empty, getD_eq_getElem?_getD, getElem?_replicate]
  split <;> rfl

end Buckets

/-! ### One bucket -/

section Touch

variable {target p : PeerID} {bucket : List PeerID}

/-- The entry found and the rest are the bucket. -/
theorem perm_cons_eraseP {α : Type} {test : α → Bool} {l : List α} {a : α} (found : l.find? test = some a) :
    l.Perm (a :: l.eraseP test) := by
  induction l with
  | nil => cases found
  | cons b l ih =>
    rw [find?_cons] at found
    cases passed : test b with
    | true =>
      simp only [passed, Option.some.injEq] at found
      rw [eraseP_cons_of_pos passed, found]
    | false =>
      simp only [passed] at found
      rw [eraseP_cons_of_neg (by simp [passed])]
      exact ((ih found).cons b).trans (.swap a b _)

/-- What `Update` does with a bucket: the peer is there and comes to the front, there is room for it, or nothing. -/
theorem touch_cases (target : PeerID) (bucket : List PeerID) :
    (∃ e, e.equals target ∧ bucket.Perm (e :: bucket.eraseP (·.equals target)) ∧
        touch target bucket = e :: bucket.eraseP (·.equals target)) ∨
      ((∀ q ∈ bucket, ¬ q.equals target) ∧ bucket.length ≤ BucketSize ∧ touch target bucket = target :: bucket) ∨
      ((∀ q ∈ bucket, ¬ q.equals target) ∧ BucketSize < bucket.length ∧ touch target bucket = bucket) := by
  rw [touch]
  cases found : bucket.find? (·.equals target) with
  | some e => exact .inl ⟨e, (find?_eq_some_iff_append.mp found).1, perm_cons_eraseP found, rfl⟩
  | none =>
    have absent : ∀ q ∈ bucket, ¬ q.equals target := by simpa using found
    by_cases room : bucket.length ≤ BucketSize
    · exact .inr (.inl ⟨absent, room, if_pos room⟩)
    · exact .inr (.inr ⟨absent, Nat.lt_of_not_le room, if_neg room⟩)

theorem mem_of_mem_touch (mem : p ∈ touch target bucket) : p = target ∨ p ∈ bucket := by
  rcases touch_cases target bucket with ⟨e, -, perm, same⟩ | ⟨-, -, same⟩ | ⟨-, -, same⟩ <;> rw [same] at mem
  · exact .inr (perm.mem_iff.mpr mem)
  · exact mem_cons.mp mem
  · exact .inr mem

/-- No two entries of a bucket are the same peer. -/
def Distinct (bucket : List PeerID) : Prop := bucket.Pairwise fun p q => ¬ p.equals q

theorem Distinct.touch (distinct : Distinct bucket) : Distinct (touch target bucket) := by
  rcases touch_cases target bucket with ⟨e, -, perm, same⟩ | ⟨absent, -, same⟩ | ⟨-, -, same⟩ <;> rw [same]
  · exact (perm.pairwise_iff fun differ equal => differ (PeerID.equals_comm.mp equal)).mp distinct
  · exact pairwise_cons.mpr ⟨fun q mem equal => absent q mem (PeerID.equals_comm.mp equal), distinct⟩
  · exact distinct

theorem Distinct.eraseP (distinct : Distinct bucket) : Distinct (bucket.eraseP (·.equals target)) :=
  Pairwise.sublist eraseP_sublist distinct

end Touch

/-! ### Calls -/

section Calls

variable {t t' : RoutingTable} {c : Call} {p q : PeerID} {i : ℕ}

/-- What a call can do. -/
theorem step_cases (sized : t.Sized c.peer) (step : t.Step c t') :
    (∃ p, c = .update p ∧ p.key.length ≠ t.self.key.length ∧ t' = t) ∨
      (∃ p, c = .update p ∧ p.key.length = t.self.key.length ∧ t' = t.amend p (touch p)) ∨
      ∃ p, c = .removePeer p ∧ t' = t.amend p (·.eraseP (·.equals p)) := by
  unfold Step at step
  cases c with
  | update p =>
    change t.Sized p at sized
    rw [perform] at step
    by_cases keyed : p.key.length = t.self.key.length
    · rw [update_eq sized keyed, ok.injEq] at step
      exact .inr (.inl ⟨p, rfl, keyed, step.symm⟩)
    · rw [update_of_ne keyed, ok.injEq] at step
      exact .inl ⟨p, rfl, keyed, step.symm⟩
  | removePeer p =>
    change t.Sized p at sized
    rw [perform, removePeer_eq sized, Except.map, Except.ok.injEq] at step
    exact .inr (.inr ⟨p, rfl, step.symm⟩)

theorem exists_step (sized : t.Sized c.peer) : ∃ t', t.Step c t' := by
  unfold Step
  cases c with
  | update p =>
    by_cases keyed : p.key.length = t.self.key.length
    · exact ⟨_, update_eq sized keyed⟩
    · exact ⟨_, update_of_ne keyed⟩
  | removePeer p =>
    change t.Sized p at sized
    rw [perform, removePeer_eq sized]
    exact ⟨_, rfl⟩

/-- No call touches more than one bucket, and what it leaves there was there or is the peer that `Update` was given. -/
theorem Step.bucket (sized : t.Sized c.peer) (step : t.Step c t') : t'.self = t.self ∧
    ∀ i, t'.entries i = t.entries i ∨
      i = t.slot c.peer ∧
        (c = .update c.peer ∧ c.peer.key.length = t.self.key.length ∧ t'.entries i = touch c.peer (t.entries i) ∨
        c = .removePeer c.peer ∧ t'.entries i = (t.entries i).eraseP (·.equals c.peer)) := by
  rcases step_cases sized step with ⟨p, rfl, -, rfl⟩ | ⟨p, rfl, keyed, rfl⟩ | ⟨p, rfl, rfl⟩
  · exact ⟨rfl, fun i => .inl rfl⟩
  · exact ⟨rfl, fun i => (sized.amend_cases i).imp_right fun ⟨here, same⟩ => ⟨here, .inl ⟨rfl, keyed, same⟩⟩⟩
  · exact ⟨rfl, fun i => (sized.amend_cases i).imp_right fun ⟨here, same⟩ => ⟨here, .inr ⟨rfl, same⟩⟩⟩

theorem Step.update_eq (sized : t.Sized q) (keyed : q.key.length = t.self.key.length) (step : t.Step (.update q) t') :
    t.amend q (touch q) = t' := by
  rw [Step, perform, RoutingTable.update_eq sized keyed] at step
  exact ok.inj step

/-- The peers are in the buckets of their ids, no two of a bucket are the same, and all have what the peers have that
the table was given. -/
structure Formed (P : PeerID → Prop) (t : RoutingTable) : Prop where
  placed : ∀ i, ∀ p ∈ t.entries i, t.slot p = i
  distinct : ∀ i, Distinct (t.entries i)
  given : ∀ i, ∀ p ∈ t.entries i, P p

theorem formed_empty (P : PeerID → Prop) (pid : PeerID) : Formed P (empty pid) := by
  refine ⟨fun i p mem => ?_, fun i => ?_, fun i p mem => ?_⟩
  · simp [entries_empty] at mem
  · rw [entries_empty]
    exact Pairwise.nil
  · simp [entries_empty] at mem

theorem Formed.step {P : PeerID → Prop} (formed : Formed P t) (sized : t.Sized c.peer) (given : P c.peer)
    (step : t.Step c t') : Formed P t' := by
  obtain ⟨self, buckets⟩ := step.bucket sized
  have slot : ∀ q, t'.slot q = t.slot q := fun q => by rw [RoutingTable.slot, RoutingTable.slot, self]
  have entered : ∀ {i q}, q ∈ t'.entries i → q ∈ t.entries i ∨ t.slot c.peer = i ∧ c.peer = q := by
    intro i q mem
    rcases buckets i with same | ⟨rfl, ⟨-, -, same⟩ | ⟨-, same⟩⟩ <;> rw [same] at mem
    · exact .inl mem
    · exact (mem_of_mem_touch mem).symm.imp_right fun itself => ⟨rfl, itself.symm⟩
    · exact .inl (mem_of_mem_eraseP mem)
  refine ⟨fun i q mem => ?_, fun i => ?_, fun i q mem => ?_⟩
  · rw [slot]
    rcases entered mem with mem | ⟨rfl, rfl⟩
    · exact formed.placed i q mem
    · rfl
  · rcases buckets i with same | ⟨rfl, ⟨-, -, same⟩ | ⟨-, same⟩⟩ <;> rw [same]
    · exact formed.distinct i
    · exact (formed.distinct _).touch
    · exact (formed.distinct _).eraseP
  · rcases entered mem with mem | ⟨-, rfl⟩
    · exact formed.given i q mem
    · exact given

end Calls

/-! ### Runs -/

section Runs

variable {s t t' : RoutingTable} {ts : List (RoutingTable × Call × RoutingTable)} {c : Call} {calls : List Call}

/-- Every sequence of calls with ids of the table's length returns. -/
theorem exists_run (sized : ∀ c ∈ calls, s.Sized c.peer) :
    ∃ ts t, Run Step s ts t ∧ ts.map (·.2.1) = calls := by
  induction calls generalizing s with
  | nil => exact ⟨[], s, .nil s, rfl⟩
  | cons c calls ih =>
    obtain ⟨head, tail⟩ := forall_mem_cons.mp sized
    obtain ⟨s', step⟩ := exists_step head
    have self := (step.bucket head).1
    obtain ⟨ts, t, run, labels⟩ := ih fun c mem => (tail c mem).congr self
    exact ⟨(s, c, s') :: ts, t, .cons step run, by simp [labels]⟩

/-- What holds of the first table and is kept by each call with a peer of the table's length holds of all tables of a
run. -/
theorem forall_of_run {Q : RoutingTable → Prop} (run : Run Step s ts t) (sized : ∀ u ∈ ts, s.Sized u.2.1.peer)
    (kept : ∀ u ∈ ts, ∀ {s}, Q s → s.Sized u.2.1.peer → s.Step u.2.1 u.2.2 → Q u.2.2) (start : Q s) :
    (∀ u ∈ ts, Q u.1 ∧ u.1.Sized u.2.1.peer ∧ u.1.self = s.self) ∧ Q t ∧ t.self = s.self := by
  induction run with
  | nil s => exact ⟨by simp, start, rfl⟩
  | cons step rest ih =>
    obtain ⟨head, tail⟩ := forall_mem_cons.mp sized
    obtain ⟨keptHead, keptTail⟩ := forall_mem_cons.mp kept
    have self := (step.bucket head).1
    obtain ⟨all, last, same⟩ := ih (fun u mem => (tail u mem).congr self)
      (fun u mem => keptTail u mem) (keptHead start head step)
    rw [self] at all same
    exact ⟨forall_mem_cons.mpr ⟨⟨start, head, rfl⟩, all⟩, last, same⟩

/-- No bucket has more than `BucketSize` peers. -/
def Within (t : RoutingTable) : Prop := ∀ i, (t.entries i).length ≤ BucketSize

/-- The call enters a new peer into a bucket that has `BucketSize` of them. -/
def Overfills (t : RoutingTable) : Call → Prop
  | .update p => p.key.length = t.self.key.length ∧ (∀ q ∈ t.entries (t.slot p), ¬ q.equals p) ∧
      (t.entries (t.slot p)).length = BucketSize
  | .removePeer _ => False

theorem within_empty (pid : PeerID) : (empty pid).Within := fun i => by simp [entries_empty]

theorem Within.amend_iff {p : PeerID} {f : List PeerID → List PeerID} (within : t.Within) (sized : t.Sized p) :
    (t.amend p f).Within ↔ (f (t.entries (t.slot p))).length ≤ BucketSize := by
  refine ⟨fun all => by simpa [sized.entries_amend] using all (t.slot p), fun here i => ?_⟩
  rcases sized.amend_cases (f := f) i with same | ⟨rfl, same⟩ <;> rw [same]
  · exact within i
  · exact here

theorem Within.step_iff (within : t.Within) (sized : t.Sized c.peer) (step : t.Step c t') :
    t'.Within ↔ ¬ t.Overfills c := by
  rcases step_cases sized step with ⟨p, rfl, keyed, rfl⟩ | ⟨p, rfl, keyed, rfl⟩ | ⟨p, rfl, rfl⟩
  · exact ⟨fun _ fills => keyed fills.1, fun _ => within⟩
  · have old := within (t.slot p)
    rw [within.amend_iff (p := p) sized]
    rcases touch_cases p (t.entries (t.slot p)) with ⟨e, equal, perm, same⟩ | ⟨absent, room, same⟩ | ⟨-, full, -⟩
    · rw [same, ← perm.length_eq]
      exact ⟨fun _ fills => fills.2.1 e (perm.mem_iff.mpr (.head _)) equal, fun _ => old⟩
    · rw [same, length_cons]
      exact ⟨fun le fills => by have := fills.2.2; omega,
        fun room' => Nat.lt_of_le_of_ne room fun full => room' ⟨keyed, absent, full⟩⟩
    · omega
  · exact ⟨fun _ => id, fun _ => (within.amend_iff sized).mpr (length_eraseP_le.trans (within _))⟩

theorem Within.run_iff (within : s.Within) (sized : ∀ u ∈ ts, s.Sized u.2.1.peer) (run : Run Step s ts t) :
    (∀ u ∈ ts, u.2.2.Within) ↔ ∀ u ∈ ts, ¬ u.1.Overfills u.2.1 := by
  induction run with
  | nil s => simp
  | cons step rest ih =>
    obtain ⟨head, tail⟩ := forall_mem_cons.mp sized
    have self := (step.bucket head).1
    have first := within.step_iff head step
    rw [forall_mem_cons, forall_mem_cons, ← first]
    exact and_congr_right fun within' => ih within' fun u mem => (tail u mem).congr self

end Runs

/-! ### Peers made by `CreateID` -/

section Created

variable {sha : Sha256} {K : Set Bytes} {t t' : RoutingTable} {c : Call} {p q : PeerID}
  {ts : List (RoutingTable × Call × RoutingTable)}

/-- A peer made by `CreateID` from one of the keys `K`. -/
def Created (sha : Sha256) (K : Set Bytes) (p : PeerID) : Prop := ∃ address, ∃ key ∈ K, p = .create sha address key

theorem Created.hash (created : Created sha K p) : p.hash = sha.sum p.key := by
  obtain ⟨address, key, -, rfl⟩ := created
  rfl

theorem Created.mem (created : Created sha K p) : p.key ∈ K := by
  obtain ⟨address, key, mem, rfl⟩ := created
  exact mem

theorem Created.length (created : Created sha K p) : p.hash.length = 32 := by
  rw [created.hash, sha.length_sum]

theorem Created.sized (self : Created sha K t.self) (created : Created sha K p) : t.Sized p :=
  ⟨created.length.trans self.length.symm, by rw [self.length]; decide⟩

/-- Where the hash has no collisions the peers are told apart by their keys. -/
theorem Created.equals_iff (apart : K.InjOn sha.sum) (left : Created sha K p) (right : Created sha K q) :
    p.equals q ↔ p.key = q.key := by
  rw [PeerID.equals_iff, or_iff_left_iff_imp, left.hash, right.hash]
  exact fun same => apart left.mem right.mem same

/-- What tells peers of one bucket apart, and from which the bucket follows, tells all stored peers apart. -/
theorem Formed.nodup_map {P : PeerID → Prop} {α : Type} {f : PeerID → α} (formed : Formed P t)
    (same : ∀ p q, P p → P q → f p = f q → p.equals q ∧ t.slot p = t.slot q) : (t.peers.map f).Nodup := by
  rw [Nodup, pairwise_map, peers, pairwise_flatten]
  constructor
  · intro bucket mem
    obtain ⟨i, lt, rfl⟩ := mem_iff_getElem.mp mem
    have entry : t.entries i = t.buckets[i] := by
      rw [entries, getD_eq_getElem?_getD, getElem?_eq_getElem lt, Option.getD_some]
    rw [← entry]
    exact (formed.distinct i).imp_of_mem fun first second differ alike =>
      differ (same _ _ (formed.given i _ first) (formed.given i _ second) alike).1
  · rw [pairwise_iff_getElem]
    intro i j lt₁ lt₂ less p first q second alike
    have inside : p ∈ t.entries i ∧ q ∈ t.entries j := by
      simp only [entries, getD_eq_getElem?_getD, getElem?_eq_getElem lt₁, getElem?_eq_getElem lt₂]
      exact ⟨first, second⟩
    have slots := (same p q (formed.given i p inside.1) (formed.given j q inside.2) alike).2
    rw [formed.placed i p inside.1, formed.placed j q inside.2] at slots
    omega

theorem Formed.equals_iff (formed : Formed (Created sha K) t) (apart : K.InjOn sha.sum) {e : PeerID} {i : ℕ}
    (mem : e ∈ t.entries i) (created : Created sha K p) : e.equals p ↔ e.key = p.key :=
  (formed.given i e mem).equals_iff apart created

/-- An `Update` of the key left its peer stored, and no `RemovePeer` of the key came after. -/
def Accepted (ts : List (RoutingTable × Call × RoutingTable)) (key : Bytes) : Prop :=
  ∃ before u after, ts = before ++ u :: after ∧ (∃ q, u.2.1 = .update q ∧ q.key = key ∧ u.2.2.Holds q) ∧
    ∀ v ∈ after, ∀ q, v.2.1 = .removePeer q → q.key ≠ key

end Created

/-! ### Every table that can be reached -/

section Reached

variable {sha : Sha256} {K : Set Bytes} {address key : Bytes} {calls : List Call}
  {ts : List (RoutingTable × Call × RoutingTable)} {self : PeerID} {t : RoutingTable}

/-- The tables reached from the one of `CreateRoutingTable`, and the calls on the way, its own `Update` first. -/
def Reached (self : PeerID) (calls : List Call) (ts : List (RoutingTable × Call × RoutingTable))
    (t : RoutingTable) : Prop :=
  ∃ s rest, createRoutingTable self = .ok s ∧ Run Step s rest t ∧ rest.map (·.2.1) = calls ∧
    ts = (empty self, .update self, s) :: rest

theorem reached_iff : Reached self calls ts t ↔
    Run Step (empty self) ts t ∧ ts.map (·.2.1) = .update self :: calls := by
  constructor
  · rintro ⟨s, rest, created, run, rfl, rfl⟩
    exact ⟨.cons created run, rfl⟩
  · rintro ⟨run, labels⟩
    cases run with
    | nil => cases labels
    | @cons _ s _ c rest created run =>
      obtain ⟨rfl, rfl⟩ := cons.inj labels
      exact ⟨s, rest, created, run, rfl, rfl⟩

theorem Reached.call_mem
    (reached : Reached self calls ts t) {P : PeerID → Prop} (start : P self) (given : ∀ c ∈ calls, P c.peer) :
    ∀ u ∈ ts, P u.2.1.peer := by
  obtain ⟨s, rest, -, -, rfl, rfl⟩ := reached
  exact forall_mem_cons.mpr ⟨start, fun u mem => given _ (mem_map_of_mem mem)⟩

/-- No sequence of calls with ids of the local id's length panics. -/
theorem exists_reached (nonempty : 0 < self.hash.length)
    (sized : ∀ c ∈ calls, c.peer.hash.length = self.hash.length) : ∃ ts t, Reached self calls ts t := by
  simp only [reached_iff]
  refine exists_run fun c mem => ?_
  rcases mem_cons.mp mem with rfl | mem
  · exact ⟨rfl, nonempty⟩
  · exact ⟨sized c mem, nonempty⟩

theorem Reached.formed {P : PeerID → Prop} (reached : Reached self calls ts t) (nonempty : 0 < self.hash.length)
    (sized : ∀ c ∈ calls, c.peer.hash.length = self.hash.length) (start : P self) (given : ∀ c ∈ calls, P c.peer) :
    (∀ u ∈ ts, Formed P u.1 ∧ u.1.Sized u.2.1.peer ∧ u.1.self = self) ∧ Formed P t ∧ t.self = self := by
  have lengths := reached.call_mem (P := fun p => p.hash.length = self.hash.length) rfl sized
  have peers := reached.call_mem start given
  exact forall_of_run (reached_iff.mp reached).1 (fun u mem => ⟨lengths u mem, nonempty⟩)
    (fun u mem s formed sized step => formed.step sized (peers u mem) step) (formed_empty P self)

end Reached

end RoutingTable

open RoutingTable

/-- No bucket ever has more than `BucketSize` peers exactly if no new peer is entered into a bucket with `BucketSize`
of them. -/
theorem bucket_capacity_iff {sha : Sha256} {address key : Bytes} {calls : List Call}
    (created : ∀ c ∈ calls, ∃ address key, c.peer = .create sha address key) :
    ∃ ts t, Reached (.create sha address key) calls ts t ∧
      ((∀ u ∈ ts, u.2.2.Within) ↔ ∀ u ∈ ts, ¬ u.1.Overfills u.2.1) := by
  have sized : ∀ c ∈ calls, c.peer.hash.length = (PeerID.create sha address key).hash.length := by
    intro c member
    obtain ⟨address', key', made⟩ := created c member
    rw [made, PeerID.hash_create, PeerID.hash_create, sha.length_sum, sha.length_sum]
  have nonempty : 0 < (PeerID.create sha address key).hash.length := by
    rw [PeerID.hash_create, sha.length_sum]
    decide
  obtain ⟨ts, t, reached⟩ := exists_reached nonempty sized
  refine ⟨ts, t, reached, (within_empty _).run_iff (fun u member => ⟨?_, nonempty⟩) (reached_iff.mp reached).1⟩
  exact reached.call_mem (P := fun p => p.hash.length = (PeerID.create sha address key).hash.length) rfl sized u member

/-- The id of a key is the key, padded with zeros. -/
def padded : Sha256 := ⟨fun data => BigEndian.fixed 32 (BigEndian.toNat data), fun _ => length_fixed _ _⟩

/-- A peer whose id has its highest bit in the last byte. -/
def lowPeer (i : ℕ) : PeerID := .create padded [] [UInt8.ofNat (128 + i)]

theorem exists_reached_of_foldlM (self : PeerID) (calls : List Call) (test : RoutingTable → Bool)
    (passed : (match (Call.update self :: calls).foldlM perform (empty self) with
      | .ok t => test t
      | .error _ => false) = true) : ∃ ts t, Reached self calls ts t ∧ test t = true := by
  suffices run : ∀ (calls : List Call) (s t : RoutingTable), calls.foldlM perform s = .ok t →
      ∃ ts, Run Step s ts t ∧ ts.map (·.2.1) = calls by
    cases ran : (Call.update self :: calls).foldlM perform (empty self) with
    | error e => simp [ran] at passed
    | ok t =>
      obtain ⟨ts, steps, labels⟩ := run _ _ _ ran
      exact ⟨ts, t, reached_iff.mpr ⟨steps, labels⟩, by simpa [ran] using passed⟩
  intro calls
  induction calls with
  | nil =>
    intro s t ran
    obtain rfl : s = t := ok.inj ran
    exact ⟨[], .nil s, rfl⟩
  | cons c calls ih =>
    intro s t ran
    rw [foldlM_cons, Proc.except_bind_eq_ok] at ran
    obtain ⟨s', step, rest⟩ := ran
    obtain ⟨ts, steps, labels⟩ := ih s' t rest
    exact ⟨(s, c, s') :: ts, .cons step steps, by simp [labels]⟩

/-- Three peers of one bucket are entered, the second one twice, and the first one is removed. -/
def lowCalls : List Call :=
  [.update (lowPeer 0), .update (lowPeer 1), .update (lowPeer 2), .update (lowPeer 1), .removePeer (lowPeer 0)]

theorem created_lowCalls : ∀ c ∈ lowCalls, ∃ address, ∃ k ∈ ({[0], [128], [129], [130]} : Set Bytes),
    k.length = [(0 : UInt8)].length ∧ c.peer = .create padded address k := by
  simp only [lowCalls, forall_mem_cons]
  exact ⟨⟨[], [128], by simp, rfl, rfl⟩, ⟨[], [129], by simp, rfl, rfl⟩, ⟨[], [130], by simp, rfl, rfl⟩,
    ⟨[], [129], by simp, rfl, rfl⟩, ⟨[], [128], by simp, rfl, rfl⟩, by simp⟩

theorem bucket_capacity_low : (∀ c ∈ lowCalls, ∃ address key, c.peer = .create padded address key) ∧
    ∃ ts t, Reached (.create padded [] [0]) lowCalls ts t ∧
      ((∀ u ∈ ts, u.2.2.Within) ↔ ∀ u ∈ ts, ¬ u.1.Overfills u.2.1) := by
  have created : ∀ c ∈ lowCalls, ∃ address key, c.peer = .create padded address key := by
    intro c member
    obtain ⟨address, key, -, -, same⟩ := created_lowCalls c member
    exact ⟨address, key, same⟩
  exact ⟨created, bucket_capacity_iff created⟩

/-- Seventeen peers in one bucket. -/
theorem bucket_exceeded : ∃ ts t,
    Reached (.create padded [] [0]) ((List.range 17).map fun i => .update (lowPeer i)) ts t ∧ ¬ t.Within := by
  obtain ⟨ts, t, reached, full⟩ := exists_reached_of_foldlM (.create padded [] [0])
    ((range 17).map fun i => .update (lowPeer i)) (fun t => decide (BucketSize < (t.entries 248).length))
    (by decide +kernel)
  exact ⟨ts, t, reached, fun within => absurd (within 248) (not_le.mpr (of_decide_eq_true full))⟩

end Dht

end P2P

end KKChain
