import Mathlib.Logic.Relation
import KKChain.Machine.Proc
import KKChain.State.Snapshot

/-! # Clients of a state database

A client of a state database asks, changes, takes snapshots and reverts to those it has taken. `Proceeds` is what such a
client can do. Whatever it did, a snapshot that was taken before it started is still valid, and going back to it
restores the ledger.
-/

namespace KKChain

open List

variable {C : Crypto} {A : Set Address} {K : Set Hash} {base : ℕ} {s t u : StateDB C}

namespace Ledger

variable (l : Ledger C)

/-- The balance of an account, zero if there is none. -/
def balanceOf (addr : Address) : ℤ := ((l.accounts addr).map (·.balance)).getD 0

/-- The nonce of an account, zero if there is none. -/
def nonceOf (addr : Address) : UInt64 := ((l.accounts addr).map (·.nonce)).getD 0

theorem balanceOf_amend (addr : Address) (f : LedgerAccount → LedgerAccount) (addr' : Address) :
    (l.amend addr f).balanceOf addr' =
      if addr' = addr then (f ((l.accounts addr).getD (.fresh C))).balance else l.balanceOf addr' := by
  unfold balanceOf amend setAccount
  split_ifs with same
  · simp [same]
  · simp [Function.update_of_ne same]

theorem balance_getD (addr : Address) : ((l.accounts addr).getD (.fresh C)).balance = l.balanceOf addr := by
  unfold balanceOf
  cases l.accounts addr <;> rfl

@[simp] theorem balanceOf_addBalance (addr : Address) (amount : ℤ) (addr' : Address) :
    (l.addBalance addr amount).balanceOf addr' = l.balanceOf addr' + if addr' = addr then amount else 0 := by
  rw [addBalance, balanceOf_amend, balance_getD]
  split_ifs with same
  · rw [same]
  · rw [add_zero]

@[simp] theorem balanceOf_subBalance (addr : Address) (amount : ℤ) (addr' : Address) :
    (l.subBalance addr amount).balanceOf addr' = l.balanceOf addr' - if addr' = addr then amount else 0 := by
  rw [subBalance, balanceOf_amend, balance_getD]
  split_ifs with same
  · rw [same]
  · rw [sub_zero]

@[simp] theorem balanceOf_setNonce (addr : Address) (nonce : UInt64) (addr' : Address) :
    (l.setNonce addr nonce).balanceOf addr' = l.balanceOf addr' := by
  rw [setNonce, balanceOf_amend, balance_getD]
  split_ifs with same
  · rw [same]
  · rfl

end Ledger

/-- The call is one of a client, and goes back to no revision below `base`. -/
def StateCall.Inner (base : ℕ) : StateCall → Prop
  | query _ | update _ | snapshot => True
  | revertToSnapshot revid => base ≤ revid
  | _ => False

/-- One call of a client. -/
def InnerStep (A : Set Address) (K : Set Hash) (base : ℕ) (s t : StateDB C) : Prop :=
  ∃ call : StateCall, call.Within A K ∧ call.Inner base ∧ call.run s = some t

/-- What a client does that goes back to no revision below `base`. -/
def Proceeds (A : Set Address) (K : Set Hash) (base : ℕ) (s t : StateDB C) : Prop :=
  Relation.ReflTransGen (InnerStep A K base) s t

namespace StateDB

/-- The state database is in use, and the next revision is not below `base`. -/
structure Ready (A : Set Address) (K : Set Hash) (base : ℕ) (s : StateDB C) : Prop where
  sound : s.Sound A K
  ordered : s.Ordered
  above : base ≤ s.nextRevisionId

theorem Ready.snapshot (ready : s.Ready A K base) : s.snapshot.2.Ready A K (s.nextRevisionId + 1) :=
  ⟨ready.sound.congr rfl rfl rfl, ready.ordered.snapshot, le_rfl⟩

end StateDB

open StateDB

theorem InnerStep.ready (slots : C.SlotsApart K) (accounts : C.AccountsApart A) (step : InnerStep A K base s t)
    (ready : s.Ready A K base) : t.Ready A K base := by
  obtain ⟨call, within, inner, ran⟩ := step
  have recalls : call.Recalls s := by cases call <;> trivial
  obtain ⟨sound, ordered⟩ := call.run_sound slots accounts within recalls ready.sound ready.ordered ran
  refine ⟨sound, ordered, ready.above.trans ?_⟩
  cases call with
  | query q =>
    cases ran
    exact (Query.ask_spec slots within ready.sound).2.1.nextRevision.ge
  | update m =>
    cases ran
    exact (Update.apply_spec slots within ready.sound).1.nextRevision.ge
  | snapshot =>
    cases ran
    exact Nat.le_succ _
  | revertToSnapshot revid =>
    obtain ⟨_, _, v, -, -, undone, rfl⟩ := revertToSnapshot_spec slots ready.sound ran
    exact (undoTo_frame slots ready.sound undone).2.2.2.ge
  | finalise _ | commit _ | reset _ | copy => exact inner.elim

/-- A revision below `base` stays valid. -/
theorem InnerStep.live (slots : C.SlotsApart K) (step : InnerStep A K base s t) (ready : s.Ready A K base)
    {r : Revision} (lower : r.id < base) (mem : r ∈ s.validRevisions) : r ∈ t.validRevisions := by
  obtain ⟨call, within, inner, ran⟩ := step
  cases call with
  | query q =>
    cases ran
    exact (Query.ask_spec slots within ready.sound).2.1.revisions ▸ mem
  | update m =>
    cases ran
    exact (Update.apply_spec slots within ready.sound).1.revisions ▸ mem
  | snapshot =>
    cases ran
    exact mem_append_left _ mem
  | revertToSnapshot revid =>
    obtain ⟨idx, revision, v, found, rfl, -, rfl⟩ := revertToSnapshot_spec slots ready.sound ran
    -- the revisions that go are not below the one that is reverted to
    rw [← take_append_drop idx s.validRevisions, mem_append] at mem
    refine mem.resolve_right fun dropped => ?_
    have later := ready.ordered.pairwise
    rw [← take_append_drop idx s.validRevisions, pairwise_append] at later
    have bound : revision.id ≤ r.id := by
      obtain ⟨tail, shape⟩ : ∃ tail, s.validRevisions.drop idx = revision :: tail := by
        rw [drop_eq_getElem?_toList_append, found]
        exact ⟨_, rfl⟩
      rw [shape] at dropped later
      rcases mem_cons.mp dropped with rfl | inTail
      · exact le_rfl
      · exact ((pairwise_cons.mp later.2.1).1 r inTail).1.le
    exact absurd (lower.trans_le inner) (not_lt.mpr bound)
  | finalise _ | commit _ | reset _ | copy => exact inner.elim

/-- The state database was opened and used, and no commit has written back what was removed. -/
def StateDB.Opened (A : Set Address) (K : Set Hash) (s : StateDB C) : Prop :=
  ∃ db trie calls, StateRun (ofTrie db trie) calls s ∧ ∀ c ∈ calls, c.2.1.Within A K ∧ c.2.1.Recalls c.1

theorem StateDB.Opened.step (opened : s.Opened A K) (call : StateCall) (within : call.Within A K)
    (recalls : call.Recalls s) (ran : call.run s = some t) : t.Opened A K := by
  obtain ⟨db, trie, calls, run, proper⟩ := opened
  refine ⟨db, trie, _, run.snoc ran, forall_mem_append.mpr ⟨proper, forall_mem_singleton.mpr ⟨within, recalls⟩⟩⟩

theorem StateDB.Opened.ready (slots : C.SlotsApart K) (accounts : C.AccountsApart A) (opened : s.Opened A K) :
    s.Ready A K s.nextRevisionId := by
  obtain ⟨db, trie, calls, run, proper⟩ := opened
  obtain ⟨sound, ordered⟩ := run.sound slots accounts (fun c mem => (proper c mem).1)
    (fun c mem => (proper c mem).2) (.ofTrie db trie) (.of_nil rfl)
  exact ⟨sound, ordered, le_rfl⟩

namespace Proceeds

variable (slots : C.SlotsApart K) (accounts : C.AccountsApart A)

include slots accounts

/-- The snapshot before the client started can be reverted to, and the ledger is the one of that time. -/
theorem revert (sound : s.Sound A K) (ordered : s.Ordered)
    (proceeds : Proceeds A K (s.nextRevisionId + 1) s.snapshot.2 t) :
    ∃ u, t.revertToSnapshot s.nextRevisionId = some u ∧ Restored A K s u ∧ u.ledger = s.ledger := by
  have start : s.snapshot.2.Ready A K (s.nextRevisionId + 1) := Ready.snapshot ⟨sound, ordered, le_rfl⟩
  obtain ⟨ready, tracks, live⟩ : t.Ready A K (s.nextRevisionId + 1) ∧ Tracks slots A s s.nextRevisionId t ∧
      ⟨s.nextRevisionId, s.journal.entries.length⟩ ∈ t.validRevisions := by
    induction proceeds with
    | refl => exact ⟨start, .snapshot sound ordered, mem_append_right _ (.head _)⟩
    | tail _ step ih =>
      obtain ⟨ready, tracks, live⟩ := ih
      refine ⟨step.ready slots accounts ready, ?_, step.live slots ready (Nat.lt_succ_self _) live⟩
      obtain ⟨call, within, inner, ran⟩ := step
      have recalls : ∀ v : StateDB C, call.Recalls v := fun v => by cases call <;> trivial
      have own : call ≠ .copy := by
        rintro rfl
        exact inner
      exact tracks.run within accounts (recalls _) own ready.sound ready.ordered ran
  exact tracks.revert accounts sound ready.sound ready.ordered (mem_map.mpr ⟨_, live, rfl⟩)

end Proceeds

namespace Client

variable {ε : Type}

/-- A question to the state database. -/
def ask (q : Query) : Proc ε (StateDB C) q.Answer := fun s => .ok (q.ask s).1 (q.ask s).2

def exist (addr : Address) : Proc ε (StateDB C) Bool := ask (.exist addr)
def getBalance (addr : Address) : Proc ε (StateDB C) ℤ := ask (.getBalance addr)
def getNonce (addr : Address) : Proc ε (StateDB C) UInt64 := ask (.getNonce addr)
def getCodeHash (addr : Address) : Proc ε (StateDB C) Hash := ask (.getCodeHash addr)
def getCode (addr : Address) : Proc ε (StateDB C) Bytes := ask (.getCode addr)
def getRefund : Proc ε (StateDB C) UInt64 := ask .getRefund

def perform (m : Update) : Proc ε (StateDB C) Unit := fun s => .ok () (m.apply s)

def snapshot : Proc ε (StateDB C) ℕ := fun s => .ok s.snapshot.1 s.snapshot.2

def revertToSnapshot (revid : ℕ) : Proc ε (StateDB C) Unit := fun s =>
  match s.revertToSnapshot revid with
  | none => .error .panic s
  | some t => .ok () t

/-- A client has come here from `s₀`. -/
def Since (A : Set Address) (K : Set Hash) (base : ℕ) (s₀ s : StateDB C) : Prop :=
  Proceeds A K base s₀ s ∧ s.Ready A K base

/-- A client has come here from `s₀`, and this is the ledger now. -/
def At (A : Set Address) (K : Set Hash) (base : ℕ) (s₀ : StateDB C) (l : Ledger C) (s : StateDB C) : Prop :=
  Since A K base s₀ s ∧ s.ledger = l

section Rules

variable {s₀ : StateDB C} {l : Ledger C} {E : Fault ε → StateDB C → Prop} {m : Update} {q : Query}
  (slots : C.SlotsApart K) (accounts : C.AccountsApart A)
include slots accounts

theorem Since.step (since : Since A K base s₀ s) (step : InnerStep A K base s t) : Since A K base s₀ t :=
  ⟨since.1.tail step, step.ready slots accounts since.2⟩

theorem ask_spec (within : q.Within A K) :
    Proc.Spec (At A K base s₀ l) (ask q) (fun a s => a = q.answer l ∧ At A K base s₀ l s) E := by
  rintro s ⟨since, rfl⟩
  obtain ⟨answer, -, ledger⟩ := Query.ask_spec slots within since.2.sound
  exact ⟨answer, since.step slots accounts ⟨.query q, within, trivial, rfl⟩, ledger⟩

theorem getBalance_spec {addr : Address} (mem : addr ∈ A) :
    Proc.Spec (At A K base s₀ l) (getBalance addr) (fun a s => a = l.balanceOf addr ∧ At A K base s₀ l s) E :=
  ask_spec slots accounts (q := .getBalance addr) mem

theorem getNonce_spec {addr : Address} (mem : addr ∈ A) :
    Proc.Spec (At A K base s₀ l) (getNonce addr) (fun a s => a = l.nonceOf addr ∧ At A K base s₀ l s) E :=
  ask_spec slots accounts (q := .getNonce addr) mem

theorem getRefund_spec :
    Proc.Spec (At A K base s₀ l) getRefund (fun a s => a = l.refund ∧ At A K base s₀ l s) E :=
  ask_spec slots accounts (q := .getRefund) trivial

theorem ask_since (within : q.Within A K) :
    Proc.Spec (Since A K base s₀) (ask q) (fun _ => Since A K base s₀) E :=
  fun _ since => since.step slots accounts ⟨.query q, within, trivial, rfl⟩

theorem perform_spec (within : m.Within A K) {l' : Ledger C} (effect : ∀ context, m.onLedger context l = l') :
    Proc.Spec (At A K base s₀ l) (perform m) (fun _ => At A K base s₀ l') E := by
  rintro s ⟨since, rfl⟩
  obtain ⟨-, ledger⟩ := Update.apply_spec slots within since.2.sound
  exact ⟨since.step slots accounts ⟨.update m, within, trivial, rfl⟩, ledger.trans (effect _)⟩

theorem perform_since (within : m.Within A K) :
    Proc.Spec (Since A K base s₀) (perform m) (fun _ => Since A K base s₀) E :=
  fun _ since => since.step slots accounts ⟨.update m, within, trivial, rfl⟩

theorem snapshot_since :
    Proc.Spec (Since A K base s₀) snapshot (fun id s => base ≤ id ∧ Since A K base s₀ s) E :=
  fun _ since => ⟨since.2.above, since.step slots accounts ⟨.snapshot, trivial, trivial, rfl⟩⟩

theorem revertToSnapshot_since {id : ℕ} (own : base ≤ id) (fault : ∀ s, Since A K base s₀ s → E .panic s) :
    Proc.Spec (Since A K base s₀) (revertToSnapshot id) (fun _ => Since A K base s₀) E := by
  intro s since
  have ran : (revertToSnapshot id : Proc ε (StateDB C) Unit).run s = match s.revertToSnapshot id with
    | none => .error .panic s
    | some t => .ok () t := rfl
  rw [ran]
  cases reverted : s.revertToSnapshot id with
  | none => exact fault s since
  | some t => exact since.step slots accounts ⟨.revertToSnapshot id, trivial, own, reverted⟩

end Rules

/-- Addresses have digests of their own if the digest is the number itself. -/
theorem accountsApart_numeral (A : Set Address) : Crypto.numeral.AccountsApart A := by
  intro first _ second _ same
  have digest : ∀ a : Address, Crypto.numeral.keccak a.bytes = BitVec.ofNat 256 a.toNat := by
    intro a
    have long : a.bytes ≠ [0x80] := fun short => by simpa using congrArg length short
    have small : a.toNat < 256 ^ 20 := a.isLt
    refine (if_neg long).trans ?_
    rw [Address.bytes, BigEndian.toNat_fixed, Nat.mod_eq_of_lt small]
  have digests := Hash.bytes_injective same
  rw [digest, digest] at digests
  have numbers := congrArg BitVec.toNat digests
  rw [BitVec.toNat_ofNat, BitVec.toNat_ofNat, Nat.mod_eq_of_lt (by omega), Nat.mod_eq_of_lt (by omega)] at numbers
  exact BitVec.eq_of_toNat_eq numbers

end Client

end KKChain
