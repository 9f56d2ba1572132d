import KKChain.Machine.Run
import KKChain.P2P.Connection
import KKChain.ToMathlib.AList

/-! # The registry of connections

A host runs a goroutine for each connection: handshake, `AddConnection`, a loop that reads messages, and at its end
`RemoveConnection` of the remote peer's key. A connection to a peer that already has an entry is not entered, but its
goroutine goes on as if it were, and at its end removes the entry of the other one. Apart from that the registry is what
its users take it for.
-/

namespace KKChain

open List Option

namespace P2P

/-- The key of a peer in the map of connections. -/
def ID.key (id : ID) : Bytes := id.publicKey.getD []

inductive ConnDir where
  | inbound
  | outbound
deriving DecidableEq

/-- Where the goroutine of a connection is. -/
inductive Phase where
  | handshaking (dir : ConnDir)
  | handshaken (pid : ID)
  | reading (pid : ID)
  | leaving (pid : ID)
  | ended
deriving DecidableEq

/-- What the notifiees are told. -/
inductive Notice where
  | connected (conn : ℕ)
  | disconnected (conn : ℕ)
deriving DecidableEq

def Notice.conn : Notice → ℕ
  | connected c => c
  | disconnected c => c

inductive HostError where
  | connectionExceedMax
  | connectionNotFound
deriving DecidableEq

/-- `Host`, with the connections it was given so far by their numbers: where the goroutine of each is, which of them
were closed, and all notifications, the latest last. -/
structure Host where
  maxConnections : ℤ
  connections : AList fun _ : Bytes => ℕ
  phases : List Phase
  closed : List ℕ
  notices : List Notice

namespace Host

/-- `NewHost`. -/
def new (maxPeers : ℤ) : Host := ⟨maxPeers, ∅, [], [], []⟩

/-- An entry is made and notified. -/
def register (h : Host) (key : Bytes) (conn : ℕ) : Host :=
  { h with connections := h.connections.insert key conn, notices := h.notices ++ [.connected conn] }

/-- A connection is closed, its entry is deleted, and this is notified. -/
def unregister (h : Host) (key : Bytes) (conn : ℕ) : Host :=
  { h with
    closed := conn :: h.closed
    connections := h.connections.erase key
    notices := h.notices ++ [.disconnected conn] }

def addConnection (h : Host) (id : ID) (conn : ℕ) : Except HostError Host :=
  if h.maxConnections ≤ h.connections.keys.length then .error .connectionExceedMax
  else match h.connections.lookup id.key with
    | some _ => .ok h
    | none => .ok (h.register id.key conn)

def removeConnection (h : Host) (id : ID) : Except HostError Host :=
  match h.connections.lookup id.key with
  | none => .error .connectionNotFound
  | some conn => .ok (h.unregister id.key conn)

/-- The goroutine of a connection goes on to another phase. -/
def enter (h : Host) (c : ℕ) (phase : Phase) : Host := { h with phases := h.phases.set c phase }

/-- The goroutine of a connection returns, which closes the connection. -/
def finish (h : Host) (c : ℕ) : Host := { h.enter c .ended with closed := c :: h.closed }

end Host

/-- What may happen: a connection is accepted or dialled, its handshake ends (with the remote peer, or in failure), it
is added, a message is read and handled, reading or handling fails, it is removed, or someone closes it. -/
inductive HostEvent where
  | created (dir : ConnDir)
  | handshake (c : ℕ) (pid : Option ID)
  | add (c : ℕ)
  | received (c : ℕ)
  | failed (c : ℕ)
  | remove (c : ℕ)
  | close (c : ℕ)
deriving DecidableEq

namespace Host

/-- The steps of `OnConnectionCreated`, one goroutine for each connection. -/
def step (h : Host) : HostEvent → Option Host
  | .created dir => some { h with phases := h.phases ++ [.handshaking dir] }
  | .handshake c pid =>
    match h.phases[c]?, pid with
    | some (.handshaking _), some pid => some (h.enter c (.handshaken pid))
    | some (.handshaking _), none => some (h.finish c)
    | _, _ => none
  | .add c =>
    match h.phases[c]? with
    | some (.handshaken pid) =>
      match h.addConnection pid c with
      | .error _ => some (h.finish c)
      | .ok h => some (h.enter c (.reading pid))
    | _ => none
  | .received c =>
    match h.phases[c]? with
    | some (.reading _) => if c ∈ h.closed then none else some h
    | _ => none
  | .failed c =>
    match h.phases[c]? with
    | some (.reading pid) => some (h.enter c (.leaving pid))
    | _ => none
  | .remove c =>
    match h.phases[c]? with
    | some (.leaving pid) =>
      match h.removeConnection pid with
      | .error _ => some (h.finish c)
      | .ok h => some (h.finish c)
    | _ => none
  | .close c => if c < h.phases.length then some { h with closed := c :: h.closed } else none

def Step (h : Host) (event : HostEvent) (h' : Host) : Prop := h.step event = some h'

/-- What each event can do. -/
inductive Did (h : Host) : HostEvent → Host → Prop
  | created {dir : ConnDir} : Did h (.created dir) { h with phases := h.phases ++ [.handshaking dir] }
  | shaken {c : ℕ} {dir : ConnDir} {pid : ID} : h.phases[c]? = some (.handshaking dir) →
      Did h (.handshake c (some pid)) (h.enter c (.handshaken pid))
  | refused {c : ℕ} {dir : ConnDir} : h.phases[c]? = some (.handshaking dir) → Did h (.handshake c none) (h.finish c)
  | full {c : ℕ} {pid : ID} : h.phases[c]? = some (.handshaken pid) → Did h (.add c) (h.finish c)
  | duplicate {c other : ℕ} {pid : ID} : h.phases[c]? = some (.handshaken pid) →
      h.connections.lookup pid.key = some other → Did h (.add c) (h.enter c (.reading pid))
  | added {c : ℕ} {pid : ID} : h.phases[c]? = some (.handshaken pid) → h.connections.lookup pid.key = none →
      h.connections.keys.length < h.maxConnections →
      Did h (.add c) ((h.register pid.key c).enter c (.reading pid))
  | received {c : ℕ} {pid : ID} : h.phases[c]? = some (.reading pid) → Did h (.received c) h
  | failed {c : ℕ} {pid : ID} : h.phases[c]? = some (.reading pid) → Did h (.failed c) (h.enter c (.leaving pid))
  | missing {c : ℕ} {pid : ID} : h.phases[c]? = some (.leaving pid) → h.connections.lookup pid.key = none →
      Did h (.remove c) (h.finish c)
  | removed {c other : ℕ} {pid : ID} : h.phases[c]? = some (.leaving pid) →
      h.connections.lookup pid.key = some other →
      Did h (.remove c) ((h.unregister pid.key other).finish c)
  | close {c : ℕ} : Did h (.close c) { h with closed := c :: h.closed }

theorem Step.did {h h' : Host} {event : HostEvent} (step : h.Step event h') : h.Did event h' := by
  unfold Step at step
  cases event with
  | created dir =>
    cases step
    exact .created
  | handshake c pid =>
    simp only [Host.step] at step
    split at step
    · cases step
      exact .shaken ‹_›
    · cases step
      exact .refused ‹_›
    · cases step
  | add c =>
    simp only [Host.step] at step
    split at step
    · rename_i pid phase
      simp only [addConnection] at step
      by_cases full : h.maxConnections ≤ h.connections.keys.length
      · rw [if_pos full] at step
        cases step
        exact .full phase
      · rw [if_neg full] at step
        cases found : h.connections.lookup pid.key with
        | none =>
          rw [found] at step
          cases step
          exact .added phase found (not_le.mp full)
        | some other =>
          rw [found] at step
          cases step
          exact .duplicate phase found
    · cases step
  | received c =>
    simp only [Host.step] at step
    split at step
    · split_ifs at step
      cases step
      exact .received ‹_›
    · cases step
  | failed c =>
    simp only [Host.step] at step
    split at step
    · cases step
      exact .failed ‹_›
    · cases step
  | remove c =>
    simp only [Host.step] at step
    split at step
    · rename_i pid phase
      simp only [removeConnection] at step
      cases found : h.connections.lookup pid.key with
      | none =>
        rw [found] at step
        cases step
        exact .missing phase found
      | some other =>
        rw [found] at step
        cases step
        exact .removed phase found
    · cases step
  | close c =>
    simp only [Host.step] at step
    split_ifs at step
    cases step
    exact .close

end Host

/-- The key that the goroutine in a phase was added under and will remove. -/
def Phase.loopKey : Phase → Option Bytes
  | reading pid => some pid.key
  | leaving pid => some pid.key
  | _ => none

namespace Host

/-- The key under which a connection is in its loop. -/
def loopKey (h : Host) (c : ℕ) : Option Bytes := h.phases[c]?.bind Phase.loopKey

/-- The notifications about a connection. -/
def about (h : Host) (c : ℕ) : List Notice := h.notices.filter (·.conn = c)

/-- What has been notified about a connection in a phase. -/
def Told (c : ℕ) : Option Phase → List Notice → Prop
  | some (.reading _), l => l = [] ∨ l = [.connected c]
  | some (.leaving _), l => l = [] ∨ l = [.connected c]
  | some .ended, l => l = [] ∨ l = [.connected c, .disconnected c]
  | _, l => l = []

/-- The map holds exactly the connections that were registered and are in their loops. -/
def Exact (h : Host) : Prop :=
  ∀ k c, h.connections.lookup k = some c ↔ h.loopKey c = some k ∧ .connected c ∈ h.notices

/-- What the steps keep as long as no other connection's entry is removed. -/
structure Ordered (h : Host) : Prop where
  exact_ : h.Exact
  told : ∀ c, Told c h.phases[c]? (h.about c)
  bound : (h.connections.keys.length : ℤ) ≤ max 0 h.maxConnections

variable {h h' : Host} {c c' other : ℕ} {p q : Phase} {pid : ID} {k : Bytes}

theorem connected_mem_iff : .connected c ∈ h.notices ↔ .connected c ∈ h.about c := by
  simp [about, Notice.conn]

theorem phases_enter (before : h.phases[c]? = some q) (p : Phase) (c' : ℕ) :
    (h.enter c p).phases[c']? = if c' = c then some p else h.phases[c']? := by
  obtain ⟨inside, -⟩ := List.getElem?_eq_some_iff.mp before
  rw [enter, getElem?_set]
  by_cases same : c' = c
  · rw [if_pos same, if_pos same.symm, if_pos inside]
  · rw [if_neg same, if_neg (Ne.symm same)]

theorem loopKey_enter (before : h.phases[c]? = some q) (p : Phase) (c' : ℕ) :
    (h.enter c p).loopKey c' = if c' = c then p.loopKey else h.loopKey c' := by
  rw [loopKey, phases_enter before]
  split_ifs <;> rfl

theorem about_append (notice : Notice) (c : ℕ) :
    (h.notices ++ [notice]).filter (·.conn = c) = if notice.conn = c then h.about c ++ [notice] else h.about c := by
  rw [filter_append, about]
  split_ifs with same <;> simp [same]

/-- A new connection is the only one whose phase changes. -/
theorem phases_created (l : List Phase) (p : Phase) (c : ℕ) :
    (l ++ [p])[c]? = l[c]? ∨ l[c]? = none ∧ (l ++ [p])[c]? = some p := by
  by_cases old : c < l.length
  · exact .inl (getElem?_append_left old)
  · rw [getElem?_append_right (not_lt.mp old), getElem?_eq_none (not_lt.mp old)]
    by_cases new : c - l.length = 0
    · exact .inr ⟨rfl, by rw [new]; rfl⟩
    · exact .inl (getElem?_eq_none (by simp; omega))

namespace Ordered

variable (ordered : h.Ordered)

include ordered

theorem created {dir : ConnDir} : ({ h with phases := h.phases ++ [.handshaking dir] } : Host).Ordered := by
  refine ⟨fun k c => (ordered.exact_ k c).trans (and_congr_left fun _ => ?_), fun c => ?_, ordered.bound⟩
  · rw [loopKey, loopKey]
    rcases phases_created h.phases (.handshaking dir) c with same | ⟨none_, new⟩
    · rw [same]
    · rw [none_, new]
      exact iff_of_false nofun nofun
  · have told := ordered.told c
    rcases phases_created h.phases (.handshaking dir) c with same | ⟨none_, new⟩
    · rw [same]
      exact told
    · rw [none_] at told
      rw [new]
      exact told

/-- A goroutine goes on without a change of the map: it stays in its loop or was not registered. -/
theorem enter (before : h.phases[c]? = some q) (loop : .connected c ∈ h.notices → p.loopKey = q.loopKey)
    (told : Told c (some p) (h.about c)) : (h.enter c p).Ordered := by
  refine ⟨fun k c' => ?_, fun c' => ?_, ordered.bound⟩
  · rw [loopKey_enter before]
    refine (ordered.exact_ k c').trans (and_congr_left fun connected => ?_)
    split_ifs with same
    · subst same
      rw [loop connected, loopKey, before]
      rfl
    · rfl
  · rw [phases_enter before]
    split_ifs with same
    · exact same ▸ told
    · exact ordered.told c'

/-- A goroutine that returns. -/
theorem finish (before : h.phases[c]? = some q) (loop : .connected c ∈ h.notices → q.loopKey = none)
    (told : Told c (some .ended) (h.about c)) : (h.finish c).Ordered := by
  have entered := ordered.enter (p := .ended) before (fun connected => (loop connected).symm) told
  exact ⟨entered.exact_, entered.told, entered.bound⟩

omit ordered in
theorem not_connected (quiet : h.about c = []) : .connected c ∉ h.notices := by
  rw [connected_mem_iff, quiet]
  exact not_mem_nil

/-- A connection is registered. -/
theorem register (before : h.phases[c]? = some (.handshaken pid)) (free : h.connections.lookup pid.key = none)
    (room : h.connections.keys.length < h.maxConnections) :
    ((h.register pid.key c).enter c (.reading pid)).Ordered := by
  have quiet : h.about c = [] := by simpa [before, Told] using ordered.told c
  have before' : (h.register pid.key c).phases[c]? = some (.handshaken pid) := before
  constructor
  · intro k c'
    have mem : .connected c' ∈ h.notices ++ [.connected c] ↔ .connected c' ∈ h.notices ∨ c' = c := by simp
    rw [loopKey_enter before']
    change (h.connections.insert pid.key c).lookup k = some c' ↔ _ ∧ .connected c' ∈ h.notices ++ [.connected c]
    rw [mem, AList.lookup_insert_eq_ite]
    by_cases isKey : k = pid.key <;> by_cases same : c' = c
    · simp [isKey, same, Phase.loopKey]
    · -- another connection under the key would have had an entry
      have none_ : ¬ (h.loopKey c' = some k ∧ .connected c' ∈ h.notices) := by
        rw [← ordered.exact_, isKey, free]
        exact nofun
      simp only [if_pos isKey, same, or_false, some.injEq]
      exact iff_of_false (fun eq => same eq.symm) none_
    · have none_ : h.connections.lookup k ≠ some c' := by
        rw [Ne, ordered.exact_, same, connected_mem_iff, quiet]
        simp
      simp only [if_neg isKey, if_pos same, Phase.loopKey, some.injEq]
      exact iff_of_false none_ fun both => isKey both.1.symm
    · simp only [if_neg isKey, same, or_false]
      exact ordered.exact_ k c'
  · intro c'
    have told := ordered.told c'
    change Told c' _ ((h.notices ++ [Notice.connected c]).filter (·.conn = c'))
    rw [phases_enter before', about_append]
    by_cases same : c' = c
    · subst same
      rw [if_pos rfl, if_pos (show (Notice.connected c').conn = c' from rfl), quiet]
      exact .inr rfl
    · rw [if_neg same, if_neg fun eq => same eq.symm]
      exact told
  · change ((h.connections.insert pid.key c).keys.length : ℤ) ≤ max 0 h.maxConnections
    have := h.connections.length_keys_insert_le pid.key c
    omega

/-- A connection removes its own entry. -/
theorem unregister (before : h.phases[c]? = some (.leaving pid)) (own : h.connections.lookup pid.key = some c) :
    ((h.unregister pid.key c).finish c).Ordered := by
  have connected : .connected c ∈ h.about c := connected_mem_iff.mp ((ordered.exact_ _ _).mp own).2
  have about : h.about c = [.connected c] := by
    have told := ordered.told c
    rw [before] at told
    rcases told with quiet | once
    · rw [quiet] at connected
      cases connected
    · exact once
  have before' : (h.unregister pid.key c).phases[c]? = some (.leaving pid) := before
  have loop : h.loopKey c = some pid.key := ((ordered.exact_ _ _).mp own).1
  constructor
  · intro k c'
    have mem : .connected c' ∈ h.notices ++ [.disconnected c] ↔ .connected c' ∈ h.notices := by simp
    change (h.connections.erase pid.key).lookup k = some c' ↔
      ((h.unregister pid.key c).enter c .ended).loopKey c' = some k ∧ .connected c' ∈ h.notices ++ [.disconnected c]
    rw [loopKey_enter before', mem, AList.lookup_erase_eq_ite]
    change _ ↔ (if c' = c then none else h.loopKey c') = some k ∧ _
    by_cases same : c' = c
    · subst same
      rw [if_pos rfl]
      refine iff_of_false ?_ fun both => by cases both.1
      split_ifs with isKey
      · exact nofun
      · intro found
        have := ((ordered.exact_ _ _).mp found).1
        rw [loop] at this
        exact isKey (some.inj this).symm
    · rw [if_neg same, ← ordered.exact_]
      split_ifs with isKey
      · rw [isKey, own]
        exact iff_of_false nofun fun eq => same (some.inj eq).symm
      · rfl
  · intro c'
    have told := ordered.told c'
    change Told c' ((h.unregister pid.key c).enter c .ended).phases[c']?
      ((h.notices ++ [Notice.disconnected c]).filter (·.conn = c'))
    rw [phases_enter before', about_append]
    by_cases same : c' = c
    · subst same
      rw [if_pos rfl, if_pos (show (Notice.disconnected c').conn = c' from rfl), about]
      exact .inr rfl
    · rw [if_neg same, if_neg fun eq => same eq.symm]
      exact told
  · change ((h.connections.erase pid.key).keys.length : ℤ) ≤ max 0 h.maxConnections
    have := h.connections.length_keys_erase_le pid.key
    have := ordered.bound
    omega

end Ordered

/-- A connection that was not registered comes to remove its peer's entry, and there is one. -/
def duplicateEnds (h : Host) : HostEvent → Bool
  | .remove c =>
    match h.phases[c]? with
    | some (.leaving pid) => decide (.connected c ∉ h.notices) && (h.connections.lookup pid.key).isSome
    | _ => false
  | _ => false

/-- An entry that is not there any more was removed by its own connection. -/
def OwnRemoval (h : Host) (event : HostEvent) (h' : Host) : Prop :=
  ∀ k c, h.connections.lookup k = some c → h'.connections.lookup k ≠ some c → event = .remove c

theorem ownRemoval_of_eq {event : HostEvent} (same : h'.connections = h.connections) : h.OwnRemoval event h' :=
  fun _ _ found lost => absurd (same ▸ found) lost

namespace Ordered

/-- Every step keeps the order, unless the end of a duplicate removes the entry of the other connection. -/
theorem step {event : HostEvent} (ordered : h.Ordered) (did : h.Did event h') (alone : h.duplicateEnds event = false) :
    h'.Ordered ∧ h.OwnRemoval event h' := by
  have told := ordered.told
  cases did with
  | created => exact ⟨ordered.created, ownRemoval_of_eq rfl⟩
  | @shaken c dir pid before =>
    have quiet : h.about c = [] := by simpa [before, Told] using told c
    exact ⟨ordered.enter before (fun connected => absurd connected (not_connected quiet)) quiet, ownRemoval_of_eq rfl⟩
  | @refused c dir before | @full c pid before =>
    have quiet : h.about c = [] := by simpa [before, Told] using told c
    exact ⟨ordered.finish before (fun _ => rfl) (.inl quiet), ownRemoval_of_eq rfl⟩
  | @duplicate c other pid before found =>
    have quiet : h.about c = [] := by simpa [before, Told] using told c
    exact ⟨ordered.enter before (fun connected => absurd connected (not_connected quiet)) (.inl quiet),
      ownRemoval_of_eq rfl⟩
  | @added c pid before free room =>
    refine ⟨ordered.register before free room, fun k c' found lost => absurd ?_ lost⟩
    change (h.connections.insert pid.key c).lookup k = some c'
    rw [AList.lookup_insert_ne fun isKey => ?_, found]
    rw [isKey, free] at found
    cases found
  | received => exact ⟨ordered, ownRemoval_of_eq rfl⟩
  | @failed c pid before =>
    have once : Told c (some (.reading pid)) (h.about c) := before ▸ told c
    exact ⟨ordered.enter before (fun _ => rfl) once, ownRemoval_of_eq rfl⟩
  | @missing c pid before free =>
    have unregistered : .connected c ∉ h.notices := by
      intro connected
      have loop : h.loopKey c = some pid.key := by rw [loopKey, before]; rfl
      rw [(ordered.exact_ _ _).mpr ⟨loop, connected⟩] at free
      cases free
    have once : Told c (some (.leaving pid)) (h.about c) := before ▸ told c
    refine ⟨ordered.finish before (fun connected => absurd connected unregistered) (.inl ?_), ownRemoval_of_eq rfl⟩
    rcases once with quiet | once
    · exact quiet
    · rw [connected_mem_iff, once] at unregistered
      simp at unregistered
  | @removed c other pid before found =>
    have connected : .connected c ∈ h.notices := by
      simpa [duplicateEnds, before, found] using alone
    have loop : h.loopKey c = some pid.key := by rw [loopKey, before]; rfl
    obtain rfl : c = other := some.inj (((ordered.exact_ _ _).mpr ⟨loop, connected⟩).symm.trans found)
    refine ⟨ordered.unregister before found, fun k c' found' lost => ?_⟩
    by_cases isKey : k = pid.key
    · rw [isKey, found] at found'
      rw [some.inj found']
    · refine absurd ?_ lost
      change (h.connections.erase pid.key).lookup k = some c'
      rw [AList.lookup_erase_ne isKey, found']
  | close => exact ⟨⟨ordered.exact_, ordered.told, ordered.bound⟩, ownRemoval_of_eq rfl⟩

end Ordered

theorem ordered_new (maxPeers : ℤ) : (new maxPeers).Ordered :=
  ⟨fun k c => by simp [new, loopKey], fun c => rfl, le_max_left ..⟩

end Host

/-- What the registry is for, of one transition: the map holds exactly the registered connections that are in their
loops, entries are removed by their own connections, a connection is notified once and its end at most once after it,
and the map is within its limit. A limit below zero admits nothing. -/
structure Kept (u : Host × HostEvent × Host) : Prop where
  exact_ : u.2.2.Exact
  own : u.1.OwnRemoval u.2.1 u.2.2
  notified : ∀ c, u.2.2.about c = [] ∨ u.2.2.about c = [.connected c] ∨
    u.2.2.about c = [.connected c, .disconnected c]
  bound : (u.2.2.connections.keys.length : ℤ) ≤ max 0 u.2.2.maxConnections

namespace Host

theorem Ordered.kept {h h' : Host} {event : HostEvent} (ordered : h'.Ordered) (own : h.OwnRemoval event h') :
    Kept (h, event, h') := by
  refine ⟨ordered.exact_, own, fun c => ?_, ordered.bound⟩
  have told := ordered.told c
  unfold Told at told
  split at told
  · exact told.imp_right .inl
  · exact told.imp_right .inl
  · exact told.imp_right .inr
  · exact .inl told

/-- The end of a duplicate removes an entry that is not its own. -/
theorem not_ownRemoval {h h' : Host} {event : HostEvent} (exact_ : h.Exact) (did : h.Did event h')
    (ends : h.duplicateEnds event = true) : ¬ h.OwnRemoval event h' := by
  cases did with
  | @removed c other pid before found =>
    intro own
    have unregistered : .connected c ∉ h.notices := by
      simpa [duplicateEnds, before, found] using ends
    have lost : ((h.unregister pid.key other).finish c).connections.lookup pid.key ≠ some other := by
      change (h.connections.erase pid.key).lookup pid.key ≠ some other
      rw [AList.lookup_erase]
      exact nofun
    obtain rfl := HostEvent.remove.inj (own pid.key other found lost)
    exact unregistered ((exact_ _ _).mp found).2
  | @missing c pid before free => simp [duplicateEnds, before, free] at ends
  | _ => cases ends

/-- From an ordered state, the steps of a run are what the registry is for up to the first end of a duplicate. -/
theorem Ordered.run_iff {h t : Host} {ts : List (Host × HostEvent × Host)} (run : Run Step h ts t)
    (ordered : h.Ordered) : (∀ u ∈ ts, Kept u) ↔ ∀ u ∈ ts, u.1.duplicateEnds u.2.1 = false := by
  induction run with
  | nil => simp
  | @cons h h' t event ts first rest ih =>
    rw [forall_mem_cons, forall_mem_cons]
    by_cases ends : h.duplicateEnds event = false
    · obtain ⟨ordered', own⟩ := ordered.step first.did ends
      exact and_congr (iff_of_true (ordered'.kept own) ends) (ih ordered')
    · refine iff_of_false (fun both => ?_) fun both => ends both.1
      exact not_ownRemoval ordered.exact_ first.did (Bool.not_eq_false _ ▸ ends) both.1.own

/-- The transitions of a list of events. -/
def trace (h : Host) : List HostEvent → Option (List (Host × HostEvent × Host) × Host)
  | [] => some ([], h)
  | event :: events => do
    let h' ← h.step event
    let (ts, t) ← h'.trace events
    some ((h, event, h') :: ts, t)

theorem run_of_trace {h t : Host} {events : List HostEvent} {ts : List (Host × HostEvent × Host)}
    (traced : h.trace events = some (ts, t)) : Run Step h ts t := by
  induction events generalizing h ts with
  | nil =>
    cases traced
    exact .nil _
  | cons event events ih =>
    obtain ⟨h', first, rest⟩ := bind_eq_some_iff.mp traced
    obtain ⟨⟨ts', t'⟩, later, same⟩ := bind_eq_some_iff.mp rest
    cases same
    exact .cons first (ih later)

end Host

/-- In every run of connects, reads, failures and closes, the registry is what it is for exactly if no connection that
was not registered comes to remove its peer while the peer has an entry. -/
theorem kept_iff_no_duplicateEnds {maxPeers : ℤ} {ts : List (Host × HostEvent × Host)} {t : Host}
    (run : Run Host.Step (Host.new maxPeers) ts t) :
    (∀ u ∈ ts, Kept u) ↔ ∀ u ∈ ts, u.1.duplicateEnds u.2.1 = false :=
  Host.Ordered.run_iff run (Host.ordered_new maxPeers)

namespace Host

/-- Both connections of this peer, the second while the first has its entry. -/
def twice : List HostEvent :=
  let peer : ID := ⟨some [1], [2]⟩
  [.created .inbound, .handshake 0 (some peer), .add 0, .created .outbound, .handshake 1 (some peer), .add 1]

end Host

open Host in
/-- The duplicate ends after the registered connection: the registry is what it is for. -/
theorem kept_duplicate_last : ∃ ts t, Run Host.Step (Host.new 2) ts t ∧ t.phases = [.ended, .ended] ∧
    ∀ u ∈ ts, Kept u := by
  have traced : ((Host.new 2).trace (twice ++ [.failed 0, .remove 0, .failed 1, .remove 1])).any (fun (ts, t) =>
      t.phases = [.ended, .ended] ∧ ∀ u ∈ ts, u.1.duplicateEnds u.2.1 = false) = true := by
    decide
  obtain ⟨⟨ts, t⟩, traced, facts⟩ := (any_eq_true _ _).mp traced
  obtain ⟨ended, alone⟩ := of_decide_eq_true facts
  exact ⟨ts, t, run_of_trace traced, ended, (kept_iff_no_duplicateEnds (run_of_trace traced)).mpr alone⟩

open Host in
/-- The duplicate ends first: the entry of the connection that is still read from is gone. -/
theorem not_kept_duplicate_first : ¬ ∀ (maxPeers : ℤ) (ts : List (Host × HostEvent × Host)) (t : Host),
    Run Host.Step (Host.new maxPeers) ts t → ∀ u ∈ ts, Kept u := by
  intro always
  have traced : ((Host.new 2).trace (twice ++ [.failed 1, .remove 1])).any (fun (ts, t) =>
      ts.any fun u => decide (u.2.2.connections.lookup [1] = none ∧ u.2.2.loopKey 0 = some [1] ∧
        .connected 0 ∈ u.2.2.notices)) = true := by
    decide
  obtain ⟨⟨ts, t⟩, traced, facts⟩ := (any_eq_true _ _).mp traced
  obtain ⟨u, member, facts⟩ := any_eq_true.mp facts
  obtain ⟨missing, loop, connected⟩ := of_decide_eq_true facts
  have entry := ((always 2 ts t (run_of_trace traced) u member).exact_ [1] 0).mpr ⟨loop, connected⟩
  rw [missing] at entry
  cases entry

end P2P

end KKChain
