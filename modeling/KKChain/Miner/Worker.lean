import KKChain.Core.Rawdb
import KKChain.Machine.Run

/-! # Sealing

`taskLoop` starts a goroutine for every task and interrupts the one before it, but it does not wait for it. Each
goroutine calls `Seal`, whose mining threads send what they find to one channel that all calls of `Seal` receive from.
The model takes the goroutines step by step in any order. A result belongs to its task if no two calls of `Seal`
overlap; if they do, one may receive what a thread of the other has found.
-/

namespace KKChain

open List Option

def Block.withSeal (b : Block) (header : Header) : Block := .fresh header b.txs

namespace Miner

variable {ρ σ : Type}

structure Task (ρ σ : Type) where
  block : Block
  receipts : List ρ
  state : σ

/-- The engine: whether it is a fake, and the mix digest for a nonce that solves the header. -/
structure Engine where
  fake : Bool
  solve : Header → BitVec 64 → Option Hash

/-- Where a goroutine in `seal` is. -/
inductive Phase (ρ σ : Type) where
  /-- At the beginning of `Seal`. -/
  | entering
  /-- In the select of `Seal`. -/
  | waiting
  /-- The threads are told to end, and then `Seal` returns. -/
  | stopping (result : Option Block)
  /-- The threads are told to end, and then `Seal` starts over. -/
  | restarting
  /-- In the select of `seal`. -/
  | reporting (res : Option (Task ρ σ))
  | ended

/-- A goroutine in `seal`, with whether its stop channel is closed. -/
structure Sealer (ρ σ : Type) where
  task : Task ρ σ
  stopped : Bool
  phase : Phase ρ σ

/-- A thread in `mine`: the nonce it tries next, whether it is past the look at its abort channel, and the block that it
wants to send. -/
structure Thread where
  owner : ℕ
  block : Block
  nonce : BitVec 64
  trying : Bool
  found : Option Block

/-- The goroutines of the worker and its engine. The goroutines in `seal` are in the order in which they were started;
`results` lists what they put on `resultCh`. -/
structure Worker (ρ σ : Type) where
  looping : Bool
  quit : Bool
  stopCh : Option ℕ
  sealers : List (Sealer ρ σ)
  threads : List Thread
  results : List (ℕ × Option (Task ρ σ))

/-- What happens next. -/
inductive Event (ρ σ : Type) where
  /-- `taskLoop` takes a task. -/
  | submit (task : Task ρ σ)
  /-- `quitCh` is closed. -/
  | close
  /-- `taskLoop` ends. -/
  | leave
  /-- `Seal` starts threads at the given nonces. -/
  | enter (i : ℕ) (seeds : List (BitVec 64))
  /-- There is no randomness to start threads with. -/
  | fail (i : ℕ)
  /-- A thread sees that it is not to end. -/
  | look (k : ℕ)
  /-- A thread tries a nonce. -/
  | attempt (k : ℕ)
  /-- A thread sees that it is to end. -/
  | abort (k : ℕ)
  /-- `Seal` receives what a thread has found. -/
  | receive (i k : ℕ)
  /-- `Seal` sees that its stop channel is closed. -/
  | stop (i : ℕ)
  /-- `Seal` is told that the number of threads has changed. -/
  | update (i : ℕ)
  /-- All threads of a call have ended. -/
  | join (i : ℕ)
  /-- `waitResult` takes a result. -/
  | report (i : ℕ)
  /-- A result is given up because `quitCh` is closed. -/
  | giveUp (i : ℕ)

/-- A nonce is tried. -/
def Thread.attempt (E : Engine) (th : Thread) : Thread :=
  match E.solve th.block.header th.nonce with
  | none => { th with nonce := th.nonce + 1, trying := false }
  | some mixDigest =>
    { th with
      trying := false
      found := some (th.block.withSeal { th.block.header with nonce := th.nonce, mixDigest := mixDigest }) }

namespace Worker

/-- `newWorker`. -/
def new : Worker ρ σ := ⟨true, false, none, [], [], []⟩

variable (E : Engine) (w : Worker ρ σ)

def interrupt : Worker ρ σ :=
  match w.stopCh with
  | none => w
  | some i => { w with stopCh := none, sealers := w.sealers.modify i fun s => { s with stopped := true } }

def setPhase (i : ℕ) (phase : Phase ρ σ) : Worker ρ σ :=
  { w with sealers := w.sealers.modify i fun s => { s with phase := phase } }

/-- The abort channel of the thread is closed. -/
def aborted (th : Thread) : Bool :=
  match w.sealers[th.owner]? with
  | some ⟨_, _, .stopping _⟩ | some ⟨_, _, .restarting⟩ => true
  | _ => false

/-- The goroutine has no threads. -/
def joined (i : ℕ) : Bool := w.threads.all fun th => th.owner ≠ i

/-- One step of the goroutine `s`, which is the one with number `i`. -/
def stepSealer (i : ℕ) (s : Sealer ρ σ) (event : Event ρ σ) : Option (Worker ρ σ) :=
  match s.phase, event with
  | .entering, .enter _ seeds =>
    if E.fake then
      some (w.setPhase i (.reporting (some { s.task with
        block := s.task.block.withSeal { s.task.block.header with nonce := 0, mixDigest := 0 } })))
    else
      some { w.setPhase i .waiting with
        threads := w.threads ++ seeds.map fun nonce => ⟨i, s.task.block, nonce, false, none⟩ }
  | .entering, .fail _ => if E.fake then none else some (w.setPhase i (.reporting none))
  | .waiting, .receive _ k => do
    let th ← w.threads[k]?
    let b ← th.found
    some { w.setPhase i (.stopping (some b)) with threads := w.threads.eraseIdx k }
  | .waiting, .stop _ => if s.stopped then some (w.setPhase i (.stopping none)) else none
  | .waiting, .update _ => some (w.setPhase i .restarting)
  | .stopping result, .join _ =>
    if w.joined i then some (w.setPhase i (.reporting (result.map fun b => { s.task with block := b }))) else none
  | .restarting, .join _ => if w.joined i then some (w.setPhase i .entering) else none
  | .reporting res, .report _ => some { w.setPhase i .ended with results := w.results ++ [(i, res)] }
  | .reporting _, .giveUp _ => if w.quit then some (w.setPhase i .ended) else none
  | _, _ => none

def step (event : Event ρ σ) : Option (Worker ρ σ) :=
  match event with
  | .submit task =>
    if !w.looping then none
    else
      let w := w.interrupt
      some { w with stopCh := some w.sealers.length, sealers := w.sealers ++ [⟨task, false, .entering⟩] }
  | .close => some { w with quit := true }
  | .leave => if w.looping ∧ w.quit then some { w.interrupt with looping := false } else none
  | .look k => do
    let th ← w.threads[k]?
    if th.found.isSome || w.aborted th then none
    else some { w with threads := w.threads.set k { th with trying := true } }
  | .attempt k => do
    let th ← w.threads[k]?
    if th.trying then some { w with threads := w.threads.set k (th.attempt E) } else none
  | .abort k => do
    let th ← w.threads[k]?
    if w.aborted th && !th.trying then some { w with threads := w.threads.eraseIdx k } else none
  | .enter i _ | .fail i | .receive i _ | .stop i | .update i | .join i | .report i | .giveUp i => do
    let s ← w.sealers[i]?
    w.stepSealer E i s event

end Worker

/-- A block is another one with a seal. -/
def SealOf (b result : Block) : Prop :=
  ∃ nonce mixDigest, result = b.withSeal { b.header with nonce := nonce, mixDigest := mixDigest }

theorem Thread.owner_attempt (E : Engine) (th : Thread) : (th.attempt E).owner = th.owner := by
  unfold Thread.attempt
  split <;> rfl

theorem Thread.block_attempt (E : Engine) (th : Thread) : (th.attempt E).block = th.block := by
  unfold Thread.attempt
  split <;> rfl

/-- What a thread finds is a seal of its block. -/
theorem Thread.found_attempt {E : Engine} {th : Thread} {b : Block} (found : (th.attempt E).found = some b) :
    th.found = some b ∨ SealOf th.block b := by
  unfold Thread.attempt at found
  split at found
  · exact .inl found
  · exact .inr ⟨_, _, (some.inj found).symm⟩

/-- A task is another one whose block was sealed. -/
structure Task.SealOf (t res : Task ρ σ) : Prop where
  block : Miner.SealOf t.block res.block
  receipts : res.receipts = t.receipts
  state : res.state = t.state

/-- Every result belongs to the task of the goroutine that reported it. -/
def Worker.Belongs (w : Worker ρ σ) : Prop :=
  ∀ i res, (i, some res) ∈ w.results → ∃ s, w.sealers[i]? = some s ∧ s.task.SealOf res

/-- No other call of `Seal` waits for a result, and no other has a thread. -/
def Worker.Alone (w : Worker ρ σ) (i : ℕ) : Prop :=
  (∀ th ∈ w.threads, th.owner = i) ∧ ∀ j s, w.sealers[j]? = some s → s.phase = .waiting → j = i

/-- A call of `Seal` starts when no other is under way. -/
def Event.Alone (E : Engine) (w : Worker ρ σ) : Event ρ σ → Prop
  | .enter i _ => E.fake = true ∨ w.Alone i
  | _ => True

/-- What the goroutine holds is its own task with a seal. -/
def Phase.Holds (task : Task ρ σ) : Phase ρ σ → Prop
  | .stopping (some b) => SealOf task.block b
  | .reporting (some res) => task.SealOf res
  | _ => True

namespace Worker

variable {E : Engine} {w w' : Worker ρ σ} {i : ℕ} {s : Sealer ρ σ} {phase : Phase ρ σ}

def task (w : Worker ρ σ) (i : ℕ) : Option (Task ρ σ) := w.sealers[i]?.map (·.task)

/-- Whoever waits for a result has all threads, and everything found or reported is the seal of its task. -/
structure Inv (w : Worker ρ σ) : Prop where
  thread : ∀ th ∈ w.threads, ∃ t, w.task th.owner = some t ∧ th.block = t.block ∧
    ∀ b, th.found = some b → SealOf t.block b
  own : ∀ {i : ℕ} {s : Sealer ρ σ}, w.sealers[i]? = some s → s.phase = .waiting → ∀ th ∈ w.threads, th.owner = i
  holds : ∀ {i : ℕ} {s : Sealer ρ σ}, w.sealers[i]? = some s → s.phase.Holds s.task
  results : ∀ {i : ℕ} {res : Task ρ σ}, (i, some res) ∈ w.results → ∃ t, w.task i = some t ∧ t.SealOf res

theorem Inv.new : (new : Worker ρ σ).Inv :=
  ⟨by simp [Worker.new], by simp [Worker.new], by simp [Worker.new], by simp [Worker.new]⟩

theorem Inv.belongs (inv : w.Inv) : w.Belongs := by
  intro i res mem
  obtain ⟨t, held, sealed⟩ := inv.results mem
  obtain ⟨s, found, rfl⟩ := map_eq_some_iff.mp held
  exact ⟨s, found, sealed⟩

section Preservation

theorem sealers_setPhase (w : Worker ρ σ) (i j : ℕ) (phase : Phase ρ σ) : (w.setPhase i phase).sealers[j]? =
    w.sealers[j]?.map fun s => if i = j then { s with phase := phase } else s := by
  rw [setPhase, List.getElem?_modify, Option.map_eq_map]

theorem task_setPhase (w : Worker ρ σ) (i j : ℕ) (phase : Phase ρ σ) : (w.setPhase i phase).task j = w.task j := by
  rw [task, sealers_setPhase, Option.map_map, task]
  congr 1
  funext s
  split_ifs <;> rfl

/-- A goroutine goes on to a phase in which it holds the right thing. -/
theorem Inv.setPhase (inv : w.Inv) (found : w.sealers[i]? = some s) (holds : phase.Holds s.task)
    (own : phase = .waiting → ∀ th ∈ w.threads, th.owner = i) : (w.setPhase i phase).Inv where
  thread th mem := by
    rw [task_setPhase]
    exact inv.thread th mem
  own {j s'} held waiting := by
    rw [sealers_setPhase] at held
    obtain ⟨s₀, found', rfl⟩ := map_eq_some_iff.mp held
    split_ifs at waiting with same
    · exact same ▸ own waiting
    · exact inv.own found' waiting
  holds {j s'} held := by
    rw [sealers_setPhase] at held
    obtain ⟨s₀, found', rfl⟩ := map_eq_some_iff.mp held
    split_ifs with same
    · subst same
      cases found.symm.trans found'
      exact holds
    · exact inv.holds found'
  results mem := by
    rw [task_setPhase]
    exact inv.results mem

/-- Threads end. -/
theorem Inv.of_subset (inv : w.Inv) {threads : List Thread} (sub : threads ⊆ w.threads) :
    Inv { w with threads := threads } where
  thread th mem := inv.thread th (sub mem)
  own held waiting th mem := inv.own held waiting th (sub mem)
  holds := inv.holds
  results := inv.results

theorem task_interrupt (w : Worker ρ σ) (j : ℕ) : w.interrupt.task j = w.task j := by
  unfold interrupt
  split
  · rfl
  · rw [task, List.getElem?_modify, Option.map_eq_map, Option.map_map, task]
    congr 1
    funext s
    split_ifs <;> rfl

/-- Closing a stop channel touches nothing else. -/
theorem Inv.interrupt (inv : w.Inv) : w.interrupt.Inv where
  thread th mem := by
    rw [task_interrupt]
    refine inv.thread th ?_
    unfold Worker.interrupt at mem
    split at mem <;> exact mem
  own {j s'} held waiting := by
    unfold Worker.interrupt at held ⊢
    split at held
    · exact inv.own held waiting
    · rw [List.getElem?_modify, Option.map_eq_map] at held
      obtain ⟨s₀, found, rfl⟩ := map_eq_some_iff.mp held
      refine inv.own found ?_
      split_ifs at waiting <;> exact waiting
  holds {j s'} held := by
    unfold Worker.interrupt at held
    split at held
    · exact inv.holds held
    · rw [List.getElem?_modify, Option.map_eq_map] at held
      obtain ⟨s₀, found, rfl⟩ := map_eq_some_iff.mp held
      have kept := inv.holds found
      split_ifs <;> exact kept
  results {j res} mem := by
    rw [task_interrupt]
    refine inv.results ?_
    unfold Worker.interrupt at mem
    split at mem <;> exact mem

/-- A call of `Seal` starts its threads. -/
theorem Inv.enter (inv : w.Inv) (found : w.sealers[i]? = some s) (alone : w.Alone i) (seeds : List (BitVec 64)) :
    Inv { w.setPhase i .waiting with
      threads := w.threads ++ seeds.map fun nonce => ⟨i, s.task.block, nonce, false, none⟩ } := by
  have started : (w.setPhase i .waiting).Inv := inv.setPhase found trivial fun _ => alone.1
  have mine : ∀ th ∈ w.threads ++ seeds.map fun nonce =>
    (⟨i, s.task.block, nonce, false, none⟩ : Thread), th.owner = i := by
    intro th mem
    rcases mem_append.mp mem with old | new
    · exact alone.1 th old
    · obtain ⟨nonce, -, rfl⟩ := mem_map.mp new
      rfl
  refine ⟨fun th mem => ?_, fun {j s'} held waiting th mem => ?_, started.holds, started.results⟩
  · rcases mem_append.mp mem with old | new
    · exact started.thread th old
    · obtain ⟨nonce, -, rfl⟩ := mem_map.mp new
      refine ⟨s.task, ?_, rfl, by simp⟩
      exact (task_setPhase w i i .waiting).trans (by rw [task, found]; rfl)
  · rw [mine th mem]
    rw [sealers_setPhase] at held
    obtain ⟨s₀, found', rfl⟩ := map_eq_some_iff.mp held
    split_ifs at waiting with same
    · exact same
    · exact (alone.2 j s₀ found' waiting).symm

/-- A step of a goroutine in `seal`. -/
theorem Inv.stepSealer {event : Event ρ σ} (inv : w.Inv) (found : w.sealers[i]? = some s)
    (alone : ∀ j seeds, event = .enter j seeds → E.fake = true ∨ w.Alone i) (ran : w.stepSealer E i s event = some w') :
    w'.Inv := by
  have held := inv.holds found
  unfold Worker.stepSealer at ran
  split at ran
  · -- enter
    split_ifs at ran with fake
    · cases ran
      exact inv.setPhase found ⟨⟨0, 0, rfl⟩, rfl, rfl⟩ nofun
    · cases ran
      exact inv.enter found ((alone _ _ rfl).resolve_left fake) _
  · -- fail
    split_ifs at ran
    cases ran
    exact inv.setPhase found trivial nofun
  · -- receive: the thread belongs to this goroutine, which is the one that waits
    rename_i k waiting
    obtain ⟨th, running, ran⟩ := bind_eq_some_iff.mp ran
    obtain ⟨b, sent, ran⟩ := bind_eq_some_iff.mp ran
    cases ran
    have mem := mem_of_getElem? running
    obtain ⟨t, owned, -, sealed⟩ := inv.thread th mem
    rw [inv.own found waiting th mem, task, found] at owned
    cases owned
    have stopping : (w.setPhase i (.stopping (some b))).Inv := inv.setPhase found (sealed b sent) nofun
    exact stopping.of_subset (eraseIdx_sublist _ _).subset
  · -- stop
    split_ifs at ran
    cases ran
    exact inv.setPhase found trivial nofun
  · -- update
    cases ran
    exact inv.setPhase found trivial nofun
  · -- join, and the result is returned
    rename_i result _ stopping
    split_ifs at ran
    cases ran
    refine inv.setPhase found ?_ nofun
    cases result with
    | none => trivial
    | some b =>
      rw [stopping] at held
      exact ⟨held, rfl, rfl⟩
  · -- join, and `Seal` starts over
    split_ifs at ran
    cases ran
    exact inv.setPhase found trivial nofun
  · -- report
    rename_i res reporting
    cases ran
    have ended : (w.setPhase i .ended).Inv := inv.setPhase found trivial nofun
    refine ⟨ended.thread, ended.own, ended.holds, fun {j res'} mem => ?_⟩
    rcases mem_append.mp mem with old | new
    · exact ended.results old
    · obtain ⟨rfl, rfl⟩ := Prod.mk.inj (mem_singleton.mp new)
      rw [reporting] at held
      exact ⟨s.task, (task_setPhase w j j .ended).trans (by rw [task, found]; rfl), held⟩
  · -- giveUp
    split_ifs at ran
    cases ran
    exact inv.setPhase found trivial nofun
  · cases ran

/-- A thread goes on with its block, and what it has found is a seal of it. -/
theorem Inv.set (inv : w.Inv) {k : ℕ} {th th' : Thread} (running : w.threads[k]? = some th)
    (owner : th'.owner = th.owner) (block : th'.block = th.block)
    (found : ∀ b, th'.found = some b → th.found = some b ∨ SealOf th.block b) :
    Inv { w with threads := w.threads.set k th' } := by
  have mem := mem_of_getElem? running
  obtain ⟨t, owned, held, sealed⟩ := inv.thread th mem
  refine ⟨fun u new => ?_, fun {j s'} at_ waiting u new => ?_, inv.holds, inv.results⟩
  · rcases mem_or_eq_of_mem_set new with old | rfl
    · exact inv.thread u old
    · refine ⟨t, owner ▸ owned, block.trans held, fun b sent => ?_⟩
      exact (found b sent).elim (sealed b) fun sealed => held ▸ sealed
  · rcases mem_or_eq_of_mem_set new with old | rfl
    · exact inv.own at_ waiting u old
    · exact owner.trans (inv.own at_ waiting th mem)

/-- A task is taken. -/
theorem Inv.submit (inv : w.Inv) (task : Task ρ σ) (stopCh : Option ℕ) :
    Inv { w with stopCh := stopCh, sealers := w.sealers ++ [⟨task, false, .entering⟩] } := by
  have kept : ∀ {j t}, w.task j = some t →
      Worker.task { w with stopCh := stopCh, sealers := w.sealers ++ [⟨task, false, .entering⟩] } j = some t := by
    intro j t held
    obtain ⟨s, found, rfl⟩ := map_eq_some_iff.mp held
    rw [Worker.task, List.getElem?_append_left (List.getElem?_eq_some_iff.mp found).1, found]
    rfl
  have cases : ∀ {j : ℕ} {s' : Sealer ρ σ}, (w.sealers ++ [⟨task, false, .entering⟩])[j]? = some s' →
      w.sealers[j]? = some s' ∨ s' = ⟨task, false, .entering⟩ := by
    intro j s' held
    rw [getElem?_append] at held
    split_ifs at held
    · exact .inl held
    · exact .inr (mem_singleton.mp (mem_of_getElem? held))
  refine ⟨fun th mem => ?_, fun held waiting => ?_, fun held => ?_, fun mem => ?_⟩
  · obtain ⟨t, owned, rest⟩ := inv.thread th mem
    exact ⟨t, kept owned, rest⟩
  · rcases cases held with old | rfl
    · exact inv.own old waiting
    · cases waiting
  · rcases cases held with old | rfl
    · exact inv.holds old
    · trivial
  · obtain ⟨t, owned, sealed⟩ := inv.results mem
    exact ⟨t, kept owned, sealed⟩

/-- A step of anything. -/
theorem Inv.step {event : Event ρ σ} (inv : w.Inv) (alone : event.Alone E w) (ran : w.step E event = some w') :
    w'.Inv := by
  have goroutine : ∀ j, (∀ j' seeds, event = .enter j' seeds → E.fake = true ∨ w.Alone j) →
      (w.sealers[j]?.bind fun s => w.stepSealer E j s event) = some w' → w'.Inv := by
    intro j alone ran
    obtain ⟨s, found, ran⟩ := bind_eq_some_iff.mp ran
    exact inv.stepSealer found alone ran
  cases event with
  | submit task =>
    simp only [Worker.step] at ran
    split_ifs at ran
    cases ran
    exact inv.interrupt.submit task _
  | close =>
    cases ran
    exact { inv with }
  | leave =>
    simp only [Worker.step] at ran
    split_ifs at ran
    cases ran
    exact ⟨inv.interrupt.thread, inv.interrupt.own, inv.interrupt.holds, inv.interrupt.results⟩
  | look k =>
    obtain ⟨th, running, ran⟩ := bind_eq_some_iff.mp ran
    split_ifs at ran
    cases ran
    exact inv.set running rfl rfl fun _ => .inl
  | attempt k =>
    obtain ⟨th, running, ran⟩ := bind_eq_some_iff.mp ran
    split_ifs at ran
    cases ran
    exact inv.set running (th.owner_attempt E) (th.block_attempt E) fun _ => Thread.found_attempt
  | abort k =>
    obtain ⟨th, -, ran⟩ := bind_eq_some_iff.mp ran
    split_ifs at ran
    cases ran
    exact inv.of_subset (eraseIdx_sublist _ _).subset
  | enter j seeds => exact goroutine j (fun j' seeds' same => by cases same; exact alone) ran
  | fail j | receive j k | stop j | update j | join j | report j | giveUp j =>
    exact goroutine j (fun j' seeds' same => by cases same) ran

end Preservation

end Worker

/-- If calls of `Seal` do not overlap, every result is the seal of its task, in every interleaving. -/
theorem results_belong {E : Engine} {w : Worker ρ σ} {events : List (Worker ρ σ × Event ρ σ × Worker ρ σ)}
    (run : Run (fun w event w' => w.step E event = some w') .new events w)
    (alone : ∀ e ∈ events, e.2.1.Alone E e.1) : w.Belongs :=
  (run.keeps (P := Worker.Inv) (fun e member ran inv => inv.step (alone e member) ran) .new).belongs

section Examples

/-- An engine that every nonce satisfies. -/
def eager : Engine := ⟨false, fun _ _ => some 0⟩

def taskAt (number : ℤ) : Task Unit ℤ := ⟨.fresh { (default : Header) with number := number } [], [], number⟩

def sealedAt (number : ℤ) (nonce : BitVec 64) : Block :=
  .fresh { (default : Header) with number := number, nonce := nonce } []

/-- Two tasks are sealed and reported, one after the other. -/
theorem results_belong_two : ∃ events w, Run (fun w event w' => Worker.step eager w event = some w') .new events w ∧
    w.results = [(0, some { taskAt 1 with block := sealedAt 1 9 }), (1, some { taskAt 2 with block := sealedAt 2 5 })] ∧
    w.Belongs := by
  have run : Run (fun w event w' => Worker.step eager w event = some w') .new _
      ⟨true, false, some 1, [⟨taskAt 1, true, .ended⟩, ⟨taskAt 2, false, .ended⟩], [],
        [(0, some { taskAt 1 with block := sealedAt 1 9 }), (1, some { taskAt 2 with block := sealedAt 2 5 })]⟩ :=
    .cons (l := .submit (taskAt 1)) rfl <| .cons (l := .enter 0 [9]) rfl <| .cons (l := .look 0) rfl <|
      .cons (l := .attempt 0) rfl <| .cons (l := .receive 0 0) rfl <| .cons (l := .join 0) rfl <|
      .cons (l := .report 0) rfl <| .cons (l := .submit (taskAt 2)) rfl <| .cons (l := .enter 1 [5]) rfl <|
      .cons (l := .look 0) rfl <| .cons (l := .attempt 0) rfl <| .cons (l := .receive 1 0) rfl <|
      .cons (l := .join 1) rfl <| .cons (l := .report 1) rfl <| .nil _
  refine ⟨_, _, run, rfl, results_belong run ?_⟩
  simp only [forall_mem_cons, not_mem_nil, false_imp_iff, implies_true, and_true, true_and, Event.Alone]
  refine ⟨.inr ⟨fun th member => (by cases member), fun j s found _ => ?_⟩,
    .inr ⟨fun th member => (by cases member), fun j s found waits => ?_⟩⟩
  · exact Nat.lt_one_iff.mp (List.getElem?_eq_some_iff.mp found).1
  · obtain ⟨below, rfl⟩ := List.getElem?_eq_some_iff.mp found
    match j, below with
    | 0, _ => cases waits
    | 1, _ => rfl

/-- The second task is reported with the block of the first: its call of `Seal` receives what the thread of the call
before it has found. -/
theorem result_of_other : ∃ events w, Run (fun w event w' => Worker.step eager w event = some w') .new events w ∧
    w.sealers.map Sealer.task = [taskAt 1, taskAt 2] ∧
    w.results = [(1, some { taskAt 2 with block := sealedAt 1 9 })] ∧ ¬w.Belongs := by
  have run : Run (fun w event w' => Worker.step eager w event = some w') .new _
      ⟨true, false, some 1, [⟨taskAt 1, true, .waiting⟩, ⟨taskAt 2, false, .ended⟩], [],
        [(1, some { taskAt 2 with block := sealedAt 1 9 })]⟩ :=
    .cons (l := .submit (taskAt 1)) rfl <| .cons (l := .enter 0 [9]) rfl <| .cons (l := .look 0) rfl <|
      .cons (l := .attempt 0) rfl <| .cons (l := .submit (taskAt 2)) rfl <| .cons (l := .enter 1 [5]) rfl <|
      .cons (l := .receive 1 0) rfl <| .cons (l := .abort 0) rfl <| .cons (l := .join 1) rfl <|
      .cons (l := .report 1) rfl <| .nil _
  refine ⟨_, _, run, rfl, rfl, fun belongs => ?_⟩
  obtain ⟨s, found, ⟨nonce, mixDigest, same⟩, -, -⟩ := belongs 1 _ (mem_singleton_self _)
  cases found
  have numbers := congrArg (fun b => b.header.number) same
  cases numbers

end Examples

end Miner

end KKChain
