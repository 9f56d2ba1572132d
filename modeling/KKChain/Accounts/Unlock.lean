import KKChain.Machine.Run
import Mathlib.Data.Set.Basic
import Mathlib.Logic.Function.Basic

/-! # Unlocked keys and their timers

An unlock stores a key under a new pointer. `expire` is called for a pointer, by a goroutine if the unlock has a timeout
and by `Lock`. It waits for a timer or for the abort channel, so that the call may end at any time, with or without an
effect.
-/

namespace KKChain.KeyStore

open Function

/-- `unlocked`: a key with its abort channel, open or closed; without a timeout there is none. -/
structure Unlocked where
  key : ℕ
  abort : Option Bool

/-- The keys that were stored for an address, by their pointers, and the one in the map. -/
structure Store where
  made : ℕ
  keys : ℕ → Unlocked
  unlocked : Option ℕ

inductive SignError where
  | locked

/-- An unlock, or the timer of a call of `expire`. -/
inductive Event where
  | timedUnlock (key : ℕ) (timeout : ℤ)
  | fire (u : ℕ)

namespace Store

variable (s : Store)

/-- The store before the first unlock. -/
def start : Store := ⟨0, fun _ => ⟨0, none⟩, none⟩

/-- A key is put into the map under a new pointer. -/
def store (key : ℕ) (timeout : ℤ) : Store where
  made := s.made + 1
  keys := update s.keys s.made ⟨key, if 0 < timeout then some false else none⟩
  unlocked := some s.made

/-- `TimedUnlock` with the decrypted key; to close a closed channel panics. -/
def timedUnlock (key : ℕ) (timeout : ℤ) : Option Store :=
  match s.unlocked with
  | none => some (s.store key timeout)
  | some u =>
    match s.keys u with
    | ⟨_, none⟩ => some s
    | ⟨_, some true⟩ => none
    | ⟨k, some false⟩ => some (({ s with keys := update s.keys u ⟨k, some true⟩ } : Store).store key timeout)

def unlock (key : ℕ) : Option Store := s.timedUnlock key 0

/-- `expire` after its timer: the key is zeroed and dropped if it is still the one in the map. -/
def drop (u : ℕ) : Store :=
  if s.unlocked = some u then { s with keys := update s.keys u { s.keys u with key := 0 }, unlocked := none } else s

/-- A call of `expire` returns: after its timer, or because the channel is closed. -/
def Expires (u : ℕ) (s' : Store) : Prop := s' = s.drop u ∨ (s.keys u).abort = some true ∧ s' = s

/-- `Lock`, which looks into the map in the first state and returns in the second. -/
def LockReturns (s₁ s₂ : Store) : Prop :=
  match s.unlocked with
  | none => s₂ = s₁
  | some u => s₁.Expires u s₂

/-- The timer of the key that was stored last returns. -/
def TimerReturns (s₁ s₂ : Store) : Prop := ∃ u, u + 1 = s.made ∧ s₁.Expires u s₂

def step : Event → Option Store
  | .timedUnlock key timeout => s.timedUnlock key timeout
  | .fire u => some (s.drop u)

/-- `SignTx` and `SignHash`: what is signed with the key. -/
def signTx {α : Type} (sign : ℕ → α) : Except SignError α :=
  match s.unlocked with
  | none => .error .locked
  | some u => .ok (sign (s.keys u).key)

/-- Nothing can be signed, and the key that was stored last is zeroed. -/
def Locked : Prop :=
  (∀ {α : Type} (sign : ℕ → α), s.signTx sign = .error .locked) ∧ ∀ u, u + 1 = s.made → (s.keys u).key = 0

/-- The key in the map was stored last and is not aborted. A key that was dropped is zeroed. -/
structure Sound : Prop where
  latest {u} : s.unlocked = some u → u + 1 = s.made
  isOpen {u} : s.unlocked = some u → (s.keys u).abort ≠ some true
  zeroed {u} : s.unlocked = none → u + 1 = s.made → (s.keys u).key = 0

variable {s} {s' : Store} {u key : ℕ} {timeout : ℤ} {event : Event} {ts : List (Store × Event × Store)}

abbrev Runs := Run fun s event s' => step s event = some s'

/-- There is no unlock. -/
def Quiet (ts : List (Store × Event × Store)) : Prop := ∀ t ∈ ts, ∃ u, t.2.1 = .fire u

theorem sound_store : (s.store key timeout).Sound := by
  refine ⟨?_, ?_, nofun⟩
  · rintro _ ⟨⟩
    rfl
  · rintro _ ⟨⟩
    simp [store]

theorem Sound.timedUnlock (sound : s.Sound) (key : ℕ) (timeout : ℤ) :
    ∃ t, s.timedUnlock key timeout = some t ∧ t.Sound := by
  unfold Store.timedUnlock
  cases held : s.unlocked with
  | none => exact ⟨_, rfl, sound_store⟩
  | some u =>
    have isOpen := sound.isOpen held
    rcases found : s.keys u with ⟨k, _ | _ | _⟩
    · exact ⟨s, by simp [found], sound⟩
    · exact ⟨_, by simp [found]; rfl, sound_store⟩
    · simp [found] at isOpen

theorem Sound.drop (sound : s.Sound) : (s.drop u).Sound := by
  unfold Store.drop
  split_ifs with held
  · refine ⟨nofun, nofun, fun {v} _ last => ?_⟩
    have latest := sound.latest held
    obtain rfl : v = u := by dsimp only at last; omega
    simp
  · exact sound

theorem Sound.run (sound : s.Sound) (run : Runs s ts s') : s'.Sound := by
  refine run.keeps (fun ⟨s, event, s'⟩ _ step sound => ?_) sound
  cases event with
  | timedUnlock key timeout =>
    obtain ⟨t, ran, sound⟩ := sound.timedUnlock key timeout
    cases ran.symm.trans step
    exact sound
  | fire u =>
    obtain rfl : s.drop u = s' := Option.some.inj step
    exact sound.drop

/-- Without an unlock no key is stored, and a key that was dropped is gone. -/
theorem run_quiet (run : Runs s ts s') (quiet : Quiet ts) :
    s'.made = s.made ∧ (s.unlocked = none → s'.unlocked = none) := by
  refine run.keeps (P := fun t => t.made = s.made ∧
    (s.unlocked = none → t.unlocked = none)) (fun ⟨t, event, t'⟩ mem step kept => ?_)
    ⟨rfl, id⟩
  obtain ⟨u, rfl⟩ : ∃ u, event = .fire u := quiet _ mem
  obtain rfl : t.drop u = t' := Option.some.inj step
  unfold Store.drop
  split_ifs
  · exact ⟨kept.1, fun _ => rfl⟩
  · exact kept

theorem Sound.locked (sound : s.Sound) (gone : s.unlocked = none) : s.Locked :=
  ⟨fun sign => by rw [signTx, gone], fun _ => sound.zeroed gone⟩

/-- When `expire` has returned for the key that was stored last, the map is empty. -/
theorem Sound.expires (sound : s.Sound) (last : u + 1 = s.made) (ended : s.Expires u s') :
    s'.Sound ∧ s'.unlocked = none := by
  have only : ∀ {v}, s.unlocked = some v → v = u := fun held => by have := sound.latest held; omega
  rw [Option.eq_none_iff_forall_ne_some]
  rcases ended with rfl | ⟨closed, rfl⟩
  · refine ⟨sound.drop, ?_⟩
    unfold Store.drop
    split_ifs with held
    · simp
    · exact fun v other => held (only other ▸ other)
  · exact ⟨sound, fun v held => sound.isOpen held (only held ▸ closed)⟩

/-- In every state that is reached, no unlock panics; a call of `expire` drops nothing but the key that was stored last,
and a timer does not drop a key without a timeout. Once `Lock` or the timer of the last key has returned and no unlock
came after it, the account is locked. -/
theorem unlock_timers (run : Runs start ts s) :
    (∀ key timeout, (s.timedUnlock key timeout).isSome) ∧ (∀ u, s.drop u ≠ s → s.unlocked = some u ∧ u + 1 = s.made) ∧
      (∀ u v, s.unlocked = some u → (s.keys u).abort = none → (s.keys v).abort ≠ none → s.drop v = s) ∧
      ∀ s₁ s₂ s₃ ts₁ ts₂, Runs s ts₁ s₁ → Quiet ts₁ → s.LockReturns s₁ s₂ ∨ s.TimerReturns s₁ s₂ →
        Runs s₂ ts₂ s₃ → Quiet ts₂ → s₃.Locked := by
  have sound : s.Sound := Sound.run ⟨by rintro _ ⟨⟩, by rintro _ ⟨⟩, fun _ _ => rfl⟩ run
  refine ⟨fun key timeout => ?_, fun u changed => ?_, fun u v held forever timed => ?_, ?_⟩
  · obtain ⟨t, ran, -⟩ := sound.timedUnlock key timeout
    exact Option.isSome_of_eq_some ran
  · have held : s.unlocked = some u := by_contra fun other => changed (if_neg other)
    exact ⟨held, sound.latest held⟩
  · refine if_neg fun other => ?_
    cases held.symm.trans other
    exact timed forever
  · intro s₁ s₂ s₃ ts₁ ts₂ before quiet₁ returned after quiet₂
    obtain ⟨made, gone⟩ := run_quiet before quiet₁
    have sound₁ := sound.run before
    have empty : s₂.Sound ∧ s₂.unlocked = none := by
      rcases returned with lock | ⟨u, last, ended⟩
      · unfold LockReturns at lock
        cases held : s.unlocked with
        | none =>
          rw [held] at lock
          exact lock ▸ ⟨sound₁, gone held⟩
        | some u =>
          rw [held] at lock
          exact sound₁.expires (made ▸ sound.latest held) lock
      · exact sound₁.expires (made ▸ last) ended
    exact (empty.1.run after).locked ((run_quiet after quiet₂).2 empty.2)

/-- Key 7 is unlocked for a while and then key 8 for good. The timer of the first key fires, `Lock` returns, and another
timer fires. -/
theorem unlock_timers_eight : ∃ ts s, Runs start ts s ∧ ts.length = 2 ∧ s.signTx id = .ok 8 ∧
    (((s.drop 0).drop 1).drop 1).Locked := by
  have run : Runs start _ _ :=
    .cons (l := .timedUnlock 7 1) rfl (.cons (l := .timedUnlock 8 0) rfl (.nil _))
  have fires : ∀ s u, Runs s [(s, .fire u, s.drop u)] (s.drop u) ∧ Quiet [(s, .fire u, s.drop u)] :=
    fun s u => ⟨.cons rfl (.nil _), by simp [Quiet]⟩
  refine ⟨_, _, run, rfl, rfl, ?_⟩
  exact (unlock_timers run).2.2.2 _ _ _ _ _ (fires _ 0).1 (fires _ 0).2 (.inl (.inl rfl)) (fires _ 1).1 (fires _ 1).2

end Store

end KKChain.KeyStore
