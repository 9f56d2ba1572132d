import Mathlib.Logic.Basic

/-! # Calls on a state, and what they keep

A call takes a state and returns a value or a fault, and in both cases the state it left: what was
written before a failure stays written. `Proc.Spec` is the triple with one postcondition for returning
and one for faults. Its rules follow the constructors of a call, and `Spec.forM` is the rule for a loop
over a list.
-/

/-- How a call ends without a value: with an error for its caller, a run-time panic, the end of the
process, or not within the fuel given to its loops. -/
inductive Fault (ε : Type) where
  | error (e : ε)
  | panic
  | fatal
  | diverges
deriving DecidableEq, Repr

def Fault.map {ε δ : Type} (f : ε → δ) : Fault ε → Fault δ
  | error e => .error (f e)
  | panic => .panic
  | fatal => .fatal
  | diverges => .diverges

/-- A call on a state `σ` that may fail. -/
abbrev Proc (ε σ α : Type) := EStateM (Fault ε) σ α

namespace Proc

variable {ε σ α β γ δ : Type} {x : Proc ε σ α} {e : Fault ε} {f : α → Proc ε σ β}

/-- A computation that reads and writes no state. -/
def ofExcept : Except (Fault ε) α → Proc ε σ α
  | .ok a => pure a
  | .error e => throw e

/-- The same call with its errors as errors of another kind. -/
def mapFault {δ : Type} (x : Proc ε σ α) (f : ε → δ) : Proc δ σ α := fun s =>
  match x.run s with
  | .ok a s' => .ok a s'
  | .error e s' => .error (e.map f) s'

/-- The call, with its error handed to the caller as a value. -/
def outcome (x : Proc ε σ α) : Proc ε σ (Except ε α) := fun s =>
  match x.run s with
  | .ok a s' => .ok (.ok a) s'
  | .error (.error e) s' => .ok (.error e) s'
  | .error e s' => .error e s'

/-- The value of an option, or the fault `e`. -/
def orFault (e : Fault ε) : Option α → Proc ε σ α
  | some a => pure a
  | none => throw e

section Inversion

variable {s s' : σ} {a a' : α} {b : β}

@[simp] theorem pure_eq_ok : (pure a : Proc ε σ α).run s = .ok a' s' ↔ a = a' ∧ s = s' := by
  simp [pure, EStateM.pure, EStateM.run]

@[simp] theorem throw_ne_ok : (throw e : Proc ε σ α).run s = .ok a s' ↔ False := by
  show EStateM.Result.error e s = _ ↔ _
  simp

@[simp] theorem get_eq_ok {t : σ} : (get : Proc ε σ σ).run s = .ok t s' ↔ s = t ∧ s = s' := by
  show EStateM.Result.ok s s = _ ↔ _
  simp

@[simp] theorem modify_eq_ok {f : σ → σ} {u : PUnit} :
    (modify f : Proc ε σ PUnit).run s = .ok u s' ↔ f s = s' := by
  show EStateM.Result.ok _ (f s) = _ ↔ _
  simp

@[simp] theorem ofExcept_eq_ok {x : Except (Fault ε) α} :
    (ofExcept x : Proc ε σ α).run s = .ok a s' ↔ x = .ok a ∧ s = s' := by
  cases x <;> simp [ofExcept]

theorem ofExcept_eq_error {x : Except (Fault ε) α} :
    (ofExcept x : Proc ε σ α).run s = .error e s' ↔ x = .error e ∧ s = s' := by
  cases x with
  | error e =>
    show EStateM.Result.error e s = _ ↔ _
    simp
  | ok a =>
    show EStateM.Result.ok a s = _ ↔ _
    simp

@[simp] theorem orFault_eq_ok {x : Option α} : (orFault e x : Proc ε σ α).run s = .ok a s' ↔ x = some a ∧ s = s' := by
  cases x <;> simp [orFault]

/-- A sequence returns exactly if its parts do, one after the other. -/
theorem bind_eq_ok : (x >>= f).run s = .ok b s' ↔ ∃ a s₁, x.run s = .ok a s₁ ∧ (f a).run s₁ = .ok b s' := by
  simp only [bind, EStateM.bind, EStateM.run]
  cases x s with
  | ok a s₁ => exact ⟨fun ran => ⟨a, s₁, rfl, ran⟩, by rintro ⟨_, _, ⟨⟩, ran⟩; exact ran⟩
  | error e s₁ => simp

/-- A sequence fails where its first part fails or, after it, the second. -/
theorem bind_eq_error : (x >>= f).run s = .error e s' ↔
      x.run s = .error e s' ∨ ∃ a s₁, x.run s = .ok a s₁ ∧ (f a).run s₁ = .error e s' := by
  simp only [bind, EStateM.bind, EStateM.run]
  cases x s with
  | ok a s₁ => exact ⟨fun ran => .inr ⟨a, s₁, rfl, ran⟩, by rintro (⟨⟨⟩⟩ | ⟨_, _, ⟨⟩, ran⟩); exact ran⟩
  | error e' s₁ => simp

theorem except_bind_eq_ok {x : Except δ α} {f : α → Except δ β} : (x >>= f) = .ok b ↔ ∃ a, x = .ok a ∧ f a = .ok b := by
  cases x <;> simp [bind, Except.bind]

theorem except_map_eq_ok {x : Except δ α} {f : α → β} : x.map f = .ok b ↔ ∃ a, x = .ok a ∧ f a = b := by
  cases x <;> simp [Except.map]

/-- Running a call decides whether it returns with a value and a state of a kind. -/
instance decidableReturns {P : α → σ → Prop} [∀ a s, Decidable (P a s)] :
    Decidable (∃ a s', x.run s = .ok a s' ∧ P a s') :=
  match x.run s with
  | .ok a s' => decidable_of_iff (P a s') ⟨fun holds => ⟨a, s', rfl, holds⟩, by rintro ⟨_, _, ⟨⟩, holds⟩; exact holds⟩
  | .error _ _ => .isFalse (by simp)

instance decidableReturnsWith [DecidableEq α] {P : σ → Prop} [DecidablePred P] :
    Decidable (∃ s', x.run s = .ok a s' ∧ P s') :=
  match x.run s with
  | .ok b s' => decidable_of_iff (b = a ∧ P s') (by simp [and_assoc])
  | .error _ _ => .isFalse (by simp)

instance decidableReturnsAny : Decidable (∃ a s', x.run s = .ok a s') :=
  decidable_of_iff (∃ a s', x.run s = .ok a s' ∧ True) (by simp)

instance decidableReturnsJust [DecidableEq α] : Decidable (∃ s', x.run s = .ok a s') :=
  decidable_of_iff (∃ s', x.run s = .ok a s' ∧ True) (by simp)

/-- And whether it fails with an error and a state of a kind. -/
instance decidableFails {P : ε → σ → Prop} [∀ e s, Decidable (P e s)] :
    Decidable (∃ e s', x.run s = .error (.error e) s' ∧ P e s') :=
  match x.run s with
  | .error (.error e) s' => decidable_of_iff (P e s')
    ⟨fun holds => ⟨e, s', rfl, holds⟩, by rintro ⟨_, _, ⟨⟩, holds⟩; exact holds⟩
  | .error .panic _ | .error .fatal _ | .error .diverges _ | .ok _ _ => .isFalse (by simp)

end Inversion

/-- The state a call leaves, however it ends. -/
def after (x : Proc ε σ α) (s : σ) : σ :=
  match x.run s with
  | .ok _ s' => s'
  | .error _ s' => s'

theorem after_of_ok {s s' : σ} {a : α} (ran : x.run s = .ok a s') : x.after s = s' := by
  rw [after, ran]

/-- From a state with `P`, the call returns with `Q` or fails with `E`. -/
def Spec (P : σ → Prop) (x : Proc ε σ α) (Q : α → σ → Prop) (E : Fault ε → σ → Prop) : Prop :=
  ∀ s, P s → match x.run s with
    | .ok a s' => Q a s'
    | .error e s' => E e s'

namespace Spec

variable {P P' : σ → Prop} {Q Q' : α → σ → Prop} {R : β → σ → Prop} {E E' : Fault ε → σ → Prop} {s s' : σ} {a : α}

theorem ok (spec : Spec P x Q E) (pre : P s) (ran : x.run s = .ok a s') : Q a s' := by
  have := spec s pre
  rwa [ran] at this

theorem error (spec : Spec P x Q E) (pre : P s) (ran : x.run s = .error e s') : E e s' := by
  have := spec s pre
  rwa [ran] at this

/-- A call that cannot fault returns. -/
theorem exists_ok (spec : Spec P x Q E) (pre : P s) (never : ∀ e s, ¬ E e s) : ∃ a s', x.run s = .ok a s' ∧ Q a s' := by
  have := spec s pre
  cases ran : x.run s with
  | ok a s' =>
    rw [ran] at this
    exact ⟨a, s', rfl, this⟩
  | error e s' =>
    rw [ran] at this
    exact (never e s' this).elim

/-- A triple that says nothing about faults is one about the states a call returns with. -/
theorem of_ok (post : ∀ s a s', P s → x.run s = .ok a s' → Q a s') : Spec P x Q fun _ _ => True := by
  intro s start
  cases ran : x.run s with
  | ok a s' => exact post s a s' start ran
  | error e s' => trivial

theorem after {S : σ → Prop} (spec : Spec P x (fun _ => S) fun _ => S) (pre : P s) : S (x.after s) := by
  have := spec s pre
  unfold Proc.after
  cases ran : x.run s <;> rwa [ran] at this

theorem mono (spec : Spec P x Q E) (pre : ∀ s, P' s → P s) (post : ∀ a s, Q a s → Q' a s)
    (fault : ∀ e s, E e s → E' e s) : Spec P' x Q' E' := by
  intro s start
  have := spec s (pre s start)
  cases ran : x.run s with
  | ok a s' =>
    rw [ran] at this
    exact post a s' this
  | error e s' =>
    rw [ran] at this
    exact fault e s' this

theorem pre (spec : Spec P x Q E) (weaker : ∀ s, P' s → P s) : Spec P' x Q E :=
  spec.mono weaker (fun _ _ => id) fun _ _ => id

theorem post (spec : Spec P x Q E) (weaker : ∀ a s, Q a s → Q' a s) : Spec P x Q' E :=
  spec.mono (fun _ => id) weaker fun _ _ => id

/-- It is enough to look at each state by itself. -/
theorem of_each (each : ∀ t, P t → Spec (fun s => s = t) x Q E) : Spec P x Q E := fun s start => each s start s rfl

theorem and (first : Spec P x Q E) (second : Spec P' x Q' E') :
    Spec (fun s => P s ∧ P' s) x (fun a s => Q a s ∧ Q' a s) fun e s => E e s ∧ E' e s := by
  intro s start
  have left := first s start.1
  have right := second s start.2
  cases ran : x.run s <;> rw [ran] at left right <;> exact ⟨left, right⟩

/-- A fact about no state may be used from the start. -/
theorem assume {φ : Prop} (spec : φ → Spec P x Q E) : Spec (fun s => φ ∧ P s) x Q E :=
  fun s start => spec start.1 s start.2

theorem pure (post : ∀ s, P s → Q a s) : Spec P (Pure.pure a : Proc ε σ α) Q E := post

theorem throw (post : ∀ s, P s → E e s) : Spec P (MonadExcept.throw e : Proc ε σ α) Q E := post

theorem update {f : σ → σ} {Q : PUnit → σ → Prop} (post : ∀ s, P s → Q ⟨⟩ (f s)) :
    Spec P (modify f : Proc ε σ PUnit) Q E := post

theorem bind (first : Spec P x Q E) (second : ∀ a, Spec (Q a) (f a) R E) : Spec P (x >>= f) R E := by
  intro s start
  have := first s start
  simp only [Bind.bind, EStateM.bind, EStateM.run] at this ⊢
  cases ran : x s with
  | ok a s' =>
    rw [ran] at this
    exact second a s' this
  | error e s' => rwa [ran] at this

/-- Reading the state: the continuation may rely on the value being the state. -/
theorem get_bind {f : σ → Proc ε σ β} (rest : ∀ t, Spec (fun s => s = t ∧ P s) (f t) R E) :
    Spec P (get >>= f) R E := fun s start => rest s s ⟨rfl, start⟩

/-- Reading the state, which is the one read from then on. -/
theorem read {f : σ → Proc ε σ β} (rest : ∀ t, P t → Spec (fun s => s = t) (f t) R E) : Spec P (get >>= f) R E :=
  get_bind fun t s start => rest t (start.1 ▸ start.2) s start.1

theorem ofExcept {x : Except (Fault ε) α} (returned : ∀ a, x = .ok a → ∀ s, P s → Q a s)
    (failed : ∀ e, x = .error e → ∀ s, P s → E e s) : Spec P (ofExcept x) Q E := by
  cases x with
  | ok a => exact returned a rfl
  | error e => exact failed e rfl

theorem orFault {x : Option α} (returned : ∀ a, x = some a → ∀ s, P s → Q a s)
    (failed : x = none → ∀ s, P s → E e s) : Spec P (orFault e x) Q E := by
  cases x with
  | some a => exact returned a rfl
  | none => exact failed rfl

theorem orFault_bind {x : Option α} (found : x = some a) (rest : Spec P (f a) R E) :
    Spec P (Proc.orFault e x >>= f) R E := by
  rw [found]
  exact rest

theorem mapFault {f : ε → δ} {E' : Fault δ → σ → Prop} (spec : Spec P x Q E)
    (fault : ∀ e s, E e s → E' (e.map f) s) : Spec P (x.mapFault f) Q E' := by
  intro s start
  have post := spec s start
  cases ran : x.run s with
  | ok a s' =>
    have ran' : (x.mapFault f).run s = .ok a s' := by rw [EStateM.run, Proc.mapFault, ran]
    rw [ran] at post
    rwa [ran']
  | error e s' =>
    have ran' : (x.mapFault f).run s = .error (e.map f) s' := by rw [EStateM.run, Proc.mapFault, ran]
    rw [ran] at post
    rw [ran']
    exact fault e s' post

theorem ite {c : Prop} [Decidable c] {y : Proc ε σ α} (yes : c → Spec P x Q E) (no : ¬ c → Spec P y Q E) :
    Spec P (if c then x else y) Q E := by
  split
  · exact yes ‹_›
  · exact no ‹_›

/-- What every round keeps, a loop over a list keeps. -/
theorem forM {l : List γ} {f : γ → Proc ε σ PUnit} (round : ∀ c ∈ l, Spec P (f c) (fun _ => P) E) :
    Spec P (l.forM f) (fun _ => P) E := by
  induction l with
  | nil => exact fun _ => id
  | cons c l ih =>
    refine bind (round c (.head _)) fun _ => ?_
    exact ih fun c mem => round c (.tail _ mem)

end Spec

end Proc
