import KKChain.Common
import KKChain.Machine.Cells
import KKChain.Machine.Proc
import Mathlib.Data.Int.Bitwise
import Mathlib.Data.Int.ModEq
import Mathlib.Data.Nat.Digits.Defs

/-! # The instructions on words

The stack of a frame holds pointers to integers. The instructions compute in place: an operand that is popped is reused
for the result or goes back to a pool, from which later instructions take their integers. A signed reading of an integer
may be the integer itself or a new one.
-/

namespace KKChain.Vm

open List

abbrev Word := BitVec 256

/-- The stack and the pool of integers, as pointers to cells; the top is first. -/
structure Words where
  cells : Cells ℤ
  stack : List ℕ
  pool : List ℕ

abbrev WordProc := Proc Empty Words

namespace WordProc

def load (p : ℕ) : WordProc ℤ := fun s => .ok (s.cells.get p) s

def assign (p : ℕ) (v : ℤ) : WordProc ℕ := fun s => .ok p { s with cells := s.cells.set p v }

def new (v : ℤ) : WordProc ℕ := fun s => .ok s.cells.next { s with cells := s.cells.extend v }

def pop : WordProc ℕ := fun s =>
  match s.stack with
  | [] => .error .panic s
  | p :: rest => .ok p { s with stack := rest }

def peek : WordProc ℕ := fun s =>
  match s.stack with
  | [] => .error .panic s
  | p :: _ => .ok p s

def push (p : ℕ) : WordProc Unit := fun s => .ok () { s with stack := p :: s.stack }

def getZero : WordProc ℕ := fun s =>
  match s.pool with
  | [] => new 0 s
  | p :: rest => assign p 0 { s with pool := rest }

def poolLimit : ℕ := 256

/-- An integer is put into the pool; a build flag overwrites it. -/
def poolPush (verifyPool : Bool) (s : Words) (p : ℕ) : Words :=
  { s with cells := if verifyPool then s.cells.set p (-42) else s.cells, pool := p :: s.pool }

def put (verifyPool : Bool) (ps : List ℕ) : WordProc Unit := fun s =>
  if poolLimit < s.pool.length then .ok () s else .ok () (ps.foldl (poolPush verifyPool) s)

/-- `U256`, in place. -/
def u256 (p : ℕ) : WordProc ℕ := do
  let v ← load p
  assign p (v % 2 ^ 256)

/-- `S256`: the integer itself, or a new one. -/
def s256 (p : ℕ) : WordProc ℕ := do
  let v ← load p
  if v < 2 ^ 255 then pure p else new (v - 2 ^ 256)

variable (verifyPool : Bool) {f : ℤ → ℤ → ℤ}

/-- The instructions that pop an operand and compute the result in the next one. -/
def inPlace (f : ℤ → ℤ → ℤ) : WordProc Unit := do
  let x ← pop
  let y ← peek
  let _ ← assign y (f (← load x) (← load y))
  put verifyPool [x]

/-- The instructions that pop two operands and push the first one with the result. -/
def consume (f : ℤ → ℤ → ℤ) : WordProc Unit := do
  let x ← pop
  let y ← pop
  let x ← assign x (f (← load x) (← load y))
  push x
  put verifyPool [y]

/-- The instructions that pop three operands and push the first one with the result. -/
def consume3 (f : ℤ → ℤ → ℤ → ℤ) : WordProc Unit := do
  let x ← pop
  let y ← pop
  let z ← pop
  let x ← assign x (f (← load x) (← load y) (← load z))
  push x
  put verifyPool [y, z]

/-- The instructions that compute in the only operand. -/
def onTop (f : ℤ → ℤ) : WordProc Unit := do
  let x ← peek
  let _ ← assign x (f (← load x))

/-- A number from which the sign bit is on. -/
def signBit : ℤ := 2 ^ 255

/-- `SetUint64` of one or zero. -/
def flag (b : Bool) : ℤ := if b then 1 else 0

def opAdd : WordProc Unit := inPlace verifyPool fun x y => (x + y) % 2 ^ 256

def opSub : WordProc Unit := inPlace verifyPool fun x y => (x - y) % 2 ^ 256

def opMul : WordProc Unit := consume verifyPool fun x y => x * y % 2 ^ 256

def opDiv : WordProc Unit := inPlace verifyPool fun x y => if y ≠ 0 then x / y % 2 ^ 256 else 0

def opMod : WordProc Unit := consume verifyPool fun x y => if y = 0 then 0 else x % y % 2 ^ 256

/-- `opSdiv` and `opSmod` differ in when the result is zero, when it is negative, and what is computed of the absolute
values. -/
def signedOp (zero negative : ℤ → ℤ → Bool) (f : ℤ → ℤ → ℤ) : WordProc Unit := do
  let x ← s256 (← pop)
  let y ← s256 (← pop)
  let res ← getZero
  let xv ← load x
  let yv ← load y
  if zero xv yv then push res
  else do
    let x ← assign x |xv|
    let y ← assign y |yv|
    let res ← assign res (f (← load x) (← load y))
    if negative xv yv then do
      let res ← assign res (-(← load res))
      push (← u256 res)
    else push (← u256 res)
  put verifyPool [x, y]

def opSdiv : WordProc Unit := signedOp verifyPool (fun x y => y = 0 || x = 0) (fun x y => x.sign ≠ y.sign) (· / ·)

def opSmod : WordProc Unit := signedOp verifyPool (fun _ y => y = 0) (fun x _ => x < 0) (· % ·)

/-- The inner loop of `Exp`: the bits of a word. -/
def expWord (result base : ℕ) : ℕ → ℕ → WordProc Unit
  | 0, _ => pure ()
  | i + 1, word => do
    if word % 2 = 1 then
      let _ ← u256 (← assign result ((← load result) * (← load base)))
    let _ ← u256 (← assign base ((← load base) * (← load base)))
    expWord result base i (word / 2)

/-- `Exp`: the result is a new integer, and the base is squared on the way. -/
def exp (base exponent : ℕ) : WordProc ℕ := do
  let result ← new 1
  let words := Nat.digits (2 ^ 64) (← load exponent).toNat
  words.forM (expWord result base 64)
  return result

def opExp : WordProc Unit := do
  let base ← pop
  let exponent ← pop
  push (← exp base exponent)
  put verifyPool [base, exponent]

def opSignExtend : WordProc Unit := do
  let back ← pop
  let b ← load back
  if b < 31 then
    let bit := (b * 8 + 7).toNat
    let num ← pop
    let mask ← assign back ((1 : ℤ) <<< bit)
    let mask ← assign mask ((← load mask) - 1)
    if (← load num).testBit bit then
      let mask ← assign mask (Int.lnot (← load mask))
      let _ ← assign num (Int.lor (← load num) (← load mask))
    else
      let _ ← assign num (Int.land (← load num) (← load mask))
    push (← u256 num)
  put verifyPool [back]

def opNot : WordProc Unit := onTop fun x => Int.lnot x % 2 ^ 256

def opLt : WordProc Unit := inPlace verifyPool fun x y => flag (x < y)

def opGt : WordProc Unit := inPlace verifyPool fun x y => flag (y < x)

def opSlt : WordProc Unit := inPlace verifyPool fun x y =>
  if signBit ≤ x ∧ y < signBit then 1 else if x < signBit ∧ signBit ≤ y then 0 else flag (x < y)

def opSgt : WordProc Unit := inPlace verifyPool fun x y =>
  if signBit ≤ x ∧ y < signBit then 0 else if x < signBit ∧ signBit ≤ y then 1 else flag (y < x)

def opEq : WordProc Unit := inPlace verifyPool fun x y => flag (x = y)

def opIszero : WordProc Unit := onTop fun x => if 0 < x then 0 else 1

def opAnd : WordProc Unit := consume verifyPool Int.land

def opOr : WordProc Unit := inPlace verifyPool Int.lor

def opXor : WordProc Unit := inPlace verifyPool Int.xor

/-- `bigEndianByteAt`: the byte of a number, counted from the lowest one. -/
def bigEndianByteAt (v n : ℕ) : ℕ := (Nat.digits (2 ^ 64) v).getD (n / 8) 0 / 2 ^ (8 * (n % 8)) % 256

/-- `Byte`: the byte of a number of some length, counted from the highest one. -/
def byte (v padLength n : ℕ) : ℕ := if padLength ≤ n then 0 else bigEndianByteAt v (padLength - 1 - n)

def opByte : WordProc Unit := inPlace verifyPool fun th val => if th < 32 then byte val.toNat 32 th.toNat else 0

def opAddmod : WordProc Unit := consume3 verifyPool fun x y z => if 0 < z then (x + y) % z % 2 ^ 256 else 0

def opMulmod : WordProc Unit := consume3 verifyPool fun x y z => if 0 < z then x * y % z % 2 ^ 256 else 0

/-- `opSHL` and `opSHR` differ in the shift. -/
def shiftOp (f : ℤ → ℕ → ℤ) : WordProc Unit := do
  let shift ← u256 (← pop)
  let value ← u256 (← peek)
  let n ← load shift
  if 256 ≤ n then
    let _ ← assign value 0
  else
    let _ ← u256 (← assign value (f (← load value) n.toNat))
  put verifyPool [shift]

def opSHL : WordProc Unit := shiftOp verifyPool fun v n => v <<< n

def opSHR : WordProc Unit := shiftOp verifyPool fun v n => v >>> n

def opSAR : WordProc Unit := do
  let shift ← u256 (← pop)
  let value ← s256 (← pop)
  let n ← load shift
  if 256 ≤ n then
    if 0 < (← load value) then
      let _ ← assign value 0
    else
      let _ ← assign value (-1)
    push (← u256 value)
  else
    let value ← assign value ((← load value) >>> n.toNat)
    push (← u256 value)
  put verifyPool [shift]

/-- Some integers are in hand and the stack holds some words. Every integer has one owner: the hand, the stack or the
pool. -/
structure Holds (hand : List (ℕ × ℤ)) (ws : List Word) (s : Words) : Prop where
  owned : s.cells.Owned (hand.map Prod.fst ++ (s.stack ++ s.pool))
  values : ∀ e ∈ hand, s.cells.get e.1 = e.2
  shows : s.stack.map s.cells.get = ws.map fun w => (w.toNat : ℤ)

namespace Holds

variable {hand before rest : List (ℕ × ℤ)} {ws : List Word} {w : Word} {s : Words} {p : ℕ} {a v : ℤ}

theorem drop (holds : Holds ((p, a) :: hand) ws s) : Holds hand ws s where
  owned := holds.owned.sublist (sublist_cons_self ..)
  values e mem := holds.values e (.tail _ mem)
  shows := holds.shows

theorem set (holds : Holds (before ++ (p, a) :: rest) ws s) :
    Holds (before ++ (p, v) :: rest) ws { s with cells := s.cells.set p v } := by
  have same : ((before ++ (p, a) :: rest).map Prod.fst ++ (s.stack ++ s.pool)).Perm
      (p :: ((before ++ rest).map Prod.fst ++ (s.stack ++ s.pool))) := by
    simp only [map_append, map_cons, append_assoc, cons_append]
    exact perm_middle
  have other := (holds.owned.perm same).notMem
  simp only [mem_append, not_or] at other
  obtain ⟨notHand, notStack, -⟩ := other
  have elsewhere : ∀ e ∈ before ++ rest, (s.cells.set p v).get e.1 = e.2 := by
    intro e mem
    rw [Cells.get_set_of_ne fun isP : e.1 = p => notHand (isP ▸ mem_map_of_mem mem)]
    exact holds.values e (by simp only [mem_append, mem_cons] at mem ⊢; tauto)
  refine ⟨?_, ?_, ?_⟩
  · have owned := holds.owned
    rw [map_append, map_cons] at owned ⊢
    exact owned.set
  · intro e mem
    rw [mem_append, mem_cons] at mem
    rcases mem with mem | rfl | mem
    · exact elsewhere e (mem_append_left _ mem)
    · exact Cells.get_set_self ..
    · exact elsewhere e (mem_append_right _ mem)
  · exact (Cells.map_get_set notStack).trans holds.shows

theorem extend (holds : Holds hand ws s) :
    Holds ((s.cells.next, v) :: hand) ws { s with cells := s.cells.extend v } where
  owned := holds.owned.extend
  values := by
    refine forall_mem_cons.mpr ⟨Cells.get_extend_self .., fun e mem => ?_⟩
    rw [Cells.get_extend_of_lt (holds.owned.allocated _ (mem_append_left _ (mem_map_of_mem mem)))]
    exact holds.values e mem
  shows := by
    rw [← holds.shows]
    exact Cells.map_get_extend fun q mem =>
      holds.owned.allocated q (mem_append_right _ (mem_append_left _ mem))

theorem poolPush (holds : Holds ((p, a) :: hand) ws s) (verifyPool : Bool) :
    Holds hand ws (poolPush verifyPool s p) := by
  have written : Holds ((p, if verifyPool then -42 else a) :: hand) ws
      { s with cells := if verifyPool then s.cells.set p (-42) else s.cells } := by
    cases verifyPool with
    | false => exact holds
    | true => exact (show Holds ([] ++ (p, a) :: hand) ws s from holds).set
  refine ⟨written.owned.perm ?_, written.drop.values, written.shows⟩
  simp only [map_cons, cons_append, ← append_assoc, WordProc.poolPush]
  exact perm_middle.symm

theorem pop (holds : Holds hand (w :: ws) s) : ∃ p rest, s.stack = p :: rest ∧
    Holds ((p, (w.toNat : ℤ)) :: hand) ws { s with stack := rest } := by
  have shows := holds.shows
  cases shape : s.stack with
  | nil => simp [shape] at shows
  | cons p rest =>
    rw [shape, map_cons, map_cons, cons.injEq] at shows
    refine ⟨p, rest, rfl, holds.owned.perm ?_, forall_mem_cons.mpr ⟨shows.1, holds.values⟩, shows.2⟩
    rw [shape, map_cons, cons_append, cons_append]
    exact perm_middle

theorem push (holds : Holds ((p, (w.toNat : ℤ)) :: hand) ws s) :
    Holds hand (w :: ws) { s with stack := p :: s.stack } where
  owned := holds.owned.perm perm_middle.symm
  values := holds.drop.values
  shows := by
    rw [map_cons, map_cons, cons.injEq]
    exact ⟨holds.values _ ((.head _) ..), holds.shows⟩

end Holds

section Rules

open Proc

variable {hand before rest hand' : List (ℕ × ℤ)} {ws : List Word} {w : Word} {p q : ℕ} {a b v : ℤ}
    {E : Fault Empty → Words → Prop}
  {s : Words}

theorem spec_load (mem : (p, a) ∈ hand) :
    Spec (Holds hand ws) (load p) (fun v s => v = a ∧ Holds hand ws s) E := fun _ holds => ⟨holds.values _ mem, holds⟩

theorem spec_assign (before rest : List (ℕ × ℤ)) : Spec (Holds (before ++ (p, a) :: rest) ws) (assign p v)
    (fun q s => q = p ∧ Holds (before ++ (p, v) :: rest) ws s) E := fun _ holds => ⟨rfl, holds.set⟩

theorem spec_new : Spec (Holds hand ws) (new v) (fun p => Holds ((p, v) :: hand) ws) E := fun _ holds => holds.extend

theorem spec_pop : Spec (Holds hand (w :: ws)) pop (fun p => Holds ((p, (w.toNat : ℤ)) :: hand) ws) E := by
  intro s holds
  obtain ⟨p, rest, shape, popped⟩ := holds.pop
  have ran : pop.run s = .ok p { s with stack := rest } := by
    show pop s = _
    rw [pop, shape]
  rw [ran]
  exact popped

theorem spec_push (isWord : a = w.toNat) :
    Spec (Holds ((p, a) :: hand) ws) (push p) (fun _ => Holds hand (w :: ws)) E := by
  subst isWord
  exact fun _ holds => holds.push

theorem spec_put (verifyPool : Bool) :
    Spec (Holds ((p, a) :: hand) ws) (put verifyPool [p]) (fun _ => Holds hand ws) E := by
  intro s holds
  by_cases full : poolLimit < s.pool.length
  · have ran : (put verifyPool [p]).run s = .ok () s := if_pos full
    rw [ran]
    exact holds.drop
  · have ran : (put verifyPool [p]).run s = .ok () (poolPush verifyPool s p) := if_neg full
    rw [ran]
    exact holds.poolPush verifyPool

theorem spec_put₂ (verifyPool : Bool) :
    Spec (Holds ((p, a) :: (q, b) :: hand) ws) (put verifyPool [p, q]) (fun _ => Holds hand ws) E := by
  intro s holds
  by_cases full : poolLimit < s.pool.length
  · have ran : (put verifyPool [p, q]).run s = .ok () s := if_pos full
    rw [ran]
    exact holds.drop.drop
  · have ran : (put verifyPool [p, q]).run s = .ok () (poolPush verifyPool (poolPush verifyPool s p) q) := if_neg full
    rw [ran]
    exact (holds.poolPush verifyPool).poolPush verifyPool

theorem Holds.take {pool : List ℕ} (holds : Holds hand ws s) (shape : s.pool = p :: pool) :
    Holds ((p, s.cells.get p) :: hand) ws { s with pool } where
  owned := by
    refine holds.owned.perm ?_
    rw [shape, map_cons, cons_append, ← append_assoc, ← append_assoc]
    exact perm_middle
  values := forall_mem_cons.mpr ⟨rfl, holds.values⟩
  shows := holds.shows

theorem spec_getZero : Spec (Holds hand ws) getZero (fun p => Holds ((p, 0) :: hand) ws) E := by
  intro s holds
  have ran : getZero.run s = getZero s := rfl
  rw [ran, getZero]
  cases shape : s.pool with
  | nil => exact holds.extend
  | cons p pool => exact (show Holds ([] ++ (p, s.cells.get p) :: hand) ws _ from holds.take shape).set

section Bind

variable {α : Type} {R : α → Words → Prop} (before rest : List (ℕ × ℤ))

theorem bind_load {f : ℤ → WordProc α} (next : Spec (Holds (before ++ (p, a) :: rest) ws) (f a) R E) :
    Spec (Holds (before ++ (p, a) :: rest) ws) (load p >>= f) R E :=
  Spec.bind (spec_load (mem_append_right _ ((.head _) ..))) fun _ => .assume fun isA => isA ▸ next

theorem bind_assign {f : ℕ → WordProc α} (next : Spec (Holds (before ++ (p, v) :: rest) ws) (f p) R E) :
    Spec (Holds (before ++ (p, a) :: rest) ws) (assign p v >>= f) R E :=
  Spec.bind (spec_assign before rest) fun _ => .assume fun isP => isP ▸ next

theorem bind_u256 {f : ℕ → WordProc α} (next : Spec (Holds (before ++ (p, a % 2 ^ 256) :: rest) ws) (f p) R E) :
    Spec (Holds (before ++ (p, a) :: rest) ws) (u256 p >>= f) R E := by
  rw [u256, bind_assoc]
  exact bind_load before rest (bind_assign before rest next)

end Bind

/-- The signed reading of a number of 256 bits. -/
def signed (a : ℤ) : ℤ := if a < 2 ^ 255 then a else a - 2 ^ 256

theorem spec_s256 : Spec (Holds ((p, a) :: hand) ws) (s256 p) (fun q => Holds ((q, signed a) :: hand) ws) E := by
  refine bind_load [] _ (.ite (fun small => .pure fun s holds => ?_) fun large => ?_)
  · rwa [signed, if_pos small]
  · rw [signed, if_neg large]
    -- the integer that was read is not used any more
    exact .mono spec_new (fun s holds => holds.drop) (fun _ _ holds => holds) fun _ _ fault => fault

theorem Holds.perm (holds : Holds hand ws s) (same : hand.Perm hand') : Holds hand' ws s where
  owned := holds.owned.perm ((same.map Prod.fst).append_right _)
  values e mem := holds.values e (same.mem_iff.mpr mem)
  shows := holds.shows

/-- What is in hand has no order. -/
theorem spec_perm {α : Type} {x : WordProc α} {Q : α → Words → Prop} (same : hand'.Perm hand)
    (spec : Spec (Holds hand ws) x Q E) : Spec (Holds hand' ws) x Q E := fun s holds => spec s (holds.perm same)

end Rules

section Families

open Proc

variable {verifyPool : Bool} {ws : List Word} {x y z r : Word} {E : Fault Empty → Words → Prop}

/-- The operand that is peeked at is taken and put back. -/
theorem inPlace_eq (f : ℤ → ℤ → ℤ) : inPlace verifyPool f = (do
    let x ← pop
    let y ← pop
    let y ← assign y (f (← load x) (← load y))
    push y
    put verifyPool [x]) := by
  funext s
  obtain ⟨cells, stack, pool⟩ := s
  match stack with
  | [] => rfl
  | [_] => rfl
  | _ :: _ :: _ => rfl

theorem spec_inPlace (right : f x.toNat y.toNat = r.toNat) :
    Spec (Holds [] (x :: y :: ws)) (inPlace verifyPool f) (fun _ => Holds [] (r :: ws)) E := by
  rw [inPlace_eq]
  refine .bind spec_pop fun p => .bind spec_pop fun q => ?_
  refine bind_load [_] _ (bind_load [] _ (bind_assign [] _ ?_))
  exact .bind (spec_push right) fun _ => spec_put verifyPool

theorem spec_consume (right : f x.toNat y.toNat = r.toNat) :
    Spec (Holds [] (x :: y :: ws)) (consume verifyPool f) (fun _ => Holds [] (r :: ws)) E := by
  refine .bind spec_pop fun p => .bind spec_pop fun q => ?_
  refine bind_load [_] _ (bind_load [] _ (bind_assign [_] _ ?_))
  exact spec_perm (.swap ..) (.bind (spec_push right) fun _ => spec_put verifyPool)

theorem spec_consume3 {f : ℤ → ℤ → ℤ → ℤ} (right : f x.toNat y.toNat z.toNat = r.toNat) :
    Spec (Holds [] (x :: y :: z :: ws)) (consume3 verifyPool f) (fun _ => Holds [] (r :: ws)) E := by
  refine .bind spec_pop fun p => .bind spec_pop fun q => .bind spec_pop fun t => ?_
  refine bind_load [_, _] _ (bind_load [_] _ (bind_load [] _ (bind_assign [_, _] _ ?_)))
  exact spec_perm (reverse_perm _).symm (.bind (spec_push right) fun _ => spec_put₂ verifyPool)

theorem onTop_eq (f : ℤ → ℤ) : onTop f = (do
    let x ← pop
    let x ← assign x (f (← load x))
    push x) := by
  funext s
  obtain ⟨cells, stack, pool⟩ := s
  cases stack with
  | nil | cons => rfl

theorem spec_onTop {f : ℤ → ℤ} (right : f x.toNat = r.toNat) :
    Spec (Holds [] (x :: ws)) (onTop f) (fun _ => Holds [] (r :: ws)) E := by
  rw [onTop_eq]
  exact .bind spec_pop fun p => bind_load [] _ (bind_assign [] _ (spec_push right))

theorem spec_signedOp {zero negative : ℤ → ℤ → Bool} (vanishes : zero (signed x.toNat) (signed y.toNat) → r = 0)
    (right : ¬zero (signed x.toNat) (signed y.toNat) →
      (if negative (signed x.toNat) (signed y.toNat) then -f |signed x.toNat| |signed y.toNat|
        else f |signed x.toNat| |signed y.toNat|) % 2 ^ 256 = r.toNat) :
    Spec (Holds [] (x :: y :: ws)) (signedOp verifyPool zero negative f) (fun _ => Holds [] (r :: ws)) E := by
  refine .bind spec_pop fun p => .bind spec_s256 fun p => .bind spec_pop fun q => .bind spec_s256 fun q => ?_
  refine .bind spec_getZero fun res => bind_load [_, _] _ (bind_load [_] _ ?_)
  refine .ite (fun isZero => ?_) fun nonzero => ?_
  · have zero' : (0 : ℤ) = r.toNat := by simp [vanishes isZero]
    exact .bind (spec_push zero') fun _ => spec_perm (.swap ..) (spec_put₂ verifyPool)
  · refine bind_assign [_, _] _ (bind_assign [_] _ (bind_load [_, _] _ (bind_load [_] _ (bind_assign [] _ ?_))))
    have value := right nonzero
    refine .ite (fun isNegative => ?_) fun isPositive => ?_
    · rw [if_pos isNegative] at value
      refine bind_load [] _ (bind_assign [] _ (bind_u256 [] _ ?_))
      exact .bind (spec_push value) fun _ => spec_perm (.swap ..) (spec_put₂ verifyPool)
    · rw [if_neg isPositive] at value
      refine bind_u256 [] _ ?_
      exact .bind (spec_push value) fun _ => spec_perm (.swap ..) (spec_put₂ verifyPool)

end Families

section Exp

open Proc

variable {verifyPool : Bool} {ws : List Word} {result base : ℕ} {r b : ℤ} {before rest : List (ℕ × ℤ)}
  {E : Fault Empty → Words → Prop}

/-- The result and the base after some bits of the exponent, up to multiples of `2^256`. The result stays a word. -/
def Squared (result base : ℕ) (before rest : List (ℕ × ℤ)) (ws : List Word) (r b : ℤ) (s : Words) : Prop :=
  ∃ r' b', Holds ((result, r') :: (before ++ (base, b') :: rest)) ws s ∧ r' ≡ r [ZMOD 2 ^ 256] ∧ b' ≡ b [ZMOD 2 ^ 256] ∧
    0 ≤ r' ∧ r' < 2 ^ 256

theorem Squared.congr {r₂ b₂ : ℤ} {s : Words} (squared : Squared result base before rest ws r b s)
    (sameResult : r ≡ r₂ [ZMOD 2 ^ 256]) (sameBase : b ≡ b₂ [ZMOD 2 ^ 256]) :
    Squared result base before rest ws r₂ b₂ s := by
  obtain ⟨r', b', holds, first, second, isWord⟩ := squared
  exact ⟨r', b', holds, first.trans sameResult, second.trans sameBase, isWord⟩

/-- The low bits of a number, the lowest one apart. -/
theorem mod_two_pow_succ (word n : ℕ) : word % 2 ^ (n + 1) = word % 2 + 2 * (word / 2 % 2 ^ n) := by
  rw [Nat.pow_succ', Nat.mod_mul]

theorem spec_expWord (n word : ℕ) (isWord : 0 ≤ r ∧ r < 2 ^ 256) :
    Spec (Holds ((result, r) :: (before ++ (base, b) :: rest)) ws) (expWord result base n word)
      (fun _ => Squared result base before rest ws (r * b ^ (word % 2 ^ n)) (b ^ 2 ^ n)) E := by
  induction n generalizing word r b with
  | zero =>
    refine .pure fun s holds => ⟨r, b, holds, ?_, ?_, isWord⟩
    · simp [Nat.mod_one]
    · simp
  | succ n ih =>
    have square : b * b % 2 ^ 256 ≡ b ^ 2 [ZMOD 2 ^ 256] := by
      rw [pow_two]
      exact Int.mod_modEq ..
    have lower : (b * b % 2 ^ 256) ^ 2 ^ n ≡ b ^ 2 ^ (n + 1) [ZMOD 2 ^ 256] := by
      rw [Nat.pow_succ', pow_mul]
      exact square.pow _
    rw [expWord, mod_two_pow_succ, pow_add, pow_mul]
    dsimp only
    refine .ite (fun odd => ?_) fun even => ?_
    · refine bind_load [] _ (bind_load (_ :: before) _ (bind_assign [] _ (bind_u256 [] _ ?_)))
      refine bind_load (_ :: before) _
        (bind_load (_ :: before) _ (bind_assign (_ :: before) _ (bind_u256 (_ :: before) _ ?_)))
      have reduced : 0 ≤ r * b % 2 ^ 256 ∧ r * b % 2 ^ 256 < 2 ^ 256 :=
        ⟨Int.emod_nonneg _ (by decide), Int.emod_lt_of_pos _ (by decide)⟩
      refine .mono (ih _ reduced) (fun _ holds => holds) (fun _ _ squared => squared.congr ?_ lower)
        fun _ _ fault => fault
      rw [odd, pow_one, ← mul_assoc]
      exact (Int.mod_modEq ..).mul (square.pow _)
    · refine bind_load (_ :: before) _
        (bind_load (_ :: before) _ (bind_assign (_ :: before) _ (bind_u256 (_ :: before) _ ?_)))
      refine .mono (ih _ isWord) (fun _ holds => holds) (fun _ _ squared => squared.congr ?_ lower)
        fun _ _ fault => fault
      rw [Nat.mod_two_ne_one.mp even, pow_zero, one_mul]
      exact (square.pow _).mul_left _

theorem spec_expWords {words : List ℕ} (digits : ∀ d ∈ words, d < 2 ^ 64) (isWord : 0 ≤ r ∧ r < 2 ^ 256) :
    Spec (Holds ((result, r) :: (before ++ (base, b) :: rest)) ws) (words.forM (expWord result base 64))
      (fun _ s => ∃ b', Squared result base before rest ws (r * b ^ Nat.ofDigits (2 ^ 64) words) b' s) E := by
  induction words generalizing r b with
  | nil => exact Spec.pure fun s holds => ⟨b, r, b, holds, by simp, rfl, isWord⟩
  | cons word words ih =>
    obtain ⟨low, others⟩ := forall_mem_cons.mp digits
    refine Spec.bind (spec_expWord 64 word isWord) fun _ => ?_
    rintro s ⟨r', b', holds, first, second, isWord'⟩
    refine Spec.mono (ih others isWord') (fun _ holds => holds) (fun _ s => ?_) (fun _ _ fault => fault) s holds
    rintro ⟨b'', squared⟩
    refine ⟨b'', squared.congr ?_ rfl⟩
    rw [Nat.ofDigits_cons, pow_add, pow_mul, ← mul_assoc, Nat.mod_eq_of_lt low] at *
    exact first.mul (second.pow _)

/-- `Exp` returns the power as a new integer; the base is lost. -/
theorem spec_exp {exponent : ℕ} {e : ℕ} : Spec (Holds [(exponent, (e : ℤ)), (base, b)] ws) (exp base exponent)
    (fun p s => ∃ b', Holds [(p, b ^ e % 2 ^ 256), (exponent, (e : ℤ)), (base, b')] ws s) E := by
  refine .bind spec_new fun result => bind_load [_] _ ?_
  have digits : ∀ d ∈ Nat.digits (2 ^ 64) e, d < 2 ^ 64 := fun d mem => Nat.digits_lt_base (by decide) mem
  have loop : Spec (Holds [(result, 1), (exponent, (e : ℤ)), (base, b)] ws) _ _ E :=
    @spec_expWords _ _ _ _ _ [_] _ _ _ digits (by decide : (0 : ℤ) ≤ 1 ∧ (1 : ℤ) < 2 ^ 256)
  refine .bind loop fun _ => .pure ?_
  rintro s ⟨b', r', b'', holds, first, -, lower, upper⟩
  refine ⟨b'', ?_⟩
  rw [one_mul, Nat.ofDigits_digits] at first
  rwa [← first, Int.emod_eq_of_lt lower upper]

theorem spec_opExp {x y w : Word} (right : (x.toNat : ℤ) ^ y.toNat % 2 ^ 256 = w.toNat) :
    Spec (Holds [] (x :: y :: ws)) (opExp verifyPool) (fun _ => Holds [] (w :: ws)) E := by
  refine .bind spec_pop fun p => .bind spec_pop fun q => .bind spec_exp fun result => ?_
  rintro s ⟨b', holds⟩
  exact Spec.bind (spec_push right) (fun _ => spec_perm (.swap ..) (spec_put₂ verifyPool)) s holds

end Exp

section Others

open Proc

variable {verifyPool : Bool} {ws : List Word} {x y r : Word} {E : Fault Empty → Words → Prop}

theorem spec_opSignExtend (same : 31 ≤ x.toNat → r = y)
    (right : x.toNat < 31 → (if Int.testBit y.toNat (x.toNat * 8 + 7) then
        Int.lor y.toNat (Int.lnot ((1 : ℤ) <<< (x.toNat * 8 + 7) - 1))
      else Int.land y.toNat ((1 : ℤ) <<< (x.toNat * 8 + 7) - 1)) % 2 ^ 256 = r.toNat) :
    Spec (Holds [] (x :: y :: ws)) (opSignExtend verifyPool) (fun _ => Holds [] (r :: ws)) E := by
  refine .bind spec_pop fun p => bind_load [] _ ?_
  have bit : ((x.toNat : ℤ) * 8 + 7).toNat = x.toNat * 8 + 7 := by omega
  rw [bit]
  refine .ite (fun low => ?_) fun high => ?_
  · have value := right (by exact_mod_cast low)
    refine .bind spec_pop fun q => bind_assign [_] _ (bind_load [_] _ (bind_assign [_] _ (bind_load [] _ ?_)))
    refine .ite (fun negative => ?_) fun positive => ?_
    · rw [if_pos negative] at value
      refine bind_load [_] _ (bind_assign [_] _
        (bind_load [] _ (bind_load [_] _ (bind_assign [] _ (bind_u256 [] _ ?_)))))
      exact .bind (spec_push value) fun _ => spec_put verifyPool
    · rw [if_neg positive] at value
      refine bind_load [] _ (bind_load [_] _ (bind_assign [] _ (bind_u256 [] _ ?_)))
      exact .bind (spec_push value) fun _ => spec_put verifyPool
  · rw [same (by omega)]
    exact spec_put verifyPool

theorem shiftOp_eq (f : ℤ → ℕ → ℤ) : shiftOp verifyPool f = (do
    let shift ← u256 (← pop)
    let value ← u256 (← pop)
    let n ← load shift
    if 256 ≤ n then
      push (← assign value 0)
    else
      push (← u256 (← assign value (f (← load value) n.toNat)))
    put verifyPool [shift]) := by
  funext s
  obtain ⟨cells, stack, pool⟩ := s
  match stack with
  | [] => rfl
  | [_] => rfl
  | _ :: _ :: _ =>
    simp only [shiftOp, bind, EStateM.bind, pop, peek, u256, load, assign]
    split
    · rfl
    · rfl

theorem toNat_emod (w : Word) : (w.toNat : ℤ) % 2 ^ 256 = w.toNat :=
  Int.emod_eq_of_lt (by omega) (by exact_mod_cast w.isLt)

theorem spec_shiftOp {f : ℤ → ℕ → ℤ} (zero : 256 ≤ x.toNat → r = 0)
    (right : x.toNat < 256 → f y.toNat x.toNat % 2 ^ 256 = r.toNat) :
    Spec (Holds [] (x :: y :: ws)) (shiftOp verifyPool f) (fun _ => Holds [] (r :: ws)) E := by
  rw [shiftOp_eq]
  refine .bind spec_pop fun p => bind_u256 [] _ (.bind spec_pop fun q => bind_u256 [] _ (bind_load [_] _ ?_))
  rw [toNat_emod, toNat_emod]
  refine .ite (fun large => ?_) fun small => ?_
  · have zero' : (0 : ℤ) = r.toNat := by simp [zero (by exact_mod_cast large)]
    exact bind_assign [] _ (.bind (spec_push zero') fun _ => spec_put verifyPool)
  · refine bind_load [] _ (bind_assign [] _ (bind_u256 [] _ ?_))
    exact .bind (spec_push (right (by omega))) fun _ => spec_put verifyPool

/-- What `opSAR` pushes, as the integer before it is cut. -/
def shiftedRight (shift : ℕ) (value : ℤ) : ℤ := if 256 ≤ shift then if 0 < value then 0 else -1 else value >>> shift

theorem spec_opSAR (right : shiftedRight x.toNat (signed y.toNat) % 2 ^ 256 = r.toNat) :
    Spec (Holds [] (x :: y :: ws)) (opSAR verifyPool) (fun _ => Holds [] (r :: ws)) E := by
  refine .bind spec_pop fun p => bind_u256 [] _ (.bind spec_pop fun q => .bind spec_s256 fun q => bind_load [_] _ ?_)
  rw [toNat_emod]
  unfold shiftedRight at right
  refine .ite (fun large => ?_) fun small => ?_
  · rw [if_pos (by exact_mod_cast large)] at right
    refine bind_load [] _ ?_
    generalize signed (y.toNat : ℤ) = v at right ⊢
    refine .ite (fun positive => ?_) fun negative => ?_
    · rw [if_pos positive] at right
      exact bind_assign [] _ (bind_u256 [] _ (.bind (spec_push right) fun _ => spec_put verifyPool))
    · rw [if_neg negative] at right
      exact bind_assign [] _ (bind_u256 [] _ (.bind (spec_push right) fun _ => spec_put verifyPool))
  · rw [if_neg (by omega)] at right
    exact bind_load [] _ (bind_assign [] _ (bind_u256 [] _ (.bind (spec_push right) fun _ => spec_put verifyPool)))

end Others

end WordProc

end KKChain.Vm
