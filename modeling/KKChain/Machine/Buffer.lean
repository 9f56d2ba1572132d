import Mathlib.Data.List.Basic

/-! # Buffers

Slicing and copying as on Go's slices, loops that may fail, and a buffer that is filled block by block. Whatever the
order of the copies, a block holds what one of the copies to it has put there, or what it held before if there is none.
-/

open List

section Loops

variable {σ ι : Type} {l : List ι} {s t : σ} {f : σ → ι → Option σ} {P : σ → Prop}

end Loops

namespace Buffer

variable {α ι : Type} {buffer buffer' src : List α} {off lo hi : ℕ}

/-- `buffer[lo:hi]`, unless the bounds are out of range. -/
def slice (buffer : List α) (lo hi : ℕ) : Option (List α) :=
  if lo ≤ hi ∧ hi ≤ buffer.length then some ((buffer.drop lo).take (hi - lo)) else none

/-- `copy(buffer[off:], src)`. -/
def copyAt (buffer : List α) (off : ℕ) (src : List α) : List α :=
  buffer.take off ++ (src.take (buffer.length - off) ++ buffer.drop (off + src.length))

/-- Items are copied to their places, one after the other. -/
def fill (place : ι → ℕ) (item : ι → Option (List α)) (buffer : List α) (order : List ι) : Option (List α) :=
  order.foldlM (fun buffer i => (item i).map (copyAt buffer (place i))) buffer

section Fill

variable {place : ι → ℕ} {item : ι → Option (List α)} {order : List ι} {width : ℕ}

/-- The items all have the width, and their places are multiples of it inside of the buffer. -/
structure Blocks (place : ι → ℕ) (item : ι → Option (List α)) (width size : ℕ) (order : List ι) : Prop where
  length : ∀ {i block}, item i = some block → block.length = width
  aligned : ∀ i, width ∣ place i
  inside : ∀ i ∈ order, place i + width ≤ size

theorem Blocks.tail {size : ℕ} {i : ι} (blocks : Blocks place item width size (i :: order)) :
    Blocks place item width size order :=
  ⟨blocks.length, blocks.aligned, fun j mem => blocks.inside j (.tail _ mem)⟩

end Fill

end Buffer
