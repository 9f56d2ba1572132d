import KKChain.P2P.Connection

/-! # Reading a serialized message back

`SerializeMessage` puts the length of the address and of the key before them, but not that of the message, which goes to
the end. `DeserializeMessage` reads the message as it reads the other two.
-/

namespace KKChain.P2P

open List BigEndian

/-- `getElement`: what follows, and the element. A slice that ends too early is a run-time error, which is no result. -/
def getElement (buffer : Bytes) : Option (Bytes × Bytes) :=
  let len := BigEndian.toNat (buffer.take 4).reverse
  if buffer.length < 4 + len then none else some (buffer.drop (4 + len), (buffer.drop 4).take len)

def deserializeMessage (input : Bytes) : Option (ID × Bytes) := do
  let (buffer, address) ← getElement input
  let (buffer, publicKey) ← getElement buffer
  let (_, message) ← getElement buffer
  return (⟨some publicKey, address⟩, message)

variable {id : ID} {message body b : Bytes}

theorem littleEndian_toNat (length : b.length = 4) : littleEndian (toNat b.reverse) = b := by
  have bound := toNat_lt b.reverse
  rw [length_reverse, length] at bound
  rw [littleEndian, reverse_eq_iff]
  refine eq_of_toNat_eq (by simp [length]) ?_
  rw [toNat_fixed, Nat.mod_eq_of_lt bound]

theorem getElement_append (bound : body.length < 2 ^ 32) (rest : Bytes) :
    getElement (littleEndian body.length ++ (body ++ rest)) = some (rest, body) := by
  have size : toNat (littleEndian body.length).reverse = body.length := by
    rw [littleEndian, reverse_reverse, toNat_fixed]
    omega
  have first : (littleEndian body.length ++ (body ++ rest)).take 4 = littleEndian body.length :=
    take_left' (length_littleEndian _)
  have others : (littleEndian body.length ++ (body ++ rest)).drop 4 = body ++ rest := drop_left' (length_littleEndian _)
  simp only [getElement, first, size, ← drop_drop, others, take_left, drop_left]
  rw [if_neg (by simp)]

/-- An element is what stands behind its length. -/
theorem getElement_eq_some {rest : Bytes} :
    getElement b = some (rest, body) ↔ body.length < 2 ^ 32 ∧ b = littleEndian body.length ++ (body ++ rest) := by
  refine ⟨fun read => ?_, fun ⟨bound, shape⟩ => shape ▸ getElement_append bound rest⟩
  simp only [getElement] at read
  split_ifs at read with short
  have bound := toNat_lt (b.take 4).reverse
  generalize size : toNat (b.take 4).reverse = len at read short bound
  have prefixed : littleEndian len = b.take 4 := size ▸ littleEndian_toNat (by simp; omega)
  have length : ((b.drop 4).take len).length = len := by simp; omega
  cases read
  rw [length, prefixed, ← drop_drop, take_append_drop, take_append_drop]
  simp only [length_reverse, length_take, Nat.min_eq_left (show 4 ≤ b.length by omega)] at bound
  exact ⟨bound, rfl⟩

theorem deserializeMessage_eq_some (address : id.address.length < 2 ^ 32)
    (key : (id.publicKey.getD []).length < 2 ^ 32) {id' : ID} {body : Bytes} :
    deserializeMessage (serializeMessage id message) = some (id', body) ↔
      id' = ⟨some (id.publicKey.getD []), id.address⟩ ∧ body ≠ message ∧
        ∃ rest, body.length < 2 ^ 32 ∧ message = littleEndian body.length ++ (body ++ rest) := by
  simp only [deserializeMessage, serializeMessage, getElement_append address, getElement_append key,
    Option.bind_eq_bind, Option.bind_some, Option.bind_eq_some_iff, Prod.exists, getElement_eq_some, pure,
    Option.some.injEq, Prod.mk.injEq]
  constructor
  · rintro ⟨rest, body, ⟨bound, rfl⟩, rfl, rfl⟩
    refine ⟨rfl, fun same => ?_, rest, bound, rfl⟩
    have := congrArg length same
    simp only [length_append, length_littleEndian] at this
    omega
  · rintro ⟨rfl, -, rest, bound, rfl⟩
    exact ⟨rest, body, ⟨bound, rfl⟩, rfl, rfl⟩

/-- No message comes back as it was sent. What comes back is the identity and, of the message, only what stands in it
behind its own length; any other message ends in a run-time error. -/
theorem deserializeMessage_serializeMessage (address : id.address.length < 2 ^ 32)
    (key : (id.publicKey.getD []).length < 2 ^ 32) :
    (∀ id', deserializeMessage (serializeMessage id message) ≠ some (id', message)) ∧
      ∀ id' body, deserializeMessage (serializeMessage id message) = some (id', body) ↔
        id' = ⟨some (id.publicKey.getD []), id.address⟩ ∧ body ≠ message ∧
          ∃ rest, body.length < 2 ^ 32 ∧ message = littleEndian body.length ++ (body ++ rest) :=
  ⟨fun _ back => ((deserializeMessage_eq_some address key).mp back).2.1 rfl,
    fun _ _ => deserializeMessage_eq_some address key⟩

/-- A message of one byte behind its length. -/
theorem deserializeMessage_one :
    deserializeMessage (serializeMessage ⟨none, [2]⟩ [1, 0, 0, 0, 7]) = some (⟨some [], [2]⟩, [7]) :=
  ((deserializeMessage_serializeMessage (by decide) (by decide)).2 _ _).mpr ⟨rfl, by decide, [], by decide, by decide⟩

/-- A message of three bytes does not come back. -/
theorem deserializeMessage_three : deserializeMessage (serializeMessage ⟨some [1], [2]⟩ [1, 2, 3]) = none := by
  decide

end KKChain.P2P
