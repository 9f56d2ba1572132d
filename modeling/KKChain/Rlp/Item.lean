import KKChain.Rlp.Encode

/-! # What the encode buffer produces

An RLP item is a string or a list of items, and its encoding is a header followed by its content.
`Value.item` says which item a Go value stands for, and `encodeToBytes_eq` is the refinement: the
buffer, with its detached list headers, yields exactly the encoding of that item.
-/

namespace KKChain.Rlp

open List BigEndian

/-- Strings and nested lists, the data model of RLP. -/
inductive Item where
  | str (b : Bytes)
  | list (items : List Item)

/-- A byte below `0x80` is its own encoding; any other string follows its header. -/
def encodeStr (b : Bytes) : Bytes :=
  if b.length = 1 ∧ b.headD 0 ≤ 0x7F then b else puthead 0x80 0xB7 b.length ++ b

mutual

def Item.encode : Item → Bytes
  | .str b => encodeStr b
  | .list items => puthead 0xC0 0xF7 (Item.encodeAll items).length ++ Item.encodeAll items

/-- The encodings of several items in a row. -/
def Item.encodeAll : List Item → Bytes
  | [] => []
  | item :: items => item.encode ++ Item.encodeAll items

end

mutual

def Value.item : Value → Except EncodeError Item
  | .uint i => .ok (.str (BigEndian.minimal i.toNat))
  | .bool b => .ok (.str (if b then [1] else []))
  | .bigInt none => .ok (.str [])
  | .bigInt (some i) => if i < 0 then .error .negativeBigInt else .ok (.str (BigEndian.minimal i.natAbs))
  | .bytes b => .ok (.str b)
  | .nilBytes => .ok (.str [])
  | .nilList => .ok (.list [])
  | .nilInterface => .ok (.list [])
  | .list elems => (Value.items elems).map .list

def Value.items : List Value → Except EncodeError (List Item)
  | [] => .ok []
  | v :: vs =>
    match v.item with
    | .error e => .error e
    | .ok item => (Value.items vs).map (item :: ·)

end

@[simp] theorem Value.item_uint (i : UInt64) :
    (Value.uint i).item = .ok (.str (minimal i.toNat)) := rfl

@[simp] theorem Value.item_bytes (b : Bytes) : (Value.bytes b).item = .ok (.str b) := rfl

@[simp] theorem Value.item_list (elems : List Value) :
    (Value.list elems).item = (Value.items elems).map .list := rfl

@[simp] theorem Value.items_nil : Value.items [] = .ok [] := rfl

@[simp] theorem Value.items_cons (v : Value) (vs : List Value) :
    Value.items (v :: vs) =
      match v.item with
      | .error e => .error e
      | .ok item => (Value.items vs).map (item :: ·) := rfl

theorem putint_eq_minimal {i : ℕ} (positive : i ≠ 0) (bound : i < 2 ^ 64) :
    putint i = minimal i := by
  unfold putint
  split_ifs <;> exact fixed_eq_minimal (by simp_all; try omega) (by simp_all; try omega)

theorem length_putint (i : ℕ) : (putint i).length = intsize i := by
  unfold putint intsize
  split_ifs <;> exact length_fixed _ _

@[simp] theorem length_puthead (smalltag largetag : UInt8) (size : ℕ) :
    (puthead smalltag largetag size).length = headsize size := by
  unfold puthead headsize
  split_ifs
  · rfl
  · rw [length_cons, length_putint, Nat.add_comm]

namespace EncBuf

@[simp] theorem write_str (w : EncBuf) (b : Bytes) : (w.write b).str = w.str ++ b := rfl
@[simp] theorem write_lheads (w : EncBuf) (b : Bytes) : (w.write b).lheads = w.lheads := rfl
@[simp] theorem write_lhsize (w : EncBuf) (b : Bytes) : (w.write b).lhsize = w.lhsize := rfl

@[simp] theorem list_str (w : EncBuf) : w.list.str = w.str := rfl
@[simp] theorem list_size (w : EncBuf) : w.list.size = w.size := rfl
@[simp] theorem list_lheads (w : EncBuf) :
    w.list.lheads = w.lheads ++ [⟨w.str.length, w.lhsize⟩] := rfl

theorem write_write (w : EncBuf) (b c : Bytes) : (w.write b).write c = w.write (b ++ c) := by
  simp [write]

theorem encodeString_eq (w : EncBuf) (b : Bytes) : w.encodeString b = w.write (encodeStr b) := by
  unfold encodeString encodeStr encodeStringHeader
  split_ifs
  · rfl
  · exact write_write w _ _

theorem writeUint_eq (w : EncBuf) (i : UInt64) :
    w.writeUint i = w.write (encodeStr (minimal i.toNat)) := by
  unfold writeUint
  split_ifs with zero small
  · subst zero
    rfl
  · have small : i.toNat < 128 := UInt64.lt_iff_toNat_lt.mp small
    have positive : 1 ≤ i.toNat := Nat.one_le_iff_ne_zero.mpr fun none => zero (UInt64.toNat_inj.mp none)
    have single : [UInt8.ofNat i.toNat] = minimal i.toNat :=
      @fixed_eq_minimal 0 i.toNat positive (by omega)
    have low : UInt8.ofNat i.toNat ≤ 0x7F := by
      rw [UInt8.le_iff_toNat_le, UInt8.toNat_ofNat', Nat.mod_eq_of_lt (small.trans (by decide))]
      exact Nat.le_of_lt_succ small
    rw [← single, encodeStr, if_pos ⟨rfl, low⟩]
  · have large : 128 ≤ i.toNat := not_lt.mp fun low => small (UInt64.lt_iff_toNat_lt.mpr low)
    have short : (minimal i.toNat).length < 56 := by
      have := minimal_length_le_iff.mpr (i.toNat_lt.trans_le (by norm_num : 2 ^ 64 ≤ 256 ^ 8))
      omega
    rw [putint_eq_minimal (by omega) i.toNat_lt]
    have notByte : ¬ ((minimal i.toNat).length = 1 ∧
        (minimal i.toNat).headD 0 ≤ 0x7F) := by
      rintro ⟨single, low⟩
      obtain ⟨b, shape⟩ := length_eq_one_iff.mp single
      have value := congrArg toNat shape
      rw [toNat_minimal, toNat_cons] at value
      rw [shape, headD_cons, UInt8.le_iff_toNat_le] at low
      simp at value low
      omega
    rw [encodeStr, if_neg notByte, puthead, if_pos short, singleton_append]

/-- `w'` is `w` with more data behind it, and that data reads `out` once its headers are in place. -/
structure Extends (w w' : EncBuf) (out : Bytes) : Prop where
  data : ∃ str heads, w'.str = w.str ++ str ∧
    w'.lheads = w.lheads ++ heads.map (fun h => { h with offset := w.str.length + h.offset }) ∧
    w'.size = w.size + out.length ∧ w.str.length ≤ w'.str.length ∧
    (∀ h ∈ heads, h.offset ≤ str.length) ∧ drain str 0 heads = out

private theorem drain_shift (front str : Bytes) (strpos : ℕ) (heads : List ListHead) :
    drain (front ++ str) (front.length + strpos)
        (heads.map fun h => { h with offset := front.length + h.offset }) =
      drain str strpos heads := by
  induction heads generalizing strpos with
  | nil => simp [drain, drop_append]
  | cons head heads ih =>
    simp only [map_cons, drain, ListHead.encode, ih]
    rw [take_append, drop_append]
    simp [take_of_length_le]

private theorem drain_append (front str : Bytes) (strpos : ℕ) (first second : List ListHead)
    (start : strpos ≤ front.length) (inside : ∀ h ∈ first, h.offset ≤ front.length) :
    drain (front ++ str) strpos
        (first ++ second.map fun h => { h with offset := front.length + h.offset }) =
      drain front strpos first ++ drain str 0 second := by
  induction first generalizing strpos with
  | nil =>
    cases second with
    | nil => simp [drain, drop_append_of_le_length start]
    | cons head heads =>
      simp only [nil_append, map_cons, drain, drain_shift, ListHead.encode]
      rw [take_append, take_of_length_le (by omega), drop_append_of_le_length start]
      simp
  | cons head heads ih =>
    have bound := inside head (by simp)
    simp only [cons_append, drain]
    rw [ih head.offset bound (fun h mem => inside h (by simp [mem])),
      take_append_of_le_length bound]
    simp

theorem Extends.write (w : EncBuf) (b : Bytes) : Extends w (w.write b) b :=
  ⟨b, [], by simp [size, drain, Nat.add_right_comm]⟩

theorem Extends.refl (w : EncBuf) : Extends w w [] := ⟨[], [], by simp [drain]⟩

theorem Extends.trans {w w₁ w₂ : EncBuf} {out out₁ : Bytes} (first : Extends w w₁ out)
    (second : Extends w₁ w₂ out₁) : Extends w w₂ (out ++ out₁) := by
  obtain ⟨str, heads, strEq, headsEq, sizeEq, grows, inside, reads⟩ := first
  obtain ⟨str₁, heads₁, strEq₁, headsEq₁, sizeEq₁, grows₁, inside₁, reads₁⟩ := second
  refine ⟨str ++ str₁, heads ++ heads₁.map (fun h => { h with offset := str.length + h.offset }),
    by rw [strEq₁, strEq, append_assoc], ?_, by simp [sizeEq₁, sizeEq]; omega, grows.trans grows₁,
    ?_, by rw [drain_append _ _ _ _ _ (Nat.zero_le _) inside, reads, reads₁]⟩
  · simp [headsEq₁, headsEq, strEq, Nat.add_assoc]
  · intro h mem
    rcases mem_append.mp mem with mem | mem
    · have := inside h mem
      simp; omega
    · obtain ⟨k, found, rfl⟩ := mem_map.mp mem
      have := inside₁ k found
      simp; omega

/-- Closing a list puts the header in front of what was written since it was opened. -/
theorem Extends.listEnd {w w' : EncBuf} {out : Bytes} (body : Extends w.list w' out) :
    Extends w (w'.listEnd w.lheads.length) (puthead 0xC0 0xF7 out.length ++ out) := by
  obtain ⟨str, heads, strEq, headsEq, sizeEq, grows, inside, reads⟩ := body
  rw [list_str] at strEq headsEq grows
  rw [list_lheads] at headsEq
  rw [list_size] at sizeEq
  have opened : w'.lheads[w.lheads.length]? = some ⟨w.str.length, w.lhsize⟩ := by
    simp [headsEq]
  have length : w'.size - w.str.length - w.lhsize = out.length := by
    have : w.size = w.str.length + w.lhsize := rfl
    omega
  refine ⟨str, ⟨0, out.length⟩ :: heads, ?_, ?_, ?_, ?_, ?_, ?_⟩
  · simpa [EncBuf.listEnd, opened] using strEq
  · simp only [EncBuf.listEnd, opened, length]
    simp [headsEq]
  · simp only [EncBuf.listEnd, opened, length]
    simp only [size] at sizeEq ⊢
    simp only [length_append, length_puthead]
    omega
  · simpa [EncBuf.listEnd, opened] using grows
  · simpa using inside
  · simp [drain, ListHead.encode, reads]

mutual

/-- The writer of a value either fails as the value's item does or appends that item's encoding. -/
theorem encode_spec (w : EncBuf) (v : Value) :
    match v.item with
    | .error e => w.encode v = .error e
    | .ok item => ∃ w', w.encode v = .ok w' ∧ Extends w w' item.encode := by
  match v with
  | .uint i => exact ⟨_, rfl, writeUint_eq w i ▸ Extends.write w _⟩
  | .bool b => exact ⟨_, rfl, by cases b <;> exact Extends.write w _⟩
  | .bigInt none => exact ⟨_, rfl, Extends.write w _⟩
  | .bigInt (some i) =>
    by_cases negative : i < 0
    · simp [Value.item, encode, writeBigInt, negative]
    · by_cases zero : i = 0
      · subst zero
        exact ⟨_, rfl, Extends.write w _⟩
      · simp only [Value.item, negative, ↓reduceIte, encode, writeBigInt, zero]
        exact ⟨_, rfl, encodeString_eq w _ ▸ Extends.write w _⟩
  | .bytes b => exact ⟨_, rfl, encodeString_eq w b ▸ Extends.write w _⟩
  | .nilBytes => exact ⟨_, rfl, Extends.write w _⟩
  | .nilList => exact ⟨_, rfl, (Extends.refl w.list).listEnd⟩
  | .nilInterface => exact ⟨_, rfl, Extends.write w _⟩
  | .list elems =>
    have spec := encodeAll_spec w.list elems
    simp only [Value.item, encode]
    cases shape : Value.items elems with
    | error e =>
      rw [shape] at spec
      simp [Except.map, spec]
    | ok items =>
      rw [shape] at spec
      obtain ⟨w', ran, body⟩ := spec
      exact ⟨_, by rw [ran]; rfl, body.listEnd⟩

theorem encodeAll_spec (w : EncBuf) (vs : List Value) :
    match Value.items vs with
    | .error e => w.encodeAll vs = .error e
    | .ok items => ∃ w', w.encodeAll vs = .ok w' ∧ Extends w w' (Item.encodeAll items) := by
  match vs with
  | [] => exact ⟨w, rfl, Extends.refl w⟩
  | v :: vs =>
    have head := encode_spec w v
    simp only [Value.items, encodeAll]
    cases shape : v.item with
    | error e =>
      rw [shape] at head
      simp [head]
    | ok item =>
      rw [shape] at head
      obtain ⟨w₁, ran, first⟩ := head
      have tail := encodeAll_spec w₁ vs
      simp only [ran]
      cases shapes : Value.items vs with
      | error e => simpa [shapes, Except.map] using tail
      | ok items =>
        rw [shapes] at tail
        obtain ⟨w₂, ran₂, second⟩ := tail
        exact ⟨w₂, ran₂, first.trans second⟩

end

theorem Extends.toBytes {w' : EncBuf} {out : Bytes} (all : Extends {} w' out) :
    w'.toBytes = out ∧ w'.size = out.length := by
  obtain ⟨str, heads, strEq, headsEq, sizeEq, -, -, reads⟩ := all
  refine ⟨?_, by simpa [size] using sizeEq⟩
  simpa [EncBuf.toBytes, strEq, headsEq] using reads

end EncBuf

/-- The buffer refines the item: encoding a value yields the encoding of the item it stands for. -/
theorem encodeToBytes_eq (v : Value) :
    encodeToBytes v =
      match v.item with
      | .error e => some (.error e)
      | .ok item => if item.encode.length ≤ maxAlloc then some (.ok item.encode) else none := by
  have spec := EncBuf.encode_spec {} v
  unfold encodeToBytes
  cases shape : v.item with
  | error e =>
    rw [shape] at spec
    simp [spec]
  | ok item =>
    rw [shape] at spec
    obtain ⟨w', ran, all⟩ := spec
    obtain ⟨bytes, length⟩ := all.toBytes
    simp [ran, bytes, length]

end KKChain.Rlp
