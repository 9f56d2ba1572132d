import KKChain.P2P.Wire
import Mathlib.Tactic.Ring

/-! # Encoded fields, whole and cut

What the generated encoders write for fields of bytes, and what the decoder makes of it: of the whole encoding, of a
part of it, and of a part that is filled up with zeros. A tag is never zero, so zeros are an error wherever a field
should start; only zeros inside the content of the last field are read as a value.
-/

namespace Wire

open List UInt8

/-- The bytes of a varint, at most `fuel` of them. -/
def varintBytes : ℕ → ℕ → List UInt8
  | 0, _ => []
  | fuel + 1, n => if n < 128 then [UInt8.ofNat n] else UInt8.ofNat (n % 128 + 128) :: varintBytes fuel (n / 128)

/-- `encodeVarint` of a word. -/
def encodeVarint (n : ℕ) : List UInt8 := varintBytes 10 n

/-- A field of bytes with its number. -/
def encodeField (f : ℕ × List UInt8) : List UInt8 := UInt8.ofNat (f.1 * 8 + 2) :: (encodeVarint f.2.length ++ f.2)

def encodeFields (fs : List (ℕ × List UInt8)) : List UInt8 := fs.flatMap encodeField

/-- The first `k` bytes, and zeros for the others. -/
def zeroed (k : ℕ) (l : List UInt8) : List UInt8 := l.take k ++ List.replicate (l.length - k) 0

section Zeroed

variable {k : ℕ} (a b : List UInt8)

@[simp] theorem length_zeroed (k : ℕ) : (zeroed k a).length = a.length := by
  rw [zeroed, length_append, length_take, length_replicate]
  omega

theorem zeroed_append_left (inside : k ≤ a.length) : zeroed k (a ++ b) = zeroed k a ++ replicate b.length 0 := by
  have tail : (a ++ b).length - k = (a.length - k) + b.length := by
    rw [length_append]
    omega
  rw [zeroed, zeroed, take_append_of_le_length inside, tail, append_assoc, replicate_append_replicate]

theorem zeroed_append_right (outside : a.length ≤ k) : zeroed k (a ++ b) = a ++ zeroed (k - a.length) b := by
  have tail : (a ++ b).length - k = b.length - (k - a.length) := by
    rw [length_append]
    omega
  rw [zeroed, zeroed, take_append, take_of_length_le outside, tail, append_assoc]

@[simp] theorem zeroed_nil (k : ℕ) : zeroed k [] = [] := by simp [zeroed]

theorem zeroed_ne_nil {a : List UInt8} (nonempty : a ≠ []) (k : ℕ) : zeroed k a ≠ [] := by
  rw [← length_pos_iff, length_zeroed]
  exact length_pos_iff.mpr nonempty

@[simp] theorem zeroed_zero : zeroed 0 a = replicate a.length 0 := by simp [zeroed]

end Zeroed

variable {data : List UInt8} {σ : Type} {schema : Schema σ} {message m : σ} {pos k n shift v j zeros behind : ℕ}

theorem getElem?_of_drop {b : UInt8} {rest : List UInt8} (here : data.drop pos = b :: rest) :
    data[pos]? = some b ∧ data.drop (pos + 1) = rest := by
  have first : (data.drop pos)[0]? = some b := by rw [here]; rfl
  rw [getElem?_drop] at first
  refine ⟨first, ?_⟩
  rw [← drop_drop, here, drop_one, tail_cons]

section Varint

theorem or_shift (value : v < 2 ^ shift) (short : n * 2 ^ shift < 2 ^ 64) :
    v ||| n <<< shift % 2 ^ 64 = v + n * 2 ^ shift := by
  rw [Nat.shiftLeft_eq, Nat.mod_eq_of_lt short, Nat.or_comm, Nat.mul_comm, Nat.add_comm]
  exact (Nat.two_pow_add_eq_or_of_lt value n).symm

variable {fuel : ℕ} {rest tail : List UInt8}

/-- The last byte of a varint. -/
theorem readVarint_last (last : n < 128) (value : v < 2 ^ shift)
    (short : n * 2 ^ shift < 2 ^ 64) (here : data.drop pos = ofNat n :: rest) :
    readVarint data (fuel + 1) shift v pos = .ok (v + n * 2 ^ shift, pos + 1) := by
  have byte : (ofNat n).toNat = n := toNat_ofNat_of_lt' (show n < 256 by omega)
  have small : ofNat n < 0x80 := by
    rw [lt_iff_toNat_lt, byte]
    exact last
  rw [readVarint, (getElem?_of_drop here).1]
  simp only [byte, Nat.mod_eq_of_lt last, or_shift value short, if_pos small]

/-- A byte of a varint with another one behind it. -/
theorem readVarint_more (value : v < 2 ^ shift) (short : n * 2 ^ shift < 2 ^ 64)
    (here : data.drop pos = ofNat (n % 128 + 128) :: rest) :
    readVarint data (fuel + 1) shift v pos = readVarint data fuel (shift + 7) (v + n % 128 * 2 ^ shift) (pos + 1) := by
  have byte : (ofNat (n % 128 + 128)).toNat = n % 128 + 128 := toNat_ofNat_of_lt' (show n % 128 + 128 < 256 by omega)
  have large : ¬ofNat (n % 128 + 128) < 0x80 := by
    rw [lt_iff_toNat_lt, byte]
    exact not_lt.mpr (Nat.le_add_left ..)
  have bits : (n % 128 + 128) % 128 = n % 128 := by omega
  have part : n % 128 * 2 ^ shift < 2 ^ 64 := lt_of_le_of_lt (Nat.mul_le_mul_right _ (Nat.mod_le ..)) short
  rw [readVarint, (getElem?_of_drop here).1]
  simp only [byte, bits, or_shift value part, if_neg large]

/-- What the rest of a varint adds. -/
theorem varint_step (n j shift v : ℕ) :
    v + n % 128 * 2 ^ shift + n / 128 % 128 ^ j * 2 ^ (shift + 7) = v + n % 128 ^ (j + 1) * 2 ^ shift := by
  have split : n % 128 ^ (j + 1) = n % 128 + 128 * (n / 128 % 128 ^ j) := by rw [Nat.pow_succ', Nat.mod_mul]
  rw [split, Nat.pow_add]
  ring

theorem varint_bounds (value : v < 2 ^ shift) (short : n * 2 ^ shift < 2 ^ 64) :
    v + n % 128 * 2 ^ shift < 2 ^ (shift + 7) ∧ n / 128 * 2 ^ (shift + 7) < 2 ^ 64 := by
  have bits : n % 128 * 2 ^ shift ≤ 127 * 2 ^ shift := Nat.mul_le_mul_right _ (by omega)
  have rest : 128 * (n / 128) * 2 ^ shift ≤ n * 2 ^ shift := Nat.mul_le_mul_right _ (Nat.mul_div_le ..)
  rw [Nat.pow_add]
  refine ⟨by omega, ?_⟩
  calc n / 128 * (2 ^ shift * 2 ^ 7) = 128 * (n / 128) * 2 ^ shift := by ring
    _ ≤ n * 2 ^ shift := rest
    _ < 2 ^ 64 := short

/-- The whole varint. -/
theorem readVarint_bytes (enough : n < 128 ^ (fuel + 1)) (value : v < 2 ^ shift)
    (short : n * 2 ^ shift < 2 ^ 64) (here : data.drop pos = varintBytes (fuel + 1) n ++ tail) :
    readVarint data (fuel + 1) shift v pos = .ok (v + n * 2 ^ shift, pos + (varintBytes (fuel + 1) n).length) := by
  induction fuel generalizing n shift v pos with
  | zero =>
    rw [varintBytes, if_pos (by simpa using enough)] at here ⊢
    exact readVarint_last (by simpa using enough) value short here
  | succ fuel ih =>
    rw [varintBytes] at here ⊢
    split_ifs at here ⊢ with last
    · exact readVarint_last last value short here
    · obtain ⟨value', short'⟩ := varint_bounds value short
      have enough' : n / 128 < 128 ^ (fuel + 1) := Nat.div_lt_of_lt_mul (by rwa [← Nat.pow_succ'])
      have whole : v + n % 128 * 2 ^ shift + n / 128 * 2 ^ (shift + 7) = v + n * 2 ^ shift := by
        have split : n * 2 ^ shift = (128 * (n / 128) + n % 128) * 2 ^ shift := by rw [Nat.div_add_mod]
        rw [split, Nat.pow_add]
        ring
      rw [readVarint_more value short here, ih enough' value' short' (getElem?_of_drop here).2, whole, length_cons]
      congr 2
      omega

/-- A varint that is cut before a zero: only the bits that are there count. -/
theorem readVarint_zero (value : v < 2 ^ shift) (short : n * 2 ^ shift < 2 ^ 64)
    (cut : j < (varintBytes fuel n).length) (here : data.drop pos = (varintBytes fuel n).take j ++ 0 :: tail) :
    readVarint data fuel shift v pos = .ok (v + n % 128 ^ j * 2 ^ shift, pos + j + 1) := by
  induction fuel generalizing n shift v pos j with
  | zero => cases cut
  | succ fuel ih =>
    cases j with
    | zero =>
      rw [readVarint_last (n := 0) (by omega) value (by omega) here, Nat.pow_zero, Nat.mod_one, Nat.add_zero]
    | succ j =>
      rw [varintBytes] at cut here
      split_ifs at cut here with last
      · cases Nat.lt_of_succ_lt_succ cut
      · obtain ⟨value', short'⟩ := varint_bounds value short
        rw [readVarint_more value short here,
          ih value' short' (Nat.lt_of_succ_lt_succ cut) (getElem?_of_drop here).2, varint_step]
        congr 2
        omega

/-- A varint where the data end is an error. -/
theorem readVarint_end (value : v < 2 ^ shift) (short : n * 2 ^ shift < 2 ^ 64)
    (cut : j < (varintBytes fuel n).length) (here : data.drop pos = (varintBytes fuel n).take j) :
    readVarint data fuel shift v pos = .error (.error .unexpectedEOF) := by
  induction fuel generalizing n shift v pos j with
  | zero => cases cut
  | succ fuel ih =>
    cases j with
    | zero =>
      rw [readVarint, getElem?_eq_none (drop_eq_nil_iff.mp here)]
    | succ j =>
      rw [varintBytes] at cut here
      split_ifs at cut here with last
      · cases Nat.lt_of_succ_lt_succ cut
      · obtain ⟨value', short'⟩ := varint_bounds value short
        rw [readVarint_more value short here, ih value' short' (Nat.lt_of_succ_lt_succ cut) (getElem?_of_drop here).2]

/-- The byte behind `j` others is there only for numbers that need it. -/
theorem le_of_lt_length (cut : j < (varintBytes fuel n).length) : 128 ^ j ≤ n ∨ j = 0 := by
  induction fuel generalizing n j with
  | zero => cases cut
  | succ fuel ih =>
    cases j with
    | zero => exact .inr rfl
    | succ j =>
      rw [varintBytes] at cut
      split_ifs at cut with last
      · cases Nat.lt_of_succ_lt_succ cut
      · refine .inl ?_
        rcases ih (Nat.lt_of_succ_lt_succ cut) with most | rfl
        · exact (Nat.le_div_iff_mul_le (by decide)).mp most
        · simpa using last

end Varint

section Field

variable {tail : List UInt8} {num : ℕ} {content : List UInt8} {f : ℕ × List UInt8}

theorem varint_encode (short : n < 2 ^ 64) (here : data.drop pos = encodeVarint n ++ tail) :
    varint data pos = .ok (n, pos + (encodeVarint n).length) := by
  have read : readVarint data (9 + 1) 0 0 pos = .ok (0 + n * 2 ^ 0, pos + (varintBytes (9 + 1) n).length) :=
    readVarint_bytes (lt_trans short (by decide)) (by decide) (by simpa using short) here
  simpa [varint, encodeVarint] using read

theorem varint_zero (short : n < 2 ^ 64) (cut : j < (encodeVarint n).length)
    (here : data.drop pos = (encodeVarint n).take j ++ 0 :: tail) :
    varint data pos = .ok (n % 128 ^ j, pos + j + 1) := by
  have read : readVarint data 10 0 0 pos = .ok (0 + n % 128 ^ j * 2 ^ 0, pos + j + 1) :=
    readVarint_zero (by decide) (by simpa using short) cut here
  simpa [varint] using read

theorem varint_end (short : n < 2 ^ 64) (cut : j < (encodeVarint n).length)
    (here : data.drop pos = (encodeVarint n).take j) : varint data pos = .error (.error .unexpectedEOF) :=
  readVarint_end (by decide) (by simpa using short) cut here

theorem lengthDelimited_of_varint {length : ℕ} (read : varint data pos = .ok (length, behind))
    (inside : behind + length ≤ data.length) (bound : data.length < 2 ^ 63) :
    lengthDelimited data pos = .ok ((data.drop behind).take length, behind + length) := by
  rw [lengthDelimited, read]
  change (if 2 ^ 63 ≤ length then _ else _) = _
  rw [if_neg (by omega), if_neg (by omega), if_neg (by omega)]

/-- The tag of a field of bytes, as `field` reads it. -/
theorem field_tag (number : 1 ≤ num ∧ num < 16) (kind : schema.kind num = some .bytes)
    (here : data.drop pos = ofNat (num * 8 + 2) :: tail) : field data schema message pos =
      (lengthDelimited data (pos + 1)).bind fun (b, behind) => (schema.setBytes num b message).map fun m =>
        (m, behind) := by
  have read : readVarint data (9 + 1) 0 0 pos = .ok (0 + (num * 8 + 2) * 2 ^ 0, pos + 1) :=
    readVarint_last (by omega) (by decide) (by omega) here
  have tag : varint data pos = .ok (num * 8 + 2, pos + 1) := by simpa [varint] using read
  have wire : (num * 8 + 2) % 8 = 2 := by omega
  have fieldNum : (num * 8 + 2) / 8 % 2 ^ 32 = num := by omega
  rw [field, tag]
  change (if (num * 8 + 2) % 8 = 4 then _ else _) = _
  rw [wire, fieldNum, if_neg (by decide), if_neg (by omega), value, kind]
  congr 1

/-- A zero is not a tag. -/
theorem field_zero (here : data.drop pos = 0 :: tail) :
    field data schema message pos = .error (.error .illegalTag) := by
  have read : readVarint data (9 + 1) 0 0 pos = .ok (0 + 0 * 2 ^ 0, pos + 1) :=
    readVarint_last (by omega) (by decide) (by omega) here
  have tag : varint data pos = .ok (0, pos + 1) := by simpa [varint] using read
  rw [field, tag]
  rfl

theorem length_encodeField (f : ℕ × List UInt8) :
    (encodeField f).length = 1 + (encodeVarint f.2.length).length + f.2.length := by
  rw [encodeField, length_cons, length_append]
  omega

theorem drop_append_left {front : List UInt8} (here : data.drop pos = front ++ tail) :
    data.drop (pos + front.length) = tail := by
  rw [← drop_drop, here, drop_left]

/-- A whole field. -/
theorem field_encode (number : 1 ≤ f.1 ∧ f.1 < 16) (kind : schema.kind f.1 = some .bytes)
    (bound : data.length < 2 ^ 63) (here : data.drop pos = encodeField f ++ tail) : field data schema message pos =
      (schema.setBytes f.1 f.2 message).map fun m => (m, pos + (encodeField f).length) := by
  have behind : data.drop (pos + 1) = encodeVarint f.2.length ++ (f.2 ++ tail) :=
    (getElem?_of_drop here).2.trans (append_assoc ..)
  have content := drop_append_left behind
  have room := congrArg length content
  have start := congrArg length here
  rw [length_drop, length_append, length_encodeField] at start
  have read := lengthDelimited_of_varint (varint_encode (by omega) behind) (by omega) bound
  rw [content, take_left] at read
  have total : pos + 1 + (encodeVarint f.2.length).length + f.2.length = pos + (encodeField f).length := by
    rw [length_encodeField]
    omega
  rw [field_tag number kind here, read, total]
  rfl

/-- A cut in the content leaves a field with zeros for the end of its content. -/
theorem zeroed_content (f : ℕ × List UInt8) (j : ℕ) :
    zeroed (1 + (encodeVarint f.2.length).length + j) (encodeField f) = encodeField (f.1, zeroed j f.2) := by
  have split : encodeField f = (ofNat (f.1 * 8 + 2) :: encodeVarint f.2.length) ++ f.2 := rfl
  rw [split, zeroed_append_right _ _ (by rw [length_cons]; omega), length_cons, encodeField, length_zeroed,
    cons_append]
  congr 4
  omega

/-- A cut in the length leaves the first of its bytes. -/
theorem zeroed_length (f : ℕ × List UInt8) (cut : j < (encodeVarint f.2.length).length) :
    zeroed (j + 1) (encodeField f) = ofNat (f.1 * 8 + 2) ::
      ((encodeVarint f.2.length).take j ++ 0 :: replicate ((encodeField f).length - (j + 2)) 0) := by
  have zeros : (encodeField f).length - (j + 1) = (encodeField f).length - (j + 2) + 1 := by
    rw [length_encodeField]
    omega
  rw [zeroed, zeros, replicate_succ]
  rw [encodeField, take_succ_cons, take_append_of_le_length cut.le, cons_append]

/-- A field that is cut in its length has zeros for its value, and if it was not empty, then zeros are behind it. -/
theorem field_zeroed_length (number : 1 ≤ f.1 ∧ f.1 < 16)
    (kind : schema.kind f.1 = some .bytes) (bound : data.length < 2 ^ 63) (cut : j < (encodeVarint f.2.length).length)
    (here : data.drop pos = zeroed (j + 1) (encodeField f) ++ tail) : ∃ l zeros, field data schema message pos =
        (schema.setBytes f.1 (replicate l 0) message).map (fun m => (m, pos + (encodeField f).length - zeros)) ∧
      zeros ≤ (encodeField f).length ∧
      data.drop (pos + (encodeField f).length - zeros) = replicate zeros 0 ++ tail ∧ (f.2 ≠ [] → 0 < zeros) := by
  have total := length_encodeField f
  have start := congrArg length here
  rw [length_drop, length_append, length_zeroed] at start
  rw [zeroed_length f cut] at here
  have behind : data.drop (pos + 1) = (encodeVarint f.2.length).take j ++ 0 ::
      (replicate ((encodeField f).length - (j + 2)) 0 ++ tail) := by
    rw [(getElem?_of_drop here).2]
    exact append_assoc ..
  have length := varint_zero (by omega) cut behind
  have least : f.2.length % 128 ^ j ≤ f.2.length := Nat.mod_le ..
  have content := drop_append_left behind
  rw [length_take_of_le cut.le] at content
  have read := lengthDelimited_of_varint length (by omega) bound
  generalize short : f.2.length % 128 ^ j = l at least length read
  have zeros : (encodeField f).length - (j + 2) = l + ((encodeField f).length - (j + 2 + l)) := by omega
  have filled := (getElem?_of_drop content).2
  rw [zeros, replicate_add, append_assoc] at filled
  rw [filled, take_left' (length_replicate ..)] at read
  have same : pos + 1 + j + 1 + l = pos + (encodeField f).length - ((encodeField f).length - (j + 2 + l)) := by omega
  refine ⟨l, (encodeField f).length - (j + 2 + l), ?_, by omega, ?_, fun nonempty => ?_⟩
  · rw [field_tag number kind here, read, same]
    rfl
  · rw [← same, ← drop_append_left filled, length_replicate]
  · have positive := length_pos_iff.mpr nonempty
    have less : l < f.2.length := by
      rcases le_of_lt_length cut with most | rfl
      · exact short ▸ lt_of_lt_of_le (Nat.mod_lt _ (Nat.pow_pos (by decide))) most
      · rwa [← short, Nat.pow_zero, Nat.mod_one]
    omega

end Field

section Fields

/-- What the fields do to a message, one after the other. -/
def setFields (schema : Schema σ) (fs : List (ℕ × List UInt8)) (message : σ) : Result σ :=
  fs.foldlM (fun m f => schema.setBytes f.1 f.2 m) message

/-- The numbers of the fields have tags of one byte, and the schema has fields of bytes under them. -/
def Fit (schema : Schema σ) (fs : List (ℕ × List UInt8)) : Prop :=
  ∀ f ∈ fs, (1 ≤ f.1 ∧ f.1 < 16) ∧ schema.kind f.1 = some .bytes

variable {fs front rest : List (ℕ × List UInt8)} {f : ℕ × List UInt8} {fuel : ℕ} {tail b : List UInt8}

theorem Fit.head (fit : Fit schema (f :: fs)) : (1 ≤ f.1 ∧ f.1 < 16) ∧ schema.kind f.1 = some .bytes :=
  fit f (.head _)

theorem Fit.of_cons (fit : Fit schema (f :: fs)) : Fit schema fs := fun g mem => fit g (.tail _ mem)

theorem Fit.last (fit : Fit schema (front ++ [f])) (b : List UInt8) : Fit schema (front ++ [(f.1, b)]) := by
  intro g mem
  rcases mem_append.mp mem with inside | inside
  · exact fit g (mem_append_left _ inside)
  · rw [mem_singleton.mp inside]
    exact fit f (mem_append_right _ (mem_singleton_self f))

theorem encodeFields_cons : encodeFields (f :: fs) = encodeField f ++ encodeFields fs := flatMap_cons

theorem encodeFields_singleton : encodeFields [f] = encodeField f := by rw [encodeFields, flatMap_singleton]

theorem encodeFields_append (gs : List (ℕ × List UInt8)) :
    encodeFields (fs ++ gs) = encodeFields fs ++ encodeFields gs :=
  flatMap_append

theorem setFields_cons_eq_ok : setFields schema (f :: fs) message = .ok m ↔
    ∃ m', schema.setBytes f.1 f.2 message = .ok m' ∧ setFields schema fs m' = .ok m := by
  exact Proc.except_bind_eq_ok

/-- A step of `fields` that reads a field. -/
theorem fields_of_field (inside : pos < data.length)
    (read : field data schema message pos = (schema.setBytes f.1 b message).map fun m => (m, behind)) :
    fields data schema (fuel + 1) message pos =
      (schema.setBytes f.1 b message).bind fun m => fields data schema fuel m behind := by
  rw [fields, if_neg (by omega), read]
  cases schema.setBytes f.1 b message <;> rfl

theorem fields_zero (here : data.drop pos = 0 :: tail) :
    fields data schema (fuel + 1) message pos = .error (.error .illegalTag) := by
  have inside : pos < data.length := by
    have := congrArg length here
    rw [length_drop, length_cons] at this
    omega
  rw [fields, if_neg (by omega), field_zero here]
  rfl

/-- Whole fields in front. -/
theorem fields_append (fit : Fit schema fs) (bound : data.length < 2 ^ 63)
    (here : data.drop pos = encodeFields fs ++ tail) :
    fields data schema (fuel + fs.length) message pos =
      (setFields schema fs message).bind fun m => fields data schema fuel m (pos + (encodeFields fs).length) := by
  induction fs generalizing message pos with
  | nil => rfl
  | cons f fs ih =>
    rw [encodeFields_cons, append_assoc] at here
    have length := congrArg length here
    rw [length_drop, length_append, length_encodeField] at length
    rw [length_cons, ← Nat.add_assoc, fields_of_field (by omega) (field_encode fit.head.1 fit.head.2 bound here),
      setFields, foldlM_cons]
    cases set : schema.setBytes f.1 f.2 message with
    | error fault => rfl
    | ok m =>
      change fields _ _ _ m _ = _
      rw [ih fit.of_cons (drop_append_left here), encodeFields_cons, length_append, Nat.add_assoc]
      rfl

theorem length_le_encodeFields (fs : List (ℕ × List UInt8)) : fs.length ≤ (encodeFields fs).length := by
  induction fs with
  | nil => exact Nat.le_refl _
  | cons f fs ih =>
    rw [encodeFields_cons, length_append, length_cons, length_encodeField]
    omega

theorem unmarshal_append (message : σ) (tail : List UInt8) (fit : Fit schema fs)
    (bound : (encodeFields fs ++ tail).length < 2 ^ 63) :
    ∃ fuel, tail.length ≤ fuel ∧ unmarshal (encodeFields fs ++ tail) schema message = (setFields schema fs message).bind
      fun m => fields (encodeFields fs ++ tail) schema (fuel + 1) m (encodeFields fs).length := by
  obtain ⟨fuel, enough⟩ := Nat.exists_eq_add_of_le' (length_le_encodeFields fs)
  refine ⟨fuel + tail.length, by omega, ?_⟩
  have length : (encodeFields fs ++ tail).length + 1 = fuel + tail.length + 1 + fs.length := by
    rw [length_append]
    omega
  rw [unmarshal, length, fields_append fit bound drop_zero, Nat.zero_add]

/-- What is decoded from encoded fields. -/
theorem unmarshal_encodeFields (fit : Fit schema fs) (bound : (encodeFields fs).length < 2 ^ 63) :
    unmarshal (encodeFields fs) schema message = setFields schema fs message := by
  have read := unmarshal_append message [] fit (by rwa [append_nil])
  simp only [append_nil] at read
  obtain ⟨fuel, -, read⟩ := read
  rw [read]
  cases setFields schema fs message with
  | error fault => rfl
  | ok m => exact if_pos (Nat.le_refl _)

/-- The result is an error of the decoder. -/
def Fails {α : Type} (r : Result α) : Prop := ∃ e, r = .error (.error e)

/-- The result is a value or an error of the decoder. -/
def Orderly {α : Type} (r : Result α) : Prop := (∃ m, r = .ok m) ∨ Fails r

theorem Orderly.bind {α β : Type} {r : Result α} {next : α → Result β} (orderly : Orderly r)
    (fails : ∀ m, Fails (next m)) : Fails (r.bind next) := by
  rcases orderly with ⟨m, rfl⟩ | ⟨e, rfl⟩
  · exact fails m
  · exact ⟨e, rfl⟩

/-- No field panics, whether its content is whole, ends in zeros or is zeros. -/
def Tame (schema : Schema σ) (fs : List (ℕ × List UInt8)) : Prop :=
  ∀ f ∈ fs, ∀ i m, Orderly (schema.setBytes f.1 (zeroed i f.2) m) ∧ Orderly (schema.setBytes f.1 (List.replicate i 0) m)

theorem Tame.setFields (tame : Tame schema fs) : Orderly (setFields schema fs message) := by
  induction fs generalizing message with
  | nil => exact .inl ⟨message, rfl⟩
  | cons f fs ih =>
    have first := (tame f mem_cons_self f.2.length message).1
    have whole : zeroed f.2.length f.2 = f.2 := by simp [zeroed]
    rw [whole] at first
    rw [Wire.setFields, foldlM_cons]
    rcases first with ⟨m, set⟩ | ⟨e, set⟩
    · rw [set]
      exact ih fun g mem => tame g (.tail _ mem)
    · rw [set]
      exact .inr ⟨e, rfl⟩

theorem fields_zeros (positive : 0 < zeros) (here : data.drop pos = replicate zeros 0) :
    Fails (fields data schema (fuel + 1) message pos) := by
  obtain ⟨zeros, rfl⟩ := Nat.exists_eq_add_of_lt positive
  exact ⟨_, fields_zero here⟩

/-- The field where a cut is. -/
theorem exists_cut (cut : k < (encodeFields fs).length) : ∃ front g rest, fs = front ++ g :: rest ∧
    ∃ j < (encodeField g).length, k = (encodeFields front).length + j := by
  induction fs generalizing k with
  | nil => cases cut
  | cons f fs ih =>
    rw [encodeFields_cons, length_append] at cut
    by_cases here : k < (encodeField f).length
    · exact ⟨[], f, fs, rfl, k, here, (Nat.zero_add k).symm⟩
    · obtain ⟨front, g, rest, rfl, j, inside, position⟩ := ih (k := k - (encodeField f).length) (by omega)
      refine ⟨f :: front, g, rest, rfl, j, inside, ?_⟩
      rw [encodeFields_cons, length_append]
      omega

theorem zeroed_encodeFields (inside : j ≤ (encodeField f).length) :
    zeroed ((encodeFields front).length + j) (encodeFields (front ++ f :: rest)) =
      encodeFields front ++ (zeroed j (encodeField f) ++ replicate (encodeFields rest).length 0) := by
  rw [encodeFields_append, zeroed_append_right _ _ (Nat.le_add_right ..), Nat.add_sub_cancel_left, encodeFields_cons,
    zeroed_append_left _ _ inside]

/-- A cut in the content of the last field leaves fields, of which the last ends in zeros. -/
theorem zeroed_last (i : ℕ) (inside : i ≤ f.2.length) :
    zeroed ((encodeFields front).length + (1 + (encodeVarint f.2.length).length + i)) (encodeFields (front ++ [f])) =
      encodeFields (front ++ [(f.1, zeroed i f.2)]) := by
  rw [zeroed_encodeFields (by rw [length_encodeField]; omega), zeroed_content, encodeFields_append,
    encodeFields_singleton]
  exact congrArg (_ ++ ·) (append_nil _)

/-- One field and zeros behind it. -/
theorem fields_then_zeros (inside : pos < data.length)
    (read : field data schema message pos = (schema.setBytes f.1 b message).map fun m => (m, behind))
    (orderly : Orderly (schema.setBytes f.1 b message)) (positive : 0 < zeros)
    (here : data.drop behind = replicate zeros 0) : Fails (fields data schema (fuel + 2) message pos) := by
  rw [fields_of_field inside read]
  exact orderly.bind fun m => fields_zeros positive here

/-- A field that is cut, with zeros up to the end. -/
theorem fields_zeroed (number : 1 ≤ f.1 ∧ f.1 < 16) (kind : schema.kind f.1 = some .bytes)
    (tame : Tame schema [f]) (bound : data.length < 2 ^ 63) (cut : j < (encodeField f).length)
    (inner : 0 < zeros ∨ j + f.2.length < (encodeField f).length ∧ f.2 ≠ [])
    (here : data.drop pos = zeroed j (encodeField f) ++ replicate zeros 0) :
    Fails (fields data schema (fuel + 2) message pos) := by
  have total := length_encodeField f
  have inside : pos < data.length := by
    have := congrArg length here
    rw [length_drop, length_append, length_zeroed] at this
    omega
  cases j with
  | zero =>
    rw [zeroed_zero, replicate_append_replicate] at here
    exact fields_zeros (by omega) here
  | succ j =>
    by_cases length : j < (encodeVarint f.2.length).length
    · obtain ⟨l, more, read, -, behind, nonempty⟩ := field_zeroed_length number kind bound length here
      rw [replicate_append_replicate] at behind
      refine fields_then_zeros inside read (tame f (mem_singleton_self f) l message).2 ?_ behind
      rcases inner with positive | ⟨-, content⟩
      · omega
      · exact Nat.add_pos_left (nonempty content) zeros
    · -- the cut is in the content, so that there must be zeros for another field
      obtain ⟨i, rfl⟩ := Nat.exists_eq_add_of_le (not_lt.mp length)
      rw [Nat.add_comm (_ + i), ← Nat.add_assoc, zeroed_content] at here
      refine fields_then_zeros inside (field_encode (f := (f.1, zeroed i f.2)) number kind bound here)
        (tame f (mem_singleton_self f) i message).1 ?_ (drop_append_left here)
      omega

/-- A cut that is not in the content of the last field is an error. -/
theorem unmarshal_zeroed (fit : Fit schema (front ++ f :: rest))
    (tame : Tame schema (front ++ f :: rest)) (bound : (encodeFields (front ++ f :: rest)).length < 2 ^ 63)
    (cut : j < (encodeField f).length) (inner : rest ≠ [] ∨ j + f.2.length < (encodeField f).length ∧ f.2 ≠ []) :
    Fails (unmarshal (zeroed ((encodeFields front).length + j) (encodeFields (front ++ f :: rest))) schema
      message) := by
  have mem : f ∈ front ++ f :: rest := mem_append_right _ (.head _)
  obtain ⟨number, kind⟩ := fit f mem
  rw [← length_zeroed _ ((encodeFields front).length + j)] at bound
  rw [zeroed_encodeFields cut.le] at bound ⊢
  obtain ⟨fuel, enough, read⟩ := unmarshal_append message
    (zeroed j (encodeField f) ++ replicate (encodeFields rest).length 0)
    (fun g inside => fit g (mem_append_left _ inside)) bound
  rw [read]
  refine Orderly.bind (Tame.setFields fun g inside => tame g (mem_append_left _ inside)) fun m => ?_
  obtain ⟨fuel, rfl⟩ : ∃ n, fuel = n + 1 := by
    rw [length_append, length_zeroed] at enough
    exact ⟨fuel - 1, by omega⟩
  refine fields_zeroed number kind (fun g inside => ?_) bound cut (inner.imp_left fun more => ?_) drop_left
  · exact mem_singleton.mp inside ▸ tame f mem
  · exact lt_of_lt_of_le (length_pos_iff.mpr more) (length_le_encodeFields rest)

/-- Zeros are no fields. -/
theorem unmarshal_zeros (zeros : ℕ) (message : σ) : Orderly (unmarshal (replicate zeros 0) schema message) := by
  cases zeros with
  | zero => exact .inl ⟨message, rfl⟩
  | succ zeros => exact .inr (fields_zeros (Nat.succ_pos zeros) drop_zero)

theorem setFields_total (total : ∀ num b m, ∃ m', schema.setBytes num b m = .ok m') (fs : List (ℕ × List UInt8))
    (message : σ) :
    ∃ m, setFields schema fs message = .ok m := by
  induction fs generalizing message with
  | nil => exact ⟨message, rfl⟩
  | cons f fs ih =>
    obtain ⟨m, set⟩ := total f.1 f.2 message
    obtain ⟨m', rest⟩ := ih m
    exact ⟨m', setFields_cons_eq_ok.mpr ⟨m, set, rest⟩⟩

/-- Where every content is taken, cut fields are a value or an error. -/
theorem unmarshal_zeroed_total (total : ∀ num b m, ∃ m', schema.setBytes num b m = .ok m') (fit : Fit schema fs)
    (nonempty : ∀ f ∈ fs, f.2 ≠ []) (bound : (encodeFields fs).length < 2 ^ 63) (message : σ) :
    Orderly (unmarshal (zeroed k (encodeFields fs)) schema message) := by
  by_cases cut : k < (encodeFields fs).length
  · obtain ⟨front, f, rest, rfl, j, inside, rfl⟩ := exists_cut cut
    by_cases inner : rest ≠ [] ∨ j + f.2.length < (encodeField f).length ∧ f.2 ≠ []
    · exact .inr (unmarshal_zeroed fit (fun g _ i m => ⟨.inl (total ..), .inl (total ..)⟩) bound inside inner)
    · have content := nonempty f (mem_append_right _ (.head _))
      have length := length_encodeField f
      obtain ⟨rfl, outside⟩ : rest = [] ∧ (encodeField f).length ≤ j + f.2.length := by grind
      obtain ⟨i, rfl⟩ : ∃ i, j = 1 + (encodeVarint f.2.length).length + i := Nat.exists_eq_add_of_le (by omega)
      rw [← length_zeroed _ ((encodeFields front).length + (1 + (encodeVarint f.2.length).length + i))] at bound
      rw [zeroed_last i (by omega)] at bound ⊢
      rw [unmarshal_encodeFields (fit.last _) bound]
      exact .inl (setFields_total total ..)
  · have whole : zeroed k (encodeFields fs) = encodeFields fs := by
      rw [zeroed, take_of_length_le (by omega), Nat.sub_eq_zero_of_le (by omega), replicate_zero,
        append_nil]
    rw [whole, unmarshal_encodeFields fit bound]
    exact .inl (setFields_total total ..)

/-- Data that end behind a tag, but not behind its field, are an error. -/
theorem field_take (number : 1 ≤ f.1 ∧ f.1 < 16) (kind : schema.kind f.1 = some .bytes)
    (bound : pos + (encodeField f).length < 2 ^ 63) (positive : 0 < j) (cut : j < (encodeField f).length)
    (here : data.drop pos = (encodeField f).take j) :
    field data schema message pos = .error (.error .unexpectedEOF) := by
  have total := length_encodeField f
  obtain ⟨i, rfl⟩ : ∃ i, j = i + 1 := ⟨j - 1, by omega⟩
  rw [encodeField, take_succ_cons] at here
  have behind := (getElem?_of_drop here).2
  suffices read : lengthDelimited data (pos + 1) = .error (.error .unexpectedEOF) by
    rw [field_tag number kind here, read]
    rfl
  rw [lengthDelimited]
  by_cases length : i < (encodeVarint f.2.length).length
  · rw [take_append_of_le_length length.le] at behind
    rw [varint_end (by omega) length behind]
    rfl
  · rw [take_append, take_of_length_le (not_lt.mp length)] at behind
    have short := congrArg List.length (drop_append_left behind)
    rw [length_drop, length_take] at short
    rw [varint_encode (by omega) behind]
    change (if 2 ^ 63 ≤ f.2.length then _ else _) = _
    rw [if_neg (by omega), if_neg (by omega), if_pos (by omega)]

/-- If the data end before the last field does and no error is found, then they end between two fields. -/
theorem unmarshal_take (fit : Fit schema fs) (bound : (encodeFields fs).length < 2 ^ 63)
    (cut : k < (encodeFields fs).length) (ran : unmarshal ((encodeFields fs).take k) schema message = .ok m) :
    ∃ front g rest, fs = front ++ g :: rest ∧ setFields schema front message = .ok m := by
  obtain ⟨front, g, rest, rfl, j, inside, rfl⟩ := exists_cut cut
  refine ⟨front, g, rest, rfl, ?_⟩
  rw [encodeFields_append, length_append, encodeFields_cons, length_append] at bound
  rw [encodeFields_append, take_length_add_append, encodeFields_cons,
    take_append_of_le_length inside.le] at ran
  obtain ⟨number, kind⟩ := fit g (mem_append_right _ (.head _))
  have short : (encodeFields front ++ (encodeField g).take j).length < 2 ^ 63 := by
    rw [length_append, length_take]
    omega
  obtain ⟨fuel, -, read⟩ := unmarshal_append message _ (fun f mem => fit f (mem_append_left _ mem)) short
  rw [read] at ran
  obtain ⟨m', set, ran⟩ := Proc.except_bind_eq_ok.mp ran
  rw [fields] at ran
  split_ifs at ran with end_
  · rw [set, Except.ok.inj ran]
  · have positive : 0 < j := by
      rw [length_append, length_take] at end_
      omega
    rw [field_take number kind (by omega) positive inside drop_left] at ran
    cases ran

end Fields

end Wire
