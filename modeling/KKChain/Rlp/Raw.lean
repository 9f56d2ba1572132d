import KKChain.Rlp.Item

/-! # Splitting raw encodings

`Split` reads the header of the first value and returns its content and what follows it. Reading
back an encoded item gives the content that was encoded, so distinct items have distinct encodings.
-/

namespace KKChain.Rlp

open List BigEndian UInt8

inductive Kind where
  | byte
  | string
  | list
deriving DecidableEq, Repr

/-- The errors of the raw readers. -/
inductive RawError where
  | unexpectedEOF
  | canonSize
  | valueTooLarge
  | expectedString
  | expectedList
deriving DecidableEq, Repr

def readSize (b : Bytes) (slen : ℕ) : Except RawError ℕ :=
  if b.length < slen then .error .unexpectedEOF
  else
    let s := BigEndian.toNat (b.take slen)
    -- sizes below 56 need no size bytes, and size bytes have no leading zero
    if s < 56 ∨ b.headD 0 = 0 then .error .canonSize else .ok s

/-- The kind of the first value with its tag and content sizes, before the check against the input. -/
def readTag (tag : ℕ) (tail : Bytes) : Except RawError (Kind × ℕ × ℕ) :=
  if tag < 0x80 then .ok (.byte, 0, 1)
  else if tag < 0xB8 then
    -- strings that should have been single bytes
    if tag - 0x80 = 1 ∧ 0 < tail.length ∧ tail.headD 0 < 128 then .error .canonSize
    else .ok (.string, 1, tag - 0x80)
  else if tag < 0xC0 then
    (readSize tail (tag - 0xB7)).map fun size => (.string, tag - 0xB7 + 1, size)
  else if tag < 0xF8 then .ok (.list, 1, tag - 0xC0)
  else (readSize tail (tag - 0xF7)).map fun size => (.list, tag - 0xF7 + 1, size)

def readKind : Bytes → Except RawError (Kind × ℕ × ℕ)
  | [] => .error .unexpectedEOF
  | b :: tail =>
    match readTag b.toNat tail with
    | .error e => .error e
    | .ok (k, tagsize, contentsize) =>
      if contentsize > (b :: tail).length - tagsize then .error .valueTooLarge
      else .ok (k, tagsize, contentsize)

def split (b : Bytes) : Except RawError (Kind × Bytes × Bytes) :=
  (readKind b).map fun (k, ts, cs) => (k, (b.take (ts + cs)).drop ts, b.drop (ts + cs))

def splitString (b : Bytes) : Except RawError (Bytes × Bytes) :=
  match split b with
  | .error e => .error e
  | .ok (k, content, rest) => if k = .list then .error .expectedString else .ok (content, rest)

def splitList (b : Bytes) : Except RawError (Bytes × Bytes) :=
  match split b with
  | .error e => .error e
  | .ok (k, content, rest) => if k = .list then .ok (content, rest) else .error .expectedList

/-- The loop of `CountValues`. Every value takes at least one byte. -/
def countFrom : ℕ → Bytes → Except RawError ℕ
  | 0, _ => .ok 0
  | fuel + 1, b =>
    if b = [] then .ok 0
    else
      match split b with
      | .error e => .error e
      | .ok (_, _, rest) => (countFrom fuel rest).map (· + 1)

/-- `CountValues`, where its error is discarded: then the count is zero. -/
def countValues (b : Bytes) : ℕ :=
  match countFrom b.length b with
  | .ok n => n
  | .error _ => 0

namespace Item

/-- The bytes behind an item's header. -/
def content : Item → Bytes
  | .str b => b
  | .list items => encodeAll items

/-- The kind `Split` reports for an item. -/
def kind : Item → Kind
  | .str b => if b.length = 1 ∧ b.headD 0 ≤ 0x7F then .byte else .string
  | .list _ => .list

theorem length_content_le (item : Item) : item.content.length ≤ item.encode.length := by
  cases item with
  | str b =>
    simp only [content, encode, encodeStr]
    split_ifs <;> simp
  | list items => simp [content, encode]

end Item

private theorem readSize_putint {size : ℕ} (large : 56 ≤ size) (bound : size < 2 ^ 64) (rest : Bytes) :
    readSize (putint size ++ rest) (putint size).length = .ok size := by
  rw [putint_eq_minimal (by omega) bound]
  obtain shape | ⟨b, tail, shape⟩ : minimal size = [] ∨
      ∃ b tail, minimal size = b :: tail := by
    cases minimal size <;> simp
  · have := toNat_minimal size
    rw [shape, toNat_nil] at this
    omega
  · have nonzero := minimal_head_ne_zero shape
    have denotes := toNat_minimal size
    rw [shape] at denotes
    simp [readSize, shape, denotes, nonzero, large]

private theorem length_putint_bounds (size : ℕ) : 1 ≤ (putint size).length ∧ (putint size).length ≤ 8 := by
  rw [length_putint]
  unfold intsize
  split_ifs <;> omega

private theorem split_of_readTag {b : UInt8} {tail content rest : Bytes} {k : Kind} (header : Bytes)
    (layout : b :: tail = header ++ content ++ rest)
    (tag : readTag b.toNat tail = .ok (k, header.length, content.length)) :
    split (b :: tail) = .ok (k, content, rest) := by
  have fits : ¬ content.length > (b :: tail).length - header.length := by
    rw [layout]
    simp
  simp only [split, readKind, tag, fits, ↓reduceIte, Except.map]
  rw [layout, append_assoc, ← append_assoc header, ← length_append,
    take_left, drop_left, drop_left]

private theorem split_string {b rest : Bytes} (notByte : ¬ (b.length = 1 ∧ b.headD 0 ≤ 0x7F))
    (bound : b.length < 2 ^ 64) :
    split (puthead 0x80 0xB7 b.length ++ b ++ rest) = .ok (.string, b, rest) := by
  unfold puthead
  split_ifs with small
  · have tag : ((0x80 : UInt8) + ofNat b.length).toNat = 0x80 + b.length := by
      simp [UInt8.toNat_add]; omega
    apply split_of_readTag [_] rfl
    rw [tag, readTag, if_neg (by omega), if_pos (by omega), if_neg]
    · simp
    · rintro ⟨one, -, low⟩
      have one : b.length = 1 := by omega
      obtain ⟨x, rfl⟩ := length_eq_one_iff.mp one
      apply notByte
      simp [lt_iff_toNat_lt, le_iff_toNat_le] at low ⊢
      omega
  · obtain ⟨low, high⟩ := length_putint_bounds b.length
    have tag : ((0xB7 : UInt8) + ofNat (putint b.length).length).toNat =
        0xB7 + (putint b.length).length := by
      simp [UInt8.toNat_add]; omega
    rw [cons_append, cons_append, append_assoc]
    apply split_of_readTag (_ :: putint b.length) (by rw [cons_append, cons_append, append_assoc])
    rw [tag, readTag, if_neg (by omega), if_neg (by omega), if_pos (by omega), Nat.add_sub_cancel_left,
      readSize_putint (by omega) bound]
    rfl

private theorem split_list {b rest : Bytes} (bound : b.length < 2 ^ 64) :
    split (puthead 0xC0 0xF7 b.length ++ b ++ rest) = .ok (.list, b, rest) := by
  unfold puthead
  split_ifs with small
  · have tag : ((0xC0 : UInt8) + ofNat b.length).toNat = 0xC0 + b.length := by
      simp [UInt8.toNat_add]; omega
    apply split_of_readTag [_] rfl
    rw [tag, readTag, if_neg (by omega), if_neg (by omega), if_neg (by omega), if_pos (by omega)]
    simp
  · obtain ⟨low, high⟩ := length_putint_bounds b.length
    have tag : ((0xF7 : UInt8) + ofNat (putint b.length).length).toNat =
        0xF7 + (putint b.length).length := by
      simp [UInt8.toNat_add]; omega
    rw [cons_append, cons_append, append_assoc]
    apply split_of_readTag (_ :: putint b.length) (by rw [cons_append, cons_append, append_assoc])
    rw [tag, readTag, if_neg (by omega), if_neg (by omega), if_neg (by omega), if_neg (by omega),
      Nat.add_sub_cancel_left, readSize_putint (by omega) bound]
    rfl

/-- Splitting an encoded item with anything behind it returns the item's content. -/
theorem split_encode (item : Item) (rest : Bytes) (bound : item.content.length < 2 ^ 64) :
    split (item.encode ++ rest) = .ok (item.kind, item.content, rest) := by
  cases item with
  | str b =>
    simp only [Item.encode, encodeStr, Item.kind, Item.content]
    split_ifs with byte
    · obtain ⟨x, rfl⟩ := length_eq_one_iff.mp byte.1
      have low : x.toNat < 0x80 := by
        have := le_iff_toNat_le.mp byte.2
        simp at this
        omega
      exact split_of_readTag [] rfl (by rw [readTag, if_pos low]; rfl)
    · exact split_string byte bound
  | list items => exact split_list bound

namespace Item

theorem encode_ne_nil (item : Item) : item.encode ≠ [] := by
  have header : ∀ smalltag largetag size, puthead smalltag largetag size ≠ [] := by
    intro smalltag largetag size
    unfold puthead
    split_ifs <;> simp
  cases item with
  | str b =>
    simp only [encode, encodeStr]
    split_ifs with byte
    · exact ne_nil_of_length_pos (by omega)
    · simp [header]
  | list items => simp [encode, header]

private theorem headsize_le (size : ℕ) : headsize size ≤ 9 := by
  unfold headsize intsize
  split_ifs <;> omega

theorem length_encode_str_le (b : Bytes) : (Item.str b).encode.length ≤ b.length + 9 := by
  have := headsize_le b.length
  simp only [encode, encodeStr]
  split_ifs
  · omega
  · simp
    omega

variable {items : List Item} {bound : ℕ}

theorem length_encodeAll_le (each : ∀ item ∈ items, item.encode.length ≤ bound) :
    (encodeAll items).length ≤ items.length * bound := by
  induction items with
  | nil => simp [encodeAll]
  | cons item items ih =>
    have first := each item (by simp)
    have rest := ih fun item mem => each item (by simp [mem])
    simp only [encodeAll, length_append, length_cons, Nat.add_mul, Nat.one_mul]
    omega

theorem length_encode_list_le (each : ∀ item ∈ items, item.encode.length ≤ bound) :
    (Item.list items).encode.length ≤ items.length * bound + 9 := by
  have content := length_encodeAll_le each
  have header := headsize_le (encodeAll items).length
  simp only [encode, length_append, length_puthead]
  omega

mutual

/-- No encoding is a prefix of another item's encoding. -/
theorem encode_append_inj : ∀ {first second : Item} {rest rest' : Bytes},
    first.encode.length < 2 ^ 64 → second.encode.length < 2 ^ 64 →
    first.encode ++ rest = second.encode ++ rest' → first = second ∧ rest = rest'
  | first, second, rest, rest', firstFits, secondFits, same => by
    have left := split_encode first rest ((length_content_le first).trans_lt firstFits)
    have right := split_encode second rest' ((length_content_le second).trans_lt secondFits)
    rw [same, right] at left
    simp only [Except.ok.injEq, Prod.mk.injEq] at left
    obtain ⟨sameKind, sameContent, sameRest⟩ := left
    refine ⟨?_, sameRest.symm⟩
    match first, second with
    | .str b, .str c => exact congrArg Item.str sameContent.symm
    | .str b, .list items =>
      simp only [kind] at sameKind
      split_ifs at sameKind
    | .list items, .str b =>
      simp only [kind] at sameKind
      split_ifs at sameKind
    | .list items, .list items' =>
      exact congrArg Item.list (encodeAll_inj ((length_content_le _).trans_lt firstFits)
        ((length_content_le _).trans_lt secondFits) sameContent.symm)

theorem encodeAll_inj : ∀ {first second : List Item},
    (encodeAll first).length < 2 ^ 64 → (encodeAll second).length < 2 ^ 64 →
    encodeAll first = encodeAll second → first = second
  | [], [], _, _, _ => rfl
  | [], item :: items, _, _, same => by
    simp [encodeAll, encode_ne_nil] at same
  | item :: items, [], _, _, same => by
    simp [encodeAll, encode_ne_nil] at same
  | item :: items, item' :: items', firstFits, secondFits, same => by
    simp only [encodeAll, length_append] at firstFits secondFits same
    obtain ⟨rfl, sameRest⟩ := encode_append_inj (by omega) (by omega) same
    rw [encodeAll_inj (by omega) (by omega) sameRest]

end

/-- Distinct items have distinct encodings. -/
theorem encode_inj {first second : Item} (firstFits : first.encode.length < 2 ^ 64)
    (secondFits : second.encode.length < 2 ^ 64) (same : first.encode = second.encode) :
    first = second := by
  have bare : first.encode ++ [] = second.encode ++ [] := by rw [same]
  exact (encode_append_inj firstFits secondFits bare).1

theorem encodeAll_append (first second : List Item) :
    encodeAll (first ++ second) = encodeAll first ++ encodeAll second := by
  induction first with
  | nil => rfl
  | cons item first ih => simp [encodeAll, ih]

theorem length_encode_le {item : Item} (mem : item ∈ items) : item.encode.length ≤ (encodeAll items).length := by
  obtain ⟨front, back, rfl⟩ := append_of_mem mem
  simp only [encodeAll_append, encodeAll, length_append]
  omega

theorem length_encodeAll_lt (items : List Item) : (encodeAll items).length < (Item.list items).encode.length := by
  have header := length_pos_of_ne_nil (encode_ne_nil (.list []))
  simp only [encode, length_append, length_puthead, headsize]
  split_ifs <;> omega

end Item

section Reading

variable {items : List Item} {rest b : Bytes}

theorem splitString_encode (rest : Bytes) (bound : b.length < 2 ^ 64) :
    splitString ((Item.str b).encode ++ rest) = .ok (b, rest) := by
  have string : (Item.str b).kind ≠ .list := by
    simp only [Item.kind]
    split_ifs <;> simp
  rw [splitString, split_encode (.str b) rest bound]
  exact if_neg string

theorem splitList_encode (rest : Bytes) (bound : (Item.encodeAll items).length < 2 ^ 64) :
    splitList ((Item.list items).encode ++ rest) = .ok (Item.encodeAll items, rest) := by
  rw [splitList, split_encode (.list items) rest bound]
  rfl

theorem countFrom_encodeAll {fuel : ℕ} (enough : (Item.encodeAll items).length ≤ fuel)
    (bound : (Item.encodeAll items).length < 2 ^ 64) :
    countFrom fuel (Item.encodeAll items) = .ok items.length := by
  induction items generalizing fuel with
  | nil => cases fuel <;> simp [countFrom, Item.encodeAll]
  | cons item items ih =>
    have nonempty := length_pos_of_ne_nil item.encode_ne_nil
    have content := item.length_content_le
    simp only [Item.encodeAll, length_append] at enough bound
    obtain ⟨fuel, rfl⟩ : ∃ k, fuel = k + 1 := ⟨fuel - 1, by omega⟩
    rw [countFrom, if_neg (by simp [Item.encodeAll, item.encode_ne_nil]), Item.encodeAll,
      split_encode item _ (by omega)]
    have rest : countFrom fuel (Item.encodeAll items) = .ok items.length := ih (by omega) (by omega)
    simp only [rest]
    rfl

/-- `CountValues` counts the items of a list. -/
theorem countValues_encodeAll (bound : (Item.encodeAll items).length < 2 ^ 64) :
    countValues (Item.encodeAll items) = items.length := by
  rw [countValues, countFrom_encodeAll le_rfl bound]

end Reading

section Encoder

variable {v v' : Value} {vs : List Value} {b b' rest rest' : Bytes}

theorem encodeToBytes_eq_ok (ran : encodeToBytes v = some (.ok b)) :
    ∃ item, v.item = .ok item ∧ b = item.encode ∧ b.length < 2 ^ 64 := by
  rw [encodeToBytes_eq] at ran
  cases shape : v.item with
  | error e => simp [shape] at ran
  | ok item =>
    simp only [shape] at ran
    split_ifs at ran with fits
    cases ran
    exact ⟨item, rfl, rfl, fits.trans_lt (by decide)⟩

/-- The encoding of a value shows where it ends, and no other tree of strings and lists has it. -/
theorem encoder_self_delimiting (ran : encodeToBytes v = some (.ok b)) (ran' : encodeToBytes v' = some (.ok b'))
    (same : b ++ rest = b' ++ rest') : v.item = v'.item ∧ rest = rest' := by
  obtain ⟨item, shape, rfl, fits⟩ := encodeToBytes_eq_ok ran
  obtain ⟨item', shape', rfl, fits'⟩ := encodeToBytes_eq_ok ran'
  obtain ⟨rfl, after⟩ := Item.encode_append_inj fits fits' same
  exact ⟨shape.trans shape'.symm, after⟩

theorem encoder_self_delimiting_seven : Value.item (.bytes [7]) = Value.item (.uint 7) ∧ ([1] : Bytes) = [1] :=
  encoder_self_delimiting (by rfl : encodeToBytes (.bytes [7]) = some (.ok [7]))
    (by rfl : encodeToBytes (.uint 7) = _) rfl

theorem length_items {items : List Item} (shape : Value.items vs = .ok items) : items.length = vs.length := by
  induction vs generalizing items with
  | nil => cases shape; rfl
  | cons v vs ih =>
    rw [Value.items_cons] at shape
    cases first : v.item with
    | error e => simp [first] at shape
    | ok item =>
      cases others : Value.items vs with
      | error e => simp [first, others, Except.map] at shape
      | ok _ =>
        simp only [first, others] at shape
        cases shape
        simp [ih others]

/-- `SplitList` gives the content of a list that the encoder wrote, and `CountValues` counts its elements. -/
theorem encoder_read_back (ran : encodeToBytes (.list vs) = some (.ok b)) (rest : Bytes) :
    ∃ content, splitList (b ++ rest) = .ok (content, rest) ∧ countValues content = vs.length := by
  obtain ⟨item, shape, rfl, fits⟩ := encodeToBytes_eq_ok ran
  rw [Value.item_list] at shape
  cases elems : Value.items vs with
  | error e => simp [elems, Except.map] at shape
  | ok items =>
    rw [elems] at shape
    cases shape
    have bound := (Item.length_encodeAll_lt items).trans fits
    exact ⟨_, splitList_encode rest bound, (countValues_encodeAll bound).trans (length_items elems)⟩

theorem encoder_read_back_one : ∃ content, splitList [0xC1, 7] = .ok (content, []) ∧ countValues content = 1 :=
  encoder_read_back (by rfl : encodeToBytes (.list [.uint 7]) = some (.ok [0xC1, 7])) []

end Encoder

end KKChain.Rlp
