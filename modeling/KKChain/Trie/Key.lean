import KKChain.Common

/-! # Trie keys

Keys travel through the trie as nibbles closed by the terminator 16 and are stored in compact form:
a flag nibble for the terminator and the parity, then two nibbles a byte. No terminated key is a
proper prefix of another, which is what makes a value node the end of every path to it.
-/

namespace KKChain.Trie

open List

/-- A hex digit, or the terminator 16. -/
abbrev Nibble := Fin 17

instance nibbleNeZero : NeZero 17 := ⟨by decide⟩

/-- Keys in hex encoding. -/
abbrev Key := List Nibble

/-- The key ends in a terminator and has no other. -/
def Terminated : Key → Prop
  | [] => False
  | x :: key => if x = 16 then key = [] else Terminated key

/-- A key of hex digits only, as extensions have them. -/
def Digits (key : Key) : Prop := ∀ x ∈ key, x ≠ 16

theorem not_terminated_nil : ¬ Terminated [] := id

theorem terminated_cons {x : Nibble} {key : Key} :
    Terminated (x :: key) ↔ (x = 16 ∧ key = []) ∨ (x ≠ 16 ∧ Terminated key) := by
  change (if x = 16 then key = [] else Terminated key) ↔ _
  split_ifs with term <;> simp [term]

theorem terminated_cons_of_ne {x : Nibble} {key : Key} (digit : x ≠ 16) :
    Terminated (x :: key) ↔ Terminated key := by
  simp [terminated_cons, digit]

theorem terminated_append {front key : Key} (digits : Digits front) :
    Terminated (front ++ key) ↔ Terminated key := by
  induction front with
  | nil => rfl
  | cons x front ih =>
    rw [cons_append, terminated_cons_of_ne (digits x (by simp))]
    exact ih fun y mem => digits y (by simp [mem])

/-- Two terminated keys are equal or part at some digit. -/
theorem Terminated.eq_or_branch {first second : Key} (left : Terminated first) (right : Terminated second) :
    first = second ∨ ∃ front x y rest rest', first = front ++ x :: rest ∧ second = front ++ y :: rest' ∧
      x ≠ y ∧ Digits front := by
  induction first generalizing second with
  | nil => exact (not_terminated_nil left).elim
  | cons x first ih =>
    obtain - | ⟨y, second⟩ := second
    · exact (not_terminated_nil right).elim
    by_cases same : x = y
    · subst same
      rcases terminated_cons.mp left with ⟨rfl, rfl⟩ | ⟨digit, left⟩
      · rcases terminated_cons.mp right with ⟨-, rfl⟩ | ⟨other, -⟩
        · exact .inl rfl
        · exact (other rfl).elim
      · rcases ih left ((terminated_cons_of_ne digit).mp right) with
          rfl | ⟨front, a, b, rest, rest', rfl, rfl, part, digits⟩
        · exact .inl rfl
        · exact .inr ⟨x :: front, a, b, rest, rest', rfl, rfl, part, by simpa [Digits, digit] using digits⟩
    · exact .inr ⟨[], x, y, first, second, rfl, rfl, same, by simp [Digits]⟩

/-- `prefixLen`: the length of the common front of two keys. -/
def prefixLen : Key → Key → ℕ
  | x :: xs, y :: ys => if x = y then prefixLen xs ys + 1 else 0
  | _, _ => 0

@[simp] theorem prefixLen_append (front first second : Key) :
    prefixLen (front ++ first) (front ++ second) = front.length + prefixLen first second := by
  induction front with
  | nil => simp
  | cons x front ih => simp [prefixLen, ih]; omega

@[simp] theorem prefixLen_append_left (front rest : Key) :
    prefixLen (front ++ rest) front = front.length := by
  have := prefixLen_append front rest []
  cases rest <;> simpa [prefixLen] using this

/-- Keys that part after `front` have just `front` in common. -/
theorem prefixLen_branch {front rest rest' : Key} {x y : Nibble} (part : x ≠ y) :
    prefixLen (front ++ x :: rest) (front ++ y :: rest') = front.length := by
  simp [prefixLen, part]

def keybytesToHex : Bytes → Key
  | [] => [16]
  | b :: str => Fin.ofNat 17 (b.toNat / 16) :: Fin.ofNat 17 (b.toNat % 16) :: keybytesToHex str

theorem hex_digit {n : ℕ} (bound : n < 16) : Fin.ofNat 17 n ≠ 16 := by
  intro same
  have := congrArg Fin.val same
  simp [Fin.ofNat] at this
  omega

theorem keybytesToHex_terminated (str : Bytes) : Terminated (keybytesToHex str) := by
  induction str with
  | nil => simp [keybytesToHex, Terminated]
  | cons b str ih =>
    have := b.toNat_lt
    rw [keybytesToHex, terminated_cons_of_ne (hex_digit (by omega)),
      terminated_cons_of_ne (hex_digit (by omega))]
    exact ih

theorem keybytesToHex_injective : Function.Injective keybytesToHex := by
  intro first second same
  induction first generalizing second with
  | nil =>
    cases second with
    | nil => rfl
    | cons b second => simp [keybytesToHex] at same
  | cons b first ih =>
    cases second with
    | nil => simp [keybytesToHex] at same
    | cons c second =>
      have boundB := b.toNat_lt
      have boundC := c.toNat_lt
      simp only [keybytesToHex, cons.injEq, Fin.ext_iff, Fin.ofNat] at same
      obtain ⟨high, low, rest⟩ := same
      have value : b.toNat = c.toNat := by omega
      rw [UInt8.toNat_inj.mp value, ih rest]

/-- `decodeNibbles`: two nibbles a byte. -/
def decodeNibbles : Key → Bytes
  | x :: y :: rest => UInt8.ofNat (x.val <<< 4 ||| y.val) :: decodeNibbles rest
  | _ => []

def hasTerm (key : Key) : Bool := key.getLast? == some 16

/-- The flag byte of `hexToCompact` and the nibbles behind it, once the terminator is cut off. -/
def packNibbles (terminator : ℕ) (hex : Key) : Bytes :=
  if hex.length % 2 = 1 then
    UInt8.ofNat (terminator <<< 5 ||| 1 <<< 4 ||| (hex.headD 0).val) :: decodeNibbles hex.tail
  else UInt8.ofNat (terminator <<< 5) :: decodeNibbles hex

def hexToCompact (hex : Key) : Bytes :=
  if hasTerm hex then packNibbles 1 hex.dropLast else packNibbles 0 hex

def compactToHex (compact : Bytes) : Key :=
  let base := keybytesToHex compact
  let flag := (base.headD 0).val
  let base := if flag < 2 then base.dropLast else base
  base.drop (2 - flag % 2)

theorem length_decodeNibbles_le (hex : Key) : (decodeNibbles hex).length ≤ hex.length := by
  induction hex using decodeNibbles.induct with
  | case1 x y rest ih => simp [decodeNibbles]; omega
  | case2 hex short =>
    rw [decodeNibbles]
    · simp
    · exact short

theorem length_hexToCompact_le (hex : Key) : (hexToCompact hex).length ≤ hex.length + 1 := by
  have packed : ∀ terminator hex, (packNibbles terminator hex).length ≤ hex.length + 1 := by
    intro terminator hex
    have whole := length_decodeNibbles_le hex
    have tail := length_decodeNibbles_le hex.tail
    unfold packNibbles
    split_ifs <;> simp at tail ⊢ <;> omega
  unfold hexToCompact
  split_ifs
  · have := packed 1 hex.dropLast
    simp at this
    omega
  · exact packed 0 hex

theorem keybytesToHex_decodeNibbles {hex : Key} (digits : Digits hex) (even : hex.length % 2 = 0) :
    keybytesToHex (decodeNibbles hex) = hex ++ [16] := by
  induction hex using decodeNibbles.induct with
  | case1 x y rest ih =>
    have low : ∀ z : Nibble, z ≠ 16 → z.val < 16 := fun z other => by
      have := z.isLt
      have : z.val ≠ 16 := fun same => other (Fin.ext same)
      omega
    have hx := low x (digits x (by simp))
    have hy := low y (digits y (by simp))
    have pair : x.val <<< 4 ||| y.val = x.val * 16 + y.val := by
      rw [← Nat.shiftLeft_add_eq_or_of_lt (by omega), Nat.shiftLeft_eq]
    have byte : (UInt8.ofNat (x.val * 16 + y.val)).toNat = x.val * 16 + y.val := by
      simp; omega
    have rest := ih (fun z mem => digits z (by simp [mem])) (by simp at even; omega)
    rw [decodeNibbles, keybytesToHex, pair, byte, rest]
    have high : Fin.ofNat 17 ((x.val * 16 + y.val) / 16) = x := by
      ext; simp [Fin.ofNat]; omega
    have lower : Fin.ofNat 17 ((x.val * 16 + y.val) % 16) = y := by
      ext; simp [Fin.ofNat]; omega
    rw [high, lower]
    rfl
  | case2 hex short =>
    match hex, short with
    | [], _ => rfl
    | [x], _ => simp at even
    | x :: y :: rest, short => exact (short x y rest rfl).elim

private theorem keybytesToHex_packNibbles {hex : Key} (digits : Digits hex) (term : Fin 2) :
    ∃ front, keybytesToHex (packNibbles term.val hex) = front ++ hex ++ [16] ∧
      (front.headD 16).val / 2 = term.val ∧ front.length = 2 - (front.headD 16).val % 2 := by
  unfold packNibbles
  split_ifs with odd
  · obtain - | ⟨d, rest⟩ := hex
    · simp at odd
    have tail := keybytesToHex_decodeNibbles (fun z mem => digits z (by simp [mem]))
      (by simp at odd; omega : rest.length % 2 = 0)
    have first : ∀ (term : Fin 2) (d : Nibble), d ≠ 16 →
        let b := UInt8.ofNat (term.val <<< 5 ||| 1 <<< 4 ||| d.val)
        Fin.ofNat 17 (b.toNat / 16) = Fin.ofNat 17 (2 * term + 1) ∧ Fin.ofNat 17 (b.toNat % 16) = d := by
      decide
    obtain ⟨flag, digit⟩ := first term d (digits d (by simp))
    refine ⟨[Fin.ofNat 17 (2 * term + 1)], ?_, ?_⟩
    · simp only [headD_cons, tail_cons, keybytesToHex, flag, digit, tail, cons_append,
        nil_append]
    · have parity : ∀ t : Fin 2, (Fin.ofNat 17 (2 * t.val + 1)).val / 2 = t.val ∧
          1 = 2 - (Fin.ofNat 17 (2 * t.val + 1)).val % 2 := by decide
      exact parity term
  · have tail := keybytesToHex_decodeNibbles digits (by omega)
    have first : ∀ term : Fin 2, let b := UInt8.ofNat (term.val <<< 5)
        Fin.ofNat 17 (b.toNat / 16) = Fin.ofNat 17 (2 * term) ∧ Fin.ofNat 17 (b.toNat % 16) = 0 := by
      decide
    obtain ⟨flag, zero⟩ := first term
    refine ⟨[Fin.ofNat 17 (2 * term), 0], ?_, ?_⟩
    · simp only [keybytesToHex, flag, zero, tail, cons_append, nil_append]
    · have parity : ∀ t : Fin 2, (Fin.ofNat 17 (2 * t.val)).val / 2 = t.val ∧
          2 = 2 - (Fin.ofNat 17 (2 * t.val)).val % 2 := by decide
      exact parity term

theorem Terminated.eq_append {key : Key} (terminated : Terminated key) :
    ∃ digits, key = digits ++ [16] ∧ Digits digits := by
  induction key with
  | nil => exact (not_terminated_nil terminated).elim
  | cons x key ih =>
    rcases terminated_cons.mp terminated with ⟨rfl, rfl⟩ | ⟨digit, rest⟩
    · exact ⟨[], rfl, by simp [Digits]⟩
    · obtain ⟨digits, rfl, all⟩ := ih rest
      exact ⟨x :: digits, rfl, by simpa [Digits, digit] using all⟩

theorem Terminated.not_digits {key : Key} (terminated : Terminated key) : ¬ Digits key := by
  obtain ⟨digits, rfl, -⟩ := terminated.eq_append
  exact fun all => all 16 (by simp) rfl

theorem hasTerm_of_digits {hex : Key} (digits : Digits hex) : hasTerm hex = false := by
  simp only [hasTerm, beq_eq_false_iff_ne, ne_eq]
  intro last
  exact digits 16 (mem_of_getLast? last) rfl

theorem Terminated.hasTerm {hex : Key} (terminated : Terminated hex) : hasTerm hex = true := by
  obtain ⟨ds, rfl, -⟩ := terminated.eq_append
  simp [Trie.hasTerm]

theorem hexToCompact_ne_nil (hex : Key) : hexToCompact hex ≠ [] := by
  unfold hexToCompact packNibbles
  split_ifs <;> simp

/-- The compact form gives back the key, with its terminator if it had one. -/
theorem compactToHex_hexToCompact {hex : Key} (valid : Digits hex ∨ Terminated hex) :
    compactToHex (hexToCompact hex) = hex := by
  rcases valid with digits | terminated
  · have noTerm := hasTerm_of_digits digits
    obtain ⟨front, base, flag, length⟩ := keybytesToHex_packNibbles digits 0
    obtain - | ⟨f, front⟩ := front
    · simp at flag
    simp only [headD_cons, Fin.coe_ofNat_eq_mod, Nat.zero_mod] at flag length
    simp only [compactToHex, hexToCompact, noTerm, Bool.false_eq_true, ↓reduceIte]
    rw [show (0 : ℕ) = ((0 : Fin 2) : ℕ) from rfl, base]
    simp only [cons_append, headD_cons, show f.val < 2 by omega, ↓reduceIte]
    rw [← length, ← cons_append, ← cons_append, dropLast_concat, drop_left]
  · obtain ⟨ds, rfl, digits⟩ := terminated.eq_append
    have term : hasTerm (ds ++ [16]) = true := by simp [hasTerm]
    obtain ⟨front, base, flag, length⟩ := keybytesToHex_packNibbles digits 1
    obtain - | ⟨f, front⟩ := front
    · simp at length
    simp only [headD_cons, Fin.coe_ofNat_eq_mod, Nat.one_mod] at flag length
    simp only [compactToHex, hexToCompact, term, ↓reduceIte, dropLast_concat]
    rw [show (1 : ℕ) = ((1 : Fin 2) : ℕ) from rfl, base]
    simp only [cons_append, headD_cons, show ¬ f.val < 2 by omega, ↓reduceIte]
    rw [← length, ← cons_append, ← cons_append, append_assoc, drop_left]

theorem hexToCompact_inj {first second : Key} (left : Digits first ∨ Terminated first)
    (right : Digits second ∨ Terminated second) (same : hexToCompact first = hexToCompact second) :
    first = second := by
  rw [← compactToHex_hexToCompact left, same, compactToHex_hexToCompact right]

end KKChain.Trie
