import TensorPow.Wire.Bytes

/-!
# Hexadecimal text

`toHex` is `bytes.hex()` and `fromHex` is `bytes.fromhex`, which takes digits of both cases and
skips white space between bytes; `intBase16` says which texts `int(text, 16)` takes.

* `fromHex_toHex`: text that was written is read back.
* `intBase16_toHex`: it is a number in base sixteen.
-/

namespace Wire

/-- A string as the list of its characters. -/
abbrev Text := List Char

/-- A lower-case digit. -/
def hexDigit (n : ℕ) : Char := if n < 10 then Char.ofNat (48 + n) else Char.ofNat (87 + n)

/-- The value of a digit of either case. -/
def digitValue (c : Char) : Option ℕ :=
  if 48 ≤ c.toNat ∧ c.toNat ≤ 57 then some (c.toNat - 48)
  else if 97 ≤ c.toNat ∧ c.toNat ≤ 102 then some (c.toNat - 87)
  else if 65 ≤ c.toNat ∧ c.toNat ≤ 70 then some (c.toNat - 55)
  else none

/-- The white space of ASCII. -/
def isSpace (c : Char) : Bool := decide (c.toNat = 32 ∨ 9 ≤ c.toNat ∧ c.toNat ≤ 13)

/-- `bytes.hex()`. -/
def toHex (b : Bytes) : Text := b.flatMap fun x => [hexDigit (x.val / 16), hexDigit (x.val % 16)]

/-- `bytes.fromhex`, with `none` for a `ValueError`. -/
def fromHex : Text → Option Bytes
  | [] => some []
  | [c] => if isSpace c then some [] else none
  | c :: d :: rest =>
    if isSpace c then fromHex (d :: rest)
    else
      match digitValue c, digitValue d, fromHex rest with
      | some high, some low, some b => some (Fin.ofNat 256 (16 * high + low) :: b)
      | _, _, _ => none

theorem hexDigit_spec : ∀ n : Fin 16, digitValue (hexDigit n.val) = some n.val ∧ isSpace (hexDigit n.val) = false := by
  decide

theorem fromHex_toHex (b : Bytes) : fromHex (toHex b) = some b := by
  induction b with
  | nil => rfl
  | cons x b ih =>
    have hlt := x.isLt
    obtain ⟨hhigh, hspace⟩ := hexDigit_spec ⟨x.val / 16, by omega⟩
    obtain ⟨hlow, -⟩ := hexDigit_spec ⟨x.val % 16, by omega⟩
    have hvalue : Fin.ofNat 256 (16 * (x.val / 16) + x.val % 16) = x := by
      ext
      simp only [Fin.val_ofNat]
      omega
    show fromHex (hexDigit (x.val / 16) :: hexDigit (x.val % 16) :: toHex b) = _
    unfold fromHex
    rw [if_neg (by rw [hspace]; decide), hhigh, hlow, ih]
    dsimp only
    rw [hvalue]

theorem toHex_inj {a b : Bytes} (h : toHex a = toHex b) : a = b := by
  have ha := fromHex_toHex a
  rw [h, fromHex_toHex b] at ha
  exact (Option.some.inj ha).symm

theorem length_toHex (b : Bytes) : (toHex b).length = 2 * b.length := by
  induction b with
  | nil => rfl
  | cons x b ih =>
    show (toHex b).length + 1 + 1 = _
    rw [ih, List.length_cons]
    ring

/-! ## Numbers in base sixteen -/

/-- Where ten decimal digits begin beyond ASCII, in Unicode 15. -/
def unicodeZeros : List ℕ :=
  [0x660, 0x6F0, 0x7C0, 0x966, 0x9E6, 0xA66, 0xAE6, 0xB66, 0xBE6, 0xC66, 0xCE6, 0xD66, 0xDE6, 0xE50, 0xED0,
   0xF20, 0x1040, 0x1090, 0x17E0, 0x1810, 0x1946, 0x19D0, 0x1A80, 0x1A90, 0x1B50, 0x1BB0, 0x1C40, 0x1C50,
   0xA620, 0xA8D0, 0xA900, 0xA9D0, 0xA9F0, 0xAA50, 0xABF0, 0xFF10, 0x104A0, 0x10D30, 0x11066, 0x110F0,
   0x11136, 0x111D0, 0x112F0, 0x11450, 0x114D0, 0x11650, 0x116C0, 0x11730, 0x118E0, 0x11950, 0x11C50,
   0x11D50, 0x11DA0, 0x11F50, 0x16A60, 0x16AC0, 0x16B50, 0x1D7CE, 0x1D7D8, 0x1D7E2, 0x1D7EC, 0x1D7F6,
   0x1E140, 0x1E2F0, 0x1E4F0, 0x1E950, 0x1FBF0]

/-- The white space beyond ASCII. -/
def unicodeSpaces : List ℕ :=
  [0x85, 0xA0, 0x1680, 0x2000, 0x2001, 0x2002, 0x2003, 0x2004, 0x2005, 0x2006, 0x2007, 0x2008, 0x2009, 0x200A,
   0x2028, 0x2029, 0x202F, 0x205F, 0x3000]

/-- What `int` reads for a character. -/
def toAscii (c : Char) : Char :=
  if c.toNat < 127 then c
  else if c.toNat ∈ unicodeSpaces then ' '
  else
    match unicodeZeros.find? fun first => decide (first ≤ c.toNat ∧ c.toNat < first + 10) with
    | some first => Char.ofNat (48 + (c.toNat - first))
    | none => '?'

/-- A sign is taken once. -/
def dropSign : Text → Text
  | c :: rest => if c = '+' ∨ c = '-' then rest else c :: rest
  | [] => []

/-- The prefix of the base, and one underscore after it. -/
def dropBase : Text → Text
  | c :: d :: rest =>
    if c = '0' ∧ (d = 'x' ∨ d = 'X') then (if rest.head? = some '_' then rest.tail else rest) else c :: d :: rest
  | text => text

/-- Digits with single underscores between them, where `afterDigit` says that one came before. -/
def hexDigits : (afterDigit : Bool) → Text → Bool
  | afterDigit, [] => afterDigit
  | afterDigit, c :: rest =>
    if c = '_' then afterDigit && hexDigits false rest else (digitValue c).isSome && hexDigits true rest

/-- `int(text, 16)` returns. -/
def intBase16 (text : Text) : Bool :=
  hexDigits false (dropBase (dropSign (((text.map toAscii).dropWhile isSpace).rdropWhile isSpace)))

theorem digit_range {c : Char} (h : (digitValue c).isSome = true) :
    48 ≤ c.toNat ∧ c.toNat ≤ 57 ∨ 97 ≤ c.toNat ∧ c.toNat ≤ 102 ∨ 65 ≤ c.toNat ∧ c.toNat ≤ 70 := by
  unfold digitValue at h
  split at h
  · exact Or.inl ‹_›
  · split at h
    · exact Or.inr (Or.inl ‹_›)
    · split at h
      · exact Or.inr (Or.inr ‹_›)
      · cases h

theorem toAscii_digit {c : Char} (h : (digitValue c).isSome = true) : toAscii c = c := by
  have hrange := digit_range h
  unfold toAscii
  rw [if_pos (by omega)]

theorem isSpace_digit {c : Char} (h : (digitValue c).isSome = true) : isSpace c = false := by
  have hrange := digit_range h
  unfold isSpace
  rw [decide_eq_false_iff_not]
  omega

/-- A digit is none of the other characters that a number may have. -/
theorem ne_of_digit {c d : Char} (h : (digitValue c).isSome = true) (hd : (digitValue d).isSome = false) : c ≠ d := by
  rintro rfl
  rw [h] at hd
  cases hd

theorem hexDigits_of_all {text : Text} (h : ∀ c ∈ text, (digitValue c).isSome = true) : hexDigits true text = true := by
  induction text with
  | nil => rfl
  | cons c text ih =>
    obtain ⟨hc, htext⟩ := List.forall_mem_cons.1 h
    unfold hexDigits
    rw [if_neg (ne_of_digit hc (by decide)), hc, ih htext]
    rfl

/-- A text of digits only is a number. -/
theorem intBase16_of_all {text : Text} (hne : text ≠ []) (h : ∀ c ∈ text, (digitValue c).isSome = true) :
    intBase16 text = true := by
  have hmap : text.map toAscii = text := (List.map_congr_left fun c hc => toAscii_digit (h c hc)).trans (List.map_id _)
  have hfront : text.dropWhile isSpace = text := by
    rw [List.dropWhile_eq_self_iff]
    intro hlen
    rw [isSpace_digit (h _ (List.getElem_mem hlen))]
    decide
  have hback : text.rdropWhile isSpace = text := by
    rw [List.rdropWhile_eq_self_iff]
    intro hne
    rw [isSpace_digit (h _ (List.getLast_mem hne))]
    decide
  unfold intBase16
  rw [hmap, hfront, hback]
  match text, hne, h with
  | c :: rest, _, h =>
    obtain ⟨hc, hrest⟩ := List.forall_mem_cons.1 h
    have hsign : dropSign (c :: rest) = c :: rest :=
      if_neg (by rintro (hc' | hc') <;> exact ne_of_digit hc (by decide) hc')
    have hbase : dropBase (c :: rest) = c :: rest := by
      cases rest with
      | nil => rfl
      | cons d rest =>
        have hd := hrest d List.mem_cons_self
        exact if_neg (by rintro ⟨-, hd' | hd'⟩ <;> exact ne_of_digit hd (by decide) hd')
    rw [hsign, hbase]
    unfold hexDigits
    rw [if_neg (ne_of_digit hc (by decide)), hc, hexDigits_of_all hrest]
    rfl

/-- What was written has lower-case digits only. -/
theorem digit_of_mem_toHex {b : Bytes} {c : Char} (h : c ∈ toHex b) :
    (digitValue c).isSome = true ∧ ¬(65 ≤ c.toNat ∧ c.toNat ≤ 90) := by
  have hall : ∀ n : Fin 16, (digitValue (hexDigit n.val)).isSome = true ∧
      ¬(65 ≤ (hexDigit n.val).toNat ∧ (hexDigit n.val).toNat ≤ 90) := by decide
  obtain ⟨x, -, hx⟩ := List.mem_flatMap.1 h
  have hlt := x.isLt
  simp only [List.mem_cons, List.not_mem_nil, or_false] at hx
  obtain rfl | rfl := hx
  · exact hall ⟨x.val / 16, by omega⟩
  · exact hall ⟨x.val % 16, by omega⟩

theorem intBase16_toHex {b : Bytes} (hne : b ≠ []) : intBase16 (toHex b) = true := by
  refine intBase16_of_all ?_ fun c hc => (digit_of_mem_toHex hc).1
  intro hnil
  have hlen := length_toHex b
  rw [hnil, List.length_nil] at hlen
  exact hne (List.length_eq_zero_iff.1 (by omega))

end Wire
