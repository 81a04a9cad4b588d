import Mathlib

/-!
# Byte strings and fixed-width little-endian integers

`Bytes` is a list of bytes, ordered lexicographically as Python orders `bytes`.
`le w n` is `n.to_bytes(w, "little")` and `ofLe` is `int.from_bytes(_, "little")`;
each undoes the other on values that fit. `ofBe` is `int.from_bytes(_, "big")`.

`FixedBytes n` is the type of strings of exactly `n` bytes.
-/

namespace Wire

/-- One byte. -/
abbrev Byte := Fin 256

/-- A byte string. -/
abbrev Bytes := List Byte

instance byteNeZero : NeZero 256 := ⟨by decide⟩

/-- The low `w` bytes of `n`, least significant first. -/
def le : ℕ → ℕ → Bytes
  | 0, _ => []
  | w + 1, n => Fin.ofNat 256 n :: le w (n / 256)

/-- The integer a little-endian byte string denotes. -/
def ofLe : Bytes → ℕ
  | [] => 0
  | b :: bs => b.val + 256 * ofLe bs

@[simp] theorem le_length (w n : ℕ) : (le w n).length = w := by
  induction w generalizing n with
  | zero => rfl
  | succ w ih => simp [le, ih]

theorem ofLe_le (w n : ℕ) : ofLe (le w n) = n % 256 ^ w := by
  induction w generalizing n with
  | zero => simp [le, ofLe, Nat.mod_one]
  | succ w ih =>
    simp only [le, ofLe, ih, Fin.val_ofNat]
    rw [pow_succ, Nat.mul_comm (256 ^ w) 256, Nat.mod_mul]

theorem ofLe_le_of_lt {w n : ℕ} (h : n < 256 ^ w) : ofLe (le w n) = n := by
  rw [ofLe_le, Nat.mod_eq_of_lt h]

theorem ofLe_lt (b : Bytes) : ofLe b < 256 ^ b.length := by
  induction b with
  | nil => simp [ofLe]
  | cons b bs ih =>
    simp only [ofLe, List.length_cons, pow_succ]
    have := b.isLt
    omega

theorem le_ofLe (b : Bytes) : le b.length (ofLe b) = b := by
  induction b with
  | nil => rfl
  | cons b bs ih =>
    simp only [List.length_cons, le, ofLe]
    have hb := b.isLt
    congr 1
    · ext
      simp only [Fin.val_ofNat]
      omega
    · rw [show (b.val + 256 * ofLe bs) / 256 = ofLe bs by omega, ih]

/-- **Fixed-width encodings of integers that fit are injective.** -/
theorem le_inj {w m n : ℕ} (hm : m < 256 ^ w) (hn : n < 256 ^ w) (h : le w m = le w n) : m = n := by
  rw [← ofLe_le_of_lt hm, ← ofLe_le_of_lt hn, h]

/-! ## Big-endian integers -/

/-- The integer a big-endian byte string denotes. -/
def ofBe : Bytes → ℕ
  | [] => 0
  | b :: bs => 256 ^ bs.length * b.val + ofBe bs

theorem ofBe_lt (b : Bytes) : ofBe b < 256 ^ b.length := by
  induction b with
  | nil => simp [ofBe]
  | cons b bs ih =>
    calc 256 ^ bs.length * b.val + ofBe bs < 256 ^ bs.length * b.val + 256 ^ bs.length := by omega
      _ = 256 ^ bs.length * (b.val + 1) := by ring
      _ ≤ 256 ^ bs.length * 256 := Nat.mul_le_mul_left _ b.isLt
      _ = 256 ^ (b :: bs).length := by rw [List.length_cons, pow_succ]

/-- Byte strings of one length that denote one integer are equal. -/
theorem ofBe_inj : ∀ {b c : Bytes}, b.length = c.length → ofBe b = ofBe c → b = c
  | [], [], _, _ => rfl
  | x :: bs, y :: cs, hl, h => by
    have hl' : bs.length = cs.length := by simpa using hl
    have hb := ofBe_lt bs
    have hc := ofBe_lt cs
    simp only [ofBe, hl'] at h hb
    have hpos : 0 < 256 ^ cs.length := by positivity
    have hx : x.val = y.val := by
      have := congrArg (· / 256 ^ cs.length) h
      simpa [Nat.mul_add_div hpos, Nat.div_eq_of_lt hb, Nat.div_eq_of_lt hc] using this
    rw [hx] at h
    rw [Fin.ext hx, ofBe_inj hl' (by omega)]

/-- Bit `i` of the string, most significant bit first, is a bit of the integer. -/
theorem testBit_ofBe {b : Bytes} {i : ℕ} (h : i < 8 * b.length) :
    (ofBe b).testBit (8 * b.length - 1 - i) = (b.getD (i / 8) 0).val.testBit (7 - i % 8) := by
  induction b generalizing i with
  | nil => simp at h
  | cons x bs ih =>
    have hbs : ofBe bs < 2 ^ (8 * bs.length) := by
      rw [pow_mul]
      exact ofBe_lt bs
    rw [List.length_cons] at h ⊢
    have hpow : (256 : ℕ) ^ bs.length = 2 ^ (8 * bs.length) := by
      rw [pow_mul]
      norm_num
    rw [ofBe, hpow, Nat.testBit_two_pow_mul_add _ hbs]
    by_cases hi : i < 8
    · rw [if_neg (by omega), show i / 8 = 0 by omega, List.getD_cons_zero]
      congr 1
      omega
    · obtain ⟨j, rfl⟩ : ∃ j, i = j + 8 := ⟨i - 8, by omega⟩
      rw [if_pos (by omega), show (j + 8) / 8 = j / 8 + 1 by omega, List.getD_cons_succ,
        show (j + 8) % 8 = j % 8 by omega, ← ih (by omega)]
      congr 1
      omega

/-- The consecutive slices of `width` bytes, the last one possibly shorter. -/
def slices (width : ℕ) (b : Bytes) : List Bytes :=
  (List.range ((b.length + width - 1) / width)).map fun i => (b.drop (i * width)).take width

/-- A byte string of exactly `n` bytes. -/
structure FixedBytes (n : ℕ) where
  bytes : Bytes
  len : bytes.length = n
deriving DecidableEq

namespace FixedBytes

variable {n : ℕ}

theorem bytes_injective : Function.Injective (bytes : FixedBytes n → Bytes) := by
  rintro ⟨a, ha⟩ ⟨b, hb⟩ h
  cases h
  rfl

@[simp] theorem bytes_inj {a b : FixedBytes n} : a.bytes = b.bytes ↔ a = b :=
  bytes_injective.eq_iff

@[simp] theorem length_bytes (a : FixedBytes n) : a.bytes.length = n := a.len

/-- Byte strings of one length are ordered lexicographically. -/
instance : LinearOrder (FixedBytes n) := LinearOrder.lift' bytes bytes_injective

/-- The string of `n` zero bytes. -/
def zero (n : ℕ) : FixedBytes n := ⟨List.replicate n 0, List.length_replicate⟩

/-- The integer the string denotes, least significant byte first. -/
def toNat (a : FixedBytes n) : ℕ := ofLe a.bytes

/-- The low `n` bytes of an integer. -/
def ofNat (n v : ℕ) : FixedBytes n := ⟨le n v, le_length n v⟩

@[simp] theorem toNat_ofNat {v : ℕ} (h : v < 256 ^ n) : (ofNat n v).toNat = v :=
  ofLe_le_of_lt h

theorem ofNat_toNat (a : FixedBytes n) : ofNat n a.toNat = a := by
  apply bytes_injective
  have hle := le_ofLe a.bytes
  rw [a.len] at hle
  exact hle

theorem toNat_inj {a b : FixedBytes n} (h : a.toNat = b.toNat) : a = b := by
  rw [← a.ofNat_toNat, ← b.ofNat_toNat, h]

/-- Concatenations of strings of one width are determined by their items. -/
theorem flatMap_bytes_inj : ∀ {as bs : List (FixedBytes n)}, as.length = bs.length →
    as.flatMap bytes = bs.flatMap bytes → as = bs
  | [], [], _, _ => rfl
  | a :: as, b :: bs, hl, h => by
    simp only [List.flatMap_cons] at h
    obtain ⟨hab, htl⟩ := List.append_inj h (by simp)
    rw [bytes_inj.1 hab, flatMap_bytes_inj (by simpa using hl) htl]

theorem length_flatMap_bytes (as : List (FixedBytes n)) : (as.flatMap bytes).length = n * as.length := by
  induction as with
  | nil => simp
  | cons a as ih => simp only [List.flatMap_cons, List.length_append, ih, length_bytes, List.length_cons]; ring

end FixedBytes

end Wire
