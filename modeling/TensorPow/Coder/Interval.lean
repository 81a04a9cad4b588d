import TensorPow.Wire.Bytes

/-!
# Bit strings as binary fractions

What a coder needs that narrows an interval and writes the bits it has settled on.

* `front bits n`: the first `n` bits as a number; `front_succ` reads one bit more.
* `front_past`: past the end of the string there are only zeros.
* `double_le_front`, `front_lt_double`: a bit more halves the interval that the number is
  known to lie in.
* `le_scaled`, `scaled_lt`: the share of an interval that a number lies in can be computed
  back.
* `byteAt`, `pack`, `testBit_pack`: the bits in bytes, the last byte filled up with zeros.
-/

namespace Coder

open Wire

/-! ## The value of a front -/

/-- The first `n` bits as a number, the most significant first; there are zeros past the end. -/
def front (bits : List Bool) : ℕ → ℕ
  | 0 => 0
  | n + 1 => 2 * front bits n + (bits.getD n false).toNat

/-- The whole string as a number. -/
def value (bits : List Bool) : ℕ := front bits bits.length

variable {bits : List Bool} {n : ℕ}

theorem front_succ (bits : List Bool) (n : ℕ) :
    front bits (n + 1) = 2 * front bits n + (bits.getD n false).toNat := rfl

theorem front_lt (bits : List Bool) (n : ℕ) : front bits n < 2 ^ n := by
  induction n with
  | zero => exact Nat.one_pos
  | succ n ih =>
    have hbit := Bool.toNat_le (bits.getD n false)
    rw [front_succ, pow_succ]
    omega

theorem front_append (bits more : List Bool) (h : n ≤ bits.length) : front (bits ++ more) n = front bits n := by
  induction n with
  | zero => rfl
  | succ n ih =>
    rw [front_succ, front_succ, ih (by omega), List.getD_append _ _ _ _ (by omega)]

theorem value_append (bits more : List Bool) :
    value (bits ++ more) = value bits * 2 ^ more.length + value more := by
  induction more using List.reverseRecOn with
  | nil => simp [value, front]
  | append_singleton more b ih =>
    have hsnoc : ∀ l : List Bool, value (l ++ [b]) = 2 * value l + b.toNat := by
      intro l
      unfold value
      rw [List.length_append, List.length_singleton, front_succ, front_append _ _ le_rfl, List.getD_append_right]
      · simp
      · exact le_rfl
    rw [← List.append_assoc, hsnoc, ih, hsnoc, List.length_append, List.length_singleton, pow_succ]
    ring

@[simp] theorem value_nil : value [] = 0 := rfl

@[simp] theorem value_zeros (n : ℕ) : value (List.replicate n false) = 0 := by
  induction n with
  | zero => rfl
  | succ n ih =>
    rw [List.replicate_succ', value_append, ih]
    simp [value, front]

theorem value_ones (n : ℕ) : value (List.replicate n true) = 2 ^ n - 1 := by
  induction n with
  | zero => rfl
  | succ n ih =>
    have hpos := Nat.two_pow_pos n
    have hone : value [true] = 1 := rfl
    rw [List.replicate_succ', value_append, ih, hone, pow_succ, List.length_singleton]
    omega

/-- A front is read in two parts. -/
theorem front_split (bits : List Bool) (n k : ℕ) : front bits (n + k) = front bits n * 2 ^ k + front (bits.drop n) k := by
  induction k with
  | zero => simp [front]
  | succ k ih =>
    rw [← Nat.add_assoc, front_succ, ih, front_succ, List.getD_eq_getElem?_getD, List.getD_eq_getElem?_getD,
      List.getElem?_drop, pow_succ]
    ring

/-- Past the end of the string there are only zeros. -/
theorem front_past (bits : List Bool) (k : ℕ) : front bits (bits.length + k) = value bits * 2 ^ k := by
  induction k with
  | zero => simp [value]
  | succ k ih =>
    rw [← Nat.add_assoc, front_succ, ih, List.getD_eq_default _ _ (by omega), pow_succ]
    simp
    ring

/-- A bit more: the lower bound doubles. -/
theorem double_le_front {lo : ℕ} : 2 * lo ≤ front bits (n + 1) ↔ lo ≤ front bits n := by
  have hbit := Bool.toNat_le (bits.getD n false)
  rw [front_succ]
  omega

/-- A bit more: the upper bound doubles. -/
theorem front_lt_double {hi : ℕ} : front bits (n + 1) < 2 * hi ↔ front bits n < hi := by
  have hbit := Bool.toNat_le (bits.getD n false)
  rw [front_succ]
  omega

/-! ## Shares of an interval -/

section Shares

variable {span total low high r : ℕ}

/-- From where a share starts on, the scaled value is at least its lower end. -/
theorem le_scaled (htotal : 0 < total) (hspan : 0 < span) (h : span * low / total ≤ r) :
    low ≤ ((r + 1) * total - 1) / span := by
  have hlt : span * low < (r + 1) * total := by
    have hdiv := Nat.lt_mul_div_succ (span * low) htotal
    calc span * low < total * (span * low / total + 1) := hdiv
      _ ≤ total * (r + 1) := Nat.mul_le_mul_left _ (by omega)
      _ = (r + 1) * total := Nat.mul_comm _ _
  rw [Nat.le_div_iff_mul_le hspan, Nat.mul_comm]
  omega

/-- Up to where a share ends, the scaled value is below its upper end. -/
theorem scaled_lt (htotal : 0 < total) (hspan : 0 < span) (h : r < span * high / total) :
    ((r + 1) * total - 1) / span < high := by
  have hle : (r + 1) * total ≤ span * high :=
    calc (r + 1) * total ≤ span * high / total * total := Nat.mul_le_mul_right _ h
      _ ≤ span * high := Nat.div_mul_le_self _ _
  have hpos : 0 < (r + 1) * total := Nat.mul_pos (by omega) htotal
  rw [Nat.div_lt_iff_lt_mul hspan, Nat.mul_comm high]
  omega

/-- A share of a wide interval is not empty. -/
theorem share_lt (htotal : 0 < total) (hspan : total ≤ span) (h : low < high) :
    span * low / total < span * high / total := by
  have hstep : span * low + total ≤ span * high :=
    calc span * low + total ≤ span * low + span := by omega
      _ = span * (low + 1) := by ring
      _ ≤ span * high := Nat.mul_le_mul_left _ h
  calc span * low / total < span * low / total + 1 := Nat.lt_succ_self _
    _ = (span * low + total) / total := (Nat.add_div_right _ htotal).symm
    _ ≤ span * high / total := Nat.div_le_div_right hstep

/-- A share ends within the interval. -/
theorem share_le (htotal : 0 < total) (h : high ≤ total) : span * high / total ≤ span :=
  calc span * high / total ≤ span * total / total := Nat.div_le_div_right (Nat.mul_le_mul_left _ h)
    _ = span := Nat.mul_div_cancel _ htotal

/-- A share is at most one wider than its part of the interval. -/
theorem share_width_le (h : low ≤ high) :
    (span * high / total - span * low / total) * total ≤ span * (high - low) + total := by
  by_cases htotal : total = 0
  · rw [htotal]
    simp
  have hhigh := Nat.div_mul_le_self (span * high) total
  have hlow := Nat.lt_mul_div_succ (span * low) (Nat.pos_of_ne_zero htotal)
  have hsplit : span * (high - low) + span * low = span * high := by
    rw [← Nat.mul_add, Nat.sub_add_cancel h]
  have hexp : total * (span * low / total + 1) = span * low / total * total + total := by ring
  rw [Nat.sub_mul]
  omega

end Shares

/-! ## Bits in bytes -/

theorem testBit_front {i : ℕ} (h : i < n) : (front bits n).testBit (n - 1 - i) = bits.getD i false := by
  induction n with
  | zero => omega
  | succ n ih =>
    rw [front_succ]
    by_cases hi : i = n
    · subst hi
      rw [show i + 1 - 1 - i = 0 by omega, Nat.testBit_zero]
      cases bits.getD i false <;> simp
    · have hshift : n + 1 - 1 - i = n - 1 - i + 1 := by omega
      have hhalf : (2 * front bits n + (bits.getD n false).toNat) / 2 = front bits n := by
        have hbit := Bool.toNat_le (bits.getD n false)
        omega
      rw [hshift, Nat.testBit_succ, hhalf]
      exact ih (by omega)

/-- Eight bits as a byte. -/
def byteAt (bits : List Bool) (i : ℕ) : Byte := Fin.ofNat 256 (front (bits.drop (8 * i)) 8)

/-- The bits in bytes, the last byte filled up with zeros. -/
def pack (bits : List Bool) : Bytes := (List.range ((bits.length + 7) / 8)).map (byteAt bits)

theorem length_pack (bits : List Bool) : (pack bits).length = (bits.length + 7) / 8 := by simp [pack]

/-- The bits are read back, and zeros after them. -/
theorem testBit_pack (bits : List Bool) (i : ℕ) :
    ((pack bits).getD (i / 8) 0).val.testBit (7 - i % 8) = bits.getD i false := by
  by_cases h : i / 8 < (bits.length + 7) / 8
  · have hbyte : (pack bits).getD (i / 8) 0 = byteAt bits (i / 8) := by
      unfold pack
      rw [List.getD_eq_getElem?_getD, List.getElem?_map, List.getElem?_range h]
      rfl
    have hlt := front_lt (bits.drop (8 * (i / 8))) 8
    have hval : (byteAt bits (i / 8)).val = front (bits.drop (8 * (i / 8))) 8 := Nat.mod_eq_of_lt hlt
    rw [hbyte, hval, testBit_front (Nat.mod_lt i (by omega)), List.getD_eq_getElem?_getD, List.getElem?_drop,
      Nat.div_add_mod, List.getD_eq_getElem?_getD]
  · have hbyte : (pack bits).getD (i / 8) 0 = 0 := List.getD_eq_default _ _ (by rw [length_pack]; omega)
    rw [hbyte, List.getD_eq_default _ _ (by omega)]
    exact Nat.zero_testBit _

end Coder
