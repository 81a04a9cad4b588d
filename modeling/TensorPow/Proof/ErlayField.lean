import TensorPow.Gf2.Word
import TensorPow.Spec.Erlay

/-!
# The field of Erlay sketches

A word stands for its residue modulo `x ^ 64 + x ^ 4 + x ^ 3 + x + 1`; different words have
different residues, and `fieldMul` multiplies residues. The polynomial is irreducible, so the
words are a field, and the power with exponent `2 ^ 64 - 2` is the inverse.

* `residue_mulLoop`: the invariant of the loop of `_field_mul`.
* `irreducible_fieldPoly`: the test of `Gf2.irreducible_of_frobenius`, computed with `fieldMul`.
* `instField`: the laws.
-/

namespace TensorPow

namespace Erlay

open Polynomial Gf2

/-! ## Residues -/

/-- The reduction polynomial. -/
noncomputable def fieldPoly : (ZMod 2)[X] := wordPoly (2 ^ fieldBits ^^^ fieldPolyLow)

/-- A word modulo the reduction polynomial. -/
noncomputable def residue (n : ℕ) : AdjoinRoot fieldPoly := AdjoinRoot.mk fieldPoly (wordPoly n)

theorem fieldPolyLow_lt : fieldPolyLow < 2 ^ fieldBits := by decide

theorem monic_fieldPoly : fieldPoly.Monic := monic_wordPoly_lead fieldPolyLow_lt

theorem natDegree_fieldPoly : fieldPoly.natDegree = fieldBits := natDegree_wordPoly_lead fieldPolyLow_lt

theorem residue_xor (a b : ℕ) : residue (a ^^^ b) = residue a + residue b := by
  unfold residue
  rw [wordPoly_xor, map_add]

@[simp] theorem residue_zero : residue 0 = 0 := by
  unfold residue
  rw [wordPoly_zero, map_zero]

@[simp] theorem residue_one : residue 1 = 1 := by
  unfold residue
  rw [wordPoly_one, map_one]

theorem residue_shiftLeft (n : ℕ) : residue (n <<< 1) = AdjoinRoot.root fieldPoly * residue n := by
  unfold residue
  rw [wordPoly_shiftLeft, pow_one, map_mul, AdjoinRoot.mk_X]

theorem residue_fieldPoly : residue (2 ^ fieldBits ^^^ fieldPolyLow) = 0 := AdjoinRoot.mk_self

/-- The lowest bit of a word and the others. -/
theorem residue_split (n : ℕ) : residue n = residue (n &&& 1) + AdjoinRoot.root fieldPoly * residue (n >>> 1) := by
  unfold residue
  conv_lhs => rw [wordPoly_split n]
  rw [map_add, map_mul, AdjoinRoot.mk_X]

/-- Two words of the field with the same residue are the same. -/
theorem residue_inj {a b : ℕ} (ha : a < 2 ^ 64) (hb : b < 2 ^ 64) (h : residue a = residue b) : a = b := by
  have hdvd : fieldPoly ∣ wordPoly a - wordPoly b := AdjoinRoot.mk_eq_mk.1 h
  have hdeg : (wordPoly a - wordPoly b).degree < fieldPoly.degree := by
    rw [degree_eq_natDegree monic_fieldPoly.ne_zero, natDegree_fieldPoly]
    exact lt_of_le_of_lt (degree_sub_le _ _) (max_lt (degree_wordPoly_lt ha) (degree_wordPoly_lt hb))
  have hzero := eq_zero_of_dvd_of_degree_lt hdvd hdeg
  exact wordPoly_injective (sub_eq_zero.1 hzero)

/-! ## Products -/

/-- The addend of `_field_mul` for the next bit. -/
def doubled (addend : ℕ) : ℕ :=
  if (addend <<< 1) >>> fieldBits = 0 then addend <<< 1 else (addend <<< 1 ^^^ fieldPolyLow) &&& fieldMask

theorem shiftRight_eq_zero_iff (n k : ℕ) : n >>> k = 0 ↔ n < 2 ^ k := by
  rw [Nat.shiftRight_eq_div_pow, Nat.div_eq_zero_iff]
  simp

theorem doubled_lt (addend : ℕ) : doubled addend < 2 ^ 64 := by
  unfold doubled
  split
  · rename_i h
    exact (shiftRight_eq_zero_iff _ _).1 h
  · exact and_fieldMask_lt _

theorem and_fieldMask_eq (n : ℕ) : n &&& fieldMask = n % 2 ^ 64 := Nat.and_two_pow_sub_one_eq_mod n 64

/-- The bit that leaves the word is taken off with the reduction polynomial. -/
theorem overflow_eq {n : ℕ} (hlow : 2 ^ 64 ≤ n) (hhigh : n < 2 ^ 65) :
    (n ^^^ fieldPolyLow) &&& fieldMask = n ^^^ (2 ^ fieldBits ^^^ fieldPolyLow) := by
  have hbit : n = 2 ^ 64 ^^^ (n - 2 ^ 64) := by
    have hsplit : n = 2 ^ 64 * 1 + (n - 2 ^ 64) := by omega
    have hrest : n - 2 ^ 64 < 2 ^ 64 := by omega
    conv_lhs => rw [hsplit]
    rw [Nat.two_pow_add_eq_or_of_lt hrest, mul_one]
    apply Nat.eq_of_testBit_eq
    intro i
    rw [Nat.testBit_or, Nat.testBit_xor, Nat.testBit_two_pow]
    by_cases hi : 64 = i
    · subst hi
      rw [Nat.testBit_lt_two_pow hrest]
      rfl
    · simp [hi]
  have hrest : n - 2 ^ 64 < 2 ^ 64 := by omega
  generalize n - 2 ^ 64 = m at hbit hrest
  subst hbit
  have hlt : m ^^^ fieldPolyLow < 2 ^ 64 := Nat.xor_lt_two_pow hrest fieldPolyLow_lt
  rw [and_fieldMask_eq, Nat.xor_assoc, Nat.xor_mod_two_pow, Nat.mod_self, Nat.zero_xor, Nat.mod_eq_of_lt hlt]
  show _ = 2 ^ 64 ^^^ m ^^^ (2 ^ 64 ^^^ fieldPolyLow)
  rw [Nat.xor_comm (2 ^ 64) m, Nat.xor_assoc m, ← Nat.xor_assoc (2 ^ 64), Nat.xor_self, Nat.zero_xor]

theorem residue_doubled {addend : ℕ} (h : addend < 2 ^ 64) :
    residue (doubled addend) = AdjoinRoot.root fieldPoly * residue addend := by
  unfold doubled
  split
  · exact residue_shiftLeft addend
  · rename_i hover
    rw [shiftRight_eq_zero_iff, not_lt] at hover
    have hhigh : addend <<< 1 < 2 ^ 65 := by
      rw [Nat.shiftLeft_eq]
      omega
    rw [overflow_eq hover hhigh, residue_xor, residue_fieldPoly, add_zero, residue_shiftLeft]

theorem residue_bit (result addend multiplier : ℕ) :
    residue (if multiplier &&& 1 = 1 then result ^^^ addend else result) =
      residue result + residue (multiplier &&& 1) * residue addend := by
  rcases Nat.mod_two_eq_zero_or_one multiplier with h | h
  · simp [Nat.and_one_is_mod, h]
  · simp [Nat.and_one_is_mod, h, residue_xor]

theorem mulLoop_succ (fuel result addend multiplier : ℕ) : fieldMulLoop (fuel + 1) result addend multiplier =
    if multiplier = 0 then result
    else fieldMulLoop fuel (if multiplier &&& 1 = 1 then result ^^^ addend else result) (doubled addend)
      (multiplier >>> 1) := rfl

/-- The loop adds the product of the addend and what is left of the multiplier. -/
theorem residue_mulLoop (fuel : ℕ) : ∀ result addend multiplier : ℕ, addend < 2 ^ 64 → multiplier < 2 ^ fuel →
    residue (fieldMulLoop fuel result addend multiplier) = residue result + residue multiplier * residue addend := by
  induction fuel with
  | zero =>
    intro result addend multiplier _ hm
    obtain rfl : multiplier = 0 := by omega
    rw [fieldMulLoop, residue_zero, zero_mul, add_zero]
  | succ fuel ih =>
    intro result addend multiplier ha hm
    rw [mulLoop_succ]
    split
    · rename_i hzero
      rw [hzero, residue_zero, zero_mul, add_zero]
    · have hshift : multiplier >>> 1 < 2 ^ fuel := by
        rw [Nat.shiftRight_eq_div_pow]
        omega
      rw [ih _ (doubled addend) _ (doubled_lt addend) hshift, residue_bit, residue_doubled ha, residue_split multiplier]
      ring

/-- The loop stays within the words of the field, so the mask at its end takes nothing off. -/
theorem mulLoop_lt (fuel : ℕ) : ∀ result addend multiplier : ℕ, result < 2 ^ 64 → addend < 2 ^ 64 →
    fieldMulLoop fuel result addend multiplier < 2 ^ 64 := by
  induction fuel with
  | zero =>
    intro result addend multiplier hr _
    exact hr
  | succ fuel ih =>
    intro result addend multiplier hr ha
    rw [mulLoop_succ]
    split
    · exact hr
    · apply ih _ (doubled addend) _ _ (doubled_lt addend)
      split
      · exact Nat.xor_lt_two_pow hr ha
      · exact hr

namespace FieldElement

/-- The residue of a field element. -/
noncomputable def residue (a : FieldElement) : AdjoinRoot fieldPoly := Erlay.residue a.val

theorem residue_injective : Function.Injective residue := by
  intro a b h
  exact FieldElement.ext (residue_inj a.isLt b.isLt h)

@[simp] theorem residue_zero : (0 : FieldElement).residue = 0 := Erlay.residue_zero

@[simp] theorem residue_one : (1 : FieldElement).residue = 1 := Erlay.residue_one

@[simp] theorem residue_xor (a b : FieldElement) : (a ^^^ b).residue = a.residue + b.residue := Erlay.residue_xor ..

@[simp] theorem residue_fieldMul (a b : FieldElement) : (fieldMul a b).residue = a.residue * b.residue := by
  have hlt := mulLoop_lt fieldBits 0 a.val b.val (by decide) a.isLt
  have hloop := residue_mulLoop fieldBits 0 a.val b.val a.isLt b.isLt
  unfold residue fieldMul
  dsimp only
  rw [and_fieldMask_eq, Nat.mod_eq_of_lt hlt, hloop, Erlay.residue_zero, zero_add, mul_comm]

/-! ## Powers -/

/-- The loop multiplies the result with a power of the base. -/
theorem residue_powLoop (fuel : ℕ) : ∀ (result base : FieldElement) (remaining : ℕ), remaining < 2 ^ fuel →
    (fieldPowLoop fuel result base remaining).residue = result.residue * base.residue ^ remaining := by
  induction fuel with
  | zero =>
    intro result base remaining hr
    obtain rfl : remaining = 0 := by omega
    rw [fieldPowLoop, pow_zero, mul_one]
  | succ fuel ih =>
    intro result base remaining hr
    rw [fieldPowLoop]
    split
    · rename_i hzero
      rw [hzero, pow_zero, mul_one]
    · have hshift : remaining >>> 1 = remaining / 2 := Nat.shiftRight_eq_div_pow remaining 1
      have hlt : remaining >>> 1 < 2 ^ fuel := by omega
      have hresult : (if remaining &&& 1 = 1 then fieldMul result base else result).residue =
          result.residue * base.residue ^ (remaining % 2) := by
        rcases Nat.mod_two_eq_zero_or_one remaining with h | h
        · simp [Nat.and_one_is_mod, h]
        · simp [Nat.and_one_is_mod, h]
      -- after the last bit the base is not squared any more, and not used either
      have hbase : (if remaining >>> 1 = 0 then base else fieldMul base base).residue ^ (remaining >>> 1) =
          base.residue ^ (2 * (remaining / 2)) := by
        rw [← hshift]
        split
        · rename_i hzero
          simp only [hzero, mul_zero, pow_zero]
        · rw [residue_fieldMul, ← pow_two, ← pow_mul]
      have hsum : remaining % 2 + 2 * (remaining / 2) = remaining := Nat.mod_add_div remaining 2
      rw [ih _ _ _ hlt, hresult, hbase, mul_assoc, ← pow_add, hsum]

theorem residue_fieldPow (a : FieldElement) (n : ℕ) : (fieldPow a n).residue = a.residue ^ n := by
  unfold fieldPow
  rw [residue_powLoop _ _ _ _ Nat.lt_log2_self, residue_one, one_mul]

/-- Repeated squaring. -/
def squares (n : ℕ) (a : FieldElement) : FieldElement := (fun x => fieldMul x x)^[n] a

theorem residue_squares (n : ℕ) (a : FieldElement) : (squares n a).residue = a.residue ^ 2 ^ n := by
  rw [← iterate_square]
  unfold squares
  induction n generalizing a with
  | zero => rfl
  | succ n ih =>
    rw [Function.iterate_succ_apply, Function.iterate_succ_apply, ih, residue_fieldMul, ← pow_two]

/-- The element that stands for `x`. -/
def x : FieldElement := ⟨2, by decide⟩

theorem residue_x : x.residue = AdjoinRoot.root fieldPoly := by
  have h := residue_shiftLeft 1
  rw [Erlay.residue_one, mul_one] at h
  exact h

end FieldElement

/-! ## The polynomial is irreducible -/

open FieldElement

theorem squares_x : squares 64 x = x := by decide +kernel

theorem unit_x : fieldMul (squares (2 ^ 5) x ^^^ x) (fieldPow (squares (2 ^ 5) x ^^^ x) (2 ^ 64 - 2)) = 1 := by
  decide +kernel

theorem root_fixed : AdjoinRoot.root fieldPoly ^ 2 ^ 2 ^ 6 = AdjoinRoot.root fieldPoly := by
  have h := residue_squares 64 x
  rw [squares_x, residue_x] at h
  exact h.symm

theorem residue_add_self (a : AdjoinRoot fieldPoly) : a + a = 0 := by
  have h : (1 + 1 : ZMod 2) = 0 := rfl
  have hmap := congrArg (algebraMap (ZMod 2) (AdjoinRoot fieldPoly)) h
  rw [map_add, map_one, map_zero] at hmap
  calc a + a = a * (1 + 1) := by rw [mul_add, mul_one]
    _ = 0 := by rw [hmap, mul_zero]

theorem irreducible_fieldPoly : Irreducible fieldPoly := by
  have hunit : IsUnit (AdjoinRoot.root fieldPoly ^ 2 ^ 2 ^ 5 - AdjoinRoot.root fieldPoly) := by
    have h := congrArg FieldElement.residue unit_x
    rw [residue_fieldMul, FieldElement.residue_xor, residue_squares, residue_x, FieldElement.residue_one] at h
    have hsub : AdjoinRoot.root fieldPoly ^ 2 ^ 2 ^ 5 - AdjoinRoot.root fieldPoly =
        AdjoinRoot.root fieldPoly ^ 2 ^ 2 ^ 5 + AdjoinRoot.root fieldPoly := by
      rw [sub_eq_add_neg, neg_eq_of_add_eq_zero_left (residue_add_self _)]
    rw [hsub]
    exact IsUnit.of_mul_eq_one _ h
  have hdeg : fieldPoly.natDegree = 2 ^ (5 + 1) := natDegree_fieldPoly
  exact irreducible_of_frobenius hdeg root_fixed hunit

/-! ## The laws -/

namespace FieldElement

/-- Every element is its own power with the order of the field. -/
theorem residue_pow_order (a : FieldElement) : a.residue ^ 2 ^ 64 = a.residue := by
  have h := pow_order irreducible_fieldPoly a.residue
  rw [natDegree_fieldPoly] at h
  exact h

theorem mul_fieldPow {a : FieldElement} (ha : a ≠ 0) : fieldMul a (fieldPow a (2 ^ 64 - 2)) = 1 := by
  have : Fact (Irreducible fieldPoly) := ⟨irreducible_fieldPoly⟩
  have hne : a.residue ≠ 0 := by
    intro hzero
    apply ha
    apply residue_injective
    rw [hzero, residue_zero]
  apply residue_injective
  rw [residue_fieldMul, residue_fieldPow, residue_one]
  apply mul_left_cancel₀ hne
  rw [← pow_succ', ← pow_succ', mul_one]
  exact residue_pow_order a

theorem fieldMul_comm (a b : FieldElement) : fieldMul a b = fieldMul b a := by
  apply residue_injective
  rw [residue_fieldMul, residue_fieldMul, mul_comm]

theorem fieldMul_assoc (a b c : FieldElement) : fieldMul (fieldMul a b) c = fieldMul a (fieldMul b c) := by
  apply residue_injective
  simp only [residue_fieldMul]
  rw [mul_assoc]

theorem one_fieldMul (a : FieldElement) : fieldMul 1 a = a := by
  apply residue_injective
  rw [residue_fieldMul, residue_one, one_mul]

theorem zero_fieldMul (a : FieldElement) : fieldMul 0 a = 0 := by
  apply residue_injective
  rw [residue_fieldMul, residue_zero, zero_mul]

theorem fieldMul_xor (a b c : FieldElement) : fieldMul a (b ^^^ c) = fieldMul a b ^^^ fieldMul a c := by
  apply residue_injective
  rw [residue_fieldMul, residue_xor, residue_xor, residue_fieldMul, residue_fieldMul, mul_add]

theorem xor_self (a : FieldElement) : a ^^^ a = 0 := FieldElement.ext (Nat.xor_self a.val)

theorem xor_assoc (a b c : FieldElement) : a ^^^ b ^^^ c = a ^^^ (b ^^^ c) :=
  FieldElement.ext (Nat.xor_assoc a.val b.val c.val)

theorem xor_comm (a b : FieldElement) : a ^^^ b = b ^^^ a := FieldElement.ext (Nat.xor_comm a.val b.val)

theorem xor_zero (a : FieldElement) : a ^^^ 0 = a := FieldElement.ext (Nat.xor_zero a.val)

instance instAdd : Add FieldElement := ⟨fun a b => a ^^^ b⟩

instance instNeg : Neg FieldElement := ⟨fun a => a⟩

instance instMul : Mul FieldElement := ⟨fieldMul⟩

theorem fieldMul_eq_mul (a b : FieldElement) : fieldMul a b = a * b := rfl

instance instCommRing : CommRing FieldElement where
  add_assoc a b c := xor_assoc a b c
  zero_add a := (xor_comm 0 a).trans (xor_zero a)
  add_zero a := xor_zero a
  add_comm a b := xor_comm a b
  neg_add_cancel a := xor_self a
  nsmul := nsmulRec
  zsmul := zsmulRec
  mul_assoc a b c := fieldMul_assoc a b c
  one_mul a := one_fieldMul a
  mul_one a := (fieldMul_comm a 1).trans (one_fieldMul a)
  zero_mul a := zero_fieldMul a
  mul_zero a := (fieldMul_comm a 0).trans (zero_fieldMul a)
  left_distrib a b c := fieldMul_xor a b c
  right_distrib a b c := by
    show fieldMul (a ^^^ b) c = fieldMul a c ^^^ fieldMul b c
    rw [fieldMul_comm, fieldMul_xor, fieldMul_comm c a, fieldMul_comm c b]
  mul_comm a b := fieldMul_comm a b

theorem isField : IsField FieldElement where
  exists_pair_ne := ⟨0, 1, by decide⟩
  mul_comm := mul_comm
  mul_inv_cancel := by
    intro a ha
    exact ⟨fieldPow a (2 ^ 64 - 2), mul_fieldPow ha⟩

/-- **The words are a field.** -/
noncomputable instance instField : Field FieldElement := isField.toField

theorem add_self (a : FieldElement) : a + a = 0 := xor_self a

instance instCharTwo : CharP FieldElement 2 := CharTwo.of_one_ne_zero_of_two_eq_zero one_ne_zero (by
  rw [← one_add_one_eq_two]
  exact add_self 1)

end FieldElement

/-- `_field_inv` returns the inverse of every element but zero. -/
theorem fieldInv_eq {a : FieldElement} (ha : a ≠ 0) : fieldInv a = .ok a⁻¹ := by
  have hpow : a⁻¹ = fieldPow a (2 ^ 64 - 2) := inv_eq_of_mul_eq_one_right (mul_fieldPow ha)
  unfold fieldInv
  rw [Exn.ensure_of _ ha, hpow]
  rfl

theorem fieldDiv_eq (a : FieldElement) {b : FieldElement} (hb : b ≠ 0) : fieldDiv a b = .ok (a * b⁻¹) := by
  unfold fieldDiv
  rw [fieldInv_eq hb]
  rfl

end Erlay

end TensorPow
