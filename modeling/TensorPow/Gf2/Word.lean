import Mathlib

/-!
# Binary words as polynomials over the field of two elements

* `wordPoly n`: the polynomial whose coefficients are the bits of `n`. Exclusive or adds, a
  shift multiplies by `X`.
* `irreducible_of_frobenius`: a polynomial of degree `2 ^ (k + 1)` is irreducible if squaring a
  root that often gives the root back, and squaring it half as often gives something that
  differs from it by a unit.
-/

namespace Gf2

open Polynomial

/-! ## Words -/

/-- A bit as a coefficient. -/
def coeffOf (b : Bool) : ZMod 2 := if b then 1 else 0

/-- The polynomial whose coefficients are the bits of a word. -/
noncomputable def wordPoly (n : ℕ) : (ZMod 2)[X] := ∑ i ∈ Finset.range n.size, C (coeffOf (n.testBit i)) * X ^ i

theorem coeff_wordPoly (n i : ℕ) : (wordPoly n).coeff i = coeffOf (n.testBit i) := by
  unfold wordPoly
  rw [finsetSum_coeff]
  simp only [coeff_C_mul_X_pow]
  rw [Finset.sum_ite_eq]
  split
  · rfl
  · -- past its last bit a word has zeros
    rename_i hout
    have hsize : n < 2 ^ i := lt_of_lt_of_le n.lt_size_self (Nat.pow_le_pow_right (by omega) (by simpa using hout))
    rw [Nat.testBit_lt_two_pow hsize]
    rfl

theorem coeffOf_xor (a b : Bool) : coeffOf (a ^^ b) = coeffOf a + coeffOf b := by
  revert a b
  decide

@[simp] theorem wordPoly_zero : wordPoly 0 = 0 := by
  ext i
  rw [coeff_wordPoly, Nat.zero_testBit, coeff_zero]
  rfl

theorem testBit_one_eq (i : ℕ) : Nat.testBit 1 i = decide (i = 0) := by
  cases i with
  | zero => rfl
  | succ i => simp [Nat.testBit_succ]

@[simp] theorem wordPoly_one : wordPoly 1 = 1 := by
  ext i
  rw [coeff_wordPoly, coeff_one, testBit_one_eq]
  unfold coeffOf
  simp

theorem wordPoly_xor (a b : ℕ) : wordPoly (a ^^^ b) = wordPoly a + wordPoly b := by
  ext i
  rw [coeff_add, coeff_wordPoly, coeff_wordPoly, coeff_wordPoly, Nat.testBit_xor, coeffOf_xor]

theorem wordPoly_shiftLeft (n k : ℕ) : wordPoly (n <<< k) = X ^ k * wordPoly n := by
  ext i
  rw [coeff_wordPoly, coeff_X_pow_mul', Nat.testBit_shiftLeft]
  by_cases h : k ≤ i
  · rw [if_pos h, coeff_wordPoly]
    simp [h]
  · rw [if_neg h]
    simp [h, coeffOf]

/-- The lowest bit and the others. -/
theorem wordPoly_split (n : ℕ) : wordPoly n = wordPoly (n &&& 1) + X * wordPoly (n >>> 1) := by
  have hword : n = (n &&& 1) ^^^ ((n >>> 1) <<< 1) := by
    apply Nat.eq_of_testBit_eq
    intro i
    rw [Nat.testBit_xor, Nat.testBit_and, Nat.testBit_shiftLeft, Nat.testBit_shiftRight, testBit_one_eq]
    cases i with
    | zero => simp
    | succ i => simp [Nat.add_comm]
  conv_lhs => rw [hword]
  rw [wordPoly_xor, wordPoly_shiftLeft, pow_one]

theorem wordPoly_injective : Function.Injective wordPoly := by
  intro a b h
  apply Nat.eq_of_testBit_eq
  intro i
  have hcoeff : coeffOf (a.testBit i) = coeffOf (b.testBit i) := by
    rw [← coeff_wordPoly, ← coeff_wordPoly, h]
  revert hcoeff
  generalize a.testBit i = x
  generalize b.testBit i = y
  revert x y
  decide

theorem degree_wordPoly_lt {n k : ℕ} (h : n < 2 ^ k) : (wordPoly n).degree < k := by
  rw [degree_lt_iff_coeff_zero]
  intro i hi
  rw [coeff_wordPoly, Nat.testBit_lt_two_pow (lt_of_lt_of_le h (Nat.pow_le_pow_right (by omega) hi))]
  rfl

/-- A word with a bit in front. -/
theorem wordPoly_lead (n k : ℕ) : wordPoly (2 ^ k ^^^ n) = X ^ k + wordPoly n := by
  have htop : wordPoly (2 ^ k) = X ^ k := by
    have hshift := wordPoly_shiftLeft 1 k
    rw [Nat.shiftLeft_eq, Nat.one_mul, wordPoly_one, mul_one] at hshift
    exact hshift
  rw [wordPoly_xor, htop]

theorem monic_wordPoly_lead {n k : ℕ} (h : n < 2 ^ k) : (wordPoly (2 ^ k ^^^ n)).Monic := by
  rw [wordPoly_lead]
  exact monic_X_pow_add (degree_wordPoly_lt h)

theorem natDegree_wordPoly_lead {n k : ℕ} (h : n < 2 ^ k) : (wordPoly (2 ^ k ^^^ n)).natDegree = k := by
  have hlt : (wordPoly n).degree < (X ^ k : (ZMod 2)[X]).degree := by
    rw [degree_X_pow]
    exact degree_wordPoly_lt h
  rw [wordPoly_lead, natDegree_add_eq_left_of_degree_lt hlt, natDegree_X_pow]

/-! ## Irreducible polynomials -/

section Frobenius

variable {R : Type*} [CommRing R]

theorem iterate_square (n : ℕ) (a : R) : (fun x : R => x ^ 2)^[n] a = a ^ 2 ^ n := by
  induction n generalizing a with
  | zero => simp
  | succ n ih =>
    rw [Function.iterate_succ_apply, ih, ← pow_mul, pow_succ']

/-- A divisor of a power of two that is not the power itself divides its half. -/
theorem dvd_half {k d : ℕ} (hdvd : d ∣ 2 ^ (k + 1)) (hlt : d < 2 ^ (k + 1)) : d ∣ 2 ^ k := by
  obtain ⟨j, hj, rfl⟩ := (Nat.dvd_prime_pow Nat.prime_two).1 hdvd
  have hne : j ≠ k + 1 := by
    rintro rfl
    exact lt_irrefl _ hlt
  exact pow_dvd_pow 2 (by omega)

/-- The field an irreducible polynomial of degree `d` makes has `2 ^ d` elements. -/
theorem pow_order {q : (ZMod 2)[X]} (hq : Irreducible q) (a : AdjoinRoot q) : a ^ 2 ^ q.natDegree = a := by
  have : Fact (Irreducible q) := ⟨hq⟩
  have : Module.Finite (ZMod 2) (AdjoinRoot q) := (AdjoinRoot.powerBasis hq.ne_zero).finite
  have : Finite (AdjoinRoot q) := Module.finite_of_finite (ZMod 2)
  have : Fintype (AdjoinRoot q) := Fintype.ofFinite _
  have hcard : Fintype.card (AdjoinRoot q) = 2 ^ q.natDegree := by
    rw [Module.card_eq_pow_finrank (K := ZMod 2), ZMod.card, (AdjoinRoot.powerBasis hq.ne_zero).finrank,
      AdjoinRoot.powerBasis_dim]
  rw [← hcard]
  exact FiniteField.pow_card a

variable {p : (ZMod 2)[X]} {k : ℕ}

/-- An irreducible factor has the degree of the polynomial: in the field it makes, the root has
no shorter period under squaring. -/
theorem natDegree_factor_ge (hroot : AdjoinRoot.root p ^ 2 ^ 2 ^ (k + 1) = AdjoinRoot.root p)
    (hunit : IsUnit (AdjoinRoot.root p ^ 2 ^ 2 ^ k - AdjoinRoot.root p)) {q : (ZMod 2)[X]} (hq : Irreducible q)
    (hdvd : q ∣ p) : 2 ^ (k + 1) ≤ q.natDegree := by
  by_contra hlt
  rw [not_le] at hlt
  have : Fact (Irreducible q) := ⟨hq⟩
  -- the roots of the factor are roots of the polynomial
  let φ : AdjoinRoot p →ₐ[ZMod 2] AdjoinRoot q := AdjoinRoot.liftAlgHom p (Algebra.ofId _ _) (AdjoinRoot.root q) (by
    obtain ⟨r, rfl⟩ := hdvd
    rw [Polynomial.eval₂_mul]
    have hzero : eval₂ (AdjoinRoot.of q) (AdjoinRoot.root q) q = 0 := AdjoinRoot.eval₂_root q
    have hsame : ((Algebra.ofId (ZMod 2) (AdjoinRoot q) : ZMod 2 →ₐ[ZMod 2] AdjoinRoot q) : ZMod 2 →+* AdjoinRoot q) =
        AdjoinRoot.of q := rfl
    rw [hsame, hzero, zero_mul])
  have hφ : φ (AdjoinRoot.root p) = AdjoinRoot.root q := AdjoinRoot.liftAlgHom_root ..
  set α := AdjoinRoot.root q
  have hfix : α ^ 2 ^ 2 ^ (k + 1) = α := by
    rw [← hφ, ← map_pow, hroot]
  have hfix' : α ^ 2 ^ q.natDegree = α := pow_order hq α
  have hperiod : Function.IsPeriodicPt (fun x : AdjoinRoot q => x ^ 2) (2 ^ (k + 1)) α := by
    show (fun x : AdjoinRoot q => x ^ 2)^[2 ^ (k + 1)] α = α
    rw [iterate_square, hfix]
  have hperiod' : Function.IsPeriodicPt (fun x : AdjoinRoot q => x ^ 2) q.natDegree α := by
    show (fun x : AdjoinRoot q => x ^ 2)^[q.natDegree] α = α
    rw [iterate_square, hfix']
  have hpos : 0 < q.natDegree := hq.natDegree_pos
  have hhalf : Nat.gcd (2 ^ (k + 1)) q.natDegree ∣ 2 ^ k :=
    dvd_half (Nat.gcd_dvd_left _ _) (lt_of_le_of_lt (Nat.gcd_le_right _ hpos) hlt)
  have hshort : α ^ 2 ^ 2 ^ k = α := by
    rw [← iterate_square]
    exact (hperiod.gcd hperiod').trans_dvd hhalf
  -- so the unit would vanish
  have hmap : φ (AdjoinRoot.root p ^ 2 ^ 2 ^ k - AdjoinRoot.root p) = 0 := by
    rw [map_sub, map_pow, hφ, hshort, sub_self]
  exact not_isUnit_zero (hmap ▸ hunit.map φ)

/-- **A test for irreducible polynomials** whose degree is a power of two. -/
theorem irreducible_of_frobenius (hdeg : p.natDegree = 2 ^ (k + 1))
    (hroot : AdjoinRoot.root p ^ 2 ^ 2 ^ (k + 1) = AdjoinRoot.root p)
    (hunit : IsUnit (AdjoinRoot.root p ^ 2 ^ 2 ^ k - AdjoinRoot.root p)) : Irreducible p := by
  have hpos : 0 < p.natDegree := by
    rw [hdeg]
    exact Nat.two_pow_pos _
  have hnonunit : ¬IsUnit p := not_isUnit_of_natDegree_pos p hpos
  obtain ⟨q, hq, hdvd⟩ := WfDvdMonoid.exists_irreducible_factor hnonunit (ne_zero_of_natDegree_gt hpos)
  have hge := natDegree_factor_ge hroot hunit hq hdvd
  obtain ⟨r, rfl⟩ := hdvd
  -- the other factor is a constant
  have hr : r ≠ 0 := by
    rintro rfl
    rw [mul_zero, natDegree_zero] at hpos
    exact lt_irrefl _ hpos
  have hsum := natDegree_mul hq.ne_zero hr
  have hconst : r.natDegree = 0 := by omega
  have hunit' : IsUnit r := by
    rw [isUnit_iff_degree_eq_zero, degree_eq_natDegree hr, hconst]
    rfl
  exact (irreducible_mul_isUnit hunit').2 hq

end Frobenius

end Gf2
