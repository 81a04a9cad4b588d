import Mathlib

/-!
# Polynomials as lists of coefficients

* `toPoly l`: the polynomial with the coefficients of `l`, the constant first.
* `Trimmed l`: no zeros at the end, except in `[0]`. A polynomial has one trimmed list, and its
  length tells the degree.
* `toPoly_modify`, `toPoly_set`: changing one coefficient adds a monomial.
-/

namespace Coeffs

open Polynomial

variable {R : Type*} [CommRing R]

/-- The polynomial with the coefficients of a list, the constant first. -/
noncomputable def toPoly : List R → R[X]
  | [] => 0
  | a :: l => C a + X * toPoly l

theorem coeff_toPoly (l : List R) : ∀ i : ℕ, (toPoly l).coeff i = l.getD i 0 := by
  induction l with
  | nil =>
    intro i
    rw [toPoly, coeff_zero]
    rfl
  | cons a l ih =>
    intro i
    rw [toPoly]
    cases i with
    | zero => simp
    | succ i => simp [coeff_X_mul, coeff_C_succ, ih]

theorem toPoly_eq_iff {l : List R} {p : R[X]} : toPoly l = p ↔ ∀ i, l.getD i 0 = p.coeff i := by
  constructor
  · rintro rfl i
    rw [coeff_toPoly]
  · intro h
    ext i
    rw [coeff_toPoly, h]

@[simp] theorem toPoly_zero : toPoly [(0 : R)] = 0 := by simp [toPoly]

theorem toPoly_linear (a : R) : toPoly [0, a] = C a * X := by
  rw [toPoly, toPoly, toPoly, C_0, mul_zero, add_zero, zero_add, X_mul_C]

theorem toPoly_replicate (n : ℕ) : toPoly (List.replicate n (0 : R)) = 0 := by
  induction n with
  | zero => rfl
  | succ n ih => rw [List.replicate_succ, toPoly, ih, mul_zero, C_0, add_zero]

/-- A zero at the end changes nothing. -/
theorem toPoly_concat_zero (l : List R) : toPoly (l ++ [0]) = toPoly l := by
  rw [toPoly_eq_iff]
  intro i
  rw [coeff_toPoly]
  rcases lt_or_ge i l.length with hi | hi
  · rw [List.getD_append _ _ _ _ hi]
  · rw [List.getD_append_right _ _ _ _ hi, List.getD_eq_default l _ hi]
    cases i - l.length <;> rfl

theorem getD_modify (f : R → R) (l : List R) (n i : ℕ) (h : n < l.length) :
    (l.modify n f).getD i 0 = if n = i then f (l.getD i 0) else l.getD i 0 := by
  simp only [List.getD_eq_getElem?_getD, List.getElem?_modify]
  split
  · rename_i hi
    subst hi
    rw [List.getElem?_eq_getElem h]
    rfl
  · cases l[i]? <;> rfl

/-- Adding to a coefficient adds a monomial. -/
theorem toPoly_modify (l : List R) (n : ℕ) (a : R) (h : n < l.length) :
    toPoly (l.modify n (· + a)) = toPoly l + C a * X ^ n := by
  rw [toPoly_eq_iff]
  intro i
  rw [getD_modify _ _ _ _ h, coeff_add, coeff_toPoly, coeff_C_mul_X_pow]
  by_cases hi : n = i
  · rw [if_pos hi, if_pos hi.symm]
  · rw [if_neg hi, if_neg (Ne.symm hi), add_zero]

/-- Setting a coefficient that is zero adds a monomial. -/
theorem toPoly_set (l : List R) (n : ℕ) (a : R) (h : n < l.length) (hzero : l.getD n 0 = 0) :
    toPoly (l.set n a) = toPoly l + C a * X ^ n := by
  rw [toPoly_eq_iff]
  intro i
  rw [coeff_add, coeff_toPoly, coeff_C_mul_X_pow]
  by_cases hi : n = i
  · subst hi
    rw [if_pos rfl, hzero, zero_add]
    simp [List.getD_eq_getElem?_getD, h]
  · rw [if_neg (Ne.symm hi), add_zero]
    simp [List.getD_eq_getElem?_getD, List.getElem?_set_ne hi]

/-- Cutting a list past the degree changes nothing. -/
theorem toPoly_take {l : List R} {k : ℕ} (h : (toPoly l).degree < k) : toPoly (l.take k) = toPoly l := by
  rw [toPoly_eq_iff]
  intro i
  rcases lt_or_ge i k with hi | hi
  · rw [coeff_toPoly, List.getD_eq_getElem?_getD, List.getElem?_take_of_lt hi, ← List.getD_eq_getElem?_getD]
  · rw [coeff_eq_zero_of_degree_lt (lt_of_lt_of_le h (by exact_mod_cast hi)),
      List.getD_eq_default _ _ ((List.length_take_le _ _).trans hi)]

/-! ## Trimmed lists -/

/-- No zeros at the end, except in `[0]`. -/
def Trimmed (l : List R) : Prop := l = [0] ∨ l.getLastD 0 ≠ 0

theorem Trimmed.zero : Trimmed [(0 : R)] := Or.inl rfl

theorem Trimmed.ne_nil {l : List R} (h : Trimmed l) : l ≠ [] := by
  rintro rfl
  rcases h with h | h
  · cases h
  · exact h rfl

theorem Trimmed.length_pos {l : List R} (h : Trimmed l) : 0 < l.length := List.length_pos_iff.2 h.ne_nil

theorem getLastD_eq_coeff (l : List R) : l.getLastD 0 = (toPoly l).coeff (l.length - 1) := by
  rw [coeff_toPoly, List.getD_eq_getElem?_getD, ← List.getLast?_eq_getElem?, List.getLastD_eq_getLast?]

theorem degree_toPoly_lt (l : List R) : (toPoly l).degree < l.length := by
  rw [degree_lt_iff_coeff_zero]
  intro i hi
  rw [coeff_toPoly, List.getD_eq_default _ _ hi]

/-- The length of a trimmed list tells the degree. -/
theorem Trimmed.degree {l : List R} (h : Trimmed l) (hne : l ≠ [0]) : (toPoly l).degree = ((l.length - 1 : ℕ) : WithBot ℕ) := by
  have hlast : l.getLastD 0 ≠ 0 := h.resolve_left hne
  rw [getLastD_eq_coeff] at hlast
  apply le_antisymm
  · rw [degree_le_iff_coeff_zero]
    intro i hi
    have hpos := h.length_pos
    have hlt : l.length - 1 < i := by exact_mod_cast hi
    rw [coeff_toPoly, List.getD_eq_default _ _ (by omega)]
  · exact le_degree_of_ne_zero hlast

theorem Trimmed.toPoly_ne_zero {l : List R} (h : Trimmed l) (hne : l ≠ [0]) : toPoly l ≠ 0 := by
  intro hzero
  have hdeg := h.degree hne
  rw [hzero, degree_zero] at hdeg
  cases hdeg

theorem Trimmed.toPoly_eq_zero {l : List R} (h : Trimmed l) : toPoly l = 0 ↔ l = [0] := by
  constructor
  · intro hzero
    by_contra hne
    exact h.toPoly_ne_zero hne hzero
  · rintro rfl
    exact toPoly_zero

theorem Trimmed.leadingCoeff {l : List R} (h : Trimmed l) (hne : l ≠ [0]) : (toPoly l).leadingCoeff = l.getLastD 0 := by
  rw [Polynomial.leadingCoeff, natDegree_eq_of_degree_eq_some (h.degree hne), getLastD_eq_coeff]

/-- A polynomial has one trimmed list. -/
theorem Trimmed.ext {l l' : List R} (h : Trimmed l) (h' : Trimmed l') (heq : toPoly l = toPoly l') : l = l' := by
  by_cases hzero : l = [0]
  · subst hzero
    rw [toPoly_zero] at heq
    exact (h'.toPoly_eq_zero.1 heq.symm).symm
  · have hzero' : l' ≠ [0] := by
      rintro rfl
      exact hzero (h.toPoly_eq_zero.1 (heq.trans toPoly_zero))
    have hlen : l.length = l'.length := by
      have hdeg := h.degree hzero
      rw [heq, h'.degree hzero'] at hdeg
      have hpos := h.length_pos
      have hpos' := h'.length_pos
      have hsub : l'.length - 1 = l.length - 1 := by exact_mod_cast hdeg
      omega
    apply List.ext_getElem hlen
    intro i hi hi'
    have hcoeff := congrArg (fun p => p.coeff i) heq
    simp only [coeff_toPoly] at hcoeff
    rw [List.getD_eq_getElem _ _ hi, List.getD_eq_getElem _ _ hi'] at hcoeff
    exact hcoeff

/-- A trimmed list of a polynomial of small degree is short. -/
theorem Trimmed.length_le {l : List R} (h : Trimmed l) {n : ℕ} (hn : 0 < n) (hdeg : (toPoly l).degree < n) :
    l.length ≤ n := by
  by_cases hzero : l = [0]
  · subst hzero
    exact hn
  · rw [h.degree hzero] at hdeg
    have hlt : l.length - 1 < n := by exact_mod_cast hdeg
    omega

end Coeffs
