import Mathlib

/-!
# Shift registers

A register of length `L` with connection polynomial `C` generates the first `n` terms of a
sequence if `C * S` has no coefficients from `L` up to `n`, where `S` is the generating series.

* `Generates`: such a register.
* `Generates.length_ge`: a register that fails at the next term bounds the length of every
  register that does not.
* `Generates.correct`: the correction of a register by an older one that failed.
* `Generates.unique`: a register no longer than another one, which is in lowest terms, and on
  twice as many terms, is the same.
-/

namespace Recurrence

open Polynomial PowerSeries

variable {K : Type*} [Field K] {S : K⟦X⟧} {C D : K[X]} {L M n : ℕ}

/-- The register of length `L` with connection polynomial `C` generates the first `n` terms. -/
structure Generates (S : K⟦X⟧) (C : K[X]) (L n : ℕ) : Prop where
  natDegree_le : C.natDegree ≤ L
  coeff_zero : C.coeff 0 = 1
  vanishes : ∀ j, L ≤ j → j < n → PowerSeries.coeff j ((C : K⟦X⟧) * S) = 0

/-- A product with a polynomial of small degree uses the last coefficients only. -/
theorem coeff_mul_eq_sum (C : K[X]) (hdeg : C.natDegree ≤ L) (T : K⟦X⟧) (j : ℕ) :
    PowerSeries.coeff j ((C : K⟦X⟧) * T) =
      ∑ i ∈ Finset.range (L + 1), C.coeff i * if i ≤ j then PowerSeries.coeff (j - i) T else 0 := by
  rw [PowerSeries.coeff_mul, Finset.Nat.sum_antidiagonal_eq_sum_range_succ_mk]
  simp only [Polynomial.coeff_coe]
  -- past the degree the coefficients are zero, past `j` the other factor is
  have hlong : ∀ N, j ≤ N → ∑ i ∈ Finset.range (j + 1), C.coeff i * PowerSeries.coeff (j - i) T =
      ∑ i ∈ Finset.range (N + 1), C.coeff i * if i ≤ j then PowerSeries.coeff (j - i) T else 0 := by
    intro N hN
    rw [← Finset.sum_subset (Finset.range_mono (Nat.succ_le_succ hN))]
    · apply Finset.sum_congr rfl
      intro i hi
      rw [if_pos (by rw [Finset.mem_range] at hi; omega)]
    · intro i _ hi
      rw [if_neg (by rw [Finset.mem_range] at hi; omega), mul_zero]
  rw [hlong (max j L) (le_max_left _ _)]
  rw [← Finset.sum_subset (Finset.range_mono (Nat.succ_le_succ (le_max_right j L)))]
  intro i _ hi
  rw [Polynomial.coeff_eq_zero_of_natDegree_lt (by rw [Finset.mem_range] at hi; omega), zero_mul]

/-- A register moved past a series whose coefficients vanish on a window leaves only the first
coefficient at the end of the window. -/
theorem coeff_mul_window (hdeg : C.natDegree ≤ L) {T : K⟦X⟧} {j : ℕ} (hwindow : ∀ i, i < j → j ≤ i + L →
    PowerSeries.coeff i T = 0) : PowerSeries.coeff j ((C : K⟦X⟧) * T) = C.coeff 0 * PowerSeries.coeff j T := by
  rw [coeff_mul_eq_sum C hdeg, Finset.sum_eq_single 0]
  · simp
  · intro i hi hne
    rw [Finset.mem_range] at hi
    split
    · rw [hwindow (j - i) (by omega) (by omega), mul_zero]
    · rw [mul_zero]
  · intro h
    exact absurd (Finset.mem_range.2 (Nat.succ_pos L)) h

namespace Generates

theorem mono (h : Generates S C L n) {m : ℕ} (hm : m ≤ n) : Generates S C L m :=
  ⟨h.natDegree_le, h.coeff_zero, fun j hL hj => h.vanishes j hL (by omega)⟩

/-- A register that also gets the next term right. -/
theorem succ (h : Generates S C L n) (hnext : PowerSeries.coeff n ((C : K⟦X⟧) * S) = 0) : Generates S C L (n + 1) := by
  refine ⟨h.natDegree_le, h.coeff_zero, ?_⟩
  intro j hL hj
  rcases eq_or_lt_of_le (Nat.le_of_lt_succ hj) with rfl | hlt
  · exact hnext
  · exact h.vanishes j hL hlt

/-- **If a register fails at a term, every register that does not is long.** -/
theorem length_ge (h : Generates S C L n) (hfail : PowerSeries.coeff n ((C : K⟦X⟧) * S) ≠ 0)
    (h' : Generates S D M (n + 1)) : n + 1 ≤ L + M := by
  by_contra hshort
  apply hfail
  -- the coefficient of both registers together, taken apart in the two ways
  have hleft : PowerSeries.coeff n ((D : K⟦X⟧) * ((C : K⟦X⟧) * S)) = PowerSeries.coeff n ((C : K⟦X⟧) * S) := by
    rw [coeff_mul_window h'.natDegree_le, h'.coeff_zero, one_mul]
    intro i hi hM
    exact h.vanishes i (by omega) hi
  have hright : PowerSeries.coeff n ((C : K⟦X⟧) * ((D : K⟦X⟧) * S)) = 0 := by
    rw [coeff_mul_window h.natDegree_le, h'.vanishes n (by omega) (by omega), mul_zero]
    intro i hi hL
    exact h'.vanishes i (by omega) (by omega)
  rw [← hleft, mul_left_comm, hright]

/-- **The correction**: a register that fails at term `n` and an older one of length `M` that
failed at term `m` make a register that does not fail. -/
theorem correct (h : Generates S C L n) {m : ℕ} (h' : Generates S D M m) (hm : m < n)
    (hfail : PowerSeries.coeff m ((D : K⟦X⟧) * S) ≠ 0) {L' : ℕ} (hL : L ≤ L') (hM : M + (n - m) ≤ L') :
    Generates S (C - Polynomial.C (PowerSeries.coeff n ((C : K⟦X⟧) * S) / PowerSeries.coeff m ((D : K⟦X⟧) * S)) *
      Polynomial.X ^ (n - m) * D) L' (n + 1) := by
  set scale := PowerSeries.coeff n ((C : K⟦X⟧) * S) / PowerSeries.coeff m ((D : K⟦X⟧) * S) with hscale
  have hcoeff : ∀ j, PowerSeries.coeff j (((C - Polynomial.C scale * Polynomial.X ^ (n - m) * D : K[X]) : K⟦X⟧) * S) =
      PowerSeries.coeff j ((C : K⟦X⟧) * S) -
        scale * if n - m ≤ j then PowerSeries.coeff (j - (n - m)) ((D : K⟦X⟧) * S) else 0 := by
    intro j
    rw [Polynomial.coe_sub, Polynomial.coe_mul, Polynomial.coe_mul, Polynomial.coe_pow, Polynomial.coe_X,
      Polynomial.coe_C, sub_mul, map_sub, mul_assoc, mul_assoc, PowerSeries.coeff_C_mul, PowerSeries.coeff_X_pow_mul']
  refine ⟨?_, ?_, ?_⟩
  · refine (natDegree_sub_le _ _).trans (max_le (h.natDegree_le.trans hL) ?_)
    refine (natDegree_mul_le.trans (Nat.add_le_add (natDegree_C_mul_X_pow_le _ _) h'.natDegree_le)).trans ?_
    omega
  · rw [Polynomial.coeff_sub, h.coeff_zero, mul_assoc, Polynomial.coeff_C_mul, mul_comm (Polynomial.X ^ _),
      Polynomial.coeff_mul_X_pow', if_neg (by omega), mul_zero, sub_zero]
  · intro j hLj hj
    rw [hcoeff]
    rcases eq_or_lt_of_le (Nat.le_of_lt_succ hj) with rfl | hlt
    · -- at the term where both failed the two cancel
      rw [if_pos (Nat.sub_le _ _), show j - (j - m) = m by omega, hscale, div_mul_cancel₀ _ hfail, sub_self]
    · rw [h.vanishes j (by omega) hlt]
      split
      · rw [h'.vanishes _ (by omega) (by omega), mul_zero, sub_zero]
      · rw [mul_zero, sub_zero]

/-- The first correction, when all terms so far were zero. -/
theorem first (hdeg : C.natDegree ≤ n) (hone : C.coeff 0 = 1) (scale : K) :
    Generates S (C - Polynomial.C scale * Polynomial.X ^ (n + 1)) (n + 1) (n + 1) := by
  refine ⟨?_, ?_, ?_⟩
  · refine (natDegree_sub_le _ _).trans (max_le (by omega) ?_)
    exact natDegree_C_mul_X_pow_le _ _
  · rw [Polynomial.coeff_sub, hone, Polynomial.coeff_C_mul, Polynomial.coeff_X_pow, if_neg (by omega), mul_zero, sub_zero]
  · intro j hL hj
    omega

/-- **Uniqueness.** A register of length `t` in lowest terms is the only one of at most that
length that generates twice as many terms. -/
theorem unique {P : K[X]} {t : ℕ} (h : Generates S C L n) (hdeg : D.natDegree = t) (hone : D.coeff 0 = 1)
    (hP : (D : K⟦X⟧) * S = (P : K⟦X⟧)) (hPdeg : P.degree < t) (hcop : IsCoprime D P) (hL : L ≤ t) (hn : 2 * t ≤ n) :
    C = D ∧ L = t := by
  -- the coefficients of `C * S` below `L`
  set Q : K[X] := PowerSeries.trunc L ((C : K⟦X⟧) * S) with hQ
  have hQcoeff : ∀ j, j < n → Q.coeff j = PowerSeries.coeff j ((C : K⟦X⟧) * S) := by
    intro j hj
    rw [hQ, PowerSeries.coeff_trunc]
    split
    · rfl
    · exact (h.vanishes j (by omega) hj).symm
  have hQdeg : Q.degree < L := PowerSeries.degree_trunc_lt _ _
  have hproduct : D * Q = C * P := by
    ext j
    rcases lt_or_ge j n with hj | hj
    · have hseries : PowerSeries.coeff j ((D : K⟦X⟧) * ((C : K⟦X⟧) * S)) = PowerSeries.coeff j ((C : K⟦X⟧) * (P : K⟦X⟧)) := by
        rw [mul_left_comm, hP]
      rw [← Polynomial.coeff_coe, ← Polynomial.coeff_coe, Polynomial.coe_mul, Polynomial.coe_mul, ← hseries,
        PowerSeries.coeff_mul, PowerSeries.coeff_mul]
      apply Finset.sum_congr rfl
      intro p hp
      have hsum : p.1 + p.2 = j := Finset.HasAntidiagonal.mem_antidiagonal.1 hp
      rw [Polynomial.coeff_coe Q, hQcoeff p.2 (by omega)]
    · -- neither product has coefficients there
      have hDQ : (D * Q).degree < n := by
        refine lt_of_le_of_lt (degree_mul_le D Q) ?_
        by_cases hzero : Q = 0
        · rw [hzero, degree_zero]
          simp
        · have hQnat : Q.natDegree < L := (natDegree_lt_iff_degree_lt hzero).2 hQdeg
          have hD : D.degree ≤ (t : WithBot ℕ) := hdeg ▸ degree_le_natDegree
          rw [degree_eq_natDegree hzero]
          refine lt_of_le_of_lt (add_le_add_left hD _) ?_
          exact_mod_cast (show t + Q.natDegree < n by omega)
      have hCP : (C * P).degree < n := by
        refine lt_of_le_of_lt (degree_mul_le C P) ?_
        by_cases hzero : P = 0
        · rw [hzero, degree_zero]
          simp
        · have hPnat : P.natDegree < t := (natDegree_lt_iff_degree_lt hzero).2 hPdeg
          have hC : C.degree ≤ (L : WithBot ℕ) := degree_le_of_natDegree_le h.natDegree_le
          rw [degree_eq_natDegree hzero]
          refine lt_of_le_of_lt (add_le_add_left hC _) ?_
          exact_mod_cast (show L + P.natDegree < n by omega)
      rw [coeff_eq_zero_of_degree_lt (lt_of_lt_of_le hDQ (by exact_mod_cast hj)),
        coeff_eq_zero_of_degree_lt (lt_of_lt_of_le hCP (by exact_mod_cast hj))]
  -- so `D` divides `C`, and degree and constant term leave no other factor
  have hdvd : D ∣ C := hcop.dvd_of_dvd_mul_right ⟨Q, hproduct.symm⟩
  obtain ⟨E, hE⟩ := hdvd
  have hCne : C ≠ 0 := by
    rintro rfl
    have hzero := h.coeff_zero
    rw [Polynomial.coeff_zero] at hzero
    exact zero_ne_one hzero
  have hEne : E ≠ 0 := by
    rintro rfl
    exact hCne (by rw [hE, mul_zero])
  have hDne : D ≠ 0 := by
    rintro rfl
    exact hCne (by rw [hE, zero_mul])
  have hdegs : C.natDegree = D.natDegree + E.natDegree := by
    rw [hE, natDegree_mul hDne hEne]
  have hCdeg := h.natDegree_le
  have hEzero : E.natDegree = 0 := by omega
  have hEone : E = 1 := by
    rw [eq_C_of_natDegree_eq_zero hEzero]
    have hcoeff := h.coeff_zero
    rw [hE, mul_coeff_zero, hone, one_mul] at hcoeff
    rw [hcoeff, C_1]
  refine ⟨by rw [hE, hEone, mul_one], by omega⟩

end Generates

end Recurrence
