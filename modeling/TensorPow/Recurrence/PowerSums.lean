import TensorPow.Recurrence.Massey

/-!
# Power sums

The power sums of a finite set of nonzero elements are generated by the register whose
connection polynomial has the inverses of the elements as its roots.

* `powerSeries s`: the series of the power sums.
* `locator s`, `evaluator s`: the product of the `1 - a X`, and the polynomial it makes of the series.
* `rootPoly s`: the product of the `X - a`, which is the locator read backwards.
* `Generates.eq_locator`: a short enough register that generates enough power sums is the locator.
-/

namespace Recurrence

open Polynomial PowerSeries

variable {K : Type*} [Field K] {s : Finset K}

/-- The series of the power sums: the first coefficient is the sum of the elements. -/
noncomputable def powerSeries (s : Finset K) : K⟦X⟧ := PowerSeries.mk fun j => ∑ a ∈ s, a ^ (j + 1)

/-- The factor of one element. -/
noncomputable def factor (a : K) : K[X] := 1 - Polynomial.C a * Polynomial.X

/-- The connection polynomial of the power sums. -/
noncomputable def locator (s : Finset K) : K[X] := ∏ a ∈ s, factor a

/-- What the locator makes of the power sums. -/
noncomputable def evaluator [DecidableEq K] (s : Finset K) : K[X] := ∑ a ∈ s, Polynomial.C a * ∏ b ∈ s.erase a, factor b

/-- The polynomial with the elements as its roots. -/
noncomputable def rootPoly (s : Finset K) : K[X] := ∏ a ∈ s, (Polynomial.X - Polynomial.C a)

theorem eval_factor (a x : K) : (factor a).eval x = 1 - a * x := by simp [factor]

theorem coeff_factor_zero (a : K) : (factor a).coeff 0 = 1 := by simp [factor]

theorem natDegree_factor_le (a : K) : (factor a).natDegree ≤ 1 := by
  unfold factor
  refine (natDegree_sub_le _ _).trans (max_le ?_ ?_)
  · rw [natDegree_one]
    omega
  · have h := natDegree_C_mul_X_pow_le a 1
    rwa [pow_one] at h

theorem natDegree_factor {a : K} (ha : a ≠ 0) : (factor a).natDegree = 1 := by
  apply le_antisymm (natDegree_factor_le a)
  apply le_natDegree_of_ne_zero
  have hcoeff : (factor a).coeff 1 = -a := by simp [factor, Polynomial.coeff_one]
  rw [hcoeff]
  exact neg_ne_zero.2 ha

theorem factor_ne_zero (a : K) : factor a ≠ 0 := by
  intro h
  have hcoeff := coeff_factor_zero a
  rw [h, Polynomial.coeff_zero] at hcoeff
  exact zero_ne_one hcoeff

theorem coeff_locator_zero (s : Finset K) : (locator s).coeff 0 = 1 := by
  unfold locator
  rw [Polynomial.coeff_zero_prod]
  exact Finset.prod_eq_one fun a _ => coeff_factor_zero a

theorem natDegree_locator (h : ∀ a ∈ s, a ≠ 0) : (locator s).natDegree = s.card := by
  unfold locator
  rw [natDegree_prod _ _ fun a _ => factor_ne_zero a, Finset.sum_congr rfl fun a ha => natDegree_factor (h a ha),
    Finset.sum_const, smul_eq_mul, mul_one]

/-- One element: the factor sums up the geometric series. -/
theorem factor_mul_geometric (a : K) :
    ((factor a : K[X]) : K⟦X⟧) * PowerSeries.mk (fun j => a ^ (j + 1)) = PowerSeries.C a := by
  ext j
  unfold factor
  rw [Polynomial.coe_sub, Polynomial.coe_one, Polynomial.coe_mul, Polynomial.coe_C, Polynomial.coe_X, sub_mul, one_mul,
    map_sub, mul_assoc, PowerSeries.coeff_C_mul, PowerSeries.coeff_mk]
  cases j with
  | zero => simp
  | succ j =>
    rw [PowerSeries.coeff_succ_X_mul, PowerSeries.coeff_mk, PowerSeries.coeff_C, if_neg (Nat.succ_ne_zero j)]
    ring

section

variable [DecidableEq K]

theorem locator_mul_powerSeries (s : Finset K) : ((locator s : K[X]) : K⟦X⟧) * powerSeries s = (evaluator s : K[X]) := by
  have hseries : powerSeries s = ∑ a ∈ s, PowerSeries.mk fun j => a ^ (j + 1) := by
    ext j
    rw [powerSeries, PowerSeries.coeff_mk, map_sum]
    simp only [PowerSeries.coeff_mk]
  have hcoe : ((evaluator s : K[X]) : K⟦X⟧) =
      ∑ a ∈ s, PowerSeries.C a * ((∏ b ∈ s.erase a, factor b : K[X]) : K⟦X⟧) := by
    unfold evaluator
    rw [← Polynomial.coeToPowerSeries.ringHom_apply, map_sum]
    apply Finset.sum_congr rfl
    intro a _
    rw [map_mul, Polynomial.coeToPowerSeries.ringHom_apply, Polynomial.coeToPowerSeries.ringHom_apply, Polynomial.coe_C]
  rw [hseries, Finset.mul_sum, hcoe]
  apply Finset.sum_congr rfl
  intro a ha
  have hlocator : locator s = factor a * ∏ b ∈ s.erase a, factor b := (Finset.mul_prod_erase s factor ha).symm
  rw [hlocator, Polynomial.coe_mul, mul_right_comm, factor_mul_geometric]

theorem degree_evaluator_lt (s : Finset K) : (evaluator s).degree < s.card := by
  rcases s.eq_empty_or_nonempty with rfl | hne
  · simp [evaluator]
  · have hpos : 0 < s.card := hne.card_pos
    rw [degree_lt_iff_coeff_zero]
    intro i hi
    unfold evaluator
    rw [Polynomial.finsetSum_coeff]
    apply Finset.sum_eq_zero
    intro a ha
    rw [Polynomial.coeff_C_mul]
    have hdeg : (∏ b ∈ s.erase a, factor b).natDegree ≤ (s.erase a).card := by
      refine (natDegree_prod_le _ _).trans ?_
      refine (Finset.sum_le_sum fun b _ => natDegree_factor_le b).trans ?_
      rw [Finset.sum_const, smul_eq_mul, mul_one]
    rw [Finset.card_erase_of_mem ha] at hdeg
    rw [coeff_eq_zero_of_natDegree_lt (by omega), mul_zero]

/-- At the root that belongs to an element only the term of the element is left. -/
theorem eval_evaluator (h : ∀ a ∈ s, a ≠ 0) {a : K} (ha : a ∈ s) : (evaluator s).eval a⁻¹ ≠ 0 := by
  unfold evaluator
  rw [eval_finsetSum, Finset.sum_eq_single a]
  · rw [eval_mul, eval_C, eval_prod]
    refine mul_ne_zero (h a ha) (Finset.prod_ne_zero_iff.2 ?_)
    intro b hb
    rw [Finset.mem_erase] at hb
    rw [eval_factor, sub_ne_zero]
    intro hone
    apply hb.1
    rw [eq_mul_inv_iff_mul_eq₀ (h a ha), one_mul] at hone
    exact hone.symm
  · intro b _ hne
    have hmem : a ∈ s.erase b := Finset.mem_erase.2 ⟨Ne.symm hne, ha⟩
    rw [eval_mul, eval_prod, Finset.prod_eq_zero hmem, mul_zero]
    rw [eval_factor, mul_inv_cancel₀ (h a ha), sub_self]
  · intro hout
    exact absurd ha hout

theorem isCoprime_locator (h : ∀ a ∈ s, a ≠ 0) : IsCoprime (locator s) (evaluator s) := by
  unfold locator
  apply IsCoprime.prod_left
  intro a ha
  have hirr : Irreducible (factor a) := irreducible_of_degree_eq_one (by
    rw [degree_eq_natDegree (factor_ne_zero a), natDegree_factor (h a ha)]
    rfl)
  rw [hirr.coprime_iff_not_dvd]
  rintro ⟨q, hq⟩
  apply eval_evaluator h ha
  rw [hq, eval_mul, eval_factor, mul_inv_cancel₀ (h a ha), sub_self, zero_mul]

/-- **The power sums determine the register.** -/
theorem Generates.eq_locator (h : ∀ a ∈ s, a ≠ 0) {C : K[X]} {L n : ℕ} (hC : Generates (powerSeries s) C L n)
    (hL : L ≤ s.card) (hn : 2 * s.card ≤ n) : C = locator s ∧ L = s.card :=
  hC.unique (natDegree_locator h) (coeff_locator_zero s) (locator_mul_powerSeries s) (degree_evaluator_lt s)
    (isCoprime_locator h) hL hn

/-- The locator generates all power sums. -/
theorem generates_locator (h : ∀ a ∈ s, a ≠ 0) (n : ℕ) : Generates (powerSeries s) (locator s) s.card n := by
  refine ⟨(natDegree_locator h).le, coeff_locator_zero s, ?_⟩
  intro j hj _
  rw [locator_mul_powerSeries, Polynomial.coeff_coe]
  exact coeff_eq_zero_of_degree_lt (lt_of_lt_of_le (degree_evaluator_lt s) (by exact_mod_cast hj))

end

/-! ## Roots -/

theorem monic_rootPoly (s : Finset K) : (rootPoly s).Monic := monic_prod_of_monic _ _ fun a _ => monic_X_sub_C a

theorem natDegree_rootPoly (s : Finset K) : (rootPoly s).natDegree = s.card :=
  natDegree_finsetProd_X_sub_C_eq_card s fun a => a

theorem rootPoly_dvd {p : K[X]} (h : ∀ a ∈ s, p.eval a = 0) : rootPoly s ∣ p := by
  apply Finset.prod_dvd_of_coprime
  · intro a _ b _ hne
    exact isCoprime_X_sub_C_of_isUnit_sub (sub_ne_zero.2 hne).isUnit
  · intro a ha
    exact dvd_iff_isRoot.2 (h a ha)

theorem eval_rootPoly_eq_zero {a : K} : (rootPoly s).eval a = 0 ↔ a ∈ s := by
  unfold rootPoly
  rw [eval_prod, Finset.prod_eq_zero_iff]
  constructor
  · rintro ⟨b, hb, hroot⟩
    rw [eval_sub, eval_X, eval_C, sub_eq_zero] at hroot
    rwa [hroot]
  · intro ha
    exact ⟨a, ha, by simp⟩

theorem separable_rootPoly (s : Finset K) : (rootPoly s).Separable :=
  separable_prod_X_sub_C_iff'.2 fun _ _ _ _ h => h

variable [DecidableEq K]

theorem rootPoly_mul_sdiff {t : Finset K} (h : t ⊆ s) : rootPoly t * rootPoly (s \ t) = rootPoly s := by
  unfold rootPoly
  rw [mul_comm]
  exact Finset.prod_sdiff h

/-- **The roots that a divisor of the polynomial has in common with another polynomial.** -/
theorem eq_rootPoly_of_common {g p : K[X]} (hmonic : g.Monic) (hcommon : ∀ c, c ∣ g ↔ c ∣ rootPoly s ∧ c ∣ p) :
    g = rootPoly (s.filter fun a => p.eval a = 0) := by
  set t := s.filter fun a => p.eval a = 0 with ht
  have hsub : t ⊆ s := Finset.filter_subset _ _
  have hle : rootPoly t ∣ g := by
    rw [hcommon]
    refine ⟨⟨_, (rootPoly_mul_sdiff hsub).symm⟩, rootPoly_dvd ?_⟩
    intro a ha
    exact (Finset.mem_filter.1 ha).2
  obtain ⟨hgs, hgp⟩ := (hcommon g).1 dvd_rfl
  -- no other root of the polynomial is one of the divisor
  have hcop : IsCoprime g (rootPoly (s \ t)) := by
    apply IsCoprime.prod_right
    intro a ha
    rw [Finset.mem_sdiff, ht, Finset.mem_filter, not_and] at ha
    apply IsCoprime.symm
    rw [(irreducible_X_sub_C a).coprime_iff_not_dvd]
    intro hdvd
    exact ha.2 ha.1 (dvd_iff_isRoot.1 (hdvd.trans hgp))
  have hge : g ∣ rootPoly t := by
    rw [← rootPoly_mul_sdiff hsub] at hgs
    exact hcop.dvd_of_dvd_mul_right hgs
  exact eq_of_monic_of_associated hmonic (monic_rootPoly t) (associated_of_dvd_dvd hge hle)

/-- The locator is the polynomial of the roots read backwards. -/
theorem coeff_rootPoly {i : ℕ} (hi : i ≤ s.card) :
    (rootPoly s).coeff i = (locator s).coeff (s.card - i) := by
  have hreverse : (rootPoly s).reverse = locator s := by
    unfold rootPoly locator
    clear hi
    induction s using Finset.induction_on with
    | empty =>
      rw [Finset.prod_empty, Finset.prod_empty, ← C_1, reverse_C]
    | insert a s ha ih =>
      rw [Finset.prod_insert ha, Finset.prod_insert ha, reverse_mul_of_domain, ih]
      congr 1
      unfold factor
      rw [Polynomial.reverse, natDegree_X_sub_C, reflect_sub, reflect_C]
      simp [reflect_one_X]
  rw [← hreverse, coeff_reverse, natDegree_rootPoly, revAt_le (Nat.sub_le _ _)]
  congr 1
  omega

end Recurrence
