import TensorPow.Coeffs.Basic
import TensorPow.Proof.ErlayField

/-!
# The polynomials of Erlay sketches

Every function on lists of coefficients computes what its name says on the polynomials, and
returns a trimmed list.

* `toPoly_trim`, `toPoly_add`, `toPoly_mul`: the ring operations.
* `divmodLoop_spec`, `polyDivmod_spec`: long division. A round lowers the degree of the remainder.
* `polyGcd_spec`: Euclid's algorithm; every round keeps the common divisors.
-/

namespace TensorPow

namespace Erlay

open Polynomial Coeffs

/-! ## Trimming -/

theorem toPoly_popZeros (values : List FieldElement) : toPoly (popZeros values).reverse = toPoly values.reverse := by
  fun_induction popZeros values with
  | case1 => rfl
  | case2 value => rfl
  | case3 next rest ih =>
    have hrev : (0 :: next :: rest).reverse = (next :: rest).reverse ++ [0] := List.reverse_cons
    rw [ih, hrev, toPoly_concat_zero]
  | case4 value next rest hne => rfl

theorem popZeros_last (values : List FieldElement) :
    popZeros values = [] ∨ popZeros values = [0] ∨ (popZeros values).headD 0 ≠ 0 := by
  fun_induction popZeros values with
  | case1 => exact Or.inl rfl
  | case2 value =>
    by_cases h : value = 0
    · subst h
      exact Or.inr (Or.inl rfl)
    · exact Or.inr (Or.inr h)
  | case3 next rest ih => exact ih
  | case4 value next rest hne => exact Or.inr (Or.inr hne)

theorem toPoly_trim (polynomial : List FieldElement) : toPoly (polyTrim polynomial) = toPoly polynomial := by
  have h := toPoly_popZeros polynomial.reverse
  rw [List.reverse_reverse] at h
  unfold polyTrim
  dsimp only
  split
  · rename_i hnil
    rw [hnil] at h
    rw [← h, toPoly_zero]
    rfl
  · exact h

theorem polyTrim_trimmed (polynomial : List FieldElement) : Trimmed (polyTrim polynomial) := by
  unfold polyTrim
  dsimp only
  split
  · exact Trimmed.zero
  · rename_i hne
    rcases popZeros_last polynomial.reverse with h | h | h
    · rw [h] at hne
      exact absurd rfl hne
    · rw [h]
      exact Trimmed.zero
    · right
      rw [List.getLastD_eq_getLast?, List.getLast?_reverse, ← List.headD_eq_head?_getD]
      exact h

theorem polyTrim_eq {polynomial : List FieldElement} (h : Trimmed polynomial) : polyTrim polynomial = polynomial :=
  (polyTrim_trimmed polynomial).ext h (toPoly_trim polynomial)

theorem polyTrim_eq_zero {polynomial : List FieldElement} : polyTrim polynomial = [0] ↔ toPoly polynomial = 0 := by
  rw [← (polyTrim_trimmed polynomial).toPoly_eq_zero, toPoly_trim]

/-! ## Sums and products -/

theorem toPoly_add (left right : List FieldElement) : toPoly (polyAdd left right) = toPoly left + toPoly right := by
  unfold polyAdd
  rw [toPoly_trim, toPoly_eq_iff]
  intro i
  rw [coeff_add, coeff_toPoly, coeff_toPoly, List.getD_eq_getElem?_getD, List.getElem?_map]
  rcases lt_or_ge i (max left.length right.length) with hi | hi
  · rw [List.getElem?_range hi]
    rfl
  · rw [List.getElem?_eq_none (by simpa using hi), List.getD_eq_default left _ (le_trans (le_max_left _ _) hi),
      List.getD_eq_default right _ (le_trans (le_max_right _ _) hi), add_zero]
    rfl

/-- One round of `xorScaled`. -/
def xorEntry (shift : ℕ) (scale : FieldElement) (values : List FieldElement) (entry : FieldElement × ℕ) :
    List FieldElement :=
  if entry.1 = 0 then values else values.modify (entry.2 + shift) (· ^^^ fieldMul scale entry.1)

theorem toPoly_xorEntry (shift : ℕ) (scale : FieldElement) (values : List FieldElement) (a : FieldElement) (k : ℕ)
    (h : k + shift < values.length) :
    toPoly (xorEntry shift scale values (a, k)) = toPoly values + C (scale * a) * X ^ (k + shift) := by
  unfold xorEntry
  split
  · rename_i hzero
    rw [show a = 0 from hzero, mul_zero, C_0, zero_mul, add_zero]
  · exact toPoly_modify values (k + shift) (scale * a) h

theorem length_xorEntry (shift : ℕ) (scale : FieldElement) (values : List FieldElement) (entry : FieldElement × ℕ) :
    (xorEntry shift scale values entry).length = values.length := by
  unfold xorEntry
  split
  · rfl
  · rw [List.length_modify]

/-- The coefficients from number `k` on have been added. -/
theorem xorEntries_spec (shift : ℕ) (scale : FieldElement) (polynomial : List FieldElement) :
    ∀ (k : ℕ) (values : List FieldElement), k + shift + polynomial.length ≤ values.length →
      toPoly ((polynomial.zipIdx k).foldl (xorEntry shift scale) values) =
        toPoly values + C scale * X ^ (k + shift) * toPoly polynomial ∧
      ((polynomial.zipIdx k).foldl (xorEntry shift scale) values).length = values.length := by
  induction polynomial with
  | nil =>
    intro k values _
    simp [toPoly]
  | cons a polynomial ih =>
    intro k values hlen
    rw [List.length_cons] at hlen
    rw [List.zipIdx_cons, List.foldl_cons]
    have hentry := toPoly_xorEntry shift scale values a k (by omega)
    have hsame := length_xorEntry shift scale values (a, k)
    obtain ⟨hpoly, hrest⟩ := ih (k + 1) (xorEntry shift scale values (a, k)) (by omega)
    refine ⟨?_, hrest.trans hsame⟩
    rw [hpoly, hentry, toPoly, C_mul]
    ring

theorem toPoly_xorScaled {values : List FieldElement} {shift : ℕ} (scale : FieldElement) {polynomial : List FieldElement}
    (h : shift + polynomial.length ≤ values.length) :
    toPoly (xorScaled values shift scale polynomial) = toPoly values + C scale * X ^ shift * toPoly polynomial := by
  have hspec := (xorEntries_spec shift scale polynomial 0 values (by omega)).1
  rw [zero_add] at hspec
  exact hspec

theorem length_xorScaled {values : List FieldElement} {shift : ℕ} (scale : FieldElement) {polynomial : List FieldElement}
    (h : shift + polynomial.length ≤ values.length) : (xorScaled values shift scale polynomial).length = values.length :=
  (xorEntries_spec shift scale polynomial 0 values (by omega)).2

/-- One round of `polyMulLoop`. -/
def mulEntry (right result : List FieldElement) (entry : FieldElement × ℕ) : List FieldElement :=
  if entry.1 = 0 then result else xorScaled result entry.2 entry.1 right

theorem mulEntries_spec (right left : List FieldElement) :
    ∀ (k : ℕ) (result : List FieldElement), k + left.length + right.length ≤ result.length + 1 →
      toPoly ((left.zipIdx k).foldl (mulEntry right) result) =
        toPoly result + X ^ k * toPoly left * toPoly right := by
  induction left with
  | nil =>
    intro k result _
    simp [toPoly]
  | cons a left ih =>
    intro k result hlen
    rw [List.length_cons] at hlen
    rw [List.zipIdx_cons, List.foldl_cons]
    have hfits : k + right.length ≤ result.length := by omega
    have hsame : (mulEntry right result (a, k)).length = result.length := by
      unfold mulEntry
      split
      · rfl
      · exact length_xorScaled a hfits
    have hentry : toPoly (mulEntry right result (a, k)) = toPoly result + C a * X ^ k * toPoly right := by
      unfold mulEntry
      split
      · rename_i hzero
        rw [show a = 0 from hzero, C_0, zero_mul, zero_mul, add_zero]
      · exact toPoly_xorScaled a hfits
    rw [ih (k + 1) _ (by omega), hentry, toPoly]
    ring

theorem toPoly_mul (left right : List FieldElement) : toPoly (polyMul left right) = toPoly left * toPoly right := by
  unfold polyMul
  split
  · rename_i hzero
    rcases hzero with rfl | rfl
    · rw [toPoly_zero, zero_mul]
    · rw [toPoly_zero, mul_zero]
  · have hspec := mulEntries_spec right left 0 (List.replicate (left.length + right.length - 1) 0) (by
      rw [List.length_replicate]
      omega)
    rw [toPoly_replicate, zero_add, pow_zero, one_mul] at hspec
    rw [toPoly_trim]
    exact hspec

theorem polyAdd_trimmed (left right : List FieldElement) : Trimmed (polyAdd left right) := polyTrim_trimmed _

/-! ## Division -/

/-- The rounds that a remainder may still take. -/
def rounds (remainder : List FieldElement) : ℕ := if remainder = [0] then 0 else remainder.length

section Division

variable {divisor remainder : List FieldElement}

/-- The remainder of a round, before it is trimmed. -/
def reducedBy (divisor remainder : List FieldElement) (scale : FieldElement) : List FieldElement :=
  if scale = 0 then remainder else xorScaled remainder (remainder.length - divisor.length) scale divisor

theorem toPoly_reducedBy (hlen : divisor.length ≤ remainder.length) (scale : FieldElement) :
    toPoly (reducedBy divisor remainder scale) =
      toPoly remainder + C scale * X ^ (remainder.length - divisor.length) * toPoly divisor := by
  unfold reducedBy
  split
  · rename_i hzero
    rw [hzero, C_0, zero_mul, zero_mul, add_zero]
  · exact toPoly_xorScaled scale (by omega)

theorem length_reducedBy (hlen : divisor.length ≤ remainder.length) (scale : FieldElement) :
    (reducedBy divisor remainder scale).length = remainder.length := by
  unfold reducedBy
  split
  · rfl
  · exact length_xorScaled scale (by omega)

/-- A round takes the leading coefficient off. -/
theorem degree_reducedBy (hd : Trimmed divisor) (hdne : divisor ≠ [0])
    (hlen : divisor.length ≤ remainder.length) :
    (toPoly (reducedBy divisor remainder (remainder.getLastD 0 * (divisor.getLastD 0)⁻¹))).degree <
      ((remainder.length - 1 : ℕ) : WithBot ℕ) := by
  have hdpos := hd.length_pos
  have hlead : divisor.getLastD 0 ≠ 0 := hd.resolve_left hdne
  rw [degree_lt_iff_coeff_zero]
  intro i hi
  rcases eq_or_lt_of_le hi with rfl | hgt
  · -- the two leading coefficients are the same, and the characteristic is two
    have hindex : remainder.length - 1 = divisor.length - 1 + (remainder.length - divisor.length) := by omega
    rw [toPoly_reducedBy hlen, coeff_add, ← getLastD_eq_coeff remainder, mul_assoc, coeff_C_mul, hindex, coeff_X_pow_mul,
      ← getLastD_eq_coeff divisor, mul_assoc, inv_mul_cancel₀ hlead, mul_one, FieldElement.add_self]
  · rw [coeff_toPoly, List.getD_eq_default _ _ (by rw [length_reducedBy hlen]; omega)]

/-- A round leaves fewer rounds. -/
theorem rounds_reducedBy (hd : Trimmed divisor) (hdne : divisor ≠ [0]) (hr : Trimmed remainder) (hrne : remainder ≠ [0])
    (hlen : divisor.length ≤ remainder.length) :
    rounds (polyTrim (reducedBy divisor remainder (remainder.getLastD 0 * (divisor.getLastD 0)⁻¹))) < rounds remainder := by
  have hdeg := degree_reducedBy hd hdne hlen
  have hpos := hr.length_pos
  generalize reducedBy divisor remainder _ = reduced at hdeg ⊢
  unfold rounds
  rw [if_neg hrne]
  split
  · exact hpos
  · rename_i hne
    rw [← toPoly_trim] at hdeg
    rw [(polyTrim_trimmed reduced).degree hne] at hdeg
    have hlt : (polyTrim reduced).length - 1 < remainder.length - 1 := by exact_mod_cast hdeg
    omega

/-- **The loop of the division returns** a quotient and a remainder. -/
theorem divmodLoop_spec (hd : Trimmed divisor) (hdne : divisor ≠ [0]) (fuel : ℕ) :
    ∀ quotient remainder : List FieldElement, Trimmed remainder → rounds remainder < fuel →
      (remainder ≠ [0] → ∀ i, divisor.length + i ≤ remainder.length → i < quotient.length ∧ quotient.getD i 0 = 0) →
      ∃ q r, polyDivmodLoop divisor (divisor.getLastD 0)⁻¹ fuel quotient remainder = .ok (q, r) ∧ Trimmed r ∧
        (toPoly r).degree < (toPoly divisor).degree ∧
        toPoly q * toPoly divisor + toPoly r = toPoly quotient * toPoly divisor + toPoly remainder := by
  induction fuel with
  | zero =>
    intro quotient remainder _ hfuel _
    exact absurd hfuel (Nat.not_lt_zero _)
  | succ fuel ih =>
    intro quotient remainder hr hfuel hzeros
    rw [polyDivmodLoop]
    split
    · rename_i hcond
      obtain ⟨hlen, hrne⟩ := hcond
      have hpos := hd.length_pos
      set scale := remainder.getLastD 0 * (divisor.getLastD 0)⁻¹ with hscale
      set shift := remainder.length - divisor.length with hshift
      obtain ⟨hin, hzero⟩ := hzeros hrne shift (by omega)
      have hfewer := rounds_reducedBy hd hdne hr hrne hlen
      rw [← hscale] at hfewer
      -- the places below the one that is set are still zero
      have hnext : ∀ i, polyTrim (reducedBy divisor remainder scale) ≠ [0] →
          divisor.length + i ≤ (polyTrim (reducedBy divisor remainder scale)).length →
          i < (quotient.set shift scale).length ∧ (quotient.set shift scale).getD i 0 = 0 := by
        intro i hne hi
        unfold rounds at hfewer
        rw [if_neg hne, if_neg hrne] at hfewer
        obtain ⟨hin', hzero'⟩ := hzeros hrne i (by omega)
        refine ⟨by rwa [List.length_set], ?_⟩
        rw [List.getD_eq_getElem?_getD, List.getElem?_set_ne (by omega), ← List.getD_eq_getElem?_getD, hzero']
      obtain ⟨q, r, hloop, htrim, hdeg, heq⟩ := ih (quotient.set shift scale)
        (polyTrim (reducedBy divisor remainder scale)) (polyTrim_trimmed _) (by omega) (fun hne i hi => hnext i hne hi)
      refine ⟨q, r, hloop, htrim, hdeg, ?_⟩
      rw [heq, toPoly_set _ _ _ hin hzero, toPoly_trim, toPoly_reducedBy hlen]
      -- what is taken off the remainder is added to the quotient, and twice is zero
      have hcancel : C scale * X ^ shift * toPoly divisor + C scale * X ^ shift * toPoly divisor = 0 := CharTwo.add_self_eq_zero _
      linear_combination hcancel
    · rename_i hcond
      refine ⟨quotient, remainder, rfl, hr, ?_, rfl⟩
      rw [hd.degree hdne]
      rcases Classical.em (remainder = [0]) with hrz | hrne
      · rw [hrz, toPoly_zero, degree_zero]
        exact WithBot.bot_lt_coe _
      · have hlen : ¬divisor.length ≤ remainder.length := fun hle => hcond ⟨hle, hrne⟩
        rw [hr.degree hrne]
        have hpos := hr.length_pos
        exact_mod_cast (show remainder.length - 1 < divisor.length - 1 by omega)

end Division

/-- **Division with remainder** by every polynomial but zero. -/
theorem polyDivmod_spec (dividend : List FieldElement) {divisor : List FieldElement} (hne : toPoly divisor ≠ 0) :
    ∃ q r, polyDivmod dividend divisor = .ok (q, r) ∧ Trimmed q ∧ Trimmed r ∧
      toPoly dividend = toPoly q * toPoly divisor + toPoly r ∧ (toPoly r).degree < (toPoly divisor).degree := by
  have hd := polyTrim_trimmed divisor
  have hn := polyTrim_trimmed dividend
  have hdne : polyTrim divisor ≠ [0] := fun hzero => hne (polyTrim_eq_zero.1 hzero)
  have hlead : (polyTrim divisor).getLastD 0 ≠ 0 := hd.resolve_left hdne
  unfold polyDivmod polyDivmodTrimmed polyDegree
  rw [Exn.ensure_of _ hdne, polyTrim_eq hd, polyTrim_eq hn, Exn.ok_bind]
  split
  · rename_i hlt
    have hpos := hd.length_pos
    refine ⟨[0], polyTrim dividend, rfl, Trimmed.zero, hn, ?_, ?_⟩
    · rw [toPoly_trim, toPoly_zero, zero_mul, zero_add]
    · rw [← toPoly_trim divisor, hd.degree hdne]
      refine lt_of_lt_of_le (degree_toPoly_lt _) ?_
      exact_mod_cast (show (polyTrim dividend).length ≤ (polyTrim divisor).length - 1 by omega)
  · rename_i hge
    have hpos := hd.length_pos
    have hpos' := hn.length_pos
    have hrounds : rounds (polyTrim dividend) < (polyTrim dividend).length + 1 := by
      unfold rounds
      split <;> omega
    obtain ⟨q, r, hloop, htrim, hdeg, heq⟩ := divmodLoop_spec hd hdne ((polyTrim dividend).length + 1)
      (List.replicate ((polyTrim dividend).length - 1 - ((polyTrim divisor).length - 1) + 1) 0) (polyTrim dividend) hn
      hrounds (by
        intro _ i hi
        rw [List.length_replicate]
        have hin : i < (polyTrim dividend).length - 1 - ((polyTrim divisor).length - 1) + 1 := by omega
        refine ⟨hin, ?_⟩
        rw [List.getD_eq_getElem _ _ (by simpa using hin), List.getElem_replicate])
    rw [fieldInv_eq hlead, Exn.ok_bind, hloop, Exn.ok_bind]
    refine ⟨polyTrim q, polyTrim r, rfl, polyTrim_trimmed q, polyTrim_trimmed r, ?_, ?_⟩
    · rw [toPoly_trim, toPoly_trim]
      rw [toPoly_replicate, zero_mul, zero_add, toPoly_trim, toPoly_trim] at heq
      exact heq.symm
    · rw [toPoly_trim]
      rw [toPoly_trim] at hdeg
      exact hdeg

theorem polyMod_spec (value : List FieldElement) {modulus : List FieldElement} (hne : toPoly modulus ≠ 0) :
    ∃ r, polyMod value modulus = .ok r ∧ Trimmed r ∧ toPoly modulus ∣ toPoly value - toPoly r ∧
      (toPoly r).degree < (toPoly modulus).degree := by
  obtain ⟨q, r, hdiv, _, hr, heq, hdeg⟩ := polyDivmod_spec value hne
  refine ⟨r, ?_, hr, ?_, hdeg⟩
  · unfold polyMod
    rw [hdiv]
    rfl
  · rw [heq, add_sub_cancel_right]
    exact dvd_mul_left _ _

/-! ## The greatest common divisor -/

/-- **Euclid's algorithm returns**: the degree of the right polynomial falls, the common
divisors stay. -/
theorem gcdLoop_spec (fuel : ℕ) : ∀ left right : List FieldElement, Trimmed left → Trimmed right →
    rounds right < fuel → ∃ last, polyGcdLoop fuel left right = .ok last ∧ Trimmed last ∧
      ∀ c, c ∣ toPoly last ↔ c ∣ toPoly left ∧ c ∣ toPoly right := by
  induction fuel with
  | zero =>
    intro left right _ _ hfuel
    exact absurd hfuel (Nat.not_lt_zero _)
  | succ fuel ih =>
    intro left right hl hr hfuel
    rw [polyGcdLoop]
    split
    · rename_i hzero
      refine ⟨left, rfl, hl, ?_⟩
      intro c
      rw [hzero, toPoly_zero]
      simp
    · rename_i hne
      obtain ⟨remainder, hmod, hrem, hdvd, hdeg⟩ := polyMod_spec left (hr.toPoly_ne_zero hne)
      -- the remainder has a smaller degree, so the fuel lasts
      have hfewer : rounds remainder < fuel := by
        unfold rounds at hfuel ⊢
        rw [if_neg hne] at hfuel
        have hpos := hr.length_pos
        split
        · omega
        · rename_i hremne
          rw [hrem.degree hremne, hr.degree hne] at hdeg
          have hlt : remainder.length - 1 < right.length - 1 := by exact_mod_cast hdeg
          omega
      obtain ⟨last, hloop, hlast, hcommon⟩ := ih right remainder hr hrem hfewer
      refine ⟨last, ?_, hlast, ?_⟩
      · rw [hmod]
        exact hloop
      · intro c
        rw [hcommon]
        constructor
        · rintro ⟨hright, hremainder⟩
          have hdiff : c ∣ toPoly left - toPoly remainder := hright.trans hdvd
          exact ⟨(dvd_sub_left hremainder).1 hdiff, hright⟩
        · rintro ⟨hleft, hright⟩
          have hdiff : c ∣ toPoly left - toPoly remainder := hright.trans hdvd
          exact ⟨hright, (dvd_sub_right hleft).1 hdiff⟩

/-- `_poly_make_monic` divides by the leading coefficient. -/
theorem polyMakeMonic_spec (polynomial : List FieldElement) :
    ∃ m, polyMakeMonic polynomial = .ok m ∧ Trimmed m ∧
      toPoly m = C (toPoly polynomial).leadingCoeff⁻¹ * toPoly polynomial := by
  have ht := polyTrim_trimmed polynomial
  unfold polyMakeMonic
  dsimp only
  split
  · rename_i hcond
    refine ⟨polyTrim polynomial, rfl, ht, ?_⟩
    rw [toPoly_trim]
    rcases Classical.em (polyTrim polynomial = [0]) with hzero | hne
    · rw [polyTrim_eq_zero.1 hzero, mul_zero]
    · rw [← toPoly_trim polynomial, ht.leadingCoeff hne, hcond.resolve_left hne, inv_one, C_1, one_mul]
  · rename_i hcond
    rw [not_or] at hcond
    have hlead : (polyTrim polynomial).getLastD 0 ≠ 0 := ht.resolve_left hcond.1
    refine ⟨polyTrim ((polyTrim polynomial).map fun coefficient =>
      fieldMul coefficient ((polyTrim polynomial).getLastD 0)⁻¹), ?_, polyTrim_trimmed _, ?_⟩
    · rw [fieldInv_eq hlead]
      rfl
    · rw [toPoly_trim, ← toPoly_trim polynomial, ht.leadingCoeff hcond.1, toPoly_eq_iff]
      intro i
      rw [coeff_C_mul, coeff_toPoly, List.getD_eq_getElem?_getD, List.getElem?_map, List.getD_eq_getElem?_getD]
      cases (polyTrim polynomial)[i]? with
      | none => exact (mul_zero _).symm
      | some a => exact mul_comm a _

/-- **The greatest common divisor.** -/
theorem polyGcd_spec (left right : List FieldElement) :
    ∃ g, polyGcd left right = .ok g ∧ Trimmed g ∧ (∀ c, c ∣ toPoly g ↔ c ∣ toPoly left ∧ c ∣ toPoly right) ∧
      (toPoly left ≠ 0 ∨ toPoly right ≠ 0 → (toPoly g).Monic) := by
  have hrounds : rounds (polyTrim right) < (polyTrim right).length + 1 := by
    unfold rounds
    split <;> omega
  obtain ⟨last, hloop, hlast, hcommon⟩ := gcdLoop_spec _ (polyTrim left) (polyTrim right) (polyTrim_trimmed left)
    (polyTrim_trimmed right) hrounds
  obtain ⟨g, hmonic, hg, heq⟩ := polyMakeMonic_spec last
  rw [toPoly_trim, toPoly_trim] at hcommon
  refine ⟨g, ?_, hg, ?_, ?_⟩
  · unfold polyGcd
    rw [hloop]
    exact hmonic
  · intro c
    rw [← hcommon, heq]
    by_cases hzero : toPoly last = 0
    · rw [hzero, mul_zero]
    · have hunit : IsUnit (C (toPoly last).leadingCoeff⁻¹) :=
        isUnit_C.2 (isUnit_iff_ne_zero.2 (inv_ne_zero (leadingCoeff_ne_zero.2 hzero)))
      exact hunit.dvd_mul_left
  · intro hne
    have hlastne : toPoly last ≠ 0 := by
      intro hzero
      have hboth := (hcommon 0).1 (by rw [hzero])
      rcases hne with h | h
      · exact h (zero_dvd_iff.1 hboth.1)
      · exact h (zero_dvd_iff.1 hboth.2)
    rw [heq, mul_comm]
    exact monic_mul_leadingCoeff_inv hlastne

/-- **The arithmetic of the sketches.** The words are a field under exclusive or and
`_field_mul`, with the inverses that `_field_inv` returns. So `_poly_divmod` divides with a
remainder of smaller degree by every polynomial but zero, and `_poly_gcd` returns the common
divisor that all others divide, which is monic unless both polynomials are zero. -/
theorem erlay_arithmetic :
    (∀ a b, fieldMul a b = fieldMul b a) ∧
    (∀ a b c, fieldMul (fieldMul a b) c = fieldMul a (fieldMul b c)) ∧
    (∀ a, fieldMul 1 a = a ∧ fieldMul a 1 = a) ∧
    (∀ a b c, fieldMul a (b ^^^ c) = fieldMul a b ^^^ fieldMul a c) ∧
    (∀ a, a ≠ 0 → ∃ b, fieldInv a = .ok b ∧ fieldMul a b = 1 ∧ fieldMul b a = 1) ∧
    (∀ dividend divisor, polyTrim divisor ≠ [0] → ∃ q r, polyDivmod dividend divisor = .ok (q, r) ∧
      polyTrim dividend = polyAdd (polyMul q divisor) r ∧ (toPoly r).degree < (toPoly divisor).degree) ∧
    (∀ left right, ∃ g, polyGcd left right = .ok g ∧ (∀ c, c ∣ toPoly g ↔ c ∣ toPoly left ∧ c ∣ toPoly right) ∧
      (polyTrim left ≠ [0] ∨ polyTrim right ≠ [0] → g.getLastD 0 = 1) ∧ polyTrim g = g) := by
  refine ⟨FieldElement.fieldMul_comm, FieldElement.fieldMul_assoc, ?_, FieldElement.fieldMul_xor, ?_, ?_, ?_⟩
  · intro a
    exact ⟨one_mul a, mul_one a⟩
  · intro a ha
    exact ⟨a⁻¹, fieldInv_eq ha, mul_inv_cancel₀ ha, inv_mul_cancel₀ ha⟩
  · intro dividend divisor hne
    have hd : toPoly divisor ≠ 0 := fun hzero => hne (polyTrim_eq_zero.2 hzero)
    obtain ⟨q, r, hdiv, _, _, heq, hdeg⟩ := polyDivmod_spec dividend hd
    refine ⟨q, r, hdiv, ?_, hdeg⟩
    apply (polyTrim_trimmed dividend).ext (polyAdd_trimmed _ _)
    rw [toPoly_trim, toPoly_add, toPoly_mul, heq]
  · intro left right
    obtain ⟨g, hgcd, hg, hcommon, hmonic⟩ := polyGcd_spec left right
    refine ⟨g, hgcd, hcommon, ?_, polyTrim_eq hg⟩
    intro hne
    have hg1 : (toPoly g).Monic := hmonic (by
      rw [ne_eq, ne_eq, ← polyTrim_eq_zero, ← polyTrim_eq_zero]
      exact hne)
    have hgne : g ≠ [0] := by
      rintro rfl
      rw [toPoly_zero] at hg1
      exact hg1.ne_zero rfl
    rw [← hg.leadingCoeff hgne]
    exact hg1

/-- The polynomial `x + 1`. -/
def xPlusOne : List FieldElement := [1, 1]

theorem xPlusOne_trim : polyTrim xPlusOne ≠ [0] := by decide

theorem x_ne_zero : FieldElement.x ≠ 0 := by decide

/-- The inverse of an element, and a division. -/
theorem erlay_arithmetic_x :
    (∃ b, fieldInv FieldElement.x = .ok b ∧ fieldMul FieldElement.x b = 1 ∧ fieldMul b FieldElement.x = 1) ∧
    ∃ q r, polyDivmod [FieldElement.x, 0, 1] xPlusOne = .ok (q, r) ∧
      polyTrim [FieldElement.x, 0, 1] = polyAdd (polyMul q xPlusOne) r ∧
      (toPoly r).degree < (toPoly xPlusOne).degree := by
  obtain ⟨_, _, _, _, hinv, hdiv, _⟩ := erlay_arithmetic
  exact ⟨hinv FieldElement.x x_ne_zero, hdiv [FieldElement.x, 0, 1] xPlusOne xPlusOne_trim⟩

end Erlay

end TensorPow
