import TensorPow.Proof.ErlayPoly
import TensorPow.Recurrence.PowerSums
import TensorPow.Spec.ErlaySketch

/-!
# The locator of a sketch

`_berlekamp_massey` keeps a register that generates the terms so far, and the last register that
failed. On the power sums of a set of short ids it ends with the locator of the set.

* `Register.Holds`: the invariant of the loop.
* `step_holds`: what one term does to it.
* `berlekampMassey_powerSums`: the whole loop on power sums.
-/

namespace TensorPow

namespace Erlay

open Polynomial Coeffs Recurrence

/-! ## Sums and shifts -/

theorem foldl_xor (f : ℕ → FieldElement) (k : ℕ) (a : FieldElement) :
    (List.range k).foldl (fun sum i => sum ^^^ f i) a = a + ∑ i ∈ Finset.range k, f i := by
  induction k with
  | zero => simp
  | succ k ih =>
    rw [List.range_succ, List.foldl_append, ih, Finset.sum_range_succ, ← add_assoc]
    rfl

/-- Adding zero in place does nothing, so the loop of `_berlekamp_massey` is that of `_poly_divmod`. -/
theorem addShifted_eq (connection : List FieldElement) (gap : ℕ) (scale : FieldElement) (previous : List FieldElement) :
    addShifted connection gap scale previous = xorScaled connection gap scale previous := by
  unfold addShifted xorScaled
  congr 1
  funext values entry
  split
  · rename_i hzero
    rw [hzero]
    have hid : (fun x : FieldElement => x ^^^ fieldMul scale 0) = id := by
      funext x
      show x + scale * 0 = x
      rw [mul_zero, add_zero]
    rw [hid, List.modify_id]
  · rfl

/-! ## The loop -/

section Loop

variable {sequence : List FieldElement} {S : PowerSeries FieldElement}

/-- The last register that failed, before term `n`: none yet, or one that failed at term `m`. -/
def Register.Older (S : PowerSeries FieldElement) (r : Register) (n : ℕ) : Prop :=
  (r.degree = 0 ∧ r.gap = n + 1 ∧ toPoly r.previous = 1 ∧ r.lastDiscrepancy = 1) ∨
  ∃ m M, m < n ∧ r.gap = n - m ∧ Generates S (toPoly r.previous) M m ∧
    r.lastDiscrepancy = PowerSeries.coeff m ((toPoly r.previous : PowerSeries FieldElement) * S) ∧
    r.lastDiscrepancy ≠ 0 ∧ r.degree + M = m + 1

/-- The invariant of the loop before term `n`. -/
structure Register.Holds (count : ℕ) (S : PowerSeries FieldElement) (r : Register) (n : ℕ) : Prop where
  generates : Generates S (toPoly r.connection) r.degree n
  connection_length : r.connection.length = count + 1
  degree_le : r.degree ≤ n
  older : r.Older S n

theorem init_toPoly (count : ℕ) : toPoly ((List.replicate (count + 1) (0 : FieldElement)).set 0 1) = 1 := by
  rw [toPoly_set _ _ _ (by simp) (by simp), toPoly_replicate, zero_add, C_1, pow_zero, mul_one]

theorem init_holds (count : ℕ) (S : PowerSeries FieldElement) : (Register.init count).Holds count S 0 where
  generates := by
    refine ⟨?_, ?_, fun j _ hj => absurd hj (Nat.not_lt_zero j)⟩
    · show (toPoly ((List.replicate (count + 1) (0 : FieldElement)).set 0 1)).natDegree ≤ 0
      rw [init_toPoly, natDegree_one]
    · show (toPoly ((List.replicate (count + 1) (0 : FieldElement)).set 0 1)).coeff 0 = 1
      rw [init_toPoly, coeff_one_zero]
  connection_length := by simp [Register.init]
  degree_le := le_rfl
  older := Or.inl ⟨rfl, rfl, init_toPoly count, rfl⟩

/-- The discrepancy is the next coefficient. -/
theorem discrepancy_eq {r : Register} {n : ℕ} (hS : ∀ j < sequence.length, PowerSeries.coeff j S = sequence.getD j 0)
    (hn : n < sequence.length) (h : Generates S (toPoly r.connection) r.degree n) (hle : r.degree ≤ n) :
    discrepancy sequence r n = PowerSeries.coeff n ((toPoly r.connection : PowerSeries FieldElement) * S) := by
  unfold discrepancy
  rw [foldl_xor, coeff_mul_eq_sum _ h.natDegree_le, Finset.sum_range_succ', h.coeff_zero, one_mul, if_pos (Nat.zero_le n),
    Nat.sub_zero, hS n hn, add_comm]
  congr 1
  apply Finset.sum_congr rfl
  intro i hi
  rw [Finset.mem_range] at hi
  rw [if_pos (by omega), hS _ (by omega), coeff_toPoly]
  rfl

/-- The correction as the code makes it. -/
theorem toPoly_addShifted {r : Register} {count gap : ℕ} (scale : FieldElement)
    (hconn : r.connection.length = count + 1) (hgap : gap ≤ count) (hdeg : (toPoly r.previous).natDegree + gap ≤ count) :
    toPoly (addShifted r.connection gap scale (r.previous.take (count + 1 - gap))) =
      toPoly r.connection - C scale * X ^ gap * toPoly r.previous := by
  have htake : toPoly (r.previous.take (count + 1 - gap)) = toPoly r.previous := by
    apply toPoly_take
    refine lt_of_le_of_lt degree_le_natDegree ?_
    exact_mod_cast (show (toPoly r.previous).natDegree < count + 1 - gap by omega)
  have hlen := List.length_take_le (count + 1 - gap) r.previous
  rw [addShifted_eq, toPoly_xorScaled scale (by omega), htake, CharTwo.sub_eq_add]

theorem length_addShifted {r : Register} {count gap : ℕ} (scale : FieldElement) (hconn : r.connection.length = count + 1)
    (hgap : gap ≤ count) : (addShifted r.connection gap scale (r.previous.take (count + 1 - gap))).length = count + 1 := by
  have hlen := List.length_take_le (count + 1 - gap) r.previous
  rw [addShifted_eq, length_xorScaled scale (by omega), hconn]

/-- **The corrected register** generates one term more. Its length is the larger of the old one
and what the old register that failed needs. -/
theorem corrected {r : Register} {n count : ℕ} (h : r.Holds count S n) (hn : n < count) {d : FieldElement}
    (hd : d = PowerSeries.coeff n ((toPoly r.connection : PowerSeries FieldElement) * S)) :
    r.lastDiscrepancy ≠ 0 ∧ r.gap ≤ count ∧ ∀ L, r.degree ≤ L → n + 1 ≤ L + r.degree →
      Generates S (toPoly (addShifted r.connection r.gap (d * r.lastDiscrepancy⁻¹) (r.previous.take (count + 1 - r.gap))))
        L (n + 1) := by
  rcases h.older with ⟨hzero, hgap, hprev, hlast⟩ | ⟨m, M, hm, hgap, hgen, hlast, hne, hsum⟩
  · -- the first term that is not zero
    have hdeg : (toPoly r.previous).natDegree + r.gap ≤ count := by
      rw [hprev, natDegree_one]
      omega
    refine ⟨by rw [hlast]; exact one_ne_zero, by omega, ?_⟩
    intro L _ hL
    have hconn := h.generates.natDegree_le
    have hfirst : Generates S (toPoly r.connection - C (d * r.lastDiscrepancy⁻¹) * X ^ (n + 1)) (n + 1) (n + 1) :=
      Generates.first (by omega) h.generates.coeff_zero _
    rw [toPoly_addShifted _ h.connection_length (by omega) hdeg, hprev, mul_one, hgap]
    refine ⟨hfirst.natDegree_le.trans (by omega), hfirst.coeff_zero, ?_⟩
    intro j hLj hj
    exact hfirst.vanishes j (by omega) hj
  · have hprev := hgen.natDegree_le
    have hdegree := h.degree_le
    refine ⟨hne, by omega, ?_⟩
    intro L hL hnL
    rw [toPoly_addShifted _ h.connection_length (by omega) (by omega), hgap, hd, hlast, ← div_eq_mul_inv]
    exact h.generates.correct hgen hm (hlast ▸ hne) hL (by omega)

/-- **One term.** The invariant goes on, and the register stays no longer than any that
generates all terms. -/
theorem step_holds {r : Register} {n : ℕ} (hS : ∀ j < sequence.length, PowerSeries.coeff j S = sequence.getD j 0)
    (hn : n < sequence.length) (h : r.Holds sequence.length S n) :
    ∃ r', r.step sequence n = .ok r' ∧ r'.Holds sequence.length S (n + 1) ∧
      ∀ D t, Generates S D t (n + 1) → r.degree ≤ t → r'.degree ≤ t := by
  have hd := discrepancy_eq hS hn h.generates h.degree_le
  have hle := h.degree_le
  unfold Register.step
  dsimp only
  by_cases hzero : discrepancy sequence r n = 0
  · -- the register predicts the next syndrome
    rw [if_pos hzero]
    refine ⟨{ r with gap := r.gap + 1 }, rfl, ⟨h.generates.succ (hd ▸ hzero), h.connection_length, by
      show r.degree ≤ n + 1
      omega, ?_⟩, fun _ _ _ ht => ht⟩
    rcases h.older with ⟨hdeg, hgap, hprev, hlast⟩ | ⟨m, M, hm, hgap, hgen, hlast, hne, hsum⟩
    · exact Or.inl ⟨hdeg, by show r.gap + 1 = n + 1 + 1; omega, hprev, hlast⟩
    · exact Or.inr ⟨m, M, by omega, by show r.gap + 1 = n + 1 - m; omega, hgen, hlast, hne, hsum⟩
  · rw [if_neg hzero]
    obtain ⟨hlast, hgap, hcorrected⟩ := corrected h hn hd
    rw [fieldDiv_eq _ hlast, Exn.ok_bind]
    have hfail : PowerSeries.coeff n ((toPoly r.connection : PowerSeries FieldElement) * S) ≠ 0 := hd ▸ hzero
    have hlength := length_addShifted (discrepancy sequence r n * r.lastDiscrepancy⁻¹) h.connection_length hgap
    by_cases hchange : 2 * r.degree ≤ n
    · -- the register gets longer, and the old one becomes the one that failed
      rw [if_pos hchange]
      refine ⟨_, rfl, ⟨hcorrected _ (by show r.degree ≤ n + 1 - r.degree; omega)
        (by show n + 1 ≤ n + 1 - r.degree + r.degree; omega), hlength, by show n + 1 - r.degree ≤ n + 1; omega, ?_⟩, ?_⟩
      · refine Or.inr ⟨n, r.degree, by omega, by show 1 = n + 1 - n; omega, h.generates, hd, hzero, ?_⟩
        show n + 1 - r.degree + r.degree = n + 1
        omega
      · intro D t hD _
        have hlong := h.generates.length_ge hfail hD
        show n + 1 - r.degree ≤ t
        omega
    · rw [if_neg hchange]
      refine ⟨_, rfl, ⟨hcorrected r.degree le_rfl (by omega), hlength, by show r.degree ≤ n + 1; omega, ?_⟩, fun _ _ _ ht => ht⟩
      rcases h.older with ⟨hdeg, _⟩ | ⟨m, M, hm, hgap', hgen, hlast', hne, hsum⟩
      · exact absurd (by omega) hchange
      · exact Or.inr ⟨m, M, by omega, by show r.gap + 1 = n + 1 - m; omega, hgen, hlast', hne, hsum⟩

/-- **The loop over the first terms.** -/
theorem loop_holds (hS : ∀ j < sequence.length, PowerSeries.coeff j S = sequence.getD j 0) {n : ℕ}
    (hn : n ≤ sequence.length) :
    ∃ r, (List.range n).foldlM (Register.step sequence) (Register.init sequence.length) = .ok r ∧
      r.Holds sequence.length S n ∧ ∀ D t, Generates S D t n → r.degree ≤ t := by
  induction n with
  | zero => exact ⟨_, rfl, init_holds sequence.length S, fun _ t _ => Nat.zero_le t⟩
  | succ n ih =>
    obtain ⟨r, hloop, hholds, hshort⟩ := ih (by omega)
    obtain ⟨r', hstep, hholds', hshort'⟩ := step_holds hS (by omega) hholds
    refine ⟨r', ?_, hholds', ?_⟩
    · rw [List.range_succ, List.foldlM_append, hloop, Exn.ok_bind, List.foldlM_cons, hstep]
      rfl
    · intro D t hD
      exact hshort' D t hD (hshort D t (hD.mono (by omega)))

end Loop

/-- **The locator.** On at least twice as many power sums as there are short ids,
`_berlekamp_massey` returns the coefficients of the locator. -/
theorem berlekampMassey_powerSums {s : Finset FieldElement} (hne : ∀ a ∈ s, a ≠ 0) {sequence : List FieldElement}
    (hseq : ∀ j < sequence.length, sequence.getD j 0 = ∑ a ∈ s, a ^ (j + 1)) (hlen : 2 * s.card ≤ sequence.length) :
    ∃ l, berlekampMassey sequence = .ok l ∧ l.length = s.card + 1 ∧ toPoly l = locator s := by
  have hS : ∀ j < sequence.length, PowerSeries.coeff j (powerSeries s) = sequence.getD j 0 := by
    intro j hj
    rw [hseq j hj, powerSeries, PowerSeries.coeff_mk]
  obtain ⟨r, hloop, hholds, hshort⟩ := loop_holds hS le_rfl
  have hle : r.degree ≤ s.card := hshort _ _ (generates_locator hne _)
  obtain ⟨hlocator, hdegree⟩ := hholds.generates.eq_locator hne hle hlen
  have hconn := hholds.connection_length
  refine ⟨r.connection.take (r.degree + 1), ?_, ?_, ?_⟩
  · unfold berlekampMassey
    rw [hloop]
    rfl
  · rw [List.length_take]
    omega
  · have hdeg : (toPoly r.connection).degree < ((r.degree + 1 : ℕ) : WithBot ℕ) := by
      refine lt_of_le_of_lt (degree_le_of_natDegree_le hholds.generates.natDegree_le) ?_
      exact_mod_cast Nat.lt_succ_self r.degree
    rw [toPoly_take hdeg, hlocator]

end Erlay

end TensorPow
