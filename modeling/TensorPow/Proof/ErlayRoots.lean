import TensorPow.Gf2.Trace
import TensorPow.Proof.ErlayMassey

/-!
# Splitting the polynomial of a sketch

`_split_linear_roots` tells roots apart by traces. The trace of a multiple of a root is zero or
one; the seeds of the attempts span all words, so for any two roots some attempt gives them
different traces, and its greatest common divisor is a proper factor.

* `seeds_separate`: any two elements are told apart by an attempt.
* `polyTraceMod_spec`, `findFactor_spec`: an attempt, and the loop over the attempts.
* `splitLinearRoots_spec`: the recursion returns all roots, each of them once.
-/

namespace TensorPow

namespace Erlay

open Polynomial Coeffs Recurrence Gf2

/-! ## Traces -/

theorem fieldElement_pow (a : FieldElement) : a ^ 2 ^ 64 = a := by
  have hpow : ∀ n : ℕ, (a ^ n).residue = a.residue ^ n := by
    intro n
    induction n with
    | zero => exact FieldElement.residue_one
    | succ n ih => rw [pow_succ, pow_succ, ← ih, ← FieldElement.residue_fieldMul, FieldElement.fieldMul_eq_mul]
  apply FieldElement.residue_injective
  rw [hpow, FieldElement.residue_pow_order]

/-- Squares added up, as a computation. -/
def traceLoop : ℕ → FieldElement → FieldElement → FieldElement
  | 0, sum, _ => sum
  | rounds + 1, sum, value => traceLoop rounds (sum ^^^ value) (fieldMul value value)

theorem tr_succ (k : ℕ) (a : FieldElement) : tr (k + 1) a = a + tr k (a * a) := by
  unfold tr
  rw [Finset.sum_range_succ', pow_zero, pow_one, add_comm]
  congr 1
  apply Finset.sum_congr rfl
  intro i _
  rw [← pow_two, ← pow_mul, pow_succ']

theorem traceLoop_eq (rounds : ℕ) : ∀ sum value : FieldElement, traceLoop rounds sum value = sum + tr rounds value := by
  induction rounds with
  | zero =>
    intro sum value
    rw [traceLoop, tr, Finset.range_zero, Finset.sum_empty, add_zero]
  | succ rounds ih =>
    intro sum value
    rw [traceLoop, ih, tr_succ, ← add_assoc]
    rfl

/-- An element whose trace is one. -/
def traceOne : FieldElement := ⟨2 ^ 63, by decide⟩

theorem traceLoop_traceOne : traceLoop 64 0 traceOne = 1 := by decide +kernel

theorem tr_of_loop {k : ℕ} {a b : FieldElement} (h : traceLoop k 0 a = b) : tr k a = b := by
  rw [traceLoop_eq, zero_add] at h
  exact h

theorem tr_traceOne : tr 64 traceOne = 1 := tr_of_loop traceLoop_traceOne

/-- A word as a field element. -/
def ofWord (n : ℕ) : FieldElement := ⟨n % 2 ^ 64, Nat.mod_lt _ (Nat.two_pow_pos 64)⟩

theorem ofWord_xor (a b : ℕ) : ofWord (a ^^^ b) = ofWord a + ofWord b := FieldElement.ext (Nat.xor_mod_two_pow)

theorem ofWord_val (a : FieldElement) : ofWord a.val = a := FieldElement.ext (Nat.mod_eq_of_lt a.isLt)

/-- The seeds of the attempts that are enough. -/
def seedWords : List ℕ := (List.range' 1 256).map fun attempt => (attempt * splitSeedStep) &&& fieldMask

theorem seedWords_all : ((List.range 64).all fun i => (eliminate 64 seedWords).contains (2 ^ i)) = true := by
  decide +kernel

theorem seedWords_span {i : ℕ} (hi : i < 64) : 2 ^ i ∈ eliminate 64 seedWords := by
  have h := List.all_eq_true.1 seedWords_all i (List.mem_range.2 hi)
  exact List.contains_iff_mem.1 h

/-- **The seeds tell any two elements apart.** -/
theorem seeds_separate {a b : FieldElement} (hne : a ≠ b) :
    ∃ attempt ∈ List.range' 1 maxSplitAttempts, tr 64 (splitSeed attempt * a) ≠ tr 64 (splitSeed attempt * b) := by
  by_contra hsame
  simp only [not_exists, not_and, not_not] at hsame
  have hsub : a - b ≠ 0 := sub_ne_zero.2 hne
  -- the words whose multiples of the difference have trace zero
  let P : ℕ → Prop := fun n => tr 64 (ofWord n * (a - b)) = 0
  have hxor : ∀ m n, P m → P n → P (m ^^^ n) := by
    intro m n hm hn
    show tr 64 (ofWord (m ^^^ n) * (a - b)) = 0
    rw [ofWord_xor, add_mul, tr_add, hm, hn, add_zero]
  have hseeds : ∀ v ∈ seedWords, P v := by
    intro v hv
    obtain ⟨attempt, hattempt, rfl⟩ := List.mem_map.1 hv
    rw [List.mem_range'_1] at hattempt
    have hequal := hsame attempt (by rw [List.mem_range'_1]; unfold maxSplitAttempts; omega)
    have hsplit : splitSeed attempt * a = splitSeed attempt * (a - b) + splitSeed attempt * b := by ring
    rw [hsplit, tr_add] at hequal
    show tr 64 (ofWord (splitSeed attempt).val * (a - b)) = 0
    rw [ofWord_val]
    exact left_eq_add.1 (by rw [add_comm] at hequal; exact hequal.symm) 
  have hbits : ∀ i < 64, P (2 ^ i) := fun i hi => eliminate_spans hxor 64 hseeds _ (seedWords_span hi)
  have hzero : P 0 := by
    show tr 64 (ofWord 0 * (a - b)) = 0
    rw [show ofWord 0 = 0 from rfl, zero_mul, tr_zero]
  have hall : ∀ x : FieldElement, tr 64 (x * (a - b)) = 0 := by
    intro x
    have hx : P x.val := of_powers hxor hzero hbits x.val x.isLt
    show tr 64 (x * (a - b)) = 0
    rw [← ofWord_val x]
    exact hx
  have hone := hall (traceOne * (a - b)⁻¹)
  rw [inv_mul_cancel_right₀ hsub, tr_traceOne] at hone
  exact one_ne_zero hone

/-! ## An attempt -/

theorem polyDegree_eq (p : List FieldElement) : polyDegree p = (toPoly p).natDegree := by
  unfold polyDegree
  have ht := polyTrim_trimmed p
  by_cases hzero : polyTrim p = [0]
  · rw [hzero, polyTrim_eq_zero.1 hzero, natDegree_zero]
    rfl
  · rw [← toPoly_trim p, natDegree_eq_of_degree_eq_some (ht.degree hzero)]

section Attempt

variable {modulus : List FieldElement} (hmod : toPoly modulus ≠ 0)
include hmod

/-- The loop adds up the squares of the value, at the roots of the modulus. -/
theorem polyTraceLoop_spec (rounds : ℕ) : ∀ result value : List FieldElement,
    ∃ t, polyTraceLoop modulus rounds result value = .ok t ∧
      ∀ a, (toPoly modulus).eval a = 0 → (toPoly t).eval a = (toPoly result).eval a + tr rounds ((toPoly value).eval a) := by
  induction rounds with
  | zero =>
    intro result value
    refine ⟨result, rfl, ?_⟩
    intro a _
    rw [tr, Finset.range_zero, Finset.sum_empty, add_zero]
  | succ rounds ih =>
    intro result value
    obtain ⟨next, hnext, -, hdvd, -⟩ := polyMod_spec (polyMul value value) hmod
    obtain ⟨t, hloop, heval⟩ := ih (polyAdd result value) next
    refine ⟨t, ?_, ?_⟩
    · rw [polyTraceLoop]
      unfold polyMulMod
      rw [hnext]
      exact hloop
    · intro a ha
      have hsame : (toPoly next).eval a = (toPoly value).eval a * (toPoly value).eval a := by
        obtain ⟨q, hq⟩ := hdvd
        have hevals := congrArg (Polynomial.eval a) hq
        rw [eval_sub, eval_mul, ha, zero_mul, toPoly_mul, eval_mul, sub_eq_zero] at hevals
        exact hevals.symm
      rw [heval a ha, hsame, toPoly_add, eval_add, tr_succ, add_assoc]

/-- The trace polynomial has the traces as its values at the roots. -/
theorem polyTraceMod_spec (seed : FieldElement) : ∃ t, polyTraceMod [0, seed] modulus = .ok t ∧
    ∀ a, (toPoly modulus).eval a = 0 → (toPoly t).eval a = tr 64 (seed * a) := by
  obtain ⟨value, hvalue, -, hdvd, -⟩ := polyMod_spec [0, seed] hmod
  obtain ⟨t, hloop, heval⟩ := polyTraceLoop_spec hmod 64 [0] value
  have hbits : fieldBits = 64 := rfl
  refine ⟨t, ?_, ?_⟩
  · unfold polyTraceMod
    rw [hvalue, Exn.ok_bind, hbits, hloop]
  · intro a ha
    have hsame : (toPoly value).eval a = seed * a := by
      obtain ⟨q, hq⟩ := hdvd
      have hevals := congrArg (Polynomial.eval a) hq
      rw [eval_sub, eval_mul, ha, zero_mul, sub_eq_zero] at hevals
      rw [← hevals, toPoly_linear, eval_mul, eval_C, eval_X]
    rw [heval a ha, hsame, toPoly_zero, eval_zero, zero_add]

end Attempt

/-! ## The attempts -/

/-- **The loop over the attempts.** A factor that it finds has some of the roots, but not all; if
it finds none, no attempt tells two roots apart. -/
theorem findFactor_spec {polynomial : List FieldElement} {s : Finset FieldElement} (hpoly : toPoly polynomial = rootPoly s)
    (attempts : List ℕ) :
    ∃ o, findFactor polynomial attempts = .ok o ∧
      (∀ factor, o = some factor → ∃ t ⊆ s, t.Nonempty ∧ t ≠ s ∧ toPoly factor = rootPoly t) ∧
      (o = none → ∀ attempt ∈ attempts, ∀ a ∈ s, ∀ b ∈ s, tr 64 (splitSeed attempt * a) = tr 64 (splitSeed attempt * b)) := by
  have hmod : toPoly polynomial ≠ 0 := hpoly ▸ (monic_rootPoly s).ne_zero
  induction attempts with
  | nil =>
    refine ⟨none, rfl, ?_, ?_⟩
    · intro factor h
      cases h
    · intro _ attempt h
      cases h
  | cons attempt attempts ih =>
    obtain ⟨o, hrest, hfound, hnone⟩ := ih
    rw [findFactor]
    by_cases hseed : splitSeed attempt = 0
    · -- a seed of zero tells no roots apart
      rw [if_pos hseed]
      refine ⟨o, hrest, hfound, ?_⟩
      intro ho other hother a ha b hb
      rcases List.mem_cons.1 hother with rfl | hother
      · rw [hseed, zero_mul, zero_mul]
      · exact hnone ho other hother a ha b hb
    · rw [if_neg hseed]
      obtain ⟨trace, htrace, heval⟩ := polyTraceMod_spec hmod (splitSeed attempt)
      obtain ⟨factor, hgcd, -, hcommon, hmonic⟩ := polyGcd_spec polynomial trace
      rw [htrace, Exn.ok_bind, hgcd, Exn.ok_bind]
      rw [hpoly] at hcommon
      -- the roots whose multiple has trace zero
      have hfactor := eq_rootPoly_of_common (hmonic (Or.inl hmod)) hcommon
      set t := s.filter fun a => (toPoly trace).eval a = 0 with ht
      have hsub : t ⊆ s := Finset.filter_subset _ _
      have hdegree : polyDegree factor = t.card := by rw [polyDegree_eq, hfactor, natDegree_rootPoly]
      have hwhole : polyDegree polynomial = s.card := by rw [polyDegree_eq, hpoly, natDegree_rootPoly]
      have hzero : ∀ a ∈ s, (a ∈ t ↔ tr 64 (splitSeed attempt * a) = 0) := by
        intro a ha
        rw [ht, Finset.mem_filter, heval a (by rw [hpoly, eval_rootPoly_eq_zero]; exact ha)]
        exact and_iff_right ha
      rw [hdegree, hwhole]
      split
      · rename_i hproper
        refine ⟨some factor, rfl, ?_, ?_⟩
        · intro f hf
          cases hf
          refine ⟨t, hsub, Finset.card_pos.1 hproper.1, ?_, hfactor⟩
          intro hall
          rw [hall] at hproper
          exact lt_irrefl _ hproper.2
        · intro h
          cases h
      · rename_i hproper
        refine ⟨o, hrest, hfound, ?_⟩
        intro ho other hother a ha b hb
        rcases List.mem_cons.1 hother with rfl | hother
        · -- all roots are on the same side, and there is only one other value
          have hcases : ∀ c ∈ s, tr 64 (splitSeed other * c) = 0 ∨ tr 64 (splitSeed other * c) = 1 :=
            fun c _ => tr_cases (fieldElement_pow _)
          rcases Nat.eq_zero_or_pos t.card with hempty | hpos
          · have hone : ∀ c ∈ s, tr 64 (splitSeed other * c) = 1 := by
              intro c hc
              apply (hcases c hc).resolve_left
              intro h0
              have hmem := (hzero c hc).2 h0
              rw [Finset.card_eq_zero.1 hempty] at hmem
              exact absurd hmem (Finset.notMem_empty c)
            rw [hone a ha, hone b hb]
          · have hall : t = s := by
              apply Finset.eq_of_subset_of_card_le hsub
              by_contra hlt
              exact hproper ⟨hpos, not_le.1 hlt⟩
            rw [(hzero a ha).1 (by rw [hall]; exact ha), (hzero b hb).1 (by rw [hall]; exact hb)]
        · exact hnone ho other hother a ha b hb

/-! ## The recursion -/

/-- Dividing by a factor takes its roots away. -/
theorem polyDivmod_rootPoly {polynomial factor : List FieldElement} {s t : Finset FieldElement} (hsub : t ⊆ s)
    (hpoly : toPoly polynomial = rootPoly s) (hfactor : toPoly factor = rootPoly t) :
    ∃ q, polyDivmod polynomial factor = .ok (q, [0]) ∧ toPoly q = rootPoly (s \ t) := by
  have hne : toPoly factor ≠ 0 := hfactor ▸ (monic_rootPoly t).ne_zero
  obtain ⟨q, r, hdiv, -, hr, heq, hdeg⟩ := polyDivmod_spec polynomial hne
  rw [hpoly, hfactor] at heq
  rw [hfactor] at hdeg
  obtain ⟨hq, hrem⟩ := div_modByMonic_unique (f := rootPoly s) (g := rootPoly t) (toPoly q) (toPoly r) (monic_rootPoly t)
    ⟨by rw [heq]; ring, hdeg⟩
  obtain ⟨hq', hrem'⟩ := div_modByMonic_unique (f := rootPoly s) (g := rootPoly t) (rootPoly (s \ t)) 0 (monic_rootPoly t)
    ⟨by rw [zero_add, rootPoly_mul_sdiff hsub], by
      rw [degree_zero]
      exact bot_lt_iff_ne_bot.2 (degree_ne_bot.2 (monic_rootPoly t).ne_zero)⟩
  have hzero : toPoly r = 0 := hrem.symm.trans hrem'
  rw [hr.toPoly_eq_zero] at hzero
  subst hzero
  exact ⟨q, hdiv, hq.symm.trans hq'⟩

/-- **The recursion returns all roots**, each of them once. -/
theorem splitLinearRoots_spec (fuel : ℕ) : ∀ (polynomial : List FieldElement) (s : Finset FieldElement),
    toPoly polynomial = rootPoly s → s.card < fuel →
      ∃ roots, splitLinearRoots fuel polynomial = .ok roots ∧ roots.Nodup ∧ ∀ a, a ∈ roots ↔ a ∈ s := by
  induction fuel with
  | zero =>
    intro polynomial s _ hfuel
    exact absurd hfuel (Nat.not_lt_zero _)
  | succ fuel ih =>
    intro polynomial s hpoly hfuel
    obtain ⟨m, hmake, hm, heq⟩ := polyMakeMonic_spec polynomial
    have hmonic := monic_rootPoly s
    rw [hpoly, hmonic.leadingCoeff, inv_one, C_1, one_mul] at heq
    have hdegree : polyDegree m = s.card := by rw [polyDegree_eq, heq, natDegree_rootPoly]
    rw [splitLinearRoots, hmake, Exn.ok_bind, hdegree]
    by_cases hzero : s.card = 0
    · rw [if_pos hzero]
      refine ⟨[], rfl, List.nodup_nil, ?_⟩
      intro a
      rw [Finset.card_eq_zero.1 hzero]
      simp
    rw [if_neg hzero]
    by_cases hone : s.card = 1
    · rw [if_pos hone]
      obtain ⟨a, rfl⟩ := Finset.card_eq_one.1 hone
      have hroot : rootPoly {a} = X - C a := by simp [rootPoly]
      have hlead : m.getD 1 0 = 1 := by rw [← coeff_toPoly, heq, hroot]; simp [coeff_X]
      have hconst : m.getD 0 0 = a := by
        rw [← coeff_toPoly, heq, hroot, coeff_sub, coeff_X_zero, coeff_C_zero, zero_sub, CharTwo.neg_eq]
      rw [hlead, hconst, fieldDiv_eq _ one_ne_zero, inv_one, mul_one]
      refine ⟨[a], rfl, List.nodup_singleton a, ?_⟩
      intro b
      simp
    rw [if_neg hone]
    obtain ⟨o, hfind, hfound, hnone⟩ := findFactor_spec heq (List.range' 1 maxSplitAttempts)
    rw [hfind, Exn.ok_bind]
    cases o with
    | none =>
      -- there are two roots, and an attempt tells them apart
      exfalso
      obtain ⟨a, ha, b, hb, hab⟩ := Finset.one_lt_card.1 (show 1 < s.card by omega)
      obtain ⟨attempt, hattempt, hdiffer⟩ := seeds_separate hab
      exact hdiffer (hnone rfl attempt hattempt a ha b hb)
    | some factor =>
      obtain ⟨t, hsub, htne, htproper, hfactor⟩ := hfound factor rfl
      obtain ⟨q, hdiv, hq⟩ := polyDivmod_rootPoly hsub heq hfactor
      have hcard : t.card < s.card := Finset.card_lt_card (Finset.ssubset_iff_subset_ne.2 ⟨hsub, htproper⟩)
      -- both parts have fewer roots, so the fuel lasts
      have hcard' : (s \ t).card < s.card := by
        rw [Finset.card_sdiff_of_subset hsub]
        have hpos := htne.card_pos
        omega
      obtain ⟨left, hleft, hleftNodup, hleftMem⟩ := ih factor t hfactor (by omega)
      obtain ⟨right, hright, hrightNodup, hrightMem⟩ := ih q (s \ t) hq (by omega)
      dsimp only
      rw [hdiv, Exn.ok_bind, Exn.ensure_of _ rfl, Exn.ok_bind, hleft, Exn.ok_bind, hright, Exn.ok_bind]
      refine ⟨left ++ right, rfl, ?_, ?_⟩
      · rw [List.nodup_append]
        refine ⟨hleftNodup, hrightNodup, ?_⟩
        rintro a ha b hb rfl
        exact (Finset.mem_sdiff.1 ((hrightMem a).1 hb)).2 ((hleftMem a).1 ha)
      · intro a
        rw [List.mem_append, hleftMem, hrightMem, Finset.mem_sdiff]
        constructor
        · rintro (h | h)
          · exact hsub h
          · exact h.1
        · intro h
          by_cases hin : a ∈ t
          · exact Or.inl hin
          · exact Or.inr ⟨h, hin⟩

end Erlay

end TensorPow
