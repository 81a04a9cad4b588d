import TensorPow.Gf2.Word

/-!
# Traces and spanning words

* `tr k a`: the sum of `a ^ 2 ^ i` for `i < k`. It is additive, and a root of unity or zero where
  `a ^ 2 ^ k = a`.
* `eliminate`: Gauss elimination on words. What holds of some words and of exclusive ors holds of
  the words it returns.
-/

namespace Gf2

section Trace

variable {R : Type*} [CommRing R] [CharP R 2]

/-- The sum of the first `k` repeated squares. -/
def tr (k : ℕ) (a : R) : R := ∑ i ∈ Finset.range k, a ^ 2 ^ i

theorem tr_add (k : ℕ) (a b : R) : tr k (a + b) = tr k a + tr k b := by
  unfold tr
  rw [← Finset.sum_add_distrib]
  apply Finset.sum_congr rfl
  intro i _
  exact add_pow_char_pow a b 2 i

omit [CharP R 2] in
theorem tr_zero (k : ℕ) : tr k (0 : R) = 0 := by
  unfold tr
  apply Finset.sum_eq_zero
  intro i _
  exact zero_pow (Nat.two_pow_pos i).ne'

/-- The trace of an element of the field with `2 ^ k` elements is fixed by squaring. -/
theorem tr_sq {k : ℕ} {a : R} (ha : a ^ 2 ^ k = a) : tr k a ^ 2 = tr k a := by
  have hsquares : tr k a ^ 2 = ∑ i ∈ Finset.range k, a ^ 2 ^ (i + 1) := by
    unfold tr
    rw [sum_pow_char]
    apply Finset.sum_congr rfl
    intro i _
    rw [← pow_mul, pow_succ]
  -- the sum moves on by one term, and the new term is the first one
  have hshift := Finset.sum_range_succ' (fun i => a ^ 2 ^ i) k
  rw [Finset.sum_range_succ, ha, pow_zero, pow_one] at hshift
  rw [hsquares]
  exact (add_right_cancel hshift).symm

theorem tr_cases [IsDomain R] {k : ℕ} {a : R} (ha : a ^ 2 ^ k = a) : tr k a = 0 ∨ tr k a = 1 := by
  have hsq := tr_sq ha
  have hprod : tr k a * (tr k a - 1) = 0 := by
    rw [mul_sub, mul_one, ← pow_two, hsq, sub_self]
  rcases mul_eq_zero.1 hprod with h | h
  · exact Or.inl h
  · exact Or.inr (sub_eq_zero.1 h)

end Trace

/-! ## Elimination -/

/-- Take a word off where it has a bit in common. -/
def reduceBy (bit p v : ℕ) : ℕ := if v.testBit bit then v ^^^ p else v

/-- Eliminate a bit: a word with the bit becomes a pivot, and is taken off all others. -/
def eliminateBit (s : List ℕ × List ℕ) (bit : ℕ) : List ℕ × List ℕ :=
  match s.2.find? fun v => v.testBit bit with
  | none => s
  | some p => (p :: s.1.map (reduceBy bit p), s.2.map (reduceBy bit p))

/-- The pivots of the words, for the bits below `k`. -/
def eliminate (k : ℕ) (words : List ℕ) : List ℕ := ((List.range k).foldl eliminateBit ([], words)).1

section Span

variable {P : ℕ → Prop} (hxor : ∀ a b, P a → P b → P (a ^^^ b))
include hxor

theorem reduceBy_spans {bit p v : ℕ} (hp : P p) (hv : P v) : P (reduceBy bit p v) := by
  unfold reduceBy
  split
  · exact hxor v p hv hp
  · exact hv

theorem eliminateBit_spans {s : List ℕ × List ℕ} (bit : ℕ) (h₁ : ∀ v ∈ s.1, P v) (h₂ : ∀ v ∈ s.2, P v) :
    (∀ v ∈ (eliminateBit s bit).1, P v) ∧ ∀ v ∈ (eliminateBit s bit).2, P v := by
  unfold eliminateBit
  split
  · exact ⟨h₁, h₂⟩
  · rename_i p hfind
    have hp : P p := h₂ p (List.mem_of_find?_eq_some hfind)
    constructor
    · intro v hv
      rcases List.mem_cons.1 hv with rfl | hv
      · exact hp
      · obtain ⟨w, hw, rfl⟩ := List.mem_map.1 hv
        exact reduceBy_spans hxor hp (h₁ w hw)
    · intro v hv
      obtain ⟨w, hw, rfl⟩ := List.mem_map.1 hv
      exact reduceBy_spans hxor hp (h₂ w hw)

/-- What holds of the words and of exclusive ors holds of the pivots. -/
theorem eliminate_spans (k : ℕ) {words : List ℕ} (h : ∀ v ∈ words, P v) : ∀ v ∈ eliminate k words, P v := by
  have hloop : ∀ (bits : List ℕ) (s : List ℕ × List ℕ), (∀ v ∈ s.1, P v) → (∀ v ∈ s.2, P v) →
      ∀ v ∈ (bits.foldl eliminateBit s).1, P v := by
    intro bits
    induction bits with
    | nil =>
      intro s h₁ _
      exact h₁
    | cons bit bits ih =>
      intro s h₁ h₂
      obtain ⟨h₁', h₂'⟩ := eliminateBit_spans hxor bit h₁ h₂
      exact ih _ h₁' h₂'
  exact hloop (List.range k) ([], words) (fun v hv => absurd hv List.not_mem_nil) h

/-- What holds of the powers of two and of exclusive ors holds of every word. -/
theorem of_powers (hzero : P 0) {k : ℕ} (hbits : ∀ i < k, P (2 ^ i)) : ∀ n < 2 ^ k, P n := by
  induction k with
  | zero =>
    intro n hn
    obtain rfl : n = 0 := by omega
    exact hzero
  | succ k ih =>
    intro n hn
    have ih := ih fun i hi => hbits i (by omega)
    rcases lt_or_ge n (2 ^ k) with hlt | hge
    · exact ih n hlt
    · -- the highest bit and the rest
      have hrest : n ^^^ 2 ^ k < 2 ^ k := by
        apply Nat.lt_pow_two_of_testBit
        intro i hi
        rw [Nat.testBit_xor, Nat.testBit_two_pow]
        rcases eq_or_lt_of_le hi with rfl | hgt
        · have htop : n.testBit k = true := by
            rw [Nat.testBit_eq_decide_div_mod_eq]
            have hdiv : n / 2 ^ k = 1 := by
              apply Nat.div_eq_of_lt_le
              · omega
              · rw [pow_succ] at hn
                omega
            simp [hdiv]
          simp [htop]
        · have hout : n.testBit i = false := Nat.testBit_lt_two_pow (lt_of_lt_of_le hn (Nat.pow_le_pow_right (by omega) hgt))
          simp [hout, hgt.ne]
      have hback := hxor (n ^^^ 2 ^ k) (2 ^ k) (ih _ hrest) (hbits k (by omega))
      rwa [Nat.xor_assoc, Nat.xor_self, Nat.xor_zero] at hback

end Span

end Gf2
