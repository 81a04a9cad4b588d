import Mathlib

/-!
# Regrouping bits

`bitsOf w v` are the low `w` bits of `v`, most significant first. A list of numbers below
`2 ^ w` is determined by its bits (`flatMap_bitsOf_inj`), and the bits of a shifted number are
a part of its bits (`bitsOf_add`), which is what a loop that regroups bits keeps.
-/

namespace Coder

/-- The low `w` bits, most significant first. -/
def bitsOf (w v : ℕ) : List Bool := (List.range w).map fun i => v.testBit (w - 1 - i)

@[simp] theorem length_bitsOf (w v : ℕ) : (bitsOf w v).length = w := by simp [bitsOf]

theorem getElem_bitsOf {w v i : ℕ} (h : i < (bitsOf w v).length) : (bitsOf w v)[i] = v.testBit (w - 1 - i) := by
  simp [bitsOf]

/-- Numbers with the same low bits have the same list. -/
theorem bitsOf_congr {w v v' : ℕ} (h : ∀ i < w, v.testBit i = v'.testBit i) : bitsOf w v = bitsOf w v' := by
  unfold bitsOf
  apply List.map_congr_left
  intro i hi
  have hlt := List.mem_range.1 hi
  exact h _ (by omega)

theorem testBit_of_bitsOf {w v v' i : ℕ} (h : bitsOf w v = bitsOf w v') (hi : i < w) : v.testBit i = v'.testBit i := by
  have hlt : w - 1 - i < (bitsOf w v).length := by
    rw [length_bitsOf]
    omega
  have hlt' : w - 1 - i < (bitsOf w v').length := by
    rw [length_bitsOf]
    omega
  have hget : (bitsOf w v)[w - 1 - i] = (bitsOf w v')[w - 1 - i] := by simp only [h]
  rw [getElem_bitsOf, getElem_bitsOf] at hget
  have hindex : w - 1 - (w - 1 - i) = i := by omega
  rwa [hindex] at hget

theorem bitsOf_inj {w v v' : ℕ} (hv : v < 2 ^ w) (hv' : v' < 2 ^ w) (h : bitsOf w v = bitsOf w v') : v = v' := by
  apply Nat.eq_of_testBit_eq
  intro i
  by_cases hi : i < w
  · exact testBit_of_bitsOf h hi
  · have hpow : 2 ^ w ≤ 2 ^ i := Nat.pow_le_pow_right (by decide) (by omega)
    rw [Nat.testBit_lt_two_pow (by omega), Nat.testBit_lt_two_pow (by omega)]

/-- The upper bits, then the lower ones. -/
theorem bitsOf_add (a b v : ℕ) : bitsOf (a + b) v = bitsOf a (v >>> b) ++ bitsOf b v := by
  apply List.ext_getElem
  · simp
  · intro i hi hi'
    rw [getElem_bitsOf]
    rw [length_bitsOf] at hi
    by_cases h : i < a
    · rw [List.getElem_append_left (by simpa using h), getElem_bitsOf, Nat.testBit_shiftRight]
      congr 1
      omega
    · rw [List.getElem_append_right (by simpa using h), getElem_bitsOf, length_bitsOf]
      congr 1
      omega

theorem bitsOf_zero (w : ℕ) : bitsOf w 0 = List.replicate w false := by
  apply List.ext_getElem
  · simp
  · intro i hi hi'
    rw [getElem_bitsOf, Nat.zero_testBit, List.getElem_replicate]

theorem length_flatMap_bitsOf (w : ℕ) (l : List ℕ) : (l.flatMap (bitsOf w)).length = w * l.length := by
  induction l with
  | nil => rfl
  | cons v l ih =>
    rw [List.flatMap_cons, List.length_append, ih, length_bitsOf, List.length_cons]
    ring

/-- Numbers of one width are determined by their bits in a row. -/
theorem flatMap_bitsOf_inj {w : ℕ} {l l' : List ℕ} (hl : ∀ v ∈ l, v < 2 ^ w) (hl' : ∀ v ∈ l', v < 2 ^ w)
    (hlen : l.length = l'.length) (h : l.flatMap (bitsOf w) = l'.flatMap (bitsOf w)) : l = l' := by
  induction l generalizing l' with
  | nil => exact (List.length_eq_zero_iff.1 hlen.symm).symm
  | cons v l ih =>
    obtain ⟨v', l', rfl⟩ := List.exists_cons_of_length_eq_add_one hlen.symm
    rw [List.flatMap_cons, List.flatMap_cons] at h
    obtain ⟨hhead, htail⟩ := List.append_inj h (by simp)
    have hv := bitsOf_inj (hl v List.mem_cons_self) (hl' v' List.mem_cons_self) hhead
    have hrest := ih (fun x hx => hl x (List.mem_cons_of_mem _ hx)) (fun x hx => hl' x (List.mem_cons_of_mem _ hx))
      (by simpa using hlen) htail
    rw [hv, hrest]

/-- Full groups and fewer bits than a group can be told apart. -/
theorem flatMap_bitsOf_append_inj {w : ℕ} {l l' : List ℕ} {r r' : List Bool} (hl : ∀ v ∈ l, v < 2 ^ w)
    (hl' : ∀ v ∈ l', v < 2 ^ w) (hr : r.length < w) (hr' : r'.length < w)
    (h : l.flatMap (bitsOf w) ++ r = l'.flatMap (bitsOf w) ++ r') : l = l' ∧ r = r' := by
  have hlength := congrArg List.length h
  rw [List.length_append, List.length_append, length_flatMap_bitsOf, length_flatMap_bitsOf] at hlength
  have hcount : l.length = l'.length := by
    have hdiv := congrArg (fun n => n / w) hlength
    simpa [Nat.mul_add_div (by omega : 0 < w), Nat.div_eq_of_lt hr, Nat.div_eq_of_lt hr'] using hdiv
  obtain ⟨hbits, hrest⟩ := List.append_inj h (by rw [length_flatMap_bitsOf, length_flatMap_bitsOf, hcount])
  exact ⟨flatMap_bitsOf_inj hl hl' hcount hbits, hrest⟩

end Coder
