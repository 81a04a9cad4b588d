import Mathlib

/-!
# Check words of a linear shift

A list of values is folded into a word: the word is shifted by a linear map, then the next
value is added by exclusive or. A list whose word is zero is a codeword of a linear code.

* `remainder_xor`: the word of a sum is the sum of the words.
* `remainder_terms`: the word of a list is the sum of its nonzero values, each shifted as often
  as there are values after it.
* `remainder_ne_zero`: if the shifted values differ above their low bits, a list with one, two
  or three nonzero values is not a codeword.
-/

namespace Coder

/-- The shift respects sums. -/
def Linear (shift : ℕ → ℕ) : Prop := ∀ a b, shift (a ^^^ b) = shift a ^^^ shift b

/-- The word of a list, from a given word on. -/
def remainder (shift : ℕ → ℕ) (c : ℕ) (values : List ℕ) : ℕ := values.foldl (fun c v => shift c ^^^ v) c

variable {shift : ℕ → ℕ}

theorem Linear.zero (h : Linear shift) : shift 0 = 0 := by
  have hzero := h 0 0
  rwa [Nat.xor_self, Nat.xor_self] at hzero

theorem Linear.iterate (h : Linear shift) (n : ℕ) : Linear shift^[n] := by
  induction n with
  | zero =>
    intro a b
    rfl
  | succ n ih =>
    intro a b
    rw [Function.iterate_succ_apply, h, ih]
    rfl

theorem remainder_append (c : ℕ) (u v : List ℕ) :
    remainder shift c (u ++ v) = remainder shift (remainder shift c u) v := by
  unfold remainder
  rw [List.foldl_append]

@[simp] theorem remainder_singleton (c v : ℕ) : remainder shift c [v] = shift c ^^^ v := rfl

theorem remainder_xor (h : Linear shift) {u v : List ℕ} (hlen : u.length = v.length) (c d : ℕ) :
    remainder shift (c ^^^ d) (List.zipWith (fun x y => x ^^^ y) u v) = remainder shift c u ^^^ remainder shift d v := by
  induction u generalizing v c d with
  | nil =>
    rw [List.length_eq_zero_iff.1 hlen.symm]
    rfl
  | cons x u ih =>
    obtain ⟨y, v, rfl⟩ := List.exists_cons_of_length_eq_add_one hlen.symm
    have hstep : shift (c ^^^ d) ^^^ (x ^^^ y) = (shift c ^^^ x) ^^^ (shift d ^^^ y) := by
      rw [h]
      ac_rfl
    have hrest := ih (v := v) (by simpa using hlen) (shift c ^^^ x) (shift d ^^^ y)
    rw [← hstep] at hrest
    exact hrest

/-- The word splits into that of the start and that of the values. -/
theorem remainder_split (h : Linear shift) (c : ℕ) (values : List ℕ) :
    remainder shift c values = remainder shift c (List.replicate values.length 0) ^^^ remainder shift 0 values := by
  have hsum : List.zipWith (fun x y => x ^^^ y) (List.replicate values.length 0) values = values := by
    apply List.ext_getElem
    · simp
    · intro i hi hi'
      simp
  rw [← remainder_xor h (by simp), hsum, Nat.xor_zero]

/-! ## Lists with few nonzero values -/

/-- How many values are not zero. -/
def weight (values : List ℕ) : ℕ := values.countP fun v => v ≠ 0

/-- The sum of values, each shifted by its place. -/
def sumOf (shift : ℕ → ℕ) (terms : List (ℕ × ℕ)) : ℕ :=
  (terms.map fun p => shift^[p.1] p.2).foldr (fun x y => x ^^^ y) 0

theorem sumOf_cons (p : ℕ × ℕ) (terms : List (ℕ × ℕ)) : sumOf shift (p :: terms) = shift^[p.1] p.2 ^^^ sumOf shift terms :=
  rfl

theorem sumOf_concat (terms : List (ℕ × ℕ)) (v : ℕ) : sumOf shift (terms ++ [(0, v)]) = sumOf shift terms ^^^ v := by
  induction terms with
  | nil => exact (Nat.xor_zero v).trans (Nat.zero_xor v).symm
  | cons p terms ih => rw [List.cons_append, sumOf_cons, sumOf_cons, ih, Nat.xor_assoc]

/-- One more shift of everything. -/
theorem sumOf_shift (h : Linear shift) (terms : List (ℕ × ℕ)) :
    shift (sumOf shift terms) = sumOf shift (terms.map fun p => (p.1 + 1, p.2)) := by
  induction terms with
  | nil => exact h.zero
  | cons p terms ih => rw [List.map_cons, sumOf_cons, sumOf_cons, h, ih, Function.iterate_succ_apply']

/-- **The nonzero values of a list**, with their places from the end, in descending order. -/
theorem remainder_terms (h : Linear shift) (values : List ℕ) :
    ∃ terms : List (ℕ × ℕ), terms.length = weight values ∧ terms.Pairwise (fun p q => q.1 < p.1) ∧
      (∀ p ∈ terms, p.1 < values.length ∧ p.2 ∈ values ∧ p.2 ≠ 0) ∧ remainder shift 0 values = sumOf shift terms := by
  induction values using List.reverseRecOn with
  | nil => exact ⟨[], rfl, .nil, fun p hp => (by cases hp), rfl⟩
  | append_singleton values v ih =>
    obtain ⟨terms, hlen, hdesc, hmem, hsum⟩ := ih
    -- a value behind moves the terms up by one
    have hdesc' : (terms.map fun p => (p.1 + 1, p.2)).Pairwise (fun p q => q.1 < p.1) := by
      rw [List.pairwise_map]
      exact hdesc.imp fun hlt => Nat.succ_lt_succ hlt
    have hmem' : ∀ p ∈ terms.map (fun p => (p.1 + 1, p.2)),
        0 < p.1 ∧ p.1 < (values ++ [v]).length ∧ p.2 ∈ values ++ [v] ∧ p.2 ≠ 0 := by
      intro p hp
      obtain ⟨q, hq, rfl⟩ := List.mem_map.1 hp
      obtain ⟨hlt, hin, hne⟩ := hmem q hq
      refine ⟨Nat.succ_pos _, ?_, List.mem_append_left _ hin, hne⟩
      rw [List.length_append, List.length_singleton]
      exact Nat.succ_lt_succ hlt
    rw [remainder_append, remainder_singleton, hsum, sumOf_shift h]
    by_cases hv : v = 0
    · -- a zero adds no term
      refine ⟨_, ?_, hdesc', fun p hp => (hmem' p hp).2, ?_⟩
      · simp [weight, hv, hlen]
      · rw [hv, Nat.xor_zero]
    · refine ⟨(terms.map fun p => (p.1 + 1, p.2)) ++ [(0, v)], ?_, ?_, ?_, (sumOf_concat _ v).symm⟩
      · simp [weight, hv, hlen]
      · rw [List.pairwise_append]
        refine ⟨hdesc', List.pairwise_singleton _ _, ?_⟩
        intro p hp q hq
        rw [List.mem_singleton.1 hq]
        exact (hmem' p hp).1
      · intro p hp
        rcases List.mem_append.1 hp with hp | hp
        · exact (hmem' p hp).2
        · rw [List.mem_singleton.1 hp]
          exact ⟨by simp, by simp, hv⟩

/-! ## Detecting three errors -/

/-- The values of `l` shifted once, twice, up to `n` times. -/
def rows (shift : ℕ → ℕ) : ℕ → List ℕ → List ℕ
  | 0, _ => []
  | n + 1, l => l.map shift ++ rows shift n (l.map shift)

theorem mem_rows {n i v : ℕ} {l : List ℕ} (hv : v ∈ l) (hi : i < n) : shift^[i + 1] v ∈ rows shift n l := by
  induction n generalizing i v l with
  | zero => omega
  | succ n ih =>
    rw [Function.iterate_succ_apply]
    have hshift : shift v ∈ l.map shift := List.mem_map_of_mem hv
    cases i with
    | zero => exact List.mem_append_left _ hshift
    | succ i => exact List.mem_append_right _ (ih hshift (by omega))

/-- Values shifted a different number of times are at different places. -/
theorem rows_ne {f : ℕ → ℕ} {n i j u v : ℕ} {l : List ℕ} (hnodup : ((rows shift n l).map f).Nodup) (hu : u ∈ l)
    (hv : v ∈ l) (hij : j < i) (hi : i < n) : f (shift^[i + 1] u) ≠ f (shift^[j + 1] v) := by
  induction n generalizing i j u v l with
  | zero => omega
  | succ n ih =>
    rw [rows, List.map_append, List.nodup_append'] at hnodup
    obtain ⟨-, hrest, hdisjoint⟩ := hnodup
    have hu' : shift u ∈ l.map shift := List.mem_map_of_mem hu
    have hv' : shift v ∈ l.map shift := List.mem_map_of_mem hv
    obtain ⟨i, rfl⟩ : ∃ k, i = k + 1 := ⟨i - 1, by omega⟩
    rw [Function.iterate_succ_apply, Function.iterate_succ_apply (n := j)]
    cases j with
    | zero =>
      intro heq
      refine hdisjoint (List.mem_map_of_mem hv') ?_
      have hrow : shift^[i + 1] (shift u) ∈ rows shift n (l.map shift) := mem_rows hu' (by omega)
      have hmem := List.mem_map_of_mem (f := f) hrow
      rwa [heq] at hmem
    | succ j => exact ih hrest hu' hv' (by omega) (by omega)

/-- Are the numbers distinct? Looks at the bits below `n`, from the top, while there are two
numbers that agree so far. -/
def distinctBits : ℕ → List ℕ → Bool
  | _, [] => true
  | _, [_] => true
  | 0, _ :: _ :: _ => false
  | n + 1, l => distinctBits n (l.filter fun v => v.testBit n) && distinctBits n (l.filter fun v => !v.testBit n)

theorem distinctBits_nodup {n : ℕ} {l : List ℕ} (h : distinctBits n l = true) : l.Nodup := by
  induction n generalizing l with
  | zero =>
    rcases l with _ | ⟨a, _ | ⟨b, l⟩⟩
    · exact List.nodup_nil
    · exact List.nodup_singleton a
    · cases h
  | succ n ih =>
    rcases l with _ | ⟨a, _ | ⟨b, l⟩⟩
    · exact List.nodup_nil
    · exact List.nodup_singleton a
    · simp only [distinctBits, Bool.and_eq_true] at h
      -- the two halves are distinct, and have nothing in common
      refine (List.filter_append_perm (fun v => v.testBit n) (a :: b :: l)).nodup_iff.1 ?_
      refine (List.nodup_append'.2 ⟨ih h.1, ih h.2, ?_⟩)
      intro v hv hv'
      have htop := (List.mem_filter.1 hv).2
      have hlow := (List.mem_filter.1 hv').2
      rw [htop] at hlow
      cases hlow

/-- A linear shift of words below `2 ^ bound` without kernel, whose shifted values below
`2 ^ low` differ above the low bits. -/
structure Separates (shift : ℕ → ℕ) (bound low n : ℕ) : Prop where
  linear : Linear shift
  lt : ∀ c < 2 ^ bound, shift c < 2 ^ bound
  kernel : ∀ c < 2 ^ bound, shift c = 0 → c = 0
  low_le : low ≤ bound
  distinct : (0 :: (rows shift n ((List.range (2 ^ low - 1)).map (· + 1))).map (· >>> low)).Nodup

namespace Separates

variable {bound low n : ℕ}

theorem iterate_lt (h : Separates shift bound low n) {c : ℕ} (hc : c < 2 ^ bound) (k : ℕ) : shift^[k] c < 2 ^ bound := by
  induction k with
  | zero => exact hc
  | succ k ih =>
    rw [Function.iterate_succ_apply']
    exact h.lt _ ih

theorem iterate_kernel (h : Separates shift bound low n) {c : ℕ} (hc : c < 2 ^ bound) {k : ℕ}
    (hzero : shift^[k] c = 0) : c = 0 := by
  induction k with
  | zero => exact hzero
  | succ k ih =>
    rw [Function.iterate_succ_apply'] at hzero
    exact ih (h.kernel _ (h.iterate_lt hc k) hzero)

theorem mem_seeds {v : ℕ} (hne : v ≠ 0) (hlt : v < 2 ^ low) : v ∈ (List.range (2 ^ low - 1)).map (· + 1) := by
  rw [List.mem_map]
  exact ⟨v - 1, List.mem_range.2 (by omega), by omega⟩

theorem high_ne_zero (h : Separates shift bound low n) {v i : ℕ} (hne : v ≠ 0) (hlt : v < 2 ^ low) (hi : i < n) :
    shift^[i + 1] v >>> low ≠ 0 := by
  intro hzero
  have hnot := (List.nodup_cons.1 h.distinct).1
  have hrow : shift^[i + 1] v ∈ rows shift n ((List.range (2 ^ low - 1)).map (· + 1)) := mem_rows (mem_seeds hne hlt) hi
  have hmem := List.mem_map_of_mem (f := fun x : ℕ => x >>> low) hrow
  rw [hzero] at hmem
  exact hnot hmem

theorem high_ne (h : Separates shift bound low n) {u v i j : ℕ} (hu : u ≠ 0) (hult : u < 2 ^ low) (hv : v ≠ 0)
    (hvlt : v < 2 ^ low) (hij : j < i) (hi : i < n) : shift^[i + 1] u >>> low ≠ shift^[j + 1] v >>> low :=
  rows_ne (List.nodup_cons.1 h.distinct).2 (mem_seeds hu hult) (mem_seeds hv hvlt) hij hi

/-- **One, two or three nonzero values do not cancel.** The shifts that all of them went
through are taken back; what is left says that two shifted values agree above the low bits. -/
theorem remainder_ne_zero (h : Separates shift bound low n) {values : List ℕ} (hlen : values.length ≤ n + 1)
    (hvalues : ∀ v ∈ values, v < 2 ^ low) (hpos : 0 < weight values) (hthree : weight values ≤ 3) :
    remainder shift 0 values ≠ 0 := by
  obtain ⟨terms, hcount, hdesc, hmem, hsum⟩ := remainder_terms h.linear values
  have hword : ∀ {v}, v < 2 ^ low → v < 2 ^ bound :=
    fun hv => lt_of_lt_of_le hv (Nat.pow_le_pow_right (by decide) h.low_le)
  have hhigh : ∀ {v}, v < 2 ^ low → v >>> low = 0 := by
    intro v hv
    rw [Nat.shiftRight_eq_div_pow]
    exact Nat.div_eq_of_lt hv
  rw [hsum]
  intro hzero
  -- one, two or three terms, the lowest at the bottom; a shift loses none of them
  rcases terms with _ | ⟨⟨i, u⟩, _ | ⟨⟨j, v⟩, _ | ⟨⟨k, w⟩, _ | ⟨p, terms⟩⟩⟩⟩
  · rw [List.length_nil] at hcount
    omega
  · obtain ⟨-, hu, hune⟩ := hmem (i, u) (by simp)
    rw [sumOf_cons, sumOf, List.map_nil, List.foldr_nil, Nat.xor_zero] at hzero
    exact hune (h.iterate_kernel (hword (hvalues u hu)) hzero)
  · obtain ⟨hi, hu, hune⟩ := hmem (i, u) (by simp)
    obtain ⟨-, hv, hvne⟩ := hmem (j, v) (by simp)
    have hji : j < i := by simpa using hdesc
    obtain ⟨d, rfl⟩ : ∃ d, i = j + (d + 1) := ⟨i - j - 1, by omega⟩
    rw [sumOf_cons, sumOf_cons, sumOf, List.map_nil, List.foldr_nil, Nat.xor_zero] at hzero
    dsimp only at hzero hi
    rw [Function.iterate_add_apply, ← h.linear.iterate j] at hzero
    have hsmall := Nat.xor_lt_two_pow (h.iterate_lt (hword (hvalues u hu)) (d + 1)) (hword (hvalues v hv))
    have heq := Nat.xor_eq_zero_iff.1 (h.iterate_kernel hsmall hzero)
    refine h.high_ne_zero hune (hvalues u hu) (i := d) (by omega) ?_
    rw [heq, hhigh (hvalues v hv)]
  · obtain ⟨hi, hu, hune⟩ := hmem (i, u) (by simp)
    obtain ⟨-, hv, hvne⟩ := hmem (j, v) (by simp)
    obtain ⟨-, hw, hwne⟩ := hmem (k, w) (by simp)
    have horder : (j < i ∧ k < i) ∧ k < j := by simpa using hdesc
    obtain ⟨d, rfl⟩ : ∃ d, j = k + (d + 1) := ⟨j - k - 1, by omega⟩
    obtain ⟨f, rfl⟩ : ∃ f, i = k + (f + 1) := ⟨i - k - 1, by omega⟩
    rw [sumOf_cons, sumOf_cons, sumOf_cons, sumOf, List.map_nil, List.foldr_nil, Nat.xor_zero] at hzero
    dsimp only at hzero hi
    rw [Function.iterate_add_apply, Function.iterate_add_apply (m := k) (n := d + 1), ← h.linear.iterate k,
      ← h.linear.iterate k, ← Nat.xor_assoc] at hzero
    have hpair := Nat.xor_lt_two_pow (h.iterate_lt (hword (hvalues u hu)) (f + 1))
      (h.iterate_lt (hword (hvalues v hv)) (d + 1))
    have hsmall := Nat.xor_lt_two_pow hpair (hword (hvalues w hw))
    have heq := Nat.xor_eq_zero_iff.1 (h.iterate_kernel hsmall hzero)
    refine h.high_ne hune (hvalues u hu) hvne (hvalues v hv) (i := f) (j := d) (by omega) (by omega) ?_
    have hshifted := congrArg (fun x : ℕ => x >>> low) heq
    rw [Nat.shiftRight_xor_distrib, hhigh (hvalues w hw)] at hshifted
    exact Nat.xor_eq_zero_iff.1 hshifted
  · simp only [List.length_cons] at hcount
    omega

end Separates

end Coder
