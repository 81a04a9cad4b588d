import TensorPow.Proof.ErlayRoots

/-!
# Decoding a sketch

The syndromes of a sketch are power sums, exclusive or of two sketches gives the power sums of
what is in only one of the sets, and the decoder returns a set of short ids of at most the
capacity from its power sums.

* `powerSums_getD`, `sum_symmDiff`: sketches are linear.
* `decodeSyndromes_spec`: the decoder.
* `sketch_decodes`: two sketches, their difference and what it decodes to.
-/

namespace TensorPow

namespace Erlay

open Polynomial Coeffs Recurrence Sorted

/-! ## Power sums -/

theorem length_addPowers (shortId : FieldElement) (syndromes : List FieldElement) :
    ∀ power, (addPowers shortId syndromes power).length = syndromes.length := by
  induction syndromes with
  | nil =>
    intro power
    rfl
  | cons syndrome syndromes ih =>
    intro power
    rw [addPowers, List.length_cons, List.length_cons, ih]

theorem addPowers_getD (shortId : FieldElement) (syndromes : List FieldElement) :
    ∀ power j, j < syndromes.length →
      (addPowers shortId syndromes power).getD j 0 = syndromes.getD j 0 + power * shortId ^ j := by
  induction syndromes with
  | nil =>
    intro power j hj
    exact absurd hj (Nat.not_lt_zero j)
  | cons syndrome syndromes ih =>
    intro power j hj
    rw [addPowers]
    cases j with
    | zero =>
      rw [List.getD_cons_zero, List.getD_cons_zero, pow_zero, mul_one]
      rfl
    | succ j =>
      rw [List.length_cons] at hj
      rw [List.getD_cons_succ, List.getD_cons_succ, ih _ j (by omega), FieldElement.fieldMul_eq_mul, pow_succ', mul_assoc]

theorem powerSums_fold (shortIds : List FieldElement) : ∀ syndromes : List FieldElement,
    (shortIds.foldl (fun syndromes shortId => addPowers shortId syndromes shortId) syndromes).length = syndromes.length ∧
    ∀ j < syndromes.length,
      (shortIds.foldl (fun syndromes shortId => addPowers shortId syndromes shortId) syndromes).getD j 0 =
        syndromes.getD j 0 + (shortIds.map fun a => a ^ (j + 1)).sum := by
  induction shortIds with
  | nil =>
    intro syndromes
    refine ⟨rfl, ?_⟩
    intro j _
    rw [List.map_nil, List.sum_nil, add_zero]
    rfl
  | cons a shortIds ih =>
    intro syndromes
    rw [List.foldl_cons]
    obtain ⟨hlen, hget⟩ := ih (addPowers a syndromes a)
    rw [length_addPowers] at hlen hget
    refine ⟨hlen, ?_⟩
    intro j hj
    rw [hget j hj, addPowers_getD _ _ _ _ hj, List.map_cons, List.sum_cons, pow_succ', add_assoc]

theorem length_powerSums (shortIds : List FieldElement) (count : ℕ) : (powerSums shortIds count).length = count := by
  have h := (powerSums_fold shortIds (List.replicate count 0)).1
  rw [List.length_replicate] at h
  exact h

/-- The syndromes are the power sums. -/
theorem powerSums_getD {shortIds : List FieldElement} {s : Finset FieldElement} (hnodup : shortIds.Nodup)
    (hmem : ∀ a, a ∈ shortIds ↔ a ∈ s) {count j : ℕ} (hj : j < count) :
    (powerSums shortIds count).getD j 0 = ∑ a ∈ s, a ^ (j + 1) := by
  have h := (powerSums_fold shortIds (List.replicate count 0)).2 j (by rwa [List.length_replicate])
  have hs : s = shortIds.toFinset := by
    ext a
    rw [List.mem_toFinset, hmem]
  have hzero : (List.replicate count (0 : FieldElement)).getD j 0 = 0 := by
    rw [List.getD_eq_getElem _ _ (by rwa [List.length_replicate]), List.getElem_replicate]
  rw [hzero, zero_add] at h
  rw [hs, List.sum_toFinset _ hnodup]
  exact h

/-- Lists of the same length with the same entries. -/
theorem ext_getD {l l' : List FieldElement} (hlen : l.length = l'.length)
    (h : ∀ j < l.length, l.getD j 0 = l'.getD j 0) : l = l' := by
  apply List.ext_getElem hlen
  intro i hi hi'
  have hget := h i hi
  rwa [List.getD_eq_getElem _ _ hi, List.getD_eq_getElem _ _ hi'] at hget

/-- In characteristic two what both sets have cancels. -/
theorem sum_symmDiff (s t : Finset FieldElement) (f : FieldElement → FieldElement) :
    ∑ a ∈ symmDiff s t, f a = ∑ a ∈ s, f a + ∑ a ∈ t, f a := by
  have hsymm : symmDiff s t = (s \ t) ∪ (t \ s) := rfl
  have hdisj : Disjoint (s \ t) (t \ s) := by
    rw [Finset.disjoint_left]
    intro a hs ht
    exact (Finset.mem_sdiff.1 hs).2 (Finset.mem_sdiff.1 ht).1
  have hcommon : ∑ a ∈ s ∩ t, f a + ∑ a ∈ s ∩ t, f a = 0 := CharTwo.add_self_eq_zero _
  rw [hsymm, Finset.sum_union hdisj, ← Finset.sum_inter_add_sum_sdiff s t f, ← Finset.sum_inter_add_sum_sdiff t s f,
    Finset.inter_comm t s]
  linear_combination -hcommon

/-! ## The item polynomial -/

/-- The derivative, in characteristic two. -/
theorem toPoly_derivative (p : List FieldElement) : toPoly (polyDerivative p) = derivative (toPoly p) := by
  unfold polyDerivative
  split
  · rename_i hshort
    have hC : toPoly p = C ((toPoly p).coeff 0) := by
      apply eq_C_of_degree_le_zero
      rw [degree_le_iff_coeff_zero]
      intro i hi
      have hpos : 0 < i := by exact_mod_cast hi
      rw [coeff_toPoly, List.getD_eq_default _ _ (by omega)]
    rw [toPoly_zero, hC, derivative_C]
  · rename_i hlong
    rw [toPoly_trim, toPoly_eq_iff]
    intro i
    rw [coeff_derivative, coeff_toPoly, List.getD_eq_getElem?_getD, List.getElem?_map]
    -- in characteristic two an index is its parity
    have hcast : ((i : FieldElement) + 1) = if (i + 1) % 2 = 1 then 1 else 0 := by
      rw [← Nat.cast_succ, CharP.cast_eq_mod FieldElement 2]
      rcases Nat.mod_two_eq_zero_or_one (i + 1) with h | h
      · rw [h, if_neg (by omega), Nat.cast_zero]
      · rw [h, if_pos rfl, Nat.cast_one]
    rw [hcast]
    rcases lt_or_ge i (p.length - 1) with hi | hi
    · rw [List.getElem?_range hi]
      by_cases hodd : (i + 1) % 2 = 1
      · simp [hodd]
      · simp [hodd]
    · rw [List.getElem?_eq_none (by simpa using hi), List.getD_eq_default p _ (by omega), zero_mul]
      rfl

theorem itemPolynomial_trimmed (l : List FieldElement) : Trimmed (itemPolynomialFromLocator l) := by
  unfold itemPolynomialFromLocator
  dsimp only
  split
  · exact Trimmed.zero
  · exact polyTrim_trimmed _

section Item

variable {s : Finset FieldElement} {l : List FieldElement} (hlen : l.length = s.card + 1)
  (hlocator : toPoly l = locator s) (hcard : s.card ≠ 0)
include hlen hlocator hcard

/-- The item polynomial has the short ids as its roots. -/
theorem toPoly_itemPolynomial : toPoly (itemPolynomialFromLocator l) = rootPoly s := by
  have hdegree : l.length - 1 = s.card := by omega
  unfold itemPolynomialFromLocator
  dsimp only
  rw [hdegree, if_neg hcard, toPoly_trim, toPoly_eq_iff]
  intro i
  rcases lt_trichotomy i s.card with hlt | heq | hgt
  · rw [List.getD_append _ _ _ _ (by simpa using hlt), List.getD_eq_getElem?_getD, List.getElem?_map,
      List.getElem?_range hlt, coeff_rootPoly hlt.le, ← hlocator, coeff_toPoly]
    rfl
  · subst heq
    rw [List.getD_append_right _ _ _ _ (by simp), coeff_rootPoly le_rfl, Nat.sub_self, coeff_locator_zero]
    simp
  · rw [List.getD_eq_default _ _ (by simp; omega), coeff_eq_zero_of_natDegree_lt (by rw [natDegree_rootPoly]; exact hgt)]

/-- The item polynomial has no double root. -/
theorem gcd_derivative :
    polyGcd (itemPolynomialFromLocator l) (polyDerivative (itemPolynomialFromLocator l)) = .ok [1] := by
  have hitem := toPoly_itemPolynomial hlen hlocator hcard
  obtain ⟨g, hgcd, hg, hcommon, hmonic⟩ := polyGcd_spec (itemPolynomialFromLocator l)
    (polyDerivative (itemPolynomialFromLocator l))
  rw [toPoly_derivative, hitem] at hcommon
  have hunit : IsUnit (toPoly g) := (separable_rootPoly s).isUnit_of_dvd' ((hcommon _).1 dvd_rfl).1 ((hcommon _).1 dvd_rfl).2
  have hone : toPoly g = 1 := (hmonic (Or.inl (hitem ▸ (monic_rootPoly s).ne_zero))).eq_one_of_isUnit hunit
  have htrim : Trimmed [(1 : FieldElement)] := Or.inr (by
    show (1 : FieldElement) ≠ 0
    exact one_ne_zero)
  have hlist : toPoly [(1 : FieldElement)] = 1 := by rw [toPoly, toPoly, mul_zero, add_zero, C_1]
  rw [hgcd, hg.ext htrim (hone.trans hlist.symm)]

end Item

/-! ## The decoder -/

/-- **The decoder** returns a set of at most `capacity` short ids from its power sums. -/
theorem decodeSyndromes_spec {s : Finset FieldElement} (hne : ∀ a ∈ s, a ≠ 0) {capacity : ℕ} (hcard : s.card ≤ capacity)
    {syndromes : List FieldElement} (hlen : syndromes.length = 2 * capacity)
    (hsum : ∀ j < 2 * capacity, syndromes.getD j 0 = ∑ a ∈ s, a ^ (j + 1)) {ids : List FieldElement} (hnodup : ids.Nodup)
    (hmem : ∀ a, a ∈ ids ↔ a ∈ s) : decodeSyndromes syndromes capacity = .ok (sortBy FieldElement.val ids) := by
  unfold decodeSyndromes
  by_cases hzero : ∀ x ∈ syndromes, x = 0
  · -- the register that does nothing generates the power sums
    rw [if_pos hzero]
    have hgen : Generates (powerSeries s) 1 0 (2 * capacity) := by
      refine ⟨by rw [natDegree_one], coeff_one_zero, ?_⟩
      intro j _ hj
      have hin : j < syndromes.length := by omega
      rw [Polynomial.coe_one, one_mul, powerSeries, PowerSeries.coeff_mk, ← hsum j hj, List.getD_eq_getElem _ _ hin]
      exact hzero _ (List.getElem_mem hin)
    obtain ⟨-, hempty⟩ := hgen.eq_locator hne (Nat.zero_le _) (by omega)
    have hnil : ids = [] := by
      rw [List.eq_nil_iff_forall_not_mem]
      intro a ha
      rw [hmem, Finset.card_eq_zero.1 hempty.symm] at ha
      exact absurd ha (Finset.notMem_empty a)
    rw [hnil]
    rfl
  · rw [if_neg hzero]
    have hcardne : s.card ≠ 0 := by
      intro hempty
      apply hzero
      intro x hx
      obtain ⟨j, hj, rfl⟩ := List.getElem_of_mem hx
      rw [← List.getD_eq_getElem _ 0 hj, hsum j (by omega), Finset.card_eq_zero.1 hempty, Finset.sum_empty]
    obtain ⟨l, hmassey, hllen, hlocator⟩ := berlekampMassey_powerSums hne (fun j hj => hsum j (hlen ▸ hj))
      (show 2 * s.card ≤ syndromes.length by omega)
    -- the roots of the item polynomial are the set, and its degree is their number
    have hitem := toPoly_itemPolynomial hllen hlocator hcardne
    have hitemTrim := itemPolynomial_trimmed l
    have hitemNe : itemPolynomialFromLocator l ≠ [0] := by
      intro h
      rw [h, toPoly_zero] at hitem
      exact (monic_rootPoly s).ne_zero hitem.symm
    have hdegree := natDegree_eq_of_degree_eq_some (hitemTrim.degree hitemNe)
    rw [hitem, natDegree_rootPoly] at hdegree
    obtain ⟨roots, hsplit, hroots, hrootsMem⟩ := splitLinearRoots_spec ((itemPolynomialFromLocator l).length + 1) _ s hitem
      (by omega)
    have hperm : roots.Perm ids := (List.perm_ext_iff_of_nodup hroots hnodup).2 fun a => (hrootsMem a).trans (hmem a).symm
    have hsorted : sortBy FieldElement.val roots = sortBy FieldElement.val ids :=
      sortBy_perm (fun a _ b _ h => FieldElement.ext h) hperm
    have hcount : (sortBy FieldElement.val ids).length = l.length - 1 := by
      rw [← hsorted, length_sortBy, ← List.toFinset_card_of_nodup hroots, hllen, Nat.add_sub_cancel]
      congr 1
      ext a
      rw [List.mem_toFinset, hrootsMem]
    have hnonzero : ∀ root ∈ sortBy FieldElement.val ids, root ≠ 0 := by
      intro root hroot
      rw [mem_sortBy, hmem] at hroot
      exact hne root hroot
    -- so none of the checks of the decoder fails
    have hfits : ¬(l.length - 1 = 0 ∨ capacity < l.length - 1) := by omega
    rw [hmassey, Exn.ok_bind]
    dsimp only
    rw [Exn.ensure_of _ hfits, Exn.ok_bind, gcd_derivative hllen hlocator hcardne, Exn.ok_bind, Exn.ensure_of _ rfl,
      Exn.ok_bind, hsplit, Exn.ok_bind, hsorted, Exn.ensure_of _ hcount, Exn.ok_bind, Exn.ensure_of _ hnonzero]
    rfl

/-! ## Sketches -/

theorem requireNonzeroElement_ok (name : String) {n : ℕ} (hne : n ≠ 0) (hlt : n < 2 ^ 64) :
    requireNonzeroElement name n = .ok (ofWord n) := by
  unfold requireNonzeroElement
  rw [dif_pos hlt, if_neg hne]
  congr 1
  exact FieldElement.ext (Nat.mod_eq_of_lt hlt).symm

theorem val_ofWord {n : ℕ} (h : n < 2 ^ 64) : (ofWord n).val = n := Nat.mod_eq_of_lt h

theorem ofWord_injOn {l : List ℕ} (hlt : ∀ n ∈ l, n ≠ 0 ∧ n < 2 ^ 64) :
    ∀ m ∈ l, ∀ n ∈ l, ofWord m = ofWord n → m = n := by
  intro m hm n hn h
  have hval := congrArg FieldElement.val h
  rwa [val_ofWord (hlt m hm).2, val_ofWord (hlt n hn).2] at hval

/-- `_canonical_short_ids` sorts a list of different short ids. -/
theorem canonicalShortIds_ok {l : List ℕ} (hnodup : l.Nodup) (hlt : ∀ n ∈ l, n ≠ 0 ∧ n < 2 ^ 64) :
    canonicalShortIds l = .ok (sortBy FieldElement.val (l.map ofWord)) := by
  have hmap : l.mapM (requireNonzeroElement "short_id") = .ok (l.map ofWord) :=
    Exn.mapM_eq_map fun n hn => requireNonzeroElement_ok _ (hlt n hn).1 (hlt n hn).2
  have hsorted : (sortBy FieldElement.val (l.map ofWord)).Nodup :=
    nodup_sortBy.2 (hnodup.map_on (ofWord_injOn hlt))
  unfold canonicalShortIds
  rw [hmap, Exn.ok_bind]
  dsimp only
  rw [Exn.ensure_of _ hsorted]
  rfl

/-- The words of short ids that come from a list of them. -/
theorem map_val_ofWord {l : List FieldElement} : (l.map FieldElement.val).map ofWord = l := by
  rw [List.map_map]
  have hid : ofWord ∘ FieldElement.val = id := funext ofWord_val
  rw [hid, List.map_id]

namespace ErlaySketch

theorem make_ok {shardId capacity : ℕ} {syndromes : List FieldElement} (hs : requireShardId shardId = .ok ())
    (hc : requireCapacity capacity = .ok ()) (hl : syndromes.length = 2 * capacity) :
    make shardId capacity syndromes = .ok ⟨shardId, capacity, syndromes, hs, hc, hl⟩ := by
  unfold make
  split
  · rename_i e he
    rw [hs] at he
    cases he
  · split
    · rename_i e he
      rw [hc] at he
      cases he
    · rw [dif_pos hl]

/-- The sketch of a set of short ids. -/
structure IsOf (sketch : ErlaySketch) (s : Finset FieldElement) : Prop where
  nonzero : ∀ a ∈ s, a ≠ 0
  sums : ∀ j < 2 * sketch.capacity, sketch.syndromes.getD j 0 = ∑ a ∈ s, a ^ (j + 1)

theorem fromShortIds_ok {shardId capacity : ℕ} (hs : requireShardId shardId = .ok ())
    (hc : requireCapacity capacity = .ok ()) {l : List ℕ} (hnodup : l.Nodup) (hlt : ∀ n ∈ l, n ≠ 0 ∧ n < 2 ^ 64) :
    ∃ sketch, fromShortIds shardId l capacity = .ok sketch ∧ sketch.shardId = shardId ∧ sketch.capacity = capacity ∧
      sketch.IsOf (l.map ofWord).toFinset := by
  have hnodup' : (sortBy FieldElement.val (l.map ofWord)).Nodup := nodup_sortBy.2 (hnodup.map_on (ofWord_injOn hlt))
  have hcount : syndromeCount capacity = .ok (2 * capacity) := by
    unfold syndromeCount
    rw [hc]
    rfl
  refine ⟨⟨shardId, capacity, powerSums (sortBy FieldElement.val (l.map ofWord)) (2 * capacity), hs, hc,
    length_powerSums _ _⟩, ?_, rfl, rfl, ⟨?_, ?_⟩⟩
  · unfold fromShortIds syndromesForShortIds
    rw [hs, Exn.ok_bind, hc, Exn.ok_bind, canonicalShortIds_ok hnodup hlt, Exn.ok_bind, hcount, Exn.ok_bind]
    exact make_ok hs hc (length_powerSums _ _)
  · intro a ha
    rw [List.mem_toFinset] at ha
    obtain ⟨n, hn, rfl⟩ := List.mem_map.1 ha
    intro hzero
    have hval := congrArg FieldElement.val hzero
    rw [val_ofWord (hlt n hn).2] at hval
    exact (hlt n hn).1 hval
  · intro j hj
    exact powerSums_getD hnodup' (fun a => by rw [mem_sortBy, List.mem_toFinset]) hj

theorem requireCapacity_of_le {capacity : ℕ} (hpos : capacity ≠ 0) (hle : capacity ≤ maxDecodeCapacity) :
    requireCapacity capacity = .ok () := by
  unfold requireCapacity
  unfold maxDecodeCapacity at hle
  rw [Exn.ensure_of _ hpos, Exn.ok_bind, Exn.ensure_of _ (by unfold maxCapacity; omega), Exn.ok_bind,
    Exn.ensure_of _ (by unfold u16Max; omega)]

theorem requireDecodeCapacity_ok {capacity : ℕ} (hc : requireCapacity capacity = .ok ())
    (hle : capacity ≤ maxDecodeCapacity) : requireDecodeCapacity capacity maxDecodeCapacity = .ok () := by
  have hlimit : requireCapacity maxDecodeCapacity = .ok () := requireCapacity_of_le (by decide) le_rfl
  unfold requireDecodeCapacity
  rw [hc, Exn.ok_bind, hlimit, Exn.ok_bind, Exn.ensure_of _ hle]

/-- The difference of two sketches is the sketch of what is in only one of the sets. -/
theorem difference_ok {left right : ErlaySketch} (hshard : left.shardId = right.shardId)
    (hcapacity : left.capacity = right.capacity) {s t : Finset FieldElement} (hs : left.IsOf s) (ht : right.IsOf t) :
    ∃ d, left.difference right = .ok d ∧ d.shardId = left.shardId ∧ d.capacity = left.capacity ∧ d.IsOf (symmDiff s t) := by
  have hlen : (List.zipWith (fun l r => l ^^^ r) left.syndromes right.syndromes).length = 2 * left.capacity := by
    rw [List.length_zipWith, left.length_ok, right.length_ok, hcapacity, Nat.min_self]
  refine ⟨⟨left.shardId, left.capacity, _, left.shardId_ok, left.capacity_ok, hlen⟩, ?_, rfl, rfl, ⟨?_, ?_⟩⟩
  · unfold difference
    rw [Exn.ensure_of _ hshard, Exn.ok_bind, Exn.ensure_of _ hcapacity, Exn.ok_bind]
    exact make_ok left.shardId_ok left.capacity_ok hlen
  · intro a ha
    rcases Finset.mem_symmDiff.1 ha with h | h
    · exact hs.nonzero a h.1
    · exact ht.nonzero a h.1
  · intro j hj
    have hj₁ : j < left.syndromes.length := by rw [left.length_ok]; exact hj
    have hj₂ : j < right.syndromes.length := by rw [right.length_ok, ← hcapacity]; exact hj
    rw [sum_symmDiff, ← hs.sums j hj, ← ht.sums j (hcapacity ▸ hj)]
    show (List.zipWith (fun l r => l ^^^ r) left.syndromes right.syndromes).getD j 0 = _
    rw [List.getD_eq_getElem _ _ (by rw [hlen]; exact hj), List.getElem_zipWith, List.getD_eq_getElem _ _ hj₁,
      List.getD_eq_getElem _ _ hj₂]
    rfl

/-- **A sketch of a set within its capacity decodes to the set.** -/
theorem decodeShortIds_ok {sketch : ErlaySketch} {s : Finset FieldElement} (hs : sketch.IsOf s)
    (hcard : s.card ≤ sketch.capacity) (hle : sketch.capacity ≤ maxDecodeCapacity) {ids : List FieldElement}
    (hnodup : ids.Nodup) (hmem : ∀ a, a ∈ ids ↔ a ∈ s) :
    sketch.decodeShortIds maxDecodeCapacity = .ok (sortBy FieldElement.val ids) := by
  have hcount : syndromeCount sketch.capacity = .ok (2 * sketch.capacity) := by
    unfold syndromeCount
    rw [sketch.capacity_ok]
    rfl
  have hsame : powerSums (sortBy FieldElement.val ids) (2 * sketch.capacity) = sketch.syndromes := by
    apply ext_getD
    · rw [length_powerSums, sketch.length_ok]
    · intro j hj
      rw [length_powerSums] at hj
      rw [powerSums_getD (nodup_sortBy.2 hnodup) (fun a => by rw [mem_sortBy, hmem]) hj, hs.sums j hj]
  unfold decodeShortIds syndromesForShortIds
  rw [requireDecodeCapacity_ok sketch.capacity_ok hle, Exn.ok_bind,
    decodeSyndromes_spec hs.nonzero hcard sketch.length_ok hs.sums hnodup hmem, Exn.ok_bind, hcount, Exn.ok_bind]
  show (Exn.ensure (powerSums (sortBy FieldElement.val ids) (2 * sketch.capacity) = sketch.syndromes) _ >>= fun _ => _) = _
  rw [Exn.ensure_of _ hsame]
  rfl

end ErlaySketch

/-- The difference of the sketches of two sets of short ids decodes to what is in only one of
them, in ascending order. -/
theorem ErlaySketch.difference_decodes {left right : ErlaySketch} (hshard : left.shardId = right.shardId)
    (hcapacity : left.capacity = right.capacity) (hle : left.capacity ≤ maxDecodeCapacity) {a b : List ℕ}
    (hra : ∀ n ∈ a, n ≠ 0 ∧ n < 2 ^ 64) (hrb : ∀ n ∈ b, n ≠ 0 ∧ n < 2 ^ 64)
    (hlof : left.IsOf (a.map ofWord).toFinset) (hrof : right.IsOf (b.map ofWord).toFinset)
    (hfew : (symmDiff a.toFinset b.toFinset).card ≤ left.capacity) :
    ∃ difference ids, left.difference right = .ok difference ∧ difference.decodeShortIds maxDecodeCapacity = .ok ids ∧
      ids.map FieldElement.val = ascending (symmDiff a.toFinset b.toFinset) := by
  obtain ⟨difference, hdiff, -, hdc, hdof⟩ := ErlaySketch.difference_ok hshard hcapacity hlof hrof
  -- the words of the difference, as field elements
  set D := symmDiff a.toFinset b.toFinset with hD
  have hrange : ∀ n ∈ ascending D, n ≠ 0 ∧ n < 2 ^ 64 := by
    intro n hn
    rw [mem_ascending, hD, Finset.mem_symmDiff, List.mem_toFinset, List.mem_toFinset] at hn
    rcases hn with h | h
    · exact hra n h.1
    · exact hrb n h.1
  have hword : ∀ {l : List ℕ}, (∀ n ∈ l, n ≠ 0 ∧ n < 2 ^ 64) → ∀ x : FieldElement, x ∈ l.map ofWord ↔ x.val ∈ l := by
    intro l hl x
    rw [List.mem_map]
    constructor
    · rintro ⟨n, hn, rfl⟩
      rwa [val_ofWord (hl n hn).2]
    · intro hx
      exact ⟨x.val, hx, ofWord_val x⟩
  have hnodup : ((ascending D).map ofWord).Nodup := (nodup_ascending D).map_on (ofWord_injOn hrange)
  have hmem : ∀ x, x ∈ (ascending D).map ofWord ↔ x ∈ symmDiff (a.map ofWord).toFinset (b.map ofWord).toFinset := by
    intro x
    rw [hword hrange, mem_ascending, hD, Finset.mem_symmDiff, Finset.mem_symmDiff]
    simp only [List.mem_toFinset, hword hra, hword hrb]
  have hcard : (symmDiff (a.map ofWord).toFinset (b.map ofWord).toFinset).card ≤ difference.capacity := by
    rw [hdc]
    have hsame : symmDiff (a.map ofWord).toFinset (b.map ofWord).toFinset = ((ascending D).map ofWord).toFinset := by
      ext x
      rw [List.mem_toFinset, hmem]
    rw [hsame, List.toFinset_card_of_nodup hnodup, List.length_map, length_ascending]
    exact hfew
  have hdecode := ErlaySketch.decodeShortIds_ok hdof hcard (by rw [hdc]; exact hle) hnodup hmem
  refine ⟨difference, _, hdiff, hdecode, ?_⟩
  -- the list is in order already
  have hvals : ((ascending D).map ofWord).map FieldElement.val = ascending D := by
    rw [List.map_map]
    conv_rhs => rw [← List.map_id (ascending D)]
    apply List.map_congr_left
    intro n hn
    exact val_ofWord (hrange n hn).2
  have hsorted : ((ascending D).map ofWord).Pairwise fun x y => x.val ≤ y.val := by
    have hpairs : (((ascending D).map ofWord).map FieldElement.val).Pairwise (· ≤ ·) := by
      rw [hvals]
      exact (pairwise_ascending D).imp le_of_lt
    exact List.pairwise_map.1 hpairs
  rw [sortBy_eq_self hsorted, hvals]

/-- **Sketches reconcile exactly within their capacity.** The sketches of two sets of nonzero
64-bit short ids, the difference of the sketches and its decoding all return, and the result is
what is in only one of the sets, in ascending order. -/
theorem sketch_decodes {shardId capacity : ℕ} (hshard : requireShardId shardId = .ok ()) (hpos : capacity ≠ 0)
    (hle : capacity ≤ maxDecodeCapacity) {a b : List ℕ} (ha : a.Nodup) (hb : b.Nodup)
    (hra : ∀ n ∈ a, n ≠ 0 ∧ n < 2 ^ 64) (hrb : ∀ n ∈ b, n ≠ 0 ∧ n < 2 ^ 64)
    (hfew : (symmDiff a.toFinset b.toFinset).card ≤ capacity) :
    ∃ left right difference ids, ErlaySketch.fromShortIds shardId a capacity = .ok left ∧
      ErlaySketch.fromShortIds shardId b capacity = .ok right ∧ left.difference right = .ok difference ∧
      difference.decodeShortIds maxDecodeCapacity = .ok ids ∧
      ids.map FieldElement.val = ascending (symmDiff a.toFinset b.toFinset) := by
  have hcapacity := ErlaySketch.requireCapacity_of_le hpos hle
  obtain ⟨left, hleft, hls, hlc, hlof⟩ := ErlaySketch.fromShortIds_ok hshard hcapacity ha hra
  obtain ⟨right, hright, hrs, hrc, hrof⟩ := ErlaySketch.fromShortIds_ok hshard hcapacity hb hrb
  obtain ⟨difference, ids, hdiff, hdecode, hids⟩ :=
    ErlaySketch.difference_decodes (hls.trans hrs.symm) (hlc.trans hrc.symm) (by rw [hlc]; exact hle) hra hrb hlof hrof
      (by rw [hlc]; exact hfew)
  exact ⟨left, right, difference, ids, hleft, hright, hdiff, hdecode, hids⟩

theorem sketch_decodes_three : ∃ left right difference ids, ErlaySketch.fromShortIds 0 [7, 5] 2 = .ok left ∧
    ErlaySketch.fromShortIds 0 [5, 9] 2 = .ok right ∧ left.difference right = .ok difference ∧
    difference.decodeShortIds maxDecodeCapacity = .ok ids ∧
    ids.map FieldElement.val = ascending (symmDiff [7, 5].toFinset [5, 9].toFinset) :=
  sketch_decodes (by decide) (by decide) (by decide) (by decide) (by decide) (by decide) (by decide) (by decide)

end Erlay

end TensorPow
