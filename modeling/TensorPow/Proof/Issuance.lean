import TensorPow.Spec.Rewards

/-!
# Issuance

* `sum_scheduledSubsidy_le`: the whole schedule issues at most `MAX_SUPPLY_MATOMS`.
* `rewardPools_split`: the fruit pool and the anchor pool add up to the subsidy.
* `total_fruitSubsidyAssignments`: the assignments add up to the fruit pool.
-/

namespace TensorPow

open Sorted

/-! ## The halving schedule -/

/-- Handing out `pool` in `n` shares that differ by at most one hands out all of it. -/
theorem sum_shares (pool : ℕ) {n : ℕ} (hn : 0 < n) :
    ∑ i ∈ Finset.range n, (pool / n + if i < pool % n then 1 else 0) = pool := by
  have hlt : pool % n < n := Nat.mod_lt _ hn
  have hones : ∑ i ∈ Finset.range n, (if i < pool % n then 1 else 0) = pool % n := by
    rw [← Finset.sum_filter, Finset.sum_const, smul_eq_mul, mul_one]
    have : (Finset.range n).filter (· < pool % n) = Finset.range (pool % n) := by
      ext i
      simp only [Finset.mem_filter, Finset.mem_range]
      omega
    rw [this, Finset.card_range]
  rw [Finset.sum_add_distrib, hones, Finset.sum_const, Finset.card_range, smul_eq_mul]
  exact Nat.div_add_mod pool n

/-- The pools of the epochs halve, so together they stay below twice the first. -/
theorem sum_halvings_le (x E : ℕ) : ∑ e ∈ Finset.range E, x >>> e ≤ 2 * x := by
  suffices h : ∀ E, ∑ e ∈ Finset.range E, x >>> e + 2 * (x >>> E) ≤ 2 * x by
    have := h E
    omega
  intro E
  induction E with
  | zero => simp
  | succ E ih =>
    have hhalf : 2 * (x >>> (E + 1)) ≤ x >>> E := by
      rw [Nat.shiftRight_succ]
      omega
    rw [Finset.sum_range_succ]
    omega

theorem halvingIntervalAnchors_pos : 0 < halvingIntervalAnchors := by decide

/-- The subsidy of anchor `j` of epoch `e`. -/
theorem scheduledSubsidy_epoch (e : ℕ) {j : ℕ} (hj : j < halvingIntervalAnchors) :
    scheduledSubsidy (e * halvingIntervalAnchors + j + 1) =
      (initialEpochSubsidyMatoms >>> e) / halvingIntervalAnchors +
        if j < (initialEpochSubsidyMatoms >>> e) % halvingIntervalAnchors then 1 else 0 := by
  have hdiv : (e * halvingIntervalAnchors + j) / halvingIntervalAnchors = e := by
    rw [Nat.mul_comm, Nat.mul_add_div halvingIntervalAnchors_pos, Nat.div_eq_of_lt hj, Nat.add_zero]
  have hmod : (e * halvingIntervalAnchors + j) % halvingIntervalAnchors = j := by
    rw [Nat.mul_comm, Nat.mul_add_mod, Nat.mod_eq_of_lt hj]
  simp only [scheduledSubsidy, Nat.add_sub_cancel, hdiv, hmod]
  split
  · rename_i h
    simp [h]
  · rfl

/-- An epoch issues exactly its pool. -/
theorem sum_epoch (e : ℕ) :
    ∑ j ∈ Finset.range halvingIntervalAnchors, scheduledSubsidy (e * halvingIntervalAnchors + j + 1) =
      initialEpochSubsidyMatoms >>> e := by
  rw [← sum_shares (initialEpochSubsidyMatoms >>> e) halvingIntervalAnchors_pos]
  refine Finset.sum_congr rfl fun j hj => ?_
  exact scheduledSubsidy_epoch e (Finset.mem_range.1 hj)

theorem sum_epochs (E : ℕ) :
    ∑ i ∈ Finset.range (E * halvingIntervalAnchors), scheduledSubsidy (i + 1) =
      ∑ e ∈ Finset.range E, initialEpochSubsidyMatoms >>> e := by
  induction E with
  | zero => simp
  | succ E ih => rw [Nat.succ_mul, Finset.sum_range_add, ih, sum_epoch, Finset.sum_range_succ]

/-- **The supply cap.** The schedule issues at most `MAX_SUPPLY_MATOMS`, however long it
runs. -/
theorem sum_scheduledSubsidy_le (h : ℕ) : ∑ i ∈ Finset.Icc 1 h, scheduledSubsidy i ≤ maxSupplyMatoms := by
  have hrange : ∑ i ∈ Finset.Icc 1 h, scheduledSubsidy i = ∑ i ∈ Finset.range h, scheduledSubsidy (i + 1) := by
    rw [Finset.range_eq_Ico, Finset.sum_Ico_add' scheduledSubsidy 0 h 1, Nat.zero_add]
    rfl
  have hle : h ≤ (h / halvingIntervalAnchors + 1) * halvingIntervalAnchors := by
    have := Nat.lt_div_mul_add (a := h) halvingIntervalAnchors_pos
    rw [Nat.succ_mul]
    omega
  calc ∑ i ∈ Finset.Icc 1 h, scheduledSubsidy i
      = ∑ i ∈ Finset.range h, scheduledSubsidy (i + 1) := hrange
    _ ≤ ∑ i ∈ Finset.range ((h / halvingIntervalAnchors + 1) * halvingIntervalAnchors),
          scheduledSubsidy (i + 1) := Finset.sum_le_sum_of_subset (Finset.range_mono hle)
    _ = ∑ e ∈ Finset.range (h / halvingIntervalAnchors + 1), initialEpochSubsidyMatoms >>> e := sum_epochs _
    _ ≤ 2 * initialEpochSubsidyMatoms := sum_halvings_le _ _
    _ = maxSupplyMatoms := by decide

theorem sum_scheduledSubsidy_succ (h : ℕ) :
    ∑ i ∈ Finset.Icc 1 (h + 1), scheduledSubsidy i =
      ∑ i ∈ Finset.Icc 1 h, scheduledSubsidy i + scheduledSubsidy (h + 1) :=
  Finset.sum_Icc_succ_top (by omega) _

theorem intervalSubsidyMatoms_ok {height minted s : ℕ} (h : intervalSubsidyMatoms height minted = .ok s) :
    0 < height ∧ minted ≤ maxSupplyMatoms ∧ s = min (scheduledSubsidy height) (maxSupplyMatoms - minted) := by
  simp only [intervalSubsidyMatoms, requirePositive, requireNonnegative, Exn.bind_ok, Exn.ensure_ok, Exn.pure_ok] at h
  obtain ⟨-, ⟨-, -, hpos⟩, -, -, -, hcap, hs⟩ := h
  exact ⟨Nat.pos_of_ne_zero hpos, hcap, hs.symm⟩

/-! ## The split of one interval -/

/-- The two pools of an interval add up to its subsidy. -/
theorem rewardPools_split {count subsidy fruitPool anchorPool : ℕ} {target : Hash}
    (h : rewardPools count subsidy target = .ok (fruitPool, anchorPool)) :
    fruitPool + anchorPool = subsidy := by
  simp only [rewardPools, Exn.bind_ok] at h
  obtain ⟨-, -, -, -, h⟩ := h
  split at h
  · cases h
    omega
  · obtain ⟨w, -, h⟩ := Exn.bind_ok.1 h
    cases h
    have hle : subsidy * count / (count + w) ≤ subsidy := by
      apply Nat.div_le_of_le_mul
      nlinarith
    omega

/-- The assignments add up to the fruit pool. -/
theorem total_fruitSubsidyAssignments {keys : Table Hash Hash} {subsidy : ℕ} {target : Hash}
    {assignments : Table Hash ℕ} (h : fruitSubsidyAssignments keys subsidy target = .ok assignments)
    (hne : keys.toList ≠ []) :
    ∃ fruitPool anchorPool, rewardPools keys.toList.length subsidy target = .ok (fruitPool, anchorPool) ∧
      Table.total id assignments = fruitPool := by
  obtain ⟨shares, hshares, h⟩ := Exn.bind_ok.1 h
  simp only [fruitSubsidyAssignmentsOf, Exn.bind_ok, if_neg hne] at hshares
  obtain ⟨-, -, ⟨fruitPool, anchorPool⟩, hpools, hshares⟩ := hshares
  refine ⟨fruitPool, anchorPool, hpools, ?_⟩
  set ordered := (sortBy rewardKey keys.toList).map Prod.fst with hordered
  have hlen : ordered.length = keys.toList.length := by
    rw [hordered, List.length_map, length_sortBy]
  have hnodup : ordered.Nodup := by
    have : ordered.Perm keys.keys := by
      rw [hordered, ← Std.ExtTreeMap.map_fst_toList_eq_keys]
      exact (perm_sortBy _ _).map _
    exact this.nodup_iff.2 keys.nodup_keys
  rw [← Exn.pure_ok.1 h, ← Exn.pure_ok.1 hshares, Table.total_putAll _ _ _ (by simpa [List.map_map, Function.comp_def] using hnodup)
    (fun _ _ => Table.get_empty _)]
  have hsum : ∀ g : ℕ → ℕ, (ordered.zipIdx.map fun p => g p.2).sum = ∑ i ∈ Finset.range ordered.length, g i := by
    intro g
    have : (ordered.zipIdx.map fun p => g p.2) = (List.range ordered.length).map g := by
      rw [List.range_eq_range', ← List.zipIdx_map_snd 0 ordered, List.map_map]
      rfl
    rw [this]
    rfl
  have hpool := sum_shares fruitPool (List.length_pos_iff.2 hne)
  rw [← hlen] at hpool
  rw [Table.total_empty, Nat.zero_add, List.map_map, ← hlen]
  exact (hsum fun i => fruitPool / ordered.length + if i < fruitPool % ordered.length then 1 else 0).trans hpool

end TensorPow
