import TensorPow.Exn.Basic
import TensorPow.Spec.ShardTree

/-!
# Every transaction has a shard

The checks of `_validate_leaf_partition` make the leaves of a shard tree a partition of
the routes: the cells of two leaves are disjoint, and together they have as many routes
as there are (`cover`). So `route_tx` never fails (`routeTx_returns`).
-/

namespace TensorPow

open Wire

theorem requireShardId_ok {s : ℕ} {u : Unit} :
    requireShardId s = .ok u ↔ s ≤ u32Max ∧ shardDepth s ≤ shardMaxDepth ∧ shardPath s < 2 ^ shardDepth s := by
  simp [requireShardId, requireUint, Exn.bind_ok]

namespace ShardTree

/-- The routes of depth `SHARD_MAX_DEPTH` that a leaf takes. -/
def cell (s : ℕ) : Finset ℕ := (Finset.range (2 ^ shardMaxDepth)).filter fun r => leafMatches r s

theorem card_cell {s : ℕ} (hs : requireShardId s = .ok ()) : (cell s).card = 2 ^ (shardMaxDepth - shardDepth s) := by
  obtain ⟨-, hdepth, hpath⟩ := requireShardId_ok.1 hs
  have hpos : 0 < 2 ^ shardDepth s := Nat.two_pow_pos _
  have hcount := Nat.count_modEq_card (2 ^ shardMaxDepth) hpos (shardPath s)
  rw [Nat.mod_eq_zero_of_dvd (Nat.pow_dvd_pow 2 hdepth), if_neg (Nat.not_lt_zero _), Nat.pow_div hdepth (by decide),
    Nat.count_eq_card_filter_range] at hcount
  rw [← Nat.add_zero (2 ^ _), ← hcount]
  refine congrArg Finset.card (Finset.filter_congr fun r _ => ?_)
  rw [leafMatches, decide_eq_true_iff, Nat.ModEq, Nat.mod_eq_of_lt hpath, eq_comm]

/-- A leaf whose ancestors are not among the lesser leaves shares no route with them. -/
theorem disjoint_cell {s t : ℕ} (hlt : t < s)
    (hanc : ∀ d < shardDepth s, d * 2 ^ 16 + shardPath s % 2 ^ d ≠ t) : Disjoint (cell t) (cell s) := by
  rw [Finset.disjoint_left]
  intro r hr hr'
  have hmt : shardPath t = r % 2 ^ shardDepth t := by simpa [leafMatches] using (Finset.mem_filter.1 hr).2
  have hms : shardPath s = r % 2 ^ shardDepth s := by simpa [leafMatches] using (Finset.mem_filter.1 hr').2
  have hid : ∀ x, shardDepth x * 2 ^ 16 + shardPath x = x := by
    intro x
    unfold shardDepth shardPath
    omega
  have hle : shardDepth t ≤ shardDepth s := Nat.div_le_div_right hlt.le
  rcases Nat.lt_or_eq_of_le hle with hd | hd
  · refine hanc (shardDepth t) hd ?_
    rw [hms, Nat.mod_mod_of_dvd _ (Nat.pow_dvd_pow 2 hle), ← hmt, hid]
  · rw [hd, ← hms] at hmt
    have := hid t
    rw [hd, hmt, hid] at this
    omega

theorem coverLeaf_ok {acc acc' : Finset ℕ × ℕ} {s : ℕ} (h : coverLeaf acc s = .ok acc') :
    requireShardId s = .ok () ∧ (∀ d < shardDepth s, d * 2 ^ 16 + shardPath s % 2 ^ d ∉ acc.1) ∧
      acc' = (insert s acc.1, acc.2 + 2 ^ (shardMaxDepth - shardDepth s)) := by
  simp only [coverLeaf, decodeShardId, Exn.bind_ok, Exn.pure_ok, Exn.forM_ok, List.mem_range] at h
  obtain ⟨⟨depth, path⟩, ⟨⟨⟩, hs, hdecode⟩, -, hanc, rfl⟩ := h
  cases hdecode
  refine ⟨hs, fun d hd => ?_, rfl⟩
  obtain ⟨ancestor, hancestor, hnew⟩ := hanc d hd
  simp only [encodeShardId, Exn.bind_ok, Exn.pure_ok] at hancestor
  obtain ⟨-, -, -, -, rfl⟩ := hancestor
  exact Exn.ensure_ok.1 hnew

/-- The leaves seen so far are disjoint, and the coverage counts their routes. -/
structure Covered (done : List ℕ) (acc : Finset ℕ × ℕ) : Prop where
  seen : acc.1 = done.toFinset
  valid : ∀ s ∈ done, requireShardId s = .ok ()
  count : (done.toFinset.biUnion cell).card = acc.2

theorem Covered.step {done : List ℕ} {acc acc' : Finset ℕ × ℕ} {s : ℕ} (h : Covered done acc)
    (hlt : ∀ t ∈ done, t < s) (hstep : coverLeaf acc s = .ok acc') : Covered (done ++ [s]) acc' := by
  obtain ⟨hs, hanc, rfl⟩ := coverLeaf_ok hstep
  have hfin : (done ++ [s]).toFinset = insert s done.toFinset := by
    ext x
    simp
  refine ⟨?_, fun t ht => ?_, ?_⟩
  · rw [hfin, h.seen]
  · rcases List.mem_append.1 ht with ht | ht
    · exact h.valid t ht
    · rw [List.mem_singleton.1 ht]
      exact hs
  · have hdisj : Disjoint (cell s) (done.toFinset.biUnion cell) := by
      rw [Finset.disjoint_biUnion_right]
      intro t ht
      have ht := List.mem_toFinset.1 ht
      refine (disjoint_cell (hlt t ht) fun d hd heq => hanc d hd ?_).symm
      rw [heq, h.seen]
      exact List.mem_toFinset.2 ht
    rw [hfin, Finset.biUnion_insert, Finset.card_union_of_disjoint hdisj, h.count, card_cell hs, Nat.add_comm]

/-- The leaves are listed in ascending order. -/
theorem leaves_ascending (t : ShardTree) : t.leafShardIds.Pairwise (· < ·) := by
  have hvalid := t.valid
  simp only [validateLeafPartition, Exn.bind_ok, Exn.ensure_ok] at hvalid
  obtain ⟨-, -, -, hsorted, -, hnodup, -⟩ := hvalid
  have hle := Sorted.pairwise_sortBy id t.leafShardIds
  rw [hsorted] at hle
  refine (hle.and hnodup).imp ?_
  intro s s' h
  exact lt_of_le_of_ne h.1 h.2

/-- **The leaves of a tree take every route.** -/
theorem cover (t : ShardTree) : (∀ s ∈ t.leafShardIds, requireShardId s = .ok ()) ∧
    t.leafShardIds.toFinset.biUnion cell = Finset.range (2 ^ shardMaxDepth) := by
  have hvalid := t.valid
  simp only [validateLeafPartition, Exn.bind_ok, Exn.ensure_ok] at hvalid
  obtain ⟨-, -, -, -, -, -, ⟨seen, coverage⟩, hfold, hcoverage⟩ := hvalid
  have hasc := t.leaves_ascending
  have hcov : Covered t.leafShardIds (seen, coverage) := by
    refine Exn.foldlM_inv Covered (fun done s todo acc acc' hl h hstep => ?_) ⟨rfl, fun s hs => (by cases hs), rfl⟩ hfold
    refine h.step (fun x hx => ?_) hstep
    rw [hl] at hasc
    exact (List.pairwise_append.1 hasc).2.2 x hx s List.mem_cons_self
  refine ⟨hcov.valid, Finset.eq_of_subset_of_card_le (fun r hr => ?_) ?_⟩
  · obtain ⟨s, -, hr⟩ := Finset.mem_biUnion.1 hr
    exact (Finset.mem_filter.1 hr).1
  · rw [hcov.count, Finset.card_range, ← hcoverage]

/-- **Every transaction is routed.** -/
theorem routeTx_returns (t : ShardTree) (txHash : Hash) : ∃ s, t.routeTx txHash = .ok s := by
  obtain ⟨hvalid, hcover⟩ := t.cover
  have hmem : txHash.toNat % 2 ^ shardMaxDepth ∈ t.leafShardIds.toFinset.biUnion cell := by
    rw [hcover]
    exact Finset.mem_range.2 (Nat.mod_lt _ (Nat.two_pow_pos _))
  obtain ⟨s, hs, hr⟩ := Finset.mem_biUnion.1 hmem
  have hs := List.mem_toFinset.1 hs
  obtain ⟨-, hdepth, -⟩ := requireShardId_ok.1 (hvalid s hs)
  have hmatch : leafMatches txHash.toNat s = true := by
    have := (Finset.mem_filter.1 hr).2
    rw [leafMatches, Nat.mod_mod_of_dvd _ (Nat.pow_dvd_pow 2 hdepth)] at this
    exact this
  obtain ⟨leaf, hleaf⟩ := Option.isSome_iff_exists.1 (List.find?_isSome.2 ⟨s, hs, hmatch⟩)
  exact ⟨leaf, by rw [routeTx, hleaf]; rfl⟩

end ShardTree

end TensorPow
