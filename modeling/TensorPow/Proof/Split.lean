import TensorPow.Proof.Issuance

/-!
# The split of one interval's subsidy

* `share_of_rank`: a fruit gets the extra unit if few enough fruits come before it.
* `Splits`: the pools add up to the subsidy and the shares to the fruit pool.
* `reward_split`: the split is exact, and does not depend on the order of the mapping.
-/

namespace TensorPow

open Wire Sorted

variable {items : List (Hash × Hash)} {subsidy : ℕ} {target : Hash}

theorem rewardKey_injective : Function.Injective rewardKey := by
  rintro ⟨h, k⟩ ⟨h', k'⟩ heq
  have hfields : (k, h) = (k', h') := toLex.injective heq
  cases hfields
  rfl

/-- The fruits in the order in which they are served. -/
theorem sorted_strictly (hdistinct : (items.map Prod.fst).Nodup) :
    (sortBy rewardKey items).Pairwise fun a b => rewardKey a < rewardKey b := by
  have hnodup : (sortBy rewardKey items).Nodup := nodup_sortBy.2 hdistinct.of_map
  exact ((pairwise_sortBy rewardKey items).and hnodup).imp fun hab =>
    lt_of_le_of_ne hab.1 fun heq => hab.2 (rewardKey_injective heq)

/-- The share of the fruit at a place. -/
def shareAt (fruitPool count i : ℕ) : ℕ := fruitPool / count + if i < fruitPool % count then 1 else 0

/-- The number of fruits that are served before one. -/
def rank (items : List (Hash × Hash)) (p : Hash × Hash) : ℕ := items.countP fun q => rewardKey q < rewardKey p

/-- The shares, in the order in which the fruits are served. -/
def sharesOf (items : List (Hash × Hash)) (fruitPool : ℕ) : List (Hash × ℕ) :=
  ((sortBy rewardKey items).map Prod.fst).zipIdx.map fun p => (p.1, shareAt fruitPool items.length p.2)

/-- **The share of a fruit** is that of its rank. -/
theorem share_of_rank (hdistinct : (items.map Prod.fst).Nodup) (fruitPool : ℕ) {p : Hash × Hash} (hp : p ∈ items) :
    (p.1, shareAt fruitPool items.length (rank items p)) ∈ sharesOf items fruitPool := by
  have hmem : p ∈ sortBy rewardKey items := mem_sortBy.2 hp
  obtain ⟨i, hi⟩ := List.mem_iff_getElem?.1 hmem
  have hrank : rank items p = i := by
    unfold rank
    rw [← (perm_sortBy rewardKey items).countP_eq]
    exact countP_lt_of_getElem? (sorted_strictly hdistinct) hi
  unfold sharesOf
  rw [hrank, List.mem_map]
  refine ⟨(p.1, i), ?_, rfl⟩
  rw [List.mk_mem_zipIdx_iff_getElem?, List.getElem?_map, hi]
  rfl

theorem sharesOf_fst (items : List (Hash × Hash)) (fruitPool : ℕ) :
    (sharesOf items fruitPool).map Prod.fst = (sortBy rewardKey items).map Prod.fst := by
  unfold sharesOf
  rw [List.map_map]
  exact List.zipIdx_map_fst 0 _

theorem sum_sharesOf (hne : items ≠ []) (fruitPool : ℕ) :
    ((sharesOf items fruitPool).map Prod.snd).sum = fruitPool := by
  have hlen : ((sortBy rewardKey items).map Prod.fst).length = items.length := by
    rw [List.length_map, length_sortBy]
  have hshares : (sharesOf items fruitPool).map Prod.snd =
      (List.range items.length).map (shareAt fruitPool items.length) := by
    unfold sharesOf
    rw [List.map_map, List.range_eq_range', ← hlen, ← List.zipIdx_map_snd 0 ((sortBy rewardKey items).map Prod.fst),
      List.map_map]
    rfl
  rw [hshares]
  exact sum_shares fruitPool (List.length_pos_iff.2 hne)

theorem shareAt_apart (fruitPool count i j : ℕ) : shareAt fruitPool count i ≤ shareAt fruitPool count j + 1 := by
  unfold shareAt
  split <;> split <;> omega

/-- What the split of an interval should be. -/
structure Splits (items : List (Hash × Hash)) (subsidy fruitPool anchorPool : ℕ) (shares : List (Hash × ℕ)) : Prop where
  pools : fruitPool + anchorPool = subsidy
  fruits : (shares.map Prod.fst).Perm (items.map Prod.fst)
  sum : (shares.map Prod.snd).sum = fruitPool
  apart : ∀ a ∈ shares, ∀ b ∈ shares, a.2 ≤ b.2 + 1
  first : ∀ p ∈ items, (p.1, fruitPool / items.length + if rank items p < fruitPool % items.length then 1 else 0) ∈ shares

theorem splits_sharesOf (hne : items ≠ []) (hdistinct : (items.map Prod.fst).Nodup) {fruitPool anchorPool : ℕ}
    (hpools : fruitPool + anchorPool = subsidy) :
    Splits items subsidy fruitPool anchorPool (sharesOf items fruitPool) := by
  refine ⟨hpools, ?_, sum_sharesOf hne fruitPool, ?_, fun p hp => share_of_rank hdistinct fruitPool hp⟩
  · rw [sharesOf_fst]
    exact (perm_sortBy rewardKey items).map _
  · intro a ha b hb
    obtain ⟨p, -, rfl⟩ := List.mem_map.1 ha
    obtain ⟨q, -, rfl⟩ := List.mem_map.1 hb
    exact shareAt_apart _ _ _ _

theorem sharesOf_perm {items' : List (Hash × Hash)} (hperm : items'.Perm items) (fruitPool : ℕ) :
    sharesOf items' fruitPool = sharesOf items fruitPool := by
  unfold sharesOf
  rw [sortBy_perm (fun a _ b _ heq => rewardKey_injective heq) hperm, hperm.length_eq]

theorem rewardPools_returns {count : ℕ} (hcount : count ≤ u64Max) (hsubsidy : subsidy ≤ u64Max)
    (htarget : requireTarget target = .ok ()) : ∃ pools, rewardPools count subsidy target = .ok pools := by
  unfold rewardPools requireNonnegative
  rw [Exn.ensure_of _ hcount, Exn.ok_bind, Exn.ensure_of _ hsubsidy, Exn.ok_bind]
  split
  · exact ⟨_, rfl⟩
  · unfold anchorWorkWeight targetToInt
    rw [htarget]
    exact ⟨_, rfl⟩

theorem fruitSubsidyAssignmentsOf_eq (hne : items ≠ []) (hsubsidy : subsidy ≤ u64Max) {fruitPool anchorPool : ℕ}
    (hpools : rewardPools items.length subsidy target = .ok (fruitPool, anchorPool)) :
    fruitSubsidyAssignmentsOf items subsidy target = .ok (sharesOf items fruitPool) := by
  unfold fruitSubsidyAssignmentsOf requireNonnegative
  rw [Exn.ensure_of _ hsubsidy, Exn.ok_bind, if_neg hne, hpools]
  rfl

theorem scheduledSubsidy_le (height : ℕ) (hpos : 0 < height) : scheduledSubsidy height ≤ maxSupplyMatoms := by
  refine le_trans ?_ (sum_scheduledSubsidy_le height)
  exact Finset.single_le_sum (fun i _ => Nat.zero_le _) (Finset.mem_Icc.2 ⟨hpos, le_rfl⟩)

/-- The subsidy of an interval that the supply cap does not touch. -/
theorem intervalSubsidyMatoms_uncapped {height : ℕ} (hpos : 0 < height) (hheight : height ≤ u64Max) :
    intervalSubsidyMatoms height 0 = .ok (scheduledSubsidy height) := by
  have hle := scheduledSubsidy_le height hpos
  unfold intervalSubsidyMatoms requirePositive requireNonnegative
  rw [Exn.ensure_of _ hheight, Exn.ok_bind, Exn.ensure_of _ hpos.ne', Exn.ok_bind, Exn.ensure_of _ (Nat.zero_le _),
    Exn.ok_bind, Exn.ensure_of _ (Nat.zero_le _), Exn.ok_bind, Nat.sub_zero, min_eq_left hle]
  rfl

/-- **The split is exact and canonical.** The pools of an interval add up to its subsidy, the
shares add up to the fruit pool and differ by at most one, the first fruits by reward key and
hash get the extra unit, whatever order the mapping has; and every epoch issues exactly its
pool. A mapping has fewer than `2 ^ 64` items. -/
theorem reward_split (hne : items ≠ []) (hdistinct : (items.map Prod.fst).Nodup) (hcount : items.length ≤ u64Max)
    (hsubsidy : subsidy ≤ u64Max) (htarget : requireTarget target = .ok ()) :
    (∃ fruitPool anchorPool shares, rewardPools items.length subsidy target = .ok (fruitPool, anchorPool) ∧
      Splits items subsidy fruitPool anchorPool shares ∧
      ∀ items', items'.Perm items → fruitSubsidyAssignmentsOf items' subsidy target = .ok shares) ∧
    (∀ height, 0 < height → height ≤ u64Max → intervalSubsidyMatoms height 0 = .ok (scheduledSubsidy height)) ∧
    ∀ e, ∑ j ∈ Finset.range halvingIntervalAnchors, scheduledSubsidy (e * halvingIntervalAnchors + j + 1) =
      initialEpochSubsidyMatoms >>> e := by
  obtain ⟨⟨fruitPool, anchorPool⟩, hpools⟩ := rewardPools_returns hcount hsubsidy htarget
  refine ⟨⟨fruitPool, anchorPool, sharesOf items fruitPool, hpools, ?_, fun items' hperm => ?_⟩,
    fun height hpos hheight => intervalSubsidyMatoms_uncapped hpos hheight, sum_epoch⟩
  · exact splits_sharesOf hne hdistinct (rewardPools_split hpools)
  · have hne' : items' ≠ [] := by
      rintro rfl
      exact hne hperm.symm.eq_nil
    rw [← hperm.length_eq] at hpools
    rw [fruitSubsidyAssignmentsOf_eq hne' hsubsidy hpools, sharesOf_perm hperm]

/-- Two fruits with one reward key. -/
def twoFruits : List (Hash × Hash) :=
  [(FixedBytes.ofNat 32 2, FixedBytes.ofNat 32 9), (FixedBytes.ofNat 32 1, FixedBytes.ofNat 32 9)]

theorem reward_split_twoFruits : ∃ fruitPool anchorPool shares, Splits twoFruits 11 fruitPool anchorPool shares := by
  have hne : twoFruits ≠ [] := by decide
  have hdistinct : (twoFruits.map Prod.fst).Nodup := by decide +kernel
  have hsubsidy : 11 ≤ u64Max := by decide
  have htarget : requireTarget anchorInitialTargetLe = .ok () := by decide +kernel
  obtain ⟨⟨fruitPool, anchorPool, shares, -, hsplits, -⟩, -⟩ := reward_split hne hdistinct (by decide) hsubsidy htarget
  exact ⟨fruitPool, anchorPool, shares, hsplits⟩

end TensorPow
