import TensorPow.Proof.Ghostdag
import TensorPow.Proof.Outputs

/-!
# Applying an anchor

Inversion of `_apply_anchor_to_branch` and of the loops it runs.

* `applyAnchorFruits_inv`: an invariant that every spend keeps holds after all fruits.
* `claimFruit_ok`, `claimAnchorRewards_ok`: the rewards one fruit, or one anchor, files.
* `applyAnchor_ok`: the state after an anchor.
-/

namespace TensorPow

open Wire Sorted

namespace Node

variable {C : Crypto} {n : Node C}

/-! ## The covered fruits -/

/-- The canonical order lists every covered fruit once. -/
theorem canonicalCoveredFruitOrder_perm {covered l : List Hash}
    (h : n.canonicalCoveredFruitOrder covered = .ok l) : l.Perm (ascending covered.toFinset) := by
  simp only [canonicalCoveredFruitOrder, Exn.bind_ok, raising_ok] at h
  obtain ⟨dag, -, ⟨metadata, dag'⟩, -, -, -, h⟩ := h
  exact BlockDAG.sortedByScore_perm h

/-- A spend of a stored fruit: every transaction but the first. -/
def IsSpend (n : Node C) (fruitHash : Hash) (fruit : Fruit C) (tx : Transaction) : Prop :=
  n.loadFruit fruitHash = some fruit ∧ ∃ txs, fruitTxs fruit = .ok txs ∧ tx ∈ txs.tail

/-- An invariant that every spend of a covered fruit keeps holds after all of them. -/
theorem applyAnchorFruits_inv (P : FruitsRun C → Prop) {anchor : Anchor C} {staged : UTXOSet C}
    {shardTree : ShardTree} {feeFloors : Table ℕ ℕ} {height : ℕ} {run : FruitsRun C}
    (step : ∀ fruitHash fruit tx s s', fruitHash ∈ anchor.coveredFruitHashes → n.IsSpend fruitHash fruit tx →
      P s → applyFruitTx shardTree (feeFloors[fruit.header.shardId]?.getD 0) height fruitHash fruit s tx = .ok s' →
      P s')
    (start : P ⟨staged, ∅, [], ∅, ∅, ∅⟩)
    (h : n.applyAnchorFruits anchor staged shardTree feeFloors height = .ok run) : P run := by
  obtain ⟨ordered, hordered, h⟩ := Exn.bind_ok.1 h
  have hperm := canonicalCoveredFruitOrder_perm (noneAs_ok.1 hordered)
  refine Exn.foldlM_inv (fun _ s => P s) (fun done fruitHash todo s s' hl hs hstep => ?_) start h
  have hmem : fruitHash ∈ anchor.coveredFruitHashes := by
    have : fruitHash ∈ ordered := by simp [hl]
    simpa using hperm.mem_iff.1 this
  simp only [applyFruit, Exn.bind_ok, Exn.get_ok] at hstep
  obtain ⟨fruit, hfruit, txs, htxs, hstep⟩ := hstep
  refine Exn.foldlM_inv (fun _ s => P s) (fun done tx todo s s' hl hs htx => ?_) hs hstep
  exact step fruitHash fruit tx s s' hmem ⟨hfruit, txs, htxs, by simp [hl]⟩ hs htx

/-! ## The rewards -/

/-- The rewards filed so far have new, pairwise distinct outpoints, which `seen` holds. -/
structure ClaimRun.Ok (staged : UTXOSet C) (s : ClaimRun) : Prop where
  seen : s.seen = (s.rewardUtxos.map fun u => u.outpoint).toFinset
  nodup : (s.rewardUtxos.map fun u => u.outpoint).Nodup
  fresh : ∀ u ∈ s.rewardUtxos, staged.get u.outpoint = none

/-- The claims with more outputs filed. -/
def ClaimRun.file (s : ClaimRun) (l : List UTXO) : ClaimRun :=
  { s with seen := s.seen ∪ (l.map fun u => u.outpoint).toFinset, rewardUtxos := s.rewardUtxos ++ l }

variable {staged : UTXOSet C} {reason : Reject}

theorem claimOutput_ok {s s' : ClaimRun} {u : UTXO} :
    claimOutput staged reason s (.ok u) = .ok s' ↔
      u.outpoint ∉ s.seen ∧ staged.get u.outpoint = none ∧ s' = s.file [u] := by
  unfold claimOutput
  rw [raising_eq rfl, Exn.ok_bind]
  simp only [Exn.bind_ok, rejectUnless_ok, Exn.pure_ok]
  have hfile : s.file [u] = { s with seen := insert u.outpoint s.seen, rewardUtxos := s.rewardUtxos ++ [u] } := by
    simp [ClaimRun.file]
  rw [hfile]
  constructor
  · rintro ⟨-, ⟨h₁, h₂⟩, rfl⟩
    exact ⟨h₁, h₂, rfl⟩
  · rintro ⟨h₁, h₂, rfl⟩
    exact ⟨(), ⟨h₁, h₂⟩, rfl⟩

theorem claimOutputs_ok {l : List UTXO} {s s' : ClaimRun} :
    (l.map .ok).foldlM (claimOutput staged reason) s = .ok s' ↔
      (l.map fun u => u.outpoint).Nodup ∧
      (∀ u ∈ l, u.outpoint ∉ s.seen ∧ staged.get u.outpoint = none) ∧ s' = s.file l := by
  induction l generalizing s with
  | nil => simp [ClaimRun.file, pure, Except.pure, eq_comm]
  | cons u l ih =>
    simp only [List.map_cons, Exn.foldlM_cons_ok, claimOutput_ok, ih, List.nodup_cons, List.forall_mem_cons]
    have hfile : (s.file [u]).file l = s.file (u :: l) := by
      simp [ClaimRun.file]
    have hseen : ∀ o, o ∉ (s.file [u]).seen ↔ o ∉ s.seen ∧ o ≠ u.outpoint := by
      intro o
      simp [ClaimRun.file, and_comm]
    constructor
    · rintro ⟨_, ⟨h₁, h₂, rfl⟩, hnodup, hl, rfl⟩
      have hnot : u.outpoint ∉ l.map fun u => u.outpoint := by
        rw [List.mem_map]
        rintro ⟨v, hv, e⟩
        exact ((hseen _).1 (hl v hv).1).2 e
      exact ⟨⟨hnot, hnodup⟩, ⟨⟨h₁, h₂⟩, fun v hv => ⟨((hseen _).1 (hl v hv).1).1, (hl v hv).2⟩⟩, hfile⟩
    · rintro ⟨⟨hnot, hnodup⟩, ⟨⟨h₁, h₂⟩, hl⟩, rfl⟩
      refine ⟨_, ⟨h₁, h₂, rfl⟩, hnodup, fun v hv => ⟨(hseen _).2 ⟨(hl v hv).1, ?_⟩, (hl v hv).2⟩, hfile.symm⟩
      intro e
      exact hnot (List.mem_map.2 ⟨v, hv, e⟩)

/-- A loop of claims that succeeds has an entry for every output. -/
theorem claimOutputs_all {us : List (Except PyError UTXO)} {s s' : ClaimRun}
    (h : us.foldlM (claimOutput staged reason) s = .ok s') : ∃ l : List UTXO, us = l.map .ok := by
  refine Exn.foldlM_all_ok (fun s e s' he => ?_) h
  cases he

theorem ClaimRun.Ok.file {s : ClaimRun} (hs : s.Ok staged) {l : List UTXO}
    (hnodup : (l.map fun u => u.outpoint).Nodup)
    (hl : ∀ u ∈ l, u.outpoint ∉ s.seen ∧ staged.get u.outpoint = none) : (s.file l).Ok staged := by
  refine ⟨?_, ?_, ?_⟩
  · simp [ClaimRun.file, hs.seen]
  · simp only [ClaimRun.file, List.map_append]
    refine List.Nodup.append hs.nodup hnodup ?_
    intro o ho hl'
    obtain ⟨u, hu, rfl⟩ := List.mem_map.1 hl'
    refine (hl u hu).1 ?_
    rw [hs.seen, List.mem_toFinset]
    exact ho
  · intro u hu
    rcases List.mem_append.1 hu with hu | hu
    · exact hs.fresh u hu
    · exact (hl u hu).2

section Claims

variable {claimed assignments tips : Table Hash ℕ} {maturity : ℕ} {s s' : ClaimRun} {fruitHash : Hash}
  {claim : ℕ} {coinbase : Transaction}

/-- What the claim of one fruit does. -/
theorem claimFruit_ok (h : claimFruit claimed assignments tips maturity staged s (fruitHash, claim, coinbase) = .ok s') :
    claimed[fruitHash]? = none ∧ ∃ assigned l, assignments[fruitHash]? = some assigned ∧
      claim ≤ assigned + tips[fruitHash]?.getD 0 ∧
      utxosOfTx (C := C) coinbase maturity = l.map .ok ∧ (l.map fun u => u.outpoint).Nodup ∧
      (∀ u ∈ l, u.outpoint ∉ s.seen ∧ staged.get u.outpoint = none) ∧
      s' = { s.file l with
        mintedIncrement := s.mintedIncrement + (claim - tips[fruitHash]?.getD 0) } := by
  unfold claimFruit at h
  simp only [Exn.bind_ok, rejectUnless_ok, raising_ok, item_ok] at h
  obtain ⟨-, hclaimed, assigned, hassigned, -, hle, h⟩ := h
  obtain ⟨l, hl⟩ := claimOutputs_all h
  rw [hl, claimOutputs_ok] at h
  obtain ⟨hnodup, hfresh, rfl⟩ := h
  exact ⟨hclaimed, assigned, l, hassigned, hle, hl, hnodup, hfresh, rfl⟩

theorem ClaimRun.Ok.claimFruit (hs : s.Ok staged)
    (h : claimFruit claimed assignments tips maturity staged s (fruitHash, claim, coinbase) = .ok s') :
    s'.Ok staged := by
  obtain ⟨-, assigned, l, -, -, -, hnodup, hfresh, rfl⟩ := claimFruit_ok h
  have := hs.file hnodup hfresh
  exact ⟨this.seen, this.nodup, this.fresh⟩

end Claims

/-- The rewards of an anchor that covers fruits: the claims of its fruits, then its own
outputs. -/
theorem claimAnchorRewards_ok {anchor : Anchor C} {anchorHash : Hash} {height : ℕ} {target : Hash}
    {tips : Table Hash ℕ} {minted : ℕ} {claimed : Table Hash ℕ} {rewards : List UTXO} {increment : ℕ}
    (h : n.claimAnchorRewards anchor anchorHash height target tips staged minted claimed = .ok (rewards, increment))
    (hne : anchor.coveredFruitHashes ≠ []) :
    ∃ subsidy fruitPool anchorPool infos assignments maturity s l,
      intervalSubsidyMatoms height minted = .ok subsidy ∧
      rewardPools anchor.coveredFruitHashes.length subsidy target = .ok (fruitPool, anchorPool) ∧
      (anchor.anchorRewardOutputs.map fun o => o.amountMatoms).sum ≤ anchorPool ∧
      (anchor.coveredFruitHashes.mapM fun h => do return (h, ← n.claimInfo h)) = .ok infos ∧
      fruitSubsidyAssignments (Table.putAll ∅ (infos.map fun p => (p.1, coinbaseRewardKey (C := C) p.2.2)))
        subsidy target = .ok assignments ∧
      coinbaseMaturityHeight height = .ok maturity ∧
      infos.foldlM (claimFruit claimed assignments tips maturity staged)
        ⟨∅, [], (anchor.anchorRewardOutputs.map fun o => o.amountMatoms).sum⟩ = .ok s ∧
      (anchor.anchorRewardOutputs.zipIdx.map fun p =>
        utxoOf (anchorRewardId (C := C) anchorHash) p.2 p.1 0) = l.map .ok ∧
      (l.map fun u => u.outpoint).Nodup ∧
      (∀ u ∈ l, u.outpoint ∉ s.seen ∧ staged.get u.outpoint = none) ∧
      minted + s.mintedIncrement ≤ maxSupplyMatoms ∧
      rewards = s.rewardUtxos ++ l ∧ increment = s.mintedIncrement := by
  unfold claimAnchorRewards at h
  rw [if_neg hne] at h
  simp only [Exn.bind_ok, raising_ok, rejecting_ok, rejectUnless_ok] at h
  obtain ⟨subsidy, hsub, ⟨fruitPool, anchorPool⟩, hpools, claim, hclaim, -, hle, infos, hinfos, assignments,
    hassign, maturity, hmat, s, hloop, s', hrewards, -, hcap, h⟩ := h
  obtain ⟨-, -, hclaim⟩ := Exn.bind_ok.1 hclaim
  have hclaim := Exn.pure_ok.1 hclaim
  -- the reward outputs were built without an error, so they are the entries of a list
  obtain ⟨l, hl⟩ := claimOutputs_all hrewards
  rw [hl, claimOutputs_ok] at hrewards
  obtain ⟨hnodup, hfresh, rfl⟩ := hrewards
  cases h
  subst hclaim
  exact ⟨subsidy, fruitPool, anchorPool, infos, assignments, maturity, s, l, hsub, hpools, hle, hinfos, hassign,
    hmat, hloop, hl, hnodup, hfresh, hcap, rfl, rfl⟩

/-- What an applied anchor leaves. -/
theorem applyAnchor_ok {anchor : Anchor C} {anchorHash : Hash} {height : ℕ} {target : Hash}
    {state : BranchState C} {r : Applied C} (h : n.applyAnchor anchor anchorHash height target state = .ok r) :
    ∃ tree, anchorTree anchor = .ok tree ∧
      n.applyAnchorFruits anchor state.utxoSet state.shardTree state.feeFloors height = .ok r.run ∧
      n.claimAnchorRewards anchor anchorHash height target r.run.effectiveTips r.run.staged state.mintedSupply
        state.claimedFruits = .ok (r.rewardUtxos, r.mintedIncrement) ∧
      r.rewardUtxos.foldlM UTXOSet.add r.run.staged = .ok r.state.utxoSet ∧
      r.state.height = height ∧ r.state.shardTree = tree ∧
      r.state.feeFloors = Table.putAll ∅ (anchor.feeFloorEntries.map fun e => (e.shardId, e.floorMatomsPerKb)) ∧
      r.state.mintedSupply = state.mintedSupply + r.mintedIncrement ∧
      r.state.claimedFruits =
        Table.putAll state.claimedFruits (anchor.coveredFruitHashes.map fun h => (h, height)) ∧
      r.state.confirmedTxIds = state.confirmedTxIds ∪ r.run.coveredTxIds := by
  unfold applyAnchor at h
  rw [raising_eq (UTXOSet.ofList_entries state.utxoSet)] at h
  simp only [Exn.ok_bind, Exn.bind_ok, raising_ok] at h
  obtain ⟨tree, htree, run, hrun, ⟨rewards, increment⟩, hclaim, utxoSet, hadd, h⟩ := h
  cases h
  exact ⟨tree, htree, hrun, hclaim, hadd, rfl, rfl, rfl, rfl, rfl, rfl⟩

theorem applyAnchorToBranch_ok {anchor : Anchor C} {anchorHash : Hash} {height : ℕ} {target : Hash}
    {state state' : BranchState C} :
    n.applyAnchorToBranch anchor anchorHash height target state = .ok state' ↔
      ∃ r, n.applyAnchor anchor anchorHash height target state = .ok r ∧ r.state = state' := by
  unfold applyAnchorToBranch
  simp only [Exn.bind_ok, Exn.pure_ok]

end Node

end TensorPow
