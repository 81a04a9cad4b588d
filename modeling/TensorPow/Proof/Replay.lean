import TensorPow.Proof.AnchorChain

/-!
# Replaying a branch

Applying an anchor, and so replaying a chain, reads only blocks that were stored when the
anchor was accepted. A node that has stored more blocks gets the same result
(`applyAnchor_stable`, `rebuild_stable`).
-/

namespace TensorPow

open Wire Sorted

variable {C : Crypto}

namespace Node

variable {n n' : Node C} {h : Hash} {f : Fruit C} {a : Anchor C}

/-! ## One anchor -/

/-- What the claims read of a stored fruit. -/
theorem claimInfo_eq (hn : FruitsOk n) (hf : n.loadFruit h = some f) :
    ∃ coinbase spends, fruitTxs f = .ok (coinbase :: spends) ∧
      n.claimInfo h = .ok (coinbase.outputSum, coinbase) := by
  obtain ⟨coinbase, spends, info, htxs, -, -, hinfo, hclaim⟩ := (hn h f hf).txs
  refine ⟨coinbase, spends, htxs, claimInfo_ok.2 ⟨⟨info, hinfo, hclaim⟩, f, ?_⟩⟩
  cases hraw : f.transactions with
  | nil =>
    rw [fruitTxs, hraw] at htxs
    cases htxs
  | cons raw rest => exact ⟨raw, hf, rfl, fruitTxs_head htxs (by rw [hraw]; rfl)⟩

theorem claimInfo_stable (hn : FruitsOk n) (hn' : FruitsOk n') (hg : Grows n n') (hf : n.loadFruit h = some f) :
    n'.claimInfo h = n.claimInfo h := by
  obtain ⟨coinbase, spends, htxs, heq⟩ := claimInfo_eq hn hf
  obtain ⟨coinbase', spends', htxs', heq'⟩ := claimInfo_eq hn' (hg.loadFruit hf)
  cases htxs.symm.trans htxs'
  rw [heq, heq']

/-- The assumptions under which a node and one that has grown from it are compared. -/
structure Stable (n n' : Node C) : Prop where
  fruits : FruitsOk n
  cache : CacheOk n
  fruits' : FruitsOk n'
  cache' : CacheOk n'
  grows : Grows n n'

section

variable (hs : Stable n n') (hcov : ∀ x ∈ a.coveredFruitHashes, ∃ f, n.loadFruit x = some f)

include hs hcov

theorem applyAnchorFruits_stable (staged : UTXOSet C) (shardTree : ShardTree) (feeFloors : Table ℕ ℕ) (height : ℕ) :
    n'.applyAnchorFruits a staged shardTree feeFloors height =
      n.applyAnchorFruits a staged shardTree feeFloors height := by
  unfold applyAnchorFruits
  rw [canonicalCoveredFruitOrder_stable hs.fruits hs.cache hs.fruits' hs.cache' hs.grows hcov]
  refine Exn.bind_congr rfl fun ordered hordered => ?_
  have hperm := canonicalCoveredFruitOrder_perm (noneAs_ok.1 hordered)
  refine Exn.foldlM_congr (fun x hx s => ?_) _
  obtain ⟨f, hf⟩ := hcov x (by simpa using hperm.mem_iff.1 hx)
  unfold applyFruit
  rw [hf, hs.grows.loadFruit hf]

theorem claimAnchorRewards_stable (anchorHash : Hash) (height : ℕ) (target : Hash) (tips : Table Hash ℕ)
    (staged : UTXOSet C) (minted : ℕ) (claimed : Table Hash ℕ) :
    n'.claimAnchorRewards a anchorHash height target tips staged minted claimed =
      n.claimAnchorRewards a anchorHash height target tips staged minted claimed := by
  have hinfos : (a.coveredFruitHashes.mapM fun h => do return (h, ← n'.claimInfo h)) =
      a.coveredFruitHashes.mapM fun h => do return (h, ← n.claimInfo h) := by
    refine Exn.mapM_congr fun x hx => ?_
    obtain ⟨f, hf⟩ := hcov x hx
    rw [claimInfo_stable hs.fruits hs.fruits' hs.grows hf]
  unfold claimAnchorRewards
  rw [hinfos]

/-- **Applying an anchor reads old blocks only.** -/
theorem applyAnchor_stable (anchorHash : Hash) (height : ℕ) (target : Hash) (state : BranchState C) :
    n'.applyAnchor a anchorHash height target state = n.applyAnchor a anchorHash height target state := by
  unfold applyAnchor
  simp only [applyAnchorFruits_stable hs hcov, claimAnchorRewards_stable hs hcov]

theorem applyAnchorToBranch_stable (anchorHash : Hash) (height : ℕ) (target : Hash) (state : BranchState C) :
    n'.applyAnchorToBranch a anchorHash height target state =
      n.applyAnchorToBranch a anchorHash height target state := by
  unfold applyAnchorToBranch
  rw [applyAnchor_stable hs hcov]

end

/-! ## A whole chain -/

theorem rebuild_eq {l : List (Hash × Anchor C)} (hc : AnchorChain n h l) :
    n.rebuildAnchorBranchState h = (l.map Prod.fst).reverse.foldlM n.replayStep BranchState.empty := by
  unfold rebuildAnchorBranchState
  rw [anchorChainHashes_eq hc, Exn.ok_bind]

/-- Below genesis nothing has been applied. -/
theorem rebuild_genesis : n.rebuildAnchorBranchState genesisParentHash = .ok BranchState.empty :=
  rebuild_eq AnchorChain.nil

/-- The replay up to an anchor is the replay up to its parent and one more step. -/
theorem rebuild_cons (hn : AnchorsOk n) (ha : n.loadAnchor h = some a) :
    n.rebuildAnchorBranchState h =
      n.rebuildAnchorBranchState a.header.parentAnchor >>= fun state => n.replayStep state h := by
  obtain ⟨l, hl⟩ := exists_anchorChain hn ha
  obtain ⟨l', rfl, hl'⟩ := hl.head ha
  rw [rebuild_eq hl, rebuild_eq hl', List.map_cons, List.reverse_cons, List.foldlM_append]
  refine Exn.bind_congr rfl fun state _ => ?_
  rw [List.foldlM_cons]
  cases n.replayStep state h <;> rfl

theorem replayStep_eq {info : AnchorMeta} (ha : n.loadAnchor h = some a)
    (hi : n.store.anchorMeta[h]? = some info) (state : BranchState C) :
    n.replayStep state h = rejectAsNone (n.applyAnchorToBranch a h info.height info.target state) := by
  unfold replayStep
  rw [ha, Exn.get_some, Exn.ok_bind, anchorMeta_eq hi, Exn.ok_bind]

/-- **Replays do not change** when more blocks are stored. -/
theorem rebuild_stable (hs : Stable n n') (hn : AnchorsOk n) (hn' : AnchorsOk n')
    (ha : n.loadAnchor h = some a) : n'.rebuildAnchorBranchState h = n.rebuildAnchorBranchState h := by
  obtain ⟨l, hl⟩ := exists_anchorChain hn ha
  have hmeta := anchorMeta_agree hn hn' hs.grows hl
  rw [rebuild_eq hl, rebuild_eq (hl.grows hs.grows)]
  refine Exn.foldlM_congr (fun x hx state => ?_) _
  obtain ⟨p, hp, rfl⟩ := List.mem_map.1 (List.mem_reverse.1 hx)
  have hp' := hl.mem p hp
  obtain ⟨info, hinfo, -⟩ := (hn p.1 p.2 hp').info
  rw [replayStep_eq hp' hinfo, replayStep_eq (hs.grows.loadAnchor hp') ((hmeta p hp).trans hinfo),
    applyAnchorToBranch_stable hs (hn p.1 p.2 hp').covered]

end Node

end TensorPow
