import TensorPow.Spec.Ghostdag
import TensorPow.Spec.Mempool
import TensorPow.Spec.Rewards
import TensorPow.Spec.Store

/-!
# Reading the store and replaying a branch

The part of `node/node.py` that reads stored blocks and applies anchors to a branch
state.

* `loadAnchor`, `loadFruit`, `anchorHistory`, `anchorChainHashes`: reading blocks.
* `fruitDag`, `canonicalCoveredFruitOrder`, `canonicalParentCandidates`: the fruit DAG.
* `applySpendTx`, `applyAnchorFruits`, `claimAnchorRewards`, `applyAnchorToBranch`: the
  effect of an anchor.
* `rebuildAnchorBranchState`: the replay of the chain below a tip.
-/

namespace TensorPow

open Wire Sorted

/-- A proof-of-work header. -/
inductive PowHeader where
  | fruit (h : FruitPowHeader)
  | anchor (h : AnchorHeader)
deriving DecidableEq

/-- What a node is configured with: the proof-of-work check, in which an exception counts
as failure, and the expected genesis hash. -/
structure Config where
  powVerifier : PowHeader → Hash → Bool
  expectedGenesisHash : Option Hash

/-- The state of a `TensorPowNode`. -/
structure Node (C : Crypto) where
  store : Store C
  shardTree : ShardTree
  utxoSet : UTXOSet C
  mempool : Mempool
  fruitDagCache : Option (BlockDAG Hash)

/-- `_AnchorBranchState`. -/
structure BranchState (C : Crypto) where
  height : ℕ
  shardTree : ShardTree
  feeFloors : Table ℕ ℕ
  utxoSet : UTXOSet C
  mintedSupply : ℕ
  claimedFruits : Table Hash ℕ
  confirmedTxIds : Finset Hash

/-- `_empty_anchor_branch_state`. -/
def BranchState.empty {C : Crypto} : BranchState C := ⟨0, .root, ∅, .empty, 0, ∅, ∅⟩

variable {C : Crypto}

/-! ## Spending -/

/-- The loop body of `_apply_spend_tx`: the outpoints seen, and the running input sum. -/
def spendInput (utxoSet : UTXOSet C) (tx : Transaction) (currentTimeMs currentHeight : ℕ)
    (acc : Finset Outpoint × ℕ) (p : Input × ℕ) : Except Stop (Finset Outpoint × ℕ) := do
  let outpoint := p.1.previousOutpoint
  rejectUnless (outpoint ∉ acc.1) .duplicateInput
  match utxoSet.get outpoint with
  | none => .error (.reject .missingInput)
  | some utxo =>
    let message ← raising (tx.sighash C p.2)
    rejectUnless (verifyUtxoSpend C utxo p.1.witness message tx.sigType currentTimeMs currentHeight)
      .scriptFailed
    return (insert outpoint acc.1, acc.2 + utxo.amountMatoms)

/-- `_apply_spend_tx`: the set without the inputs, and the tip. -/
def applySpendTx (utxoSet : UTXOSet C) (tx : Transaction) (shardTree : ShardTree)
    (requiredShardId feeFloorMatomsPerKb currentTimeMs currentHeight : ℕ) :
    Except Stop (UTXOSet C × ℕ) := do
  let routed ← raising (shardTree.routeTx (tx.txId C))
  rejectUnless (routed = requiredShardId) .wrongShard
  rejecting .txLockUnmatured (checkLocks tx.locktimeMs tx.lockheight currentTimeMs currentHeight)
  let (_, inputSum) ← tx.inputs.zipIdx.foldlM (spendInput utxoSet tx currentTimeMs currentHeight) (∅, 0)
  rejectUnless (tx.outputSum ≤ inputSum) .negativeFee
  let feeMatoms := inputSum - tx.outputSum
  let txSizeBytes := tx.toBytes.length
  rejectUnless (feeFloorMatomsPerKb ≤ feeMatoms * bytesPerKb / txSizeBytes) .belowFeeFloor
  let burned := burnedFeeMatoms feeFloorMatomsPerKb txSizeBytes
  let tipMatoms := feeMatoms - burned
  let spent ← raising (tx.inputs.foldlM (fun s i => s.remove i.previousOutpoint) utxoSet)
  return (spent, tipMatoms)

/-- The owner of an output: the first 32 bytes of a PKH payload, else zero. -/
def ownerOf (o : Output) : Hash :=
  if h : o.template = .pkh ∧ 32 ≤ o.payload.length then
    ⟨o.payload.take 32, List.length_take_of_le h.2⟩
  else FixedBytes.zero 32

/-- The unspent output of an output under the transaction id it is filed under. -/
def utxoOf (txId : Hash) (outputIndex : ℕ) (o : Output) (minLockheight : ℕ) : Except PyError UTXO := do
  let outpoint ← Outpoint.make txId outputIndex
  UTXO.make
    { outpoint, amountMatoms := o.amountMatoms, template := o.template, ownerPubkeyHash := ownerOf o,
      locktimeMs := o.locktimeMs, lockheight := max o.lockheight minLockheight, payload := o.payload }

/-- `_utxo_from_output` for every output of a transaction, in order. -/
def utxosOfTx (tx : Transaction) (minLockheight : ℕ) : List (Except PyError UTXO) :=
  tx.outputs.zipIdx.map fun p => utxoOf (tx.txId C) p.2 p.1 minLockheight

/-- `ANCHOR_REWARD_PREFIX`: the ASCII bytes of `anchorreward:`. -/
def anchorRewardPrefix : Bytes := [97, 110, 99, 104, 111, 114, 114, 101, 119, 97, 114, 100, 58]

/-- The transaction id the reward outputs of an anchor are filed under. -/
def anchorRewardId (anchorHash : Hash) : Hash := C.hashBytes (anchorRewardPrefix ++ anchorHash.bytes)

/-- `_coinbase_reward_key`: the least PKH payload, else the transaction id. -/
def coinbaseRewardKey (tx : Transaction) : Hash :=
  let owners := (tx.outputs.filter fun o => o.template = .pkh ∧ o.payload.length = hashLenBytes).map ownerOf
  (sortBy id owners).headD (tx.txId C)

/-- `_tx_output_sum`. -/
def txOutputSum (tx : Transaction) : Except PyError ℕ := do
  let total := (tx.outputs.map fun o => o.amountMatoms).sum
  Exn.ensure (total ≤ maxSupplyMatoms) (.valueError "transaction output sum exceeds MAX_SUPPLY_MATOMS")
  return total

/-- `_output_sum`. -/
def outputSum (outputs : List Output) : Except PyError ℕ := do
  let total := (outputs.map fun o => o.amountMatoms).sum
  Exn.ensure (total ≤ maxSupplyMatoms) (.valueError "output sum exceeds MAX_SUPPLY_MATOMS")
  return total

namespace Node

variable (n : Node C)

/-! ## Reading blocks -/

/-- `_load_anchor`. -/
def loadAnchor (h : Hash) : Option (Anchor C) :=
  if h = genesisParentHash then none
  else match n.store.bodies[h]? with
    | some (.anchor a) => some a
    | _ => none

/-- `_load_fruit`. -/
def loadFruit (h : Hash) : Option (Fruit C) :=
  if h = genesisParentHash then none
  else match n.store.bodies[h]? with
    | some (.fruit f) => some f
    | _ => none

/-- `_stored_fruit_hashes`; the column iterates in ascending key order. -/
def storedFruitHashes : List Hash := n.store.bodies.keys.filter fun h => (n.loadFruit h).isSome

/-- The walk down the parent links of `_anchor_history` and `_anchor_chain_hashes`, newest
first; `fuel` bounds its length, which is at most the number of stored bodies. -/
def walkAnchors (limit : Option ℕ) : ℕ → List Hash → Hash → Except Stop (List (Hash × Anchor C))
  | 0, _, _ => .error (.raise .recursionError)
  | fuel + 1, seen, current =>
    if current = genesisParentHash then .ok []
    else if current ∈ seen then .error .none
    else match n.loadAnchor current with
      | none => .error .none
      | some anchor =>
        if limit = some (seen.length + 1) then .ok [(current, anchor)]
        else do
          let rest ← walkAnchors limit fuel (current :: seen) anchor.header.parentAnchor
          return (current, anchor) :: rest

/-- `_anchor_chain_hashes`, oldest first. -/
def anchorChainHashes (tip : Hash) : Except Stop (List Hash) := do
  let chain ← n.walkAnchors none (n.store.bodies.size + 1) [] tip
  return (chain.map Prod.fst).reverse

/-- `AnchorRecord(…)`, `None` when its checks fail. -/
def anchorRecord (anchorHash : Hash) (anchor : Anchor C) (target : Hash) : Except Stop AnchorRecord := do
  let record : AnchorRecord :=
    { anchorHash, parentAnchor := anchor.header.parentAnchor, timestampMs := anchor.header.timestampMs, target }
  match record.postInit with
  | .ok () => .ok record
  | .error _ => .error .none

/-- The loop body of `_derive_anchor_meta`: the records so far, and their work. -/
def deriveStep (acc : List AnchorRecord × ℕ) (h : Hash) : Except Stop (List AnchorRecord × ℕ) := do
  let anchor ← Exn.get (n.loadAnchor h) .none
  let target ← if anchor.isGenesis then .ok anchorInitialTargetLe else raising (nextAnchorTarget acc.1)
  let record ← anchorRecord h anchor target
  let work ← raising (anchorWorkWeight record.target)
  return (acc.1 ++ [record], acc.2 + work)

/-- `_derive_anchor_meta`. -/
def deriveAnchorMeta (anchorHash : Hash) : Except Stop AnchorMeta := do
  let chain ← n.anchorChainHashes anchorHash
  Exn.ensure (chain ≠ []) .none
  let (history, cumulativeWork) ← chain.foldlM n.deriveStep ([], 0)
  match history.getLast? with
  | none => .error .none
  | some last => return { height := history.length - 1, target := last.target, cumulativeWork }

/-- `_anchor_meta`. -/
def anchorMeta (h : Hash) : Except Stop AnchorMeta :=
  match n.store.anchorMeta[h]? with
  | some stored => .ok stored
  | none => n.deriveAnchorMeta h

/-- `ANCHOR_HISTORY_LOOKBACK`. -/
def anchorHistoryLookback : ℕ := 101

/-- `_anchor_history` with the limit `ANCHOR_HISTORY_LOOKBACK`, oldest first. -/
def anchorHistory (tip : Hash) : Except Stop (List AnchorRecord) := do
  Exn.ensure (tip ≠ genesisParentHash) .none
  let chain ← n.walkAnchors (some anchorHistoryLookback) (n.store.bodies.size + 1) [] tip
  chain.reverse.mapM fun p => do
    let info ← n.anchorMeta p.1
    anchorRecord p.1 p.2 info.target

/-! ## The fruit DAG -/

/-- `_fruit_parents_for_dag`. -/
def fruitParentsForDag (fruit : Fruit C) : Except Stop (List Hash) := do
  let latest ← Exn.get (n.loadAnchor fruit.header.latestAnchor) .none
  match fruit.header.effectiveParentHashes latest.parentCandidateHashes with
  | .ok parents => return parents.filter (· ≠ genesisParentHash)
  | .error _ => .error .none

/-- The DAG and the two sets that `add_fruit` of `_fruit_dag` closes over. -/
structure DagBuild where
  dag : BlockDAG Hash
  visiting : Finset Hash
  visited : Finset Hash

/-- `add_fruit` of `_fruit_dag`, with a bound on the depth of the recursion. -/
def addFruit : ℕ → DagBuild → Hash → Except Stop DagBuild
  | 0, _, _ => .error (.raise .recursionError)
  | depth + 1, s, h =>
    if h ∈ s.visited then .ok s
    else if h ∈ s.visiting then .error .none
    else do
      let fruit ← Exn.get (n.loadFruit h) .none
      let parents ← n.fruitParentsForDag fruit
      let s ← parents.foldlM (addFruit depth) { s with visiting := insert h s.visiting }
      match s.dag.addFruit h parents fruit.header.timestampMs 1 with
      | .ok dag => return { dag, visiting := s.visiting.erase h, visited := insert h s.visited }
      | .error _ => .error .none

/-- The timestamp of a stored fruit. -/
def fruitTime (h : Hash) : ℕ := ((n.loadFruit h).map fun f => f.header.timestampMs).getD 0

/-- `_fruit_dag` on an empty cache: every stored fruit, parents before children. -/
def buildFruitDag : Except Stop (BlockDAG Hash) := do
  let order := sortBy (fun h => (toLex (n.fruitTime h, h) : ℕ ×ₗ Hash)) n.storedFruitHashes
  let s ← order.foldlM (n.addFruit (n.store.bodies.size + 1)) ⟨BlockDAG.empty, ∅, ∅⟩
  return s.dag

/-- `_fruit_dag`. -/
def fruitDag : Except Stop (BlockDAG Hash) :=
  match n.fruitDagCache with
  | some dag => .ok dag
  | none => n.buildFruitDag

/-- `_ghostdag_k`: `DYNAMIC_K_MIN`. -/
def ghostdagK : ℤ := 15

/-- `_canonical_covered_fruit_order`. The metadata cache of the DAG does not change any
result, so its update is dropped. -/
def canonicalCoveredFruitOrder (covered : List Hash) : Except Stop (List Hash) := do
  let dag ← n.fruitDag
  let (metadata, _) ← raising (dag.ghostdagMetadata ghostdagK)
  Exn.ensure (∀ h ∈ covered, metadata.contains h) .none
  raising (dag.sortedByScore metadata covered.toFinset)

/-- The parents of all stored fruits. -/
def referencedFruits : Except Stop (Finset Hash) :=
  n.storedFruitHashes.foldlM (fun acc h => do
    let fruit ← Exn.get (n.loadFruit h) .none
    let parents ← n.fruitParentsForDag fruit
    return acc ∪ parents.toFinset) ∅

/-- `_canonical_parent_candidates`: the frontier by blue score, best first. -/
def canonicalParentCandidates : Except Stop (List Hash) := do
  let dag ← n.fruitDag
  if dag.blocks.size = 0 then return []
  let referenced ← n.referencedFruits
  let frontier := n.storedFruitHashes.filter (· ∉ referenced)
  let (metadata, _) ← raising (dag.ghostdagMetadata ghostdagK)
  let keyed ← frontier.mapM fun h => do
    let data ← raising (item metadata h)
    return ((-(data.blueScore : ℤ), h) : ℤ × Hash)
  return ((sortBy (fun q => (toLex q : ℤ ×ₗ Hash)) keyed).map Prod.snd).take parentCandidateMaxCount

/-! ## Applying an anchor -/

/-- What `_apply_anchor_fruits` accumulates. -/
structure FruitsRun (C : Crypto) where
  staged : UTXOSet C
  spentOutpoints : Finset Outpoint
  createdUtxos : List UTXO
  effectiveTips : Table Hash ℕ
  coveredTxIds : Finset Hash
  skippedTxIds : Finset Hash

/-- One spend of a covered fruit: skipped when an input was spent or skipped before in this
anchor, else applied and its outputs added. -/
def applyFruitTx (shardTree : ShardTree) (feeFloor height : ℕ) (fruitHash : Hash) (fruit : Fruit C)
    (s : FruitsRun C) (tx : Transaction) : Except Stop (FruitsRun C) := do
  let txId := tx.txId C
  let s := { s with coveredTxIds := insert txId s.coveredTxIds }
  if tx.inputs.any fun i => i.previousOutpoint ∈ s.spentOutpoints ∨ i.previousOutpoint.txId ∈ s.skippedTxIds
  then return { s with skippedTxIds := insert txId s.skippedTxIds }
  let (staged, tip) ← applySpendTx s.staged tx shardTree fruit.header.shardId feeFloor
    fruit.header.timestampMs height
  let spentOutpoints := s.spentOutpoints ∪ (tx.inputs.map fun i => i.previousOutpoint).toFinset
  let (staged, created) ← (utxosOfTx (C := C) tx 0).foldlM (fun acc u => do
    match (do let u ← u; let staged ← acc.1.add u; return (staged, acc.2 ++ [u])) with
    | .ok acc => .ok acc
    | .error (.keyError _) => .error (.reject .duplicateTxOutpoint)
    | .error (.valueError _) => .error (.reject .duplicateTxOutpoint)
    | .error e => .error (.raise e)) (staged, s.createdUtxos)
  return { s with
    staged, spentOutpoints, createdUtxos := created
    effectiveTips := s.effectiveTips.insert fruitHash (s.effectiveTips[fruitHash]?.getD 0 + tip) }

/-- The transactions of a fruit. -/
def fruitTxs (fruit : Fruit C) : Except Stop (List Transaction) :=
  fruit.transactions.mapM fun raw => rejecting .malformedFruitTx (Transaction.fromBytes raw)

/-- One covered fruit of `_apply_anchor_fruits`. -/
def applyFruit (shardTree : ShardTree) (feeFloors : Table ℕ ℕ) (height : ℕ) (s : FruitsRun C)
    (fruitHash : Hash) : Except Stop (FruitsRun C) := do
  let fruit ← Exn.get (n.loadFruit fruitHash) (.reject .missingCoveredFruit)
  let feeFloor := feeFloors[fruit.header.shardId]?.getD 0
  let txs ← fruitTxs fruit
  txs.tail.foldlM (applyFruitTx shardTree feeFloor height fruitHash fruit) s

/-- `_apply_anchor_fruits`. -/
def applyAnchorFruits (anchor : Anchor C) (staged : UTXOSet C) (shardTree : ShardTree)
    (feeFloors : Table ℕ ℕ) (validationAnchorHeight : ℕ) : Except Stop (FruitsRun C) := do
  let ordered ← noneAs .badCoveredFruitOrder (n.canonicalCoveredFruitOrder anchor.coveredFruitHashes)
  ordered.foldlM (n.applyFruit shardTree feeFloors validationAnchorHeight)
    ⟨staged, ∅, [], ∅, ∅, ∅⟩

/-- What `_claim_anchor_rewards` reads for one covered fruit: the stored claim and the
coinbase. -/
def claimInfo (fruitHash : Hash) : Except Stop (ℕ × Transaction) := do
  let info ← Exn.get n.store.fruitMeta[fruitHash]? (.reject .missingFruitMetadata)
  let fruit ← Exn.get (n.loadFruit fruitHash) (.reject .missingCoveredFruit)
  let raw ← Exn.get fruit.transactions.head? (.raise (.indexError "tuple index out of range"))
  let coinbase ← rejecting .malformedFruitTx (Transaction.fromBytes raw)
  return (info.coinbaseClaimMatoms, coinbase)

/-- The rewards claimed so far: the outpoints seen, the new outputs and the issuance. -/
structure ClaimRun where
  seen : Finset Outpoint
  rewardUtxos : List UTXO
  mintedIncrement : ℕ

/-- File one reward output, unless its outpoint is taken. -/
def claimOutput (staged : UTXOSet C) (reason : Reject) (s : ClaimRun) (u : Except PyError UTXO) :
    Except Stop ClaimRun := do
  let u ← raising u
  rejectUnless (u.outpoint ∉ s.seen ∧ staged.get u.outpoint = none) reason
  return { s with seen := insert u.outpoint s.seen, rewardUtxos := s.rewardUtxos ++ [u] }

/-- One covered fruit of the claim loop. -/
def claimFruit (claimedFruits : Table Hash ℕ) (assignments effectiveTips : Table Hash ℕ) (maturityHeight : ℕ)
    (staged : UTXOSet C) (s : ClaimRun) (p : Hash × ℕ × Transaction) : Except Stop ClaimRun := do
  let (fruitHash, coinbaseClaimMatoms, coinbase) := p
  rejectUnless (claimedFruits[fruitHash]? = none) .fruitCoinbaseAlreadyClaimed
  let realizedTip := effectiveTips[fruitHash]?.getD 0
  let assigned ← raising (item assignments fruitHash)
  rejectUnless (coinbaseClaimMatoms ≤ assigned + realizedTip) .coinbaseTooLarge
  let s := { s with mintedIncrement := s.mintedIncrement + (coinbaseClaimMatoms - realizedTip) }
  (utxosOfTx (C := C) coinbase maturityHeight).foldlM (claimOutput staged .duplicateCoinbaseOutpoint) s

/-- `_claim_anchor_rewards`: the reward outputs and the issuance. -/
def claimAnchorRewards (anchor : Anchor C) (anchorHash : Hash) (anchorHeight : ℕ) (anchorTarget : Hash)
    (effectiveTips : Table Hash ℕ) (staged : UTXOSet C) (mintedSupply : ℕ) (claimedFruits : Table Hash ℕ) :
    Except Stop (List UTXO × ℕ) := do
  if anchor.coveredFruitHashes = [] then return ([], 0)
  let intervalSubsidy ← raising (intervalSubsidyMatoms anchorHeight mintedSupply)
  let (_, anchorPool) ← raising (rewardPools anchor.coveredFruitHashes.length intervalSubsidy anchorTarget)
  let anchorRewardClaim ← rejecting .anchorRewardTooLarge (outputSum anchor.anchorRewardOutputs)
  rejectUnless (anchorRewardClaim ≤ anchorPool) .anchorRewardTooLarge
  let infos ← anchor.coveredFruitHashes.mapM fun h => do return (h, ← n.claimInfo h)
  let rewardKeys := Table.putAll ∅ (infos.map fun p => (p.1, coinbaseRewardKey (C := C) p.2.2))
  let assignments ← raising (fruitSubsidyAssignments rewardKeys intervalSubsidy anchorTarget)
  let maturityHeight ← raising (coinbaseMaturityHeight anchorHeight)
  let s ← infos.foldlM (claimFruit claimedFruits assignments effectiveTips maturityHeight staged)
    ⟨∅, [], anchorRewardClaim⟩
  let rewards := anchor.anchorRewardOutputs.zipIdx.map fun p =>
    utxoOf (anchorRewardId (C := C) anchorHash) p.2 p.1 0
  let s ← rewards.foldlM (claimOutput staged .duplicateAnchorRewardOutpoint) s
  rejectUnless (mintedSupply + s.mintedIncrement ≤ maxSupplyMatoms) .supplyCapExceeded
  return (s.rewardUtxos, s.mintedIncrement)

/-- The shard tree of an anchor, and that its fee floors are exactly for its leaves. -/
def anchorTree (anchor : Anchor C) : Except Stop ShardTree := do
  let tree ← rejecting .badShardTree (ShardTree.deserialize anchor.shardTreeBytes)
  rejectUnless (anchor.feeFloorShardIds = tree.leafShardIds) .badFeeFloorEntries
  return tree

/-- The outcome of applying an anchor: the new state, what its fruits did, the reward
outputs and the issuance. -/
structure Applied (C : Crypto) where
  state : BranchState C
  run : FruitsRun C
  rewardUtxos : List UTXO
  mintedIncrement : ℕ

/-- `_apply_anchor_to_branch`, with everything it computed on the way. -/
def applyAnchor (anchor : Anchor C) (anchorHash : Hash) (anchorHeight : ℕ) (anchorTarget : Hash)
    (state : BranchState C) : Except Stop (Applied C) := do
  let nextTree ← anchorTree anchor
  let staged ← raising (UTXOSet.ofList state.utxoSet.entries)
  let run ← n.applyAnchorFruits anchor staged state.shardTree state.feeFloors anchorHeight
  let (rewardUtxos, mintedIncrement) ← n.claimAnchorRewards anchor anchorHash anchorHeight anchorTarget
    run.effectiveTips run.staged state.mintedSupply state.claimedFruits
  let utxoSet ← raising (rewardUtxos.foldlM UTXOSet.add run.staged)
  let state :=
    { height := anchorHeight
      shardTree := nextTree
      feeFloors := Table.putAll ∅ (anchor.feeFloorEntries.map fun e => (e.shardId, e.floorMatomsPerKb))
      utxoSet
      mintedSupply := state.mintedSupply + mintedIncrement
      claimedFruits := Table.putAll state.claimedFruits (anchor.coveredFruitHashes.map fun h => (h, anchorHeight))
      confirmedTxIds := state.confirmedTxIds ∪ run.coveredTxIds }
  return { state, run, rewardUtxos, mintedIncrement }

/-- `_apply_anchor_to_branch`. -/
def applyAnchorToBranch (anchor : Anchor C) (anchorHash : Hash) (anchorHeight : ℕ) (anchorTarget : Hash)
    (state : BranchState C) : Except Stop (BranchState C) := do
  let applied ← n.applyAnchor anchor anchorHash anchorHeight anchorTarget state
  return applied.state

/-- The loop body of `_rebuild_anchor_branch_state`. -/
def replayStep (state : BranchState C) (h : Hash) : Except Stop (BranchState C) := do
  let anchor ← Exn.get (n.loadAnchor h) .none
  let info ← n.anchorMeta h
  rejectAsNone (n.applyAnchorToBranch anchor h info.height info.target state)

/-- `_rebuild_anchor_branch_state`. -/
def rebuildAnchorBranchState (tip : Hash) : Except Stop (BranchState C) := do
  let chain ← n.anchorChainHashes tip
  chain.foldlM n.replayStep BranchState.empty

end Node

end TensorPow
