import TensorPow.Spec.Branch
import TensorPow.Spec.Pool

/-!
# The node

`process_raw_tx`, `process_fruit` and `process_anchor` of `node/node.py`, as functions
from a node to an outcome and a node. The clock is an argument of each call, and so is
whether the call's single state write succeeds; a write that fails raises and changes
nothing.

* `checkFruit`, `checkAnchorEarly`, `checkAnchorLate`: everything a call does before its write.
* `commitFruit`, `commitAnchor`: the write and what follows it.
* `Event`, `step`, `run`: runs of a node from an empty store.
-/

namespace TensorPow

open Wire Sorted

variable {C : Crypto}

/-- What a call returns or raises. -/
inductive Outcome where
  | accepted (objectHash : Hash)
  | rejected (reason : Reject)
  | raised (error : PyError)
deriving DecidableEq

/-- A computation that stopped, as an outcome. No call of the node returns `None`. -/
def Stop.outcome : Stop → Outcome
  | .reject r => .rejected r
  | .raise e => .raised e
  | .none => .raised (.typeError "None")

/-- `MAX_FUTURE_DRIFT_MS`. -/
def maxFutureDriftMs : ℕ := 120000

/-- `MEDIAN_TIME_PAST_WINDOW`. -/
def medianTimePastWindow : ℕ := 11

/-- `_median_int`; `none` on an empty list. -/
def medianInt (values : List ℕ) : Option ℕ := (sortBy id values)[values.length / 2]?

/-- `_anchor_median_time_past`. -/
def anchorMedianTimePast (history : List AnchorRecord) : Option ℕ :=
  medianInt ((history.drop (history.length - medianTimePastWindow)).map fun r => r.timestampMs)

/-- `_is_better_anchor_tip`: more work, then more height, then the lesser hash. -/
def isBetterAnchorTip (candidateHash : Hash) (candidateMeta : AnchorMeta) :
    Option (Hash × AnchorMeta) → Bool
  | none => true
  | some (bestHash, bestMeta) =>
    if candidateMeta.cumulativeWork ≠ bestMeta.cumulativeWork then
      bestMeta.cumulativeWork < candidateMeta.cumulativeWork
    else if candidateMeta.height ≠ bestMeta.height then bestMeta.height < candidateMeta.height
    else candidateHash < bestHash

namespace Node

/-- A node on an empty store. -/
def empty : Node C := ⟨Store.empty, .root, .empty, Mempool.new .root ∅, none⟩

variable (cfg : Config) (n : Node C)

/-- `_anchor_height`. -/
def anchorHeight : ℕ := n.store.anchorHeight.getD 0

/-- `_minted_supply`. -/
def mintedSupply : ℕ := n.store.mintedSupply.getD 0

/-- `_fee_floor_for_shard`. -/
def feeFloorForShard (shardId : ℕ) : ℕ := n.store.feeFloors[shardId]?.getD 0

/-! ## The mempool -/

/-- One transaction of `_rebuild_mempool`: admitted, or noted as stale. -/
def readmit (acc : Mempool × List Hash) (tx : Transaction) : Except Stop (Mempool × List Hash) :=
  match acc.1.addTx tx none n.utxoSet 0 n.anchorHeight with
  | .ok m => .ok (m, acc.2)
  | .error (.reject _) => .ok (acc.1, acc.2 ++ [tx.txId C])
  | .error s => .error s

/-- `_rebuild_mempool`: the new mempool, and the store without the stale transactions.
The constructor of the mempool checks the shard ids of the stored fee floors. -/
def rebuildMempool (transactions : List Transaction) : Except Stop (Mempool × Store C) := do
  n.store.feeFloors.keys.forM fun shardId => raising (requireShardId shardId)
  let (mempool, stale) ← transactions.foldlM n.readmit (Mempool.new n.shardTree n.store.feeFloors, [])
  return (mempool, stale.foldl (fun s txId => s.delete (.mempool txId)) n.store)

/-- `process_raw_tx`. -/
def processRawTx (data : Bytes) (writeOk : Bool) : Outcome × Node C :=
  match Transaction.fromBytes data with
  | .error _ => (.rejected .malformedTx, n)
  | .ok tx =>
    if tx.inputs = [] then (.rejected .coinbaseNotRelayable, n)
    else match n.rebuildMempool n.mempool.transactions with
      | .error s => (s.outcome, n)
      | .ok (staged, store) =>
        -- the stale transactions are gone from the store whatever follows
        let n := { n with store }
        match staged.addTx tx none n.utxoSet 0 0 with
        | .error s => (s.outcome, n)
        | .ok staged =>
          if writeOk then
            (.accepted (tx.txId C), { n with
              store := n.store.writeBatch [.mempool (tx.txId C) tx] []
              mempool := staged })
          else (.raised (.storageError "write failed"), n)

/-- The result of `add_tx` that `process_raw_tx` returns beside its own: none where it does not come
to `add_tx`, or raises. -/
def rawTxResult (data : Bytes) (writeOk : Bool) : Option AddTxResult :=
  match Transaction.fromBytes data with
  | .error _ => none
  | .ok tx =>
    if tx.inputs = [] then none
    else match n.rebuildMempool n.mempool.transactions with
      | .error _ => none
      | .ok (staged, _) =>
        match staged.addTxResult C (.inl tx) none (some n.utxoSet.get) 0 0 with
        | .error _ => none
        | .ok (.reject reason txId shardId) => some (.reject reason txId shardId)
        | .ok (.ok result) => if writeOk then some (.ok result) else none

/-! ## Fruits -/

/-- `_has_stored_fruits`. -/
def hasStoredFruits : Bool := n.store.bodies.keys.any fun h => (n.loadFruit h).isSome

/-- `_fruit_selected_chain_timestamps`, newest first: empty when the chain is broken, at
most `MEDIAN_TIME_PAST_WINDOW` long. `fuel` is what is left of that window. -/
def selectedChainTimestamps : ℕ → List Hash → Hash → Option (List ℕ)
  | 0, _, _ => some []
  | fuel + 1, seen, current =>
    if current = genesisParentHash then some []
    else if current ∈ seen then none
    else match n.loadFruit current with
      | none => none
      | some fruit =>
        (selectedChainTimestamps fuel (current :: seen) fruit.header.parentSelected).map
          (fruit.header.timestampMs :: ·)

/-- The check of one effective parent: known, and older than the fruit. -/
def checkParentTime (fruit : Fruit C) (parentHash : Hash) : Except Stop Unit :=
  if parentHash = genesisParentHash then .ok ()
  else do
    let parent ← Exn.get (n.loadFruit parentHash) (.reject .missingFruitParent)
    rejectUnless (parent.header.timestampMs < fruit.header.timestampMs) .fruitTimeNotAfterParent

/-- Reject unless the time is after the bound, if there is one. -/
def requireAfter (bound : Option ℕ) (time : ℕ) (reason : Reject) : Except Stop Unit :=
  match bound with
  | some b => rejectUnless (b < time) reason
  | none => .ok ()

/-- The check of the selected parent: zero for the first fruit only, else known. -/
def checkSelectedParent (selected : Hash) : Except Stop Unit :=
  if selected = genesisParentHash then rejectUnless (n.hasStoredFruits = false) .genesisFruitParentNotFirst
  else rejectUnless ((n.loadFruit selected).isSome) .missingFruitParent

/-- `_validate_fruit_dependencies`: the parent candidates of the latest anchor. -/
def validateFruitDependencies (fruit : Fruit C) (now : ℕ) : Except Stop (List Hash) := do
  rejectUnless (fruit.header.timestampMs ≤ now + maxFutureDriftMs) .fruitTimeTooNew
  let latest ← Exn.get (n.loadAnchor fruit.header.latestAnchor) (.reject .missingLatestAnchor)
  let candidates := latest.parentCandidateHashes
  let effective ← rejecting .badParentBitmap (fruit.header.effectiveParentHashes candidates)
  let selected := fruit.header.parentSelected
  n.checkSelectedParent selected
  effective.tail.forM fun h => rejectUnless ((n.loadFruit h).isSome) .missingFruitParent
  effective.forM (n.checkParentTime fruit)
  let timestamps := (n.selectedChainTimestamps medianTimePastWindow [] selected).getD []
  requireAfter (medianInt timestamps) fruit.header.timestampMs .fruitTimeTooOld
  return candidates

/-- One spend of the validation loop of `process_fruit`: the view and the tips. -/
def validateSpend (fruit : Fruit C) (acc : UTXOSet C × ℕ) (tx : Transaction) :
    Except Stop (UTXOSet C × ℕ) := do
  let (view, tip) ← applySpendTx acc.1 tx n.shardTree fruit.header.shardId
    (n.feeFloorForShard fruit.header.shardId) fruit.header.timestampMs (n.anchorHeight + 1)
  let view ← raising ((utxosOfTx (C := C) tx 0).foldlM (fun s u => do s.add (← u)) view)
  return (view, acc.2 + tip)

/-- What `process_fruit` has computed when it comes to its write. -/
structure FruitPlan where
  txs : List Transaction
  info : FruitMeta

/-- `process_fruit` up to its write. -/
def checkFruit (fruit : Fruit C) (now : ℕ) : Except Stop FruitPlan := do
  rejectUnless (n.store.bodies[fruit.blockHash]? = none) .duplicateFruit
  let txs ← fruitTxs fruit
  match txs with
  | [] => .error (.reject .missingCoinbase)
  | coinbase :: spends =>
    rejectUnless (coinbase.inputs = []) .missingCoinbase
    rejectUnless (∀ tx ∈ spends, tx.inputs ≠ []) .extraCoinbase
    let candidates ← n.validateFruitDependencies fruit now
    let powHeader ← raising (fruit.header.toPowHeader candidates)
    rejectUnless (cfg.powVerifier (.fruit powHeader) fruitTargetLe) .fruitPowInvalid
    let view ← raising (UTXOSet.ofList n.utxoSet.entries)
    let (_, tipSum) ← spends.foldlM (n.validateSpend fruit) (view, 0)
    let coinbaseClaim ← rejecting .coinbaseTooLarge (txOutputSum coinbase)
    let limit ← raising (intervalSubsidyMatoms (n.anchorHeight + 1) n.mintedSupply)
    rejectUnless (coinbaseClaim ≤ limit + tipSum) .coinbaseTooLarge
    let info ← raising (encodeFruitMeta ⟨coinbaseClaim, tipSum⟩)
    return ⟨txs, info⟩

/-- The batch of `process_fruit`. -/
def fruitBatch (fruit : Fruit C) (plan : FruitPlan) : Store C :=
  n.store.writeBatch
    [.header fruit.blockHash fruit.header.serialize, .body fruit.blockHash (.fruit fruit),
      .fruitMeta fruit.blockHash plan.info]
    (plan.txs.map fun tx => .mempool (tx.txId C))

/-- `process_fruit` from its write on. -/
def commitFruit (fruit : Fruit C) (plan : FruitPlan) : Outcome × Node C :=
  let n := { n with store := n.fruitBatch fruit plan, fruitDagCache := none }
  let confirmed := plan.txs.map fun tx => tx.txId C
  match n.rebuildMempool (n.store.mempoolTxs.filter fun tx => tx.txId C ∉ confirmed) with
  | .ok (mempool, store) => (.accepted fruit.blockHash, { n with mempool, store })
  | .error s => (s.outcome, n)

/-- `process_fruit`. -/
def processFruit (fruit : Fruit C) (now : ℕ) (writeOk : Bool) : Outcome × Node C :=
  match n.checkFruit cfg fruit now with
  | .error s => (s.outcome, n)
  | .ok plan => if writeOk then n.commitFruit fruit plan else (.raised (.storageError "write failed"), n)

/-- `process_fruit_bytes`. -/
def processFruitBytes (data : Bytes) (now : ℕ) (writeOk : Bool) : Outcome × Node C :=
  match Fruit.deserialize data with
  | .error _ => (.rejected .malformedFruit, n)
  | .ok fruit => n.processFruit cfg fruit now writeOk

/-! ## Anchors -/

/-- `_validate_anchor_dependencies` up to the first use of the fruit DAG. -/
def validateAnchorChain (anchor : Anchor C) (now : ℕ) : Except Stop Unit := do
  rejectUnless (anchor.header.timestampMs ≤ now + maxFutureDriftMs) .anchorTimeTooNew
  if anchor.isGenesis then do
    rejectUnless (n.store.bodies.toList = []) .genesisNotFirst
    match cfg.expectedGenesisHash with
    | none => .error (.reject .missingExpectedGenesisHash)
    | some expected => rejectUnless (anchor.blockHash = expected) .wrongGenesis
  else do
    let history ← noneAs .missingAnchorParent (n.anchorHistory anchor.header.parentAnchor)
    requireAfter (history.getLast?.map fun last => last.timestampMs) anchor.header.timestampMs
      .anchorTimeNotIncreasing
    requireAfter (anchorMedianTimePast history) anchor.header.timestampMs .anchorTimeTooOld
    let target ← raising (nextAnchorTarget history)
    rejectUnless (cfg.powVerifier (.anchor anchor.header) target) .anchorPowInvalid
    anchor.coveredFruitHashes.forM fun h => rejectUnless ((n.loadFruit h).isSome) .missingCoveredFruit
    anchor.parentCandidateHashes.forM fun h => rejectUnless ((n.loadFruit h).isSome) .missingParentCandidate

/-- The rest of `_validate_anchor_dependencies`. -/
def validateCandidates (anchor : Anchor C) : Except Stop Unit :=
  if anchor.isGenesis then .ok ()
  else do
    let canonical ← noneAs .badParentCandidateOrder n.canonicalParentCandidates
    rejectUnless (anchor.parentCandidateHashes = canonical) .badParentCandidateOrder

/-- `_anchor_position`: height, target and the work below. -/
def anchorPosition (anchor : Anchor C) : Except Stop (ℕ × Hash × ℕ) :=
  if anchor.isGenesis then .ok (0, anchorInitialTargetLe, 0)
  else do
    let parent ← n.anchorMeta anchor.header.parentAnchor
    let history ← n.anchorHistory anchor.header.parentAnchor
    let target ← raising (nextAnchorTarget history)
    return (parent.height + 1, target, parent.cumulativeWork)

/-- The loop body of `_best_anchor_tip`. -/
def betterTip (extra : Hash × AnchorMeta) (best : Option (Hash × AnchorMeta)) (h : Hash) :
    Except Stop (Option (Hash × AnchorMeta)) :=
  match n.loadAnchor h with
  | none => .ok best
  | some _ => do
    let info ← if h = extra.1 then .ok (some extra.2) else optional (n.anchorMeta h)
    match info with
    | none => return best
    | some info => return if isBetterAnchorTip h info best then some (h, info) else best

/-- `_best_anchor_tip` with an extra anchor. -/
def bestAnchorTip (extra : Hash × AnchorMeta) : Except Stop Hash := do
  let best ← n.store.bodies.keys.foldlM (n.betterTip extra) none
  if isBetterAnchorTip extra.1 extra.2 best then return extra.1
  return (best.map Prod.fst).getD extra.1

/-- What `process_anchor` has computed when it comes to its write. -/
structure AnchorPlan (C : Crypto) where
  anchorHash : Hash
  info : AnchorMeta
  state : BranchState C
  isBest : Bool

/-- The range checks of `_active_chain_batch`. -/
def encodeActive (state : BranchState C) : Except PyError Unit := do
  Exn.ensure (state.height ≤ u64Max) (.valueError "value outside uint64 range")
  Exn.ensure (state.mintedSupply ≤ u64Max) (.valueError "value outside uint64 range")
  state.claimedFruits.toList.forM fun p =>
    Exn.ensure (p.2 ≤ u64Max) (.valueError "value outside uint64 range")

/-- `process_anchor` up to the first use of the fruit DAG. -/
def checkAnchorEarly (anchor : Anchor C) (now : ℕ) : Except Stop Unit := do
  rejectUnless (n.store.bodies[anchor.blockHash]? = none)
    (if anchor.isGenesis then .genesisNotFirst else .duplicateAnchor)
  n.validateAnchorChain cfg anchor now

/-- `process_anchor` from the first use of the fruit DAG up to its write. -/
def checkAnchorLate (anchor : Anchor C) : Except Stop (AnchorPlan C) := do
  n.validateCandidates anchor
  let _ ← anchorTree anchor
  let (height, target, parentWork) ← noneAs .missingAnchorParent (n.anchorPosition anchor)
  let branch ← noneAs .missingAnchorParent (n.rebuildAnchorBranchState anchor.header.parentAnchor)
  let state ← n.applyAnchorToBranch anchor anchor.blockHash height target branch
  let weight ← raising (anchorWorkWeight target)
  let info : AnchorMeta := { height, target, cumulativeWork := parentWork + weight }
  let best ← n.bestAnchorTip (anchor.blockHash, info)
  let _ ← raising anchor.serialize
  let info ← raising (encodeAnchorMeta info)
  if best = anchor.blockHash then raising (encodeActive state)
  return { anchorHash := anchor.blockHash, info, state, isBest := best = anchor.blockHash }

/-- The node once `_fruit_dag` has been called: a DAG that could be built is cached. -/
def withFruitDag : Node C :=
  match n.fruitDag with
  | .ok dag => { n with fruitDagCache := some dag }
  | .error _ => n

/-- The puts of `_active_chain_batch`. -/
def activePuts (tip : Hash) (state : BranchState C) : List (BatchPut C) :=
  [.anchorHeight state.height, .anchorTip tip, .mintedSupply state.mintedSupply, .shardTree state.shardTree] ++
    state.utxoSet.entries.map (fun u => .utxo (u.outpoint.key C) u) ++
    state.feeFloors.toList.map (fun p => .feeFloor p.1 p.2) ++
    state.claimedFruits.toList.map (fun p => .coinbaseClaimed p.1 p.2)

/-- The deletes of `_active_chain_batch`: every stored key the new state lacks, and the
transactions the branch confirmed. -/
def activeDeletes (state : BranchState C) : List BatchDelete :=
  (n.store.utxo.keys.filter fun k => !state.utxoSet.outpointByKey.contains k).map .utxo ++
    (n.store.feeFloors.keys.filter fun k => !state.feeFloors.contains k).map .feeFloor ++
    (n.store.coinbaseClaimed.keys.filter fun k => !state.claimedFruits.contains k).map .coinbaseClaimed ++
    (ascending state.confirmedTxIds).map .mempool

/-- The batch of `process_anchor`. -/
def anchorBatch (anchor : Anchor C) (plan : AnchorPlan C) : Store C :=
  n.store.writeBatch
    ([.header plan.anchorHash anchor.header.serialize, .body plan.anchorHash (.anchor anchor),
      .anchorMeta plan.anchorHash plan.info] ++
      if plan.isBest then activePuts plan.anchorHash plan.state else [])
    (if plan.isBest then n.activeDeletes plan.state else [])

/-- `process_anchor` from its write on. -/
def commitAnchor (anchor : Anchor C) (plan : AnchorPlan C) : Outcome × Node C :=
  let n := { n with store := n.anchorBatch anchor plan }
  if plan.isBest then
    let n := { n with shardTree := plan.state.shardTree, utxoSet := plan.state.utxoSet }
    match n.rebuildMempool n.store.mempoolTxs with
    | .ok (mempool, store) => (.accepted plan.anchorHash, { n with mempool, store })
    | .error s => (s.outcome, n)
  else (.accepted plan.anchorHash, n)

/-- `process_anchor`. Every anchor that passes the early checks makes the node build its
fruit DAG, which stays cached whatever the verdict. -/
def processAnchor (anchor : Anchor C) (now : ℕ) (writeOk : Bool) : Outcome × Node C :=
  match n.checkAnchorEarly cfg anchor now with
  | .error s => (s.outcome, n)
  | .ok () =>
    let n := n.withFruitDag
    match n.checkAnchorLate anchor with
    | .error s => (s.outcome, n)
    | .ok plan =>
      if writeOk then n.commitAnchor anchor plan else (.raised (.storageError "write failed"), n)

/-- `process_anchor_bytes`. -/
def processAnchorBytes (data : Bytes) (now : ℕ) (writeOk : Bool) : Outcome × Node C :=
  match Anchor.deserialize data with
  | .error _ => (.rejected .malformedAnchor, n)
  | .ok anchor => n.processAnchor cfg anchor now writeOk

end Node

/-! ## Runs -/

/-- One call of the node. -/
inductive Event (C : Crypto) where
  | rawTx (data : Bytes) (writeOk : Bool)
  | fruit (f : Fruit C) (now : ℕ) (writeOk : Bool)
  | fruitBytes (data : Bytes) (now : ℕ) (writeOk : Bool)
  | anchor (a : Anchor C) (now : ℕ) (writeOk : Bool)
  | anchorBytes (data : Bytes) (now : ℕ) (writeOk : Bool)

/-- One call: its outcome and the node after it. -/
def step (cfg : Config) (n : Node C) : Event C → Outcome × Node C
  | .rawTx data writeOk => n.processRawTx data writeOk
  | .fruit f now writeOk => n.processFruit cfg f now writeOk
  | .fruitBytes data now writeOk => n.processFruitBytes cfg data now writeOk
  | .anchor a now writeOk => n.processAnchor cfg a now writeOk
  | .anchorBytes data now writeOk => n.processAnchorBytes cfg data now writeOk

/-- The node after a sequence of calls. -/
def run (cfg : Config) (events : List (Event C)) : Node C :=
  events.foldl (fun n e => (step cfg n e).2) Node.empty

/-- The states a node can be in. -/
def Reachable (cfg : Config) (n : Node C) : Prop := ∃ events, n = run cfg events

/-- The block a call brings, if it can be decoded. -/
def Event.block : Event C → Option (Body C)
  | .rawTx _ _ => none
  | .fruit f _ _ => some (.fruit f)
  | .fruitBytes data _ _ => (Fruit.deserialize data).toOption.map .fruit
  | .anchor a _ _ => some (.anchor a)
  | .anchorBytes data _ _ => (Anchor.deserialize data).toOption.map .anchor

/-- Did the call return a result with `accepted = True`? -/
def Outcome.isAccepted : Outcome → Bool
  | .accepted _ => true
  | _ => false

/-- The block a call accepts. -/
def acceptedBlock (cfg : Config) (n : Node C) (e : Event C) : Option (Body C) :=
  if (step cfg n e).1.isAccepted then e.block else none

/-- The blocks that the calls of a run accept. -/
def acceptedBlocks (cfg : Config) (n : Node C) : List (Event C) → List (Body C)
  | [] => []
  | e :: events => (acceptedBlock cfg n e).toList ++ acceptedBlocks cfg (step cfg n e).2 events

end TensorPow
