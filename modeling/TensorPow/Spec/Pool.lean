import TensorPow.Exn.State
import TensorPow.Spec.Blocks
import TensorPow.Spec.Mempool

/-!
# The operations of a mempool

The class `Mempool` of `mempool/mempool.py`. An operation runs over the state of the mempool;
what it has written stays when it stops.

* `Mempool.addTxResult`: what `add_tx` returns, rejections with their ids.
* `Pool.addTx`, `Pool.remove`, `Pool.evictBelowFloor`, `Pool.setFeeFloor`,
  `Pool.recordConfirmedFruit`: the operations that write.
* `Mempool.selectForFruit`: the transactions of the next fruit of a shard.
* `PoolCall`, `Pool.after`: the state after any sequence of operations.
-/

namespace TensorPow

open Wire Sorted Exn

/-- `FEE_FLOOR_WINDOW_FRUITS`. -/
def feeFloorWindowFruits : ℕ := 1024

/-- `FEE_FLOOR_MIN_MATOMS_PER_KB`. -/
def feeFloorMinMatomsPerKb : ℕ := 0

/-- `FeeFloorSample`. -/
structure FeeFloorSample where
  shardId : ℕ
  floorEligibleFeesMatoms : ℕ
  payloadBytes : ℕ
deriving DecidableEq

/-- `FeeFloorSample.__post_init__`. -/
def FeeFloorSample.postInit (s : FeeFloorSample) : Except PyError Unit := do
  requireShardId s.shardId
  Exn.ensure (s.payloadBytes ≤ maxFruitPayloadBytes)
    (.valueError "payload_bytes exceeds MAX_FRUIT_PAYLOAD_BYTES")

/-- `MempoolEntry.__post_init__`. -/
def MempoolEntry.postInit (C : Crypto) (e : MempoolEntry) : Except PyError Unit := do
  Exn.ensure (e.tx.txId C = e.txId) (.valueError "tx_id must match tx")
  requireShardId e.shardId
  Exn.ensure (0 < e.txSizeBytes) (.valueError "tx_size_bytes must be positive")
  Exn.ensure (e.txSizeBytes ≤ maxTxBytes) (.valueError "tx_size_bytes exceeds MAX_TX_BYTES")

/-- `MempoolAddResult.ok`. -/
structure MempoolAddResult where
  txId : Hash
  shardId : ℕ
  feeMatoms : ℕ
  feeRateMatomsPerKb : ℕ
deriving DecidableEq

/-- `MempoolAddResult`, accepted or with the reason and the ids of a rejection. -/
inductive AddTxResult where
  | ok (result : MempoolAddResult)
  | reject (reason : Reject) (txId : Option Hash) (shardId : Option ℕ)
deriving DecidableEq

namespace Mempool

/-! ## Admission -/

/-- `_decode_canonical_tx`: the transaction and its bytes. -/
def decodeCanonical : Transaction ⊕ Bytes → Except Stop (Transaction × Bytes)
  | .inl tx => do
    let decoded ← decodeCanonicalTx tx
    return (decoded, tx.toBytes)
  | .inr raw => do
    let tx ← rejecting .malformed (Transaction.fromBytes raw)
    return (tx, raw)

/-- The checks of `add_tx` on the shard it is asked for. -/
def checkRequestedShard (shardId : Option ℕ) (routed : ℕ) : Except Stop Unit :=
  match shardId with
  | some requested => do
    rejecting .badShard (requireShardId requested)
    rejectUnless (requested = routed) .wrongShard
  | none => .ok ()

/-- The checks of `add_tx` and the entry they lead to. The view is the one the call is given,
else the mempool's own. -/
def entryFor (C : Crypto) (m : Mempool) (txOrBytes : Transaction ⊕ Bytes) (shardId : Option ℕ) (view : Option UTXOView)
    (currentTimeMs currentHeight : ℕ) : Except Stop MempoolEntry := do
  let (tx, raw) ← decodeCanonical txOrBytes
  let txId := tx.txId C
  let routed ← raising (m.shardTree.routeTx txId)
  checkRequestedShard shardId routed
  rejectUnless (m.entries[txId]? = none) .duplicate
  let feeMatoms ← m.assessSpends C tx view currentTimeMs currentHeight
  let feeRate := feeRateMatomsPerKb feeMatoms raw.length
  rejectUnless (m.feeFloor routed ≤ feeRate) .belowFeeFloor
  let entry : MempoolEntry :=
    { tx, txId, shardId := routed, txSizeBytes := raw.length, feeMatoms, feeRateMatomsPerKb := feeRate }
  raising (entry.postInit C)
  return entry

/-- The ids of a rejection: none of a transaction that is not decoded, the shard asked for where it
is another one than the transaction's, and no shard where it is none. -/
def rejectedIds (C : Crypto) (m : Mempool) (txOrBytes : Transaction ⊕ Bytes) (shardId : Option ℕ) (reason : Reject) :
    Option Hash × Option ℕ :=
  match decodeCanonical txOrBytes with
  | .error _ => (none, none)
  | .ok (tx, _) =>
    let txId := tx.txId C
    match reason with
    | .badShard => (some txId, none)
    | .wrongShard => (some txId, shardId)
    | _ => (some txId, (m.shardTree.routeTx txId).toOption)

/-- What `add_tx` returns. -/
def addTxResult (C : Crypto) (m : Mempool) (txOrBytes : Transaction ⊕ Bytes) (shardId : Option ℕ) (view : Option UTXOView)
    (currentTimeMs currentHeight : ℕ) : Except Stop AddTxResult :=
  match m.entryFor C txOrBytes shardId view currentTimeMs currentHeight with
  | .ok entry => .ok (.ok ⟨entry.txId, entry.shardId, entry.feeMatoms, entry.feeRateMatomsPerKb⟩)
  | .error (.reject reason) =>
    let ids := m.rejectedIds C txOrBytes shardId reason
    .ok (.reject reason ids.1 ids.2)
  | .error stop => .error stop

/-! ## Removal -/

/-- `_remove_entry`. -/
def removeEntry (m : Mempool) (txId : Hash) : Mempool :=
  match m.entries[txId]? with
  | none => m
  | some entry =>
    { m with
      entries := m.entries.erase txId
      entriesByShard :=
        match m.entriesByShard[entry.shardId]? with
        | none => m.entriesByShard
        | some shardEntries =>
          let shardEntries := shardEntries.erase txId
          if shardEntries.isEmpty then m.entriesByShard.erase entry.shardId
          else m.entriesByShard.insert entry.shardId shardEntries
      spentOutpoints := entry.tx.inputs.foldl (fun spent i =>
        if spent[i.previousOutpoint]? = some txId then spent.erase i.previousOutpoint else spent) m.spentOutpoints }

/-- The entries of a shard below a floor, by ascending id. -/
def belowFloor (m : Mempool) (shardId floor : ℕ) : List Hash :=
  sortBy id (((m.entriesByShard[shardId]?.getD ∅).toList.filter fun p =>
    p.2.feeRateMatomsPerKb < floor).map Prod.fst)

/-! ## Selection -/

/-- `_selection_key`: higher fee rates first, then smaller ids. -/
def selectionKey (e : MempoolEntry) : ℤ ×ₗ Hash := toLex (-(e.feeRateMatomsPerKb : ℤ), e.txId)

/-- The entries that `select_for_fruit` considers, in order. -/
def candidates (m : Mempool) (shardId : ℕ) : List MempoolEntry :=
  sortBy selectionKey (((m.entriesByShard[shardId]?.getD ∅).toList.map Prod.snd).filter fun e =>
    m.feeFloor shardId ≤ e.feeRateMatomsPerKb)

/-- The loop body of `select_for_fruit`: the transactions selected, and the bytes used. -/
def selectEntry (payloadBudget : ℕ) (acc : List Transaction × ℕ) (e : MempoolEntry) : List Transaction × ℕ :=
  if payloadBudget < acc.2 + e.txSizeBytes then acc else (acc.1 ++ [e.tx], acc.2 + e.txSizeBytes)

/-- The transactions that `select_for_fruit` takes of some entries. -/
def fill (payloadBudget : ℕ) (entries : List MempoolEntry) : List Transaction × ℕ :=
  entries.foldl (selectEntry payloadBudget) ([], 0)

/-- `select_for_fruit`. -/
def selectForFruit (m : Mempool) (shardId payloadBudget : ℕ) : Except PyError (List Transaction) := do
  requireShardId shardId
  Exn.ensure (payloadBudget ≤ maxFruitPayloadBytes)
    (.valueError "payload_budget exceeds MAX_FRUIT_PAYLOAD_BYTES")
  return (fill payloadBudget (m.candidates shardId)).1

end Mempool

/-- The state of a `Mempool`. -/
structure Pool extends Mempool where
  feeHistories : Table ℕ (List FeeFloorSample)

/-- An operation of a mempool. -/
abbrev PoolM (α : Type) := Stateful Stop Pool α

namespace Pool

/-- `Mempool(shard_tree=…, initial_fee_floors=…)`. -/
def new (shardTree : ShardTree) (feeFloors : Table ℕ ℕ) : Pool := ⟨Mempool.new shardTree feeFloors, ∅⟩

/-- `add_tx`. -/
def addTx (C : Crypto) (txOrBytes : Transaction ⊕ Bytes) (shardId : Option ℕ) (view : Option UTXOView)
    (currentTimeMs currentHeight : ℕ) : PoolM MempoolAddResult := do
  let s ← get
  let entry ← Stateful.lift (s.toMempool.entryFor C txOrBytes shardId view currentTimeMs currentHeight)
  modify fun s => { s with toMempool := s.toMempool.insertEntry entry }
  return ⟨entry.txId, entry.shardId, entry.feeMatoms, entry.feeRateMatomsPerKb⟩

/-- `remove`. -/
def remove (txId : Hash) : PoolM (Option Transaction) := do
  let s ← get
  modify fun s => { s with toMempool := s.toMempool.removeEntry txId }
  return (s.entries[txId]?).map fun e => e.tx

/-- `set_fee_floor`. -/
def setFeeFloor (shardId floorMatomsPerKb : ℕ) : PoolM Unit := do
  Stateful.lift (raising (requireShardId shardId))
  modify fun s => { s with feeFloors := s.feeFloors.insert shardId (max feeFloorMinMatomsPerKb floorMatomsPerKb) }

/-- `fee_floor`. -/
def feeFloor (shardId : ℕ) : PoolM ℕ := do
  Stateful.lift (raising (requireShardId shardId))
  let s ← get
  return s.toMempool.feeFloor shardId

/-- The floor that `evict_below_floor` applies: the given one, which it sets, else the current. -/
def evictionFloor (shardId : ℕ) : Option ℕ → PoolM ℕ
  | none => feeFloor shardId
  | some floor => do
    setFeeFloor shardId floor
    return floor

/-- `evict_below_floor`. -/
def evictBelowFloor (shardId : ℕ) (floor : Option ℕ) : PoolM (List Hash) := do
  Stateful.lift (raising (requireShardId shardId))
  let floor ← evictionFloor shardId floor
  let s ← get
  let evicted := s.toMempool.belowFloor shardId floor
  modify fun s => { s with toMempool := evicted.foldl Mempool.removeEntry s.toMempool }
  return evicted

/-- `recent_fee_rate`. -/
def recentFeeRate (s : Pool) (shardId : ℕ) : ℕ :=
  let history := s.feeHistories[shardId]?.getD []
  if history = [] then feeFloorMinMatomsPerKb
  else
    (history.map fun sample => sample.floorEligibleFeesMatoms).sum * bytesPerKb /
      max 1 (history.map fun sample => sample.payloadBytes).sum

/-- `calculate_next_fee_floor`, with the weights 7/8 and 1/8. -/
def calculateNextFeeFloor (s : Pool) (shardId : ℕ) : ℕ :=
  max feeFloorMinMatomsPerKb ((7 * s.toMempool.feeFloor shardId + 1 * s.recentFeeRate shardId) / 8)

/-- `record_confirmed_fruit`; a history keeps its last `FEE_FLOOR_WINDOW_FRUITS` samples. -/
def recordConfirmedFruit (shardId floorEligibleFeesMatoms payloadBytes : ℕ) : PoolM ℕ := do
  let sample : FeeFloorSample := ⟨shardId, floorEligibleFeesMatoms, payloadBytes⟩
  Stateful.lift (raising sample.postInit)
  modify fun s =>
    let history := s.feeHistories[shardId]?.getD [] ++ [sample]
    { s with feeHistories := s.feeHistories.insert shardId (history.drop (history.length - feeFloorWindowFruits)) }
  let s ← get
  let nextFloor := s.calculateNextFeeFloor shardId
  modify fun s => { s with feeFloors := s.feeFloors.insert shardId nextFloor }
  return nextFloor

end Pool

/-- A call of an operation that writes. -/
inductive PoolCall where
  | addTx (txOrBytes : Transaction ⊕ Bytes) (shardId : Option ℕ) (view : Option UTXOView)
      (currentTimeMs currentHeight : ℕ)
  | remove (txId : Hash)
  | evictBelowFloor (shardId : ℕ) (floor : Option ℕ)
  | setFeeFloor (shardId floorMatomsPerKb : ℕ)
  | recordConfirmedFruit (shardId floorEligibleFeesMatoms payloadBytes : ℕ)

/-- The state after a call, whether it returned or stopped. -/
def Pool.step (C : Crypto) (s : Pool) : PoolCall → Pool
  | .addTx txOrBytes shardId view time height => ((addTx C txOrBytes shardId view time height).runOn s).2
  | .remove txId => ((remove txId).runOn s).2
  | .evictBelowFloor shardId floor => ((evictBelowFloor shardId floor).runOn s).2
  | .setFeeFloor shardId floor => ((setFeeFloor shardId floor).runOn s).2
  | .recordConfirmedFruit shardId fees payloadBytes => ((recordConfirmedFruit shardId fees payloadBytes).runOn s).2

/-- The state after some calls. -/
def Pool.after (C : Crypto) (s : Pool) (calls : List PoolCall) : Pool := calls.foldl (Pool.step C) s

end TensorPow
