import TensorPow.Spec.Reject
import TensorPow.Spec.Script
import TensorPow.Spec.ShardTree

/-!
# The mempool

Admission of `mempool/mempool.py`. The node always passes a UTXO set as the view, and does
not record fees; `Spec/Pool` has the other operations of a mempool.
-/

namespace TensorPow

open Wire

/-- `BYTES_PER_KB`. -/
def bytesPerKb : ℕ := 1000

/-- `burned_fee_matoms`. -/
def burnedFeeMatoms (feeFloorMatomsPerKb txSizeBytes : ℕ) : ℕ := feeFloorMatomsPerKb * txSizeBytes / bytesPerKb

/-- `_fee_rate_matoms_per_kb`. -/
def feeRateMatomsPerKb (feeMatoms txSizeBytes : ℕ) : ℕ := feeMatoms * bytesPerKb / txSizeBytes

/-- `UTXOView`: any lookup of unspent outputs. -/
abbrev UTXOView := Outpoint → Option UTXO

/-- `MempoolEntry`. No entry is a coinbase, so `is_coinbase` is left out. -/
structure MempoolEntry where
  tx : Transaction
  txId : Hash
  shardId : ℕ
  txSizeBytes : ℕ
  feeMatoms : ℕ
  feeRateMatomsPerKb : ℕ
deriving DecidableEq

/-- `Mempool`. -/
structure Mempool where
  shardTree : ShardTree
  entries : Table Hash MempoolEntry
  entriesByShard : Table ℕ (Table Hash MempoolEntry)
  spentOutpoints : Table Outpoint Hash
  feeFloors : Table ℕ ℕ

namespace Mempool

/-- `Mempool(shard_tree=…, initial_fee_floors=…)`. -/
def new (shardTree : ShardTree) (feeFloors : Table ℕ ℕ) : Mempool := ⟨shardTree, ∅, ∅, ∅, feeFloors⟩

/-- `Mempool.fee_floor`. -/
def feeFloor (m : Mempool) (shardId : ℕ) : ℕ := m.feeFloors[shardId]?.getD 0

/-- `_decode_canonical_tx` on a transaction: it must survive its own encoding. -/
def decodeCanonicalTx (tx : Transaction) : Except Stop Transaction := do
  let decoded ← rejecting .malformed (Transaction.fromBytes tx.toBytes)
  rejectUnless (decoded = tx) .malformed
  return decoded

/-- The loop body of `_assess_spends`: the outpoints seen, and the running input sum. -/
def assessInput (C : Crypto) (m : Mempool) (tx : Transaction) (view : UTXOView) (currentTimeMs currentHeight : ℕ)
    (acc : Finset Outpoint × ℕ) (p : Input × ℕ) : Except Stop (Finset Outpoint × ℕ) := do
  let outpoint := p.1.previousOutpoint
  rejectUnless (outpoint ∉ acc.1) .duplicateInput
  rejectUnless (m.spentOutpoints[outpoint]? = none) .conflict
  match view outpoint with
  | none => .error (.reject .missingInput)
  | some utxo =>
    let message ← raising (tx.sighash C p.2)
    rejectUnless (verifyUtxoSpend C utxo p.1.witness message tx.sigType currentTimeMs currentHeight) .scriptFailed
    return (insert outpoint acc.1, acc.2 + utxo.amountMatoms)

/-- `_assess_spends`: the fee of a transaction whose inputs can be spent. -/
def assessSpends (C : Crypto) (m : Mempool) (tx : Transaction) (view : Option UTXOView)
    (currentTimeMs currentHeight : ℕ) : Except Stop ℕ := do
  rejectUnless (tx.inputs ≠ []) .coinbaseNotRelayable
  let view ← Exn.get view (.reject .missingUtxoView)
  rejecting .txLockUnmatured (checkLocks tx.locktimeMs tx.lockheight currentTimeMs currentHeight)
  let (_, inputSum) ← tx.inputs.zipIdx.foldlM (m.assessInput C tx view currentTimeMs currentHeight) (∅, 0)
  rejectUnless (tx.outputSum ≤ inputSum) .negativeFee
  return inputSum - tx.outputSum

/-- The mempool with an entry filed in its three indexes. -/
def insertEntry (m : Mempool) (entry : MempoolEntry) : Mempool :=
  { m with
    entries := m.entries.insert entry.txId entry
    entriesByShard := m.entriesByShard.insert entry.shardId
      ((m.entriesByShard[entry.shardId]?.getD ∅).insert entry.txId entry)
    spentOutpoints := Table.putAll m.spentOutpoints
      (entry.tx.inputs.map fun i => (i.previousOutpoint, entry.txId)) }

variable {C : Crypto}

/-- `Mempool.add_tx` on a transaction. -/
def addTx (m : Mempool) (tx : Transaction) (shardId : Option ℕ) (view : UTXOSet C)
    (currentTimeMs currentHeight : ℕ) : Except Stop Mempool := do
  let tx ← decodeCanonicalTx tx
  let txId := tx.txId C
  let routed ← raising (m.shardTree.routeTx txId)
  match shardId with
  | some requested =>
    rejecting .badShard (requireShardId requested)
    rejectUnless (requested = routed) .wrongShard
  | none => pure ()
  rejectUnless (m.entries[txId]? = none) .duplicate
  let feeMatoms ← m.assessSpends C tx (some view.get) currentTimeMs currentHeight
  let feeRate := feeRateMatomsPerKb feeMatoms tx.toBytes.length
  rejectUnless (m.feeFloor routed ≤ feeRate) .belowFeeFloor
  return m.insertEntry
    { tx, txId, shardId := routed, txSizeBytes := tx.toBytes.length, feeMatoms,
      feeRateMatomsPerKb := feeRate }

/-- `Mempool.entries`: the transactions in the order of their ids. -/
def transactions (m : Mempool) : List Transaction := m.entries.toList.map fun p => p.2.tx

end Mempool

end TensorPow
