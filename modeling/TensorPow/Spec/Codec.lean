import TensorPow.Spec.Blocks

/-!
# Encoders and decoders with everything they raise

`Spec.Transaction` and `Spec.Blocks` give the byte layouts. Here are the same functions
with the exceptions kept apart.

* `Transaction.fromBytesRaising`: `from_bytes` with `TxDecodeError` told from the exceptions
  it would let through.
* `FruitHeader.trySerialize`, `Fruit.trySerialize`, `AnchorHeader.trySerialize`,
  `Anchor.trySerialize`: every `to_bytes` of an integer may overflow.
-/

namespace TensorPow

open Wire

/-- What `Transaction.from_bytes` raises. -/
inductive TxFailure where
  /-- `TxDecodeError` -/
  | txDecodeError (msg : String)
  /-- an exception that is neither a `TypeError` nor a `ValueError` -/
  | other (e : PyError)
deriving DecidableEq, Repr

/-- The `except (TypeError, ValueError)` clause of `from_bytes`. -/
def TxFailure.ofRaised : PyError → TxFailure
  | .valueError msg => .txDecodeError msg
  | .typeError msg => .txDecodeError msg
  | e => .other e

namespace Transaction

/-- The `try` block of `from_bytes`. -/
def decode (data : Bytes) : Except PyError Transaction := do
  requireMaxLen "data" data maxTxBytes
  let fields ← Reader.parse (do
    let f ← readFields
    Reader.finish (.valueError "trailing transaction bytes")
    return f) data
  make fields

/-- `Transaction.from_bytes`, with the class of what it raises. -/
def fromBytesRaising (data : Bytes) : Except TxFailure Transaction :=
  match decode data with
  | .ok tx =>
    if tx.toBytes ≠ data then .error (.txDecodeError "transaction bytes are non-canonical") else .ok tx
  | .error e => .error (.ofRaised e)

end Transaction

/-- `FruitHeader.serialize`. -/
def FruitHeader.trySerialize (h : FruitHeader) : Except PyError Bytes := do
  let version ← encodeUint 2 h.version
  let sigTypeSupported ← encodeUint 2 h.sigTypeSupported
  let bitmapLength ← encodeUint 2 h.parentBitmap.length
  let timestampMs ← encodeUint 8 h.timestampMs
  let shardId ← encodeUint 4 h.shardId
  let nonce ← encodeUint 8 h.nonce
  return version ++ sigTypeSupported ++ h.parentSelected.bytes ++ bitmapLength ++ h.parentBitmap ++
    h.latestAnchor.bytes ++ h.txMerkleRoot.bytes ++ timestampMs ++ shardId ++ nonce

variable {C : Crypto}

/-- A byte string with its length in front. -/
def encodeSized (w : ℕ) (data : Bytes) : Except PyError Bytes := do
  let length ← encodeUint w data.length
  return length ++ data

/-- `Fruit.serialize`. -/
def Fruit.trySerialize (f : Fruit C) : Except PyError Bytes := do
  let headerBytes ← f.header.trySerialize
  let header ← encodeSized 2 headerBytes
  let count ← encodeUint 2 f.transactions.length
  let transactions ← f.transactions.mapM (encodeSized 2)
  return header ++ count ++ transactions.flatten

/-- `AnchorHeader.serialize`. -/
def AnchorHeader.trySerialize (h : AnchorHeader) : Except PyError Bytes := do
  let version ← encodeUint 2 h.version
  let timestampMs ← encodeUint 8 h.timestampMs
  let nonce ← encodeUint 8 h.nonce
  return version ++ h.parentAnchor.bytes ++ h.fruitSetRoot.bytes ++ h.parentCandidateRoot.bytes ++
    h.shardTreeStateRoot.bytes ++ h.feeFloorSetRoot.bytes ++ h.anchorRewardRoot.bytes ++ timestampMs ++ nonce

/-- `FeeFloorEntry.serialize`. -/
def FeeFloorEntry.trySerialize (e : FeeFloorEntry) : Except PyError Bytes := do
  let shardId ← encodeUint 4 e.shardId
  let floorMatomsPerKb ← encodeUint 8 e.floorMatomsPerKb
  return shardId ++ floorMatomsPerKb

/-- `Output.to_bytes`. -/
def Output.tryToBytes (o : Output) : Except PyError Bytes := do
  let amountMatoms ← encodeUint 8 o.amountMatoms
  let templateId ← encodeUint 2 o.template.id
  let locktimeMs ← encodeUint 8 o.locktimeMs
  let lockheight ← encodeUint 8 o.lockheight
  let length ← encodeUint 2 o.payload.length
  return amountMatoms ++ templateId ++ locktimeMs ++ lockheight ++ length ++ o.payload

/-- `Anchor.serialize`. -/
def Anchor.trySerialize (a : Anchor C) : Except PyError Bytes := do
  let headerBytes ← a.header.trySerialize
  let header ← encodeSized 2 headerBytes
  let coveredCount ← encodeUint 4 a.coveredFruitHashes.length
  let candidateCount ← encodeUint 4 a.parentCandidateHashes.length
  let shardTree ← encodeSized 4 a.shardTreeBytes
  let floorCount ← encodeUint 4 a.feeFloorEntries.length
  let floors ← a.feeFloorEntries.mapM FeeFloorEntry.trySerialize
  let rewardCount ← encodeUint 2 a.anchorRewardOutputs.length
  let rewards ← a.anchorRewardOutputs.mapM fun o => do
    let outputBytes ← o.tryToBytes
    encodeSized 2 outputBytes
  return header ++ coveredCount ++ a.coveredFruitHashes.flatMap FixedBytes.bytes ++ candidateCount ++
    a.parentCandidateHashes.flatMap FixedBytes.bytes ++ shardTree ++ floorCount ++ floors.flatten ++
    rewardCount ++ rewards.flatten ++ a.genesisCommitment.bytes

end TensorPow
