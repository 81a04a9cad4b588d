import TensorPow.Spec.Blocks
import TensorPow.Spec.Commitment
import TensorPow.Spec.Iblt

/-!
# Reconciliation of UTXO sets

`state/sync.py`. A peer with the target set encodes the difference from a local set: the
outputs to remove and those to add, and an IBLT of the keys of both. If two of these keys
collide, it encodes the whole target set instead.

* `buildUtxoDiff`, `decodeUtxoDiff`, `applyUtxoDiff`.
-/

namespace TensorPow

open Wire Sorted

/-- `UTXO.from_bytes` without an `expected_outpoint_key`. -/
def UTXO.decode (data : Bytes) : Except PyError UTXO := do
  Exn.ensure (fixedBytes ≤ data.length) truncated
  let (e, payload) ← Reader.parse (do
    let e ← readFields
    let payload ← Reader.rest
    return (e, payload)) data
  let outpoint ← Outpoint.make e.txId e.outputIndex
  Exn.ensure (data.length = fixedBytes + e.payloadLen)
    (.valueError "UTXO payload length does not match encoded bytes")
  let template ← Template.ofId e.templateId
  make { outpoint, amountMatoms := e.amountMatoms, template, ownerPubkeyHash := e.ownerPubkeyHash,
         locktimeMs := e.locktimeMs, lockheight := e.lockheight, payload }

namespace Sync

/-- `UTXO_DIFF_MAGIC`. -/
def utxoDiffMagic : Bytes := [84, 80, 85, 73, 66, 76, 84, 49]

/-- `UTXO_DIFF_CHECKSUM_PREFIX`. -/
def checksumPrefix : Bytes :=
  [84, 101, 110, 115, 111, 114, 80, 111, 87, 58, 117, 116, 120, 111, 45, 100, 105, 102, 102, 58]

/-- `UTXO_DIFF_FIXED_BYTES`. -/
def utxoDiffFixedBytes : ℕ := (8 + 2 * 32 + 2 * 4 + 2 + 1) + 32

/-- `MAX_UTXO_DIFF_IBLT_ENTRIES`. -/
def maxUtxoDiffIbltEntries : ℕ := (u16Max - ibltHashCount) / 2

/-- `MAX_UTXO_DIFF_ADD_BYTES`. -/
def maxUtxoDiffAddBytes : ℕ := UTXO.fixedBytes + txOutputPayloadMaxBytes

/-- `_UTXO_IBLT_REMOVE_DOMAIN`. -/
def removeDomain : Bytes :=
  [84, 101, 110, 115, 111, 114, 80, 111, 87, 32, 85, 84, 88, 79, 32, 73, 66, 76, 84, 32, 114, 101, 109, 111, 118, 101]

/-- `_UTXO_IBLT_ADD_DOMAIN`. -/
def addDomain : Bytes :=
  [84, 101, 110, 115, 111, 114, 80, 111, 87, 32, 85, 84, 88, 79, 32, 73, 66, 76, 84, 32, 97, 100, 100]

/-- `_UTXO_IBLT_POSITION_DOMAIN` and `_UTXO_IBLT_CHECKSUM_DOMAIN`, with the errors. -/
def ibltParams : IBLTParams where
  positionDomain :=
    [84, 101, 110, 115, 111, 114, 80, 111, 87, 32, 85, 84, 88, 79, 32, 73, 66, 76, 84, 32, 112, 111, 115, 105, 116,
      105, 111, 110]
  checksumDomain :=
    [84, 101, 110, 115, 111, 114, 80, 111, 87, 32, 85, 84, 88, 79, 32, 73, 66, 76, 84, 32, 99, 104, 101, 99, 107, 115,
      117, 109]
  badCellCount := .valueError "UTXO IBLT cell count is outside supported range"
  noPositions := .valueError "unable to derive unique UTXO IBLT positions"

/-- `_RemoveRecord`. -/
structure RemoveRecord where
  outpoint : Outpoint
  valueHash : Hash
deriving DecidableEq

/-- `_DecodedUTXODiff`. -/
structure DecodedUTXODiff where
  baseRoot : Hash
  targetRoot : Hash
  removals : List RemoveRecord
  additions : List UTXO
  fullSnapshot : Bool
deriving DecidableEq

/-- `_require_diff_limits`. -/
def requireDiffLimits (maxEntries maxBytes : ℤ) : Except PyError Unit := do
  Exn.ensure (0 < maxEntries) (.valueError "max_entries must be positive")
  Exn.ensure (0 < maxBytes) (.valueError "max_bytes must be positive")
  Exn.ensure (maxEntries ≤ maxUtxoDiffIbltEntries) (.valueError "max_entries exceeds uint16 IBLT cell-count capacity")

/-- `_require_canonical_records`. Outpoints are ordered by their bytes. -/
def requireCanonicalRecords (removals : List RemoveRecord) (additions : List UTXO) (maxEntries : ℤ) :
    Except PyError Unit := do
  Exn.ensure ((removals.length + additions.length : ℕ) ≤ maxEntries)
    (.valueError "UTXO diff entry count exceeds maximum")
  let removalKeys := removals.map RemoveRecord.outpoint
  let additionKeys : List Outpoint := additions.map fun u => u.outpoint
  Exn.ensure (sortBy id removalKeys = removalKeys ∧ removalKeys.Nodup)
    (.valueError "UTXO diff removals are not canonical")
  Exn.ensure (sortBy id additionKeys = additionKeys ∧ additionKeys.Nodup)
    (.valueError "UTXO diff additions are not canonical")
  Exn.ensure (∀ o ∈ removalKeys, o ∉ additionKeys) (.valueError "UTXO diff cannot remove and add the same outpoint")

/-- `_canonical_iblt_cell_count`. -/
def canonicalIbltCellCount (changeCount : ℕ) : Except PyError ℕ := do
  let cellCount := max ibltHashCount (changeCount * 2 + ibltHashCount)
  Exn.ensure (cellCount ≤ u16Max) (.valueError "UTXO diff IBLT cell count exceeds uint16")
  return cellCount

section Keys

variable (C : Crypto)

/-- `_change_key`. -/
def changeKey (domain payload : Bytes) : IBLTKey := ⟨(C.hashBytes (domain ++ payload)).bytes.take 8, by simp⟩

/-- The keys of `_change_keys`. -/
def recordKeys (removals : List RemoveRecord) (additions : List UTXO) : List IBLTKey :=
  (removals.map fun r => changeKey C removeDomain (r.outpoint.toBytes ++ r.valueHash.bytes)) ++
    additions.map fun u => changeKey C addDomain u.toBytes

/-- The error on which `build_utxo_diff` falls back to a snapshot. -/
def duplicateChangeKeys : PyError := .valueError "UTXO diff has duplicate IBLT change keys"

/-- `_change_keys`. -/
def changeKeys (removals : List RemoveRecord) (additions : List UTXO) : Except PyError (List IBLTKey) := do
  Exn.ensure (recordKeys C removals additions).Nodup duplicateChangeKeys
  return recordKeys C removals additions

/-- `_build_iblt`. -/
def buildIblt (keys : List IBLTKey) (cellCount : ℕ) : Except PyError (List IBLTCell) := do
  requireIbltCellCount ibltParams cellCount
  Exn.ensure keys.Nodup duplicateChangeKeys
  applyIbltKeys C ibltParams (emptyIblt cellCount) keys

/-- `_is_pure_iblt_cell`. -/
def isPureIbltCell (cell : IBLTCell) : Bool :=
  cell.count = 1 ∧ cell.sum.2 = ibltChecksum C ibltParams cell.sum.1

/-- The arguments `_peel_iblt` passes to `peel_iblt_cells`. -/
def peeler : Iblt.Peeler PyError IBLTKey IBLTCell where
  isPure := isPureIbltCell C
  isEmpty := isEmptyIbltCell
  cellKey cell := cell.sum.1
  peelDelta _ := -1
  applyKey := applyIbltKey C ibltParams

/-- `_peel_iblt`. -/
def peelIblt (cells : List IBLTCell) : Except PyError (Option (List IBLTKey)) := do
  let peeled ← Iblt.peelLoop (peeler C) cells.length cells []
  return peeled.map fun l => sortBy id (l.map Prod.fst)

/-- `_validate_iblt_sketch`. -/
def validateIbltSketch (cells : List IBLTCell) (decoded : DecodedUTXODiff) : Except PyError Unit := do
  let keys ← changeKeys C decoded.removals decoded.additions
  let peeled ← peelIblt C cells
  Exn.ensure (peeled = some (sortBy id keys)) (.valueError "UTXO diff IBLT sketch does not match records")

/-! ## Encoding -/

/-- The encoding of an addition in the body of a diff. -/
def encodeAddition (u : UTXO) : Except PyError Bytes := do
  Exn.ensure (u.toBytes.length ≤ maxUtxoDiffAddBytes) (.valueError "added UTXO exceeds maximum encoded size")
  let length ← encodeUint 2 u.toBytes.length
  return length ++ u.toBytes

/-- `_encode_iblt_cell`, with the errors of this module. -/
def encodeCell : IBLTCell → Except PyError Bytes :=
  encodeIbltCell (.valueError "UTXO diff IBLT cell count outside uint16 range")
    (.overflowError "int too big to convert")

/-- `_diff_checksum`. -/
def diffChecksum (payload : Bytes) : Hash := C.hashBytes (checksumPrefix ++ payload)

/-- The end of both encoders: the payload around a body, with its checksum, if it is not too
long. -/
def sealDiff (baseRoot targetRoot : Hash) (removeCount addCount cellCount hashCount : ℕ) (body : Bytes)
    (maxBytes : ℤ) : Except PyError Bytes := do
  let removed ← encodeUint 4 removeCount
  let added ← encodeUint 4 addCount
  let cells ← encodeUint 2 cellCount
  let payload := utxoDiffMagic ++ baseRoot.bytes ++ targetRoot.bytes ++ removed ++ added ++ cells ++
    le 1 hashCount ++ body
  let diff := payload ++ (diffChecksum C payload).bytes
  Exn.ensure ((diff.length : ℤ) ≤ maxBytes) (.valueError "UTXO diff exceeds maximum encoded size")
  return diff

/-- `_encode_utxo_diff`. -/
def encodeUtxoDiff (decoded : DecodedUTXODiff) (maxEntries maxBytes : ℤ) : Except PyError Bytes := do
  requireCanonicalRecords decoded.removals decoded.additions maxEntries
  let keys ← changeKeys C decoded.removals decoded.additions
  let cellCount ← canonicalIbltCellCount keys.length
  let cells ← (← buildIblt C keys cellCount).mapM encodeCell
  let removals := decoded.removals.flatMap fun r => r.outpoint.toBytes ++ r.valueHash.bytes
  let additions ← decoded.additions.mapM encodeAddition
  sealDiff C decoded.baseRoot decoded.targetRoot decoded.removals.length decoded.additions.length cellCount
    ibltHashCount (cells.flatten ++ removals ++ additions.flatten) maxBytes

end Keys

section Sets

variable {C : Crypto}

/-- `merkle_root()` of a set. Its caches do not show in the result. -/
def merkleRootOf (s : UTXOSet C) : Except PyError Hash := (CachedSet.merkleRoot.runOn (CachedSet.fresh s)).1

/-- `_encode_full_snapshot_diff`. -/
def encodeFullSnapshotDiff (baseRoot : Hash) (targetSet : UTXOSet C) (maxEntries maxBytes : ℤ) :
    Except PyError Bytes := do
  requireCanonicalRecords [] targetSet.entries maxEntries
  let additions ← targetSet.entries.mapM encodeAddition
  let targetRoot ← merkleRootOf targetSet
  sealDiff C baseRoot targetRoot 0 targetSet.entries.length 0 0 additions.flatten maxBytes

/-- The loop body of `build_utxo_diff` over the local outputs. -/
def addRemoval (targetSet : UTXOSet C) (removals : List RemoveRecord) (u : UTXO) :
    Except PyError (List RemoveRecord) :=
  match targetSet.get u.outpoint with
  | none => .ok (removals ++ [⟨u.outpoint, u.valueHash C⟩])
  | some v =>
    if v.toBytes ≠ u.toBytes then .error (.valueError "same outpoint has conflicting UTXO bytes") else .ok removals

/-- `build_utxo_diff`. -/
def buildUtxoDiff (localSet targetSet : UTXOSet C) (maxEntries maxBytes : ℤ) : Except PyError Bytes := do
  requireDiffLimits maxEntries maxBytes
  let removals ← localSet.entries.foldlM (addRemoval targetSet) []
  let additions := targetSet.entries.filter fun u => localSet.get u.outpoint = none
  let baseRoot ← merkleRootOf localSet
  let targetRoot ← merkleRootOf targetSet
  match encodeUtxoDiff C { baseRoot, targetRoot, removals, additions, fullSnapshot := false } maxEntries maxBytes with
  | .ok diff => return diff
  | .error e =>
    if e ≠ duplicateChangeKeys then throw e
    encodeFullSnapshotDiff baseRoot targetSet maxEntries maxBytes

/-! ## Decoding -/

/-- The error of bytes that end in one of the lists. -/
def truncatedIn (part : String) : PyError := .valueError ("UTXO diff is truncated in " ++ part)

/-- One removal. -/
def readRemoval : Reader PyError RemoveRecord := do
  let txId ← Reader.fixed (truncatedIn "removals") 32
  let outputIndex ← Reader.uint (truncatedIn "removals") 4
  let valueHash ← Reader.fixed (truncatedIn "removals") 32
  let outpoint ← Reader.lift (Outpoint.make txId outputIndex)
  return ⟨outpoint, valueHash⟩

/-- One addition. -/
def readAddition : Reader PyError UTXO := do
  let utxoLen ← Reader.uint (truncatedIn "addition length") 2
  Reader.lift (Exn.ensure (UTXO.fixedBytes ≤ utxoLen ∧ utxoLen ≤ maxUtxoDiffAddBytes)
    (.valueError "UTXO diff addition length is invalid"))
  let data ← Reader.take (truncatedIn "addition bytes") utxoLen
  Reader.lift (UTXO.decode data)

/-- The error of a diff shorter than its fixed fields. -/
def truncated : PyError := .valueError "UTXO diff is truncated"

/-- The reads of `_decode_utxo_diff` after the magic. -/
def readDiff (maxEntries : ℤ) : Reader PyError (List IBLTCell × DecodedUTXODiff) := do
  let baseRoot ← Reader.fixed truncated 32
  let targetRoot ← Reader.fixed truncated 32
  let removeCount ← Reader.uint truncated 4
  let addCount ← Reader.uint truncated 4
  let cellCount ← Reader.uint truncated 2
  let hashCount ← Reader.uint truncated 1
  let fullSnapshot := decide (cellCount = 0 ∧ hashCount = 0)
  Reader.lift (do
    Exn.ensure ((removeCount + addCount : ℕ) ≤ maxEntries) (.valueError "UTXO diff entry count exceeds maximum")
    Exn.ensure (fullSnapshot = true → removeCount = 0) (.valueError "full UTXO snapshot cannot include removals")
    if fullSnapshot = false then
      Exn.ensure (hashCount = ibltHashCount) (.valueError "UTXO diff IBLT hash count is non-canonical")
      Exn.ensure (cellCount = (← canonicalIbltCellCount (removeCount + addCount)))
        (.valueError "UTXO diff IBLT cell count is non-canonical"))
  let cells ← if fullSnapshot then pure [] else Reader.replicate (readIbltCell (truncatedIn "IBLT cells")) cellCount
  let removals ← Reader.replicate readRemoval removeCount
  let additions ← Reader.replicate readAddition addCount
  Reader.finish (.valueError "UTXO diff has trailing bytes")
  return (cells, { baseRoot, targetRoot, removals, additions, fullSnapshot })

/-- `_decode_utxo_diff`. -/
def decodeUtxoDiff (C : Crypto) (diff : Bytes) (maxEntries maxBytes : ℤ) : Except PyError DecodedUTXODiff := do
  requireDiffLimits maxEntries maxBytes
  Exn.ensure ((diff.length : ℤ) ≤ maxBytes) (.valueError "UTXO diff exceeds maximum encoded size")
  Exn.ensure (utxoDiffFixedBytes ≤ diff.length) truncated
  let payload := diff.take (diff.length - hashLenBytes)
  let checksum := diff.drop (diff.length - hashLenBytes)
  Exn.ensure (payload.take utxoDiffMagic.length = utxoDiffMagic) (.valueError "UTXO diff magic is invalid")
  Exn.ensure (checksum = (diffChecksum C payload).bytes) (.valueError "UTXO diff checksum mismatch")
  let (cells, decoded) ← Reader.parse (readDiff maxEntries) (payload.drop utxoDiffMagic.length)
  requireCanonicalRecords decoded.removals decoded.additions maxEntries
  if decoded.fullSnapshot = false then validateIbltSketch C cells decoded
  return decoded

/-! ## Applying -/

/-- The loop body of `apply_utxo_diff` over the removals. -/
def applyRemoval (reconciled : UTXOSet C) (removal : RemoveRecord) : Except PyError (UTXOSet C) := do
  let existing ← Exn.get (reconciled.get removal.outpoint)
    (.valueError "diff removes an outpoint absent from local set")
  Exn.ensure (existing.valueHash C = removal.valueHash)
    (.valueError "diff removal value hash does not match local UTXO")
  reconciled.remove removal.outpoint

/-- The loop body of `apply_utxo_diff` over the additions. -/
def applyAddition (reconciled : UTXOSet C) (u : UTXO) : Except PyError (UTXOSet C) := do
  Exn.ensure (reconciled.get u.outpoint = none) (.valueError "diff adds an outpoint already present after removals")
  reconciled.add u

/-- The set `apply_utxo_diff` starts from: an empty one for a snapshot, else a copy. -/
def startSet (localSet : UTXOSet C) (fullSnapshot : Bool) : Except PyError (UTXOSet C) :=
  if fullSnapshot then .ok .empty else UTXOSet.ofList localSet.entries

/-- `apply_utxo_diff`. -/
def applyUtxoDiff (localSet : UTXOSet C) (diff : Bytes) (maxEntries maxBytes : ℤ) : Except PyError (UTXOSet C) := do
  requireDiffLimits maxEntries maxBytes
  let decoded ← decodeUtxoDiff C diff maxEntries maxBytes
  Exn.ensure ((← merkleRootOf localSet) = decoded.baseRoot)
    (.valueError "diff base root does not match local UTXO root")
  let reconciled ← startSet localSet decoded.fullSnapshot
  let reconciled ← decoded.removals.foldlM applyRemoval reconciled
  let reconciled ← decoded.additions.foldlM applyAddition reconciled
  Exn.ensure ((← merkleRootOf reconciled) = decoded.targetRoot)
    (.valueError "reconciled UTXO root does not match diff target root")
  return reconciled

end Sets

end Sync

end TensorPow
