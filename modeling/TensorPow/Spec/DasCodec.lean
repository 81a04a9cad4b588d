import TensorPow.Spec.Das

/-!
# Encoding payloads and sample responses

The rest of `net/das.py`: how a payload becomes a grid of cells, and the wire format of a
sample proof. `reedsolo`'s encoder is a parameter: `enc k symbols` is what the codec for `k`
data symbols returns.

* `rsExtendMatrix`: the data rows are extended first, then every column.
* `encodePayload`: the grid of a payload with its commitment.
* `encodeSampleResponse`, `decodeSampleResponse`: the wire format.
-/

namespace TensorPow.Das

open Wire

/-- `DAS_CELL_BYTES`. -/
def cellBytes : ℕ := 256

/-- `DAS_MAX_PAYLOAD_BYTES`. -/
def maxPayloadBytes : ℕ := maxDataSide * maxDataSide * cellBytes

/-- `_ceil_div`, for a positive denominator. -/
def ceilDiv (numerator denominator : ℕ) : ℕ := (numerator + denominator - 1) / denominator

/-- `_ceil_sqrt`. -/
def ceilSqrt (value : ℕ) : Except PyError ℕ := do
  requirePositiveU32 "value" value
  let root := Nat.sqrt value
  return if root * root = value then root else root + 1

section Extending

variable (enc : ℕ → Bytes → Bytes)

/-- `_rs_encode_symbols`, with the limit of `_rs_codec`. -/
def rsEncodeSymbols (symbols : Bytes) (dataSide : ℕ) : Except PyError Bytes := do
  requirePositiveU32 "data_side" dataSide
  Exn.ensure (symbols.length = dataSide)
    (.valueError "Reed-Solomon data symbol count must match data_side")
  Exn.ensure (dataSide ≤ maxDataSide) (.valueError "DAS Reed-Solomon side exceeds GF(2^8) codeword limit")
  let encoded := enc dataSide symbols
  Exn.ensure (encoded.length = dataSide * rsExtensionFactor)
    (.runtimeError "Reed-Solomon codec returned unexpected codeword length")
  return encoded

/-- The symbols of a line of cells at one byte. -/
def symbolsAt (cells : List Cell) (byteIndex : ℕ) : Bytes := cells.map fun c => c.bytes.getD byteIndex 0

/-- The cell that the codewords, one for each byte, write at a position. -/
def cellOfCodewords (codewords : List Bytes) (position : ℕ) : Cell :=
  ⟨(List.range 256).map fun byteIndex => (codewords.getD byteIndex []).getD position 0, by simp⟩

/-- `_rs_extend_row`. -/
def rsExtendRow (rowCells : List Cell) (dataSide : ℕ) : Except PyError (List Cell) := do
  Exn.ensure (rowCells.length = dataSide) (.valueError "row length must match data_side")
  let codewords ← (List.range cellBytes).mapM fun byteIndex =>
    rsEncodeSymbols enc (symbolsAt rowCells byteIndex) dataSide
  return (List.range (dataSide * rsExtensionFactor)).map (cellOfCodewords codewords)

/-- `_rs_extend_matrix`. -/
def rsExtendMatrix (dataRows : List (List Cell)) : Except PyError (List (List Cell)) := do
  let dataSide := dataRows.length
  requirePositiveU32 "data_side" dataSide
  dataRows.forM fun rowCells => Exn.ensure (rowCells.length = dataSide) (.valueError "data matrix must be square")
  let rowExtended ← dataRows.mapM fun rowCells => rsExtendRow enc rowCells dataSide
  let extendedSide := dataSide * rsExtensionFactor
  let columns ← (List.range extendedSide).mapM fun column =>
    rsExtendRow enc (rowExtended.map fun row => cellAt row column) dataSide
  let parityRows := (List.range dataSide).map fun rowOffset =>
    columns.map fun column => cellAt column (dataSide + rowOffset)
  return rowExtended ++ parityRows

end Extending

/-- The cells of a payload: cell `index` holds 256 of its bytes, filled up with zeros. -/
def dataCell (payload : Bytes) (index : ℕ) : Cell :=
  ⟨(List.range 256).map fun byteIndex => payload.getD (index * cellBytes + byteIndex) 0, by simp⟩

section Encoding

variable (C : Crypto) (rs : ℕ → Bytes → Bool) (enc : ℕ → Bytes → Bytes)

/-- The constructor: the fields, if they pass the checks. -/
def Commitment.make (f : CommitmentFields) : Except PyError (Commitment C) :=
  match h : f.postInit C with
  | .ok () => .ok ⟨f, h⟩
  | .error e => .error e

/-- The constructor: the fields, if they pass the checks. -/
def Encoding.make (f : EncodingFields C) : Except PyError (Encoding C rs) :=
  match h : f.postInit C rs with
  | .ok () => .ok ⟨f, h⟩
  | .error e => .error e

/-- `encode_payload`. -/
def encodePayload (payload : Bytes) : Except PyError (Encoding C rs) := do
  let payloadLength := payload.length
  Exn.ensure (payloadLength ≤ u64Max) (.valueError "payload_length must fit in uint64")
  let dataCellCount := max 1 (ceilDiv payloadLength cellBytes)
  let dataSide ← ceilSqrt dataCellCount
  Exn.ensure (dataSide ≤ maxDataSide) (.valueError "payload exceeds DAS_MAX_PAYLOAD_BYTES")
  let dataRows := (List.range dataSide).map fun row =>
    (List.range dataSide).map fun column => dataCell payload (row * dataSide + column)
  let extendedRows ← rsExtendMatrix enc dataRows
  let cells := extendedRows.flatten
  let extendedSide := dataSide * rsExtensionFactor
  let layers ← orderedMerkleLayers C (cellRecords cells extendedSide)
  let cellRoot := rootOfLayers layers
  let root := commitmentRoot C payloadLength dataSide extendedSide cellRoot
  let commitment ← Commitment.make C { payloadLength, dataSide, extendedSide, cellRoot, root }
  Encoding.make C rs { commitment, cells }

end Encoding

/-! ## Sample responses -/

/-- `_DAS_MAX_EXTENDED_SIDE`. -/
def maxExtendedSide : ℕ := maxDataSide * rsExtensionFactor

/-- `_DAS_MAX_MERKLE_SIBLINGS`. -/
def maxMerkleSiblings : ℕ := 32

/-- One sibling on the wire. -/
def encodeSibling (s : MerkleSibling) : Bytes := (if s.isLeft then 1 else 0) :: s.digest.bytes

/-- `_encode_merkle_proof`. The counts of a proof fit four bytes. -/
def encodeMerkleProof (p : MerkleProof) : Bytes :=
  le 4 p.leafIndex ++ le 4 p.leafCount ++ le 4 p.siblings.length ++ p.siblings.flatMap encodeSibling

/-- One of the two loops of `encode_sample_response`, with the count in front. -/
def encodeWitness (cells : List Cell) (proofs : List MerkleProof) : Except PyError Bytes := do
  let count ← encodeUint 4 cells.length
  return count ++ (cells.zip proofs).flatMap fun p => p.1.bytes ++ encodeMerkleProof p.2

/-- `encode_sample_response`. The lists of a proof have equal lengths. -/
def encodeSampleResponse (p : SampleProof) : Except PyError Bytes := do
  let row ← encodeUint 4 p.row
  let column ← encodeUint 4 p.column
  let rows ← encodeWitness p.rowCells p.rowProofs
  let columns ← encodeWitness p.columnCells p.columnProofs
  return row ++ column ++ rows ++ columns

/-- The error of a reader that runs out of bytes. -/
def truncated : PyError := .valueError "DAS wire bytes are truncated"

/-- `_require_wire_side`. -/
def requireWireSide (name : String) (value : ℕ) : Except PyError Unit := do
  requirePositiveU32 name value
  Exn.ensure (value ≤ maxExtendedSide) (.valueError (name ++ " exceeds DAS extended side limit"))
  Exn.ensure (value % rsExtensionFactor = 0) (.valueError (name ++ " must be an even DAS extended side"))

/-- One round of the loop of `_decode_merkle_proof`. -/
def readSibling : Reader PyError MerkleSibling := do
  let side ← Reader.uint truncated 1
  Reader.lift (Exn.ensure (side = 0 ∨ side = 1) (.valueError "DAS Merkle sibling side is invalid"))
  let digest ← Reader.fixed truncated 32
  return { isLeft := side = 1, digest }

/-- `_decode_merkle_proof`. -/
def readMerkleProof : Reader PyError MerkleProof := do
  let leafIndex ← Reader.uint truncated 4
  let leafCount ← Reader.uint truncated 4
  Reader.lift (Exn.ensure (leafCount ≤ maxExtendedSide * maxExtendedSide)
    (.valueError "DAS Merkle proof leaf_count exceeds extended grid limit"))
  let siblingCount ← Reader.uint truncated 4
  Reader.lift (Exn.ensure (siblingCount ≤ maxMerkleSiblings)
    (.valueError "DAS Merkle proof has too many siblings"))
  let siblings ← Reader.replicate readSibling siblingCount
  Reader.lift (MerkleProof.make { leafIndex, leafCount, siblings })

/-- One round of a loop of `decode_sample_response`. -/
def readWitnessCell : Reader PyError (Cell × MerkleProof) := do
  let cell ← Reader.fixed truncated 256
  let proof ← readMerkleProof
  return (cell, proof)

/-- One of the two loops of `decode_sample_response`, with the count in front. -/
def readWitness (name : String) : Reader PyError (List (Cell × MerkleProof)) := do
  let count ← Reader.uint truncated 4
  Reader.lift (requireWireSide name count)
  Reader.replicate readWitnessCell count

/-- The reads of `decode_sample_response`, in order. -/
def readSampleResponse : Reader PyError SampleProof := do
  let row ← Reader.uint truncated 4
  let column ← Reader.uint truncated 4
  let rows ← readWitness "row_count"
  let columns ← readWitness "column_count"
  Reader.finish (.valueError "trailing DAS wire bytes")
  Reader.lift (SampleProof.make { row, column, rowCells := rows.map Prod.fst, rowProofs := rows.map Prod.snd,
                                  columnCells := columns.map Prod.fst, columnProofs := columns.map Prod.snd })

/-- `decode_sample_response`. -/
def decodeSampleResponse (data : Bytes) : Except PyError SampleProof := Reader.parse readSampleResponse data

end TensorPow.Das
