import TensorPow.Spec.Blocks

/-!
# Data availability sampling

The commitments, requests and sample proofs of `net/das.py`. The Reed-Solomon check comes
from `reedsolo` and is a parameter: `rs k symbols` is what the codec for `k` data symbols
says about `2 * k` symbols.

* `Encoding`: a grid of cells with its commitment.
* `selectSampleRequest`: the cell a light node has to ask for.
* `createSampleProof`, `verifySample`: the row and the column of the cell, each cell with its
  Merkle proof.
-/

namespace TensorPow

open Wire

/-- `DOMAIN_DAS_SAMPLE`. -/
def domainDasSample : Byte := 0x70

namespace Das

/-- A cell of `DAS_CELL_BYTES` bytes. -/
abbrev Cell := FixedBytes 256

/-- `DAS_RS_EXTENSION_FACTOR`. -/
def rsExtensionFactor : ℕ := 2

/-- `DAS_MAX_DATA_SIDE`. -/
def maxDataSide : ℕ := 255 / rsExtensionFactor

/-- `_DAS_COMMITMENT_PREFIX`. -/
def commitmentPrefix : Bytes :=
  [84, 101, 110, 115, 111, 114, 80, 111, 87, 58, 68, 65, 83, 58, 99, 111, 109, 109, 105, 116]

/-- `_DAS_CELL_PREFIX`. -/
def cellPrefix : Bytes := [84, 101, 110, 115, 111, 114, 80, 111, 87, 58, 68, 65, 83, 58, 99, 101, 108, 108]

/-- `_require_u32`. -/
def requireU32 (name : String) (value : ℕ) : Except PyError Unit :=
  Exn.ensure (value ≤ u32Max) (.valueError (name ++ " must fit in uint32"))

/-- `_require_positive_u32`. -/
def requirePositiveU32 (name : String) (value : ℕ) : Except PyError Unit := do
  requireU32 name value
  Exn.ensure (value ≠ 0) (.valueError (name ++ " must be positive"))

/-! ## Reed-Solomon codewords -/

/-- `_is_valid_rs_codeword`. Its `except` turns the error of `_rs_codec` for a side above
`DAS_MAX_DATA_SIDE` into `False`. -/
def isValidRsCodeword (rs : ℕ → Bytes → Bool) (cells : List Cell) (dataSide : ℕ) : Bool :=
  decide (cells.length = dataSide * rsExtensionFactor ∧ dataSide ≠ 0 ∧ dataSide ≤ maxDataSide) &&
    (List.range 256).all fun i => rs dataSide (cells.map fun c => c.bytes.getD i 0)

/-- The cell at an index. -/
def cellAt (cells : List Cell) (index : ℕ) : Cell := cells.getD index (FixedBytes.zero 256)

/-- The cells of one row. -/
def rowOf (cells : List Cell) (side row : ℕ) : List Cell :=
  (List.range side).map fun column => cellAt cells (row * side + column)

/-- The cells of one column. -/
def columnOf (cells : List Cell) (side column : ℕ) : List Cell :=
  (List.range side).map fun row => cellAt cells (row * side + column)

/-- `_grid_has_valid_reed_solomon`. -/
def gridHasValidReedSolomon (rs : ℕ → Bytes → Bool) (cells : List Cell) (dataSide : ℕ) : Bool :=
  let side := dataSide * rsExtensionFactor
  decide (cells.length = side * side) &&
    ((List.range side).all fun row => isValidRsCodeword rs (rowOf cells side row) dataSide) &&
    (List.range side).all fun column => isValidRsCodeword rs (columnOf cells side column) dataSide

/-! ## Merkle layers -/

section Merkle

variable (C : Crypto)

/-- `_cell_record`. The row and the column are below the side, which fits four bytes. -/
def cellRecord (row column : ℕ) (cell : Cell) : Bytes := cellPrefix ++ le 4 row ++ le 4 column ++ cell.bytes

/-- `_cell_records`. -/
def cellRecords (cells : List Cell) (side : ℕ) : List Bytes :=
  cells.zipIdx.map fun p => cellRecord (p.2 / side) (p.2 % side) p.1

/-- The loop of `_ordered_merkle_layers`, from a layer on; `fuel` bounds the number of layers. -/
def layersFrom : ℕ → ℕ → List Hash → List (List Hash)
  | 0, _, nodes => [nodes]
  | fuel + 1, level, nodes =>
    if nodes.length ≤ 1 then [nodes]
    else nodes :: layersFrom fuel (level + 1) (merkleNextLevel C domainDasSample level 0 nodes)

/-- The leaf hashes of the items. -/
def leavesOf (items : List Bytes) : List Hash := items.zipIdx.map fun p => merkleLeaf C domainDasSample p.2 p.1

/-- `_ordered_merkle_layers`. Every index has to fit four bytes. -/
def orderedMerkleLayers (items : List Bytes) : Except PyError (List (List Hash)) := do
  Exn.ensure (items ≠ []) (.valueError "items must not be empty")
  Exn.ensure (items.length ≤ u32Max + 1) (.valueError "index must fit in uint32")
  return layersFrom C items.length 0 (leavesOf C items)

/-- `layers[-1][0]`. -/
def rootOfLayers (layers : List (List Hash)) : Hash := (layers.getLastD []).headD genesisParentHash

/-- `DASMerkleSibling`. -/
structure MerkleSibling where
  isLeft : Bool
  digest : Hash
deriving DecidableEq

/-- The loop of `_ordered_merkle_depth`; `fuel` bounds the depth. -/
def merkleDepth : ℕ → ℕ → ℕ
  | 0, _ => 0
  | fuel + 1, width => if width ≤ 1 then 0 else 1 + merkleDepth fuel ((width + 1) / 2)

/-- The fields of a Merkle proof. -/
structure MerkleProofFields where
  leafIndex : ℕ
  leafCount : ℕ
  siblings : List MerkleSibling
deriving DecidableEq

/-- `DASMerkleProof.__post_init__`. -/
def MerkleProofFields.postInit (p : MerkleProofFields) : Except PyError Unit := do
  requireU32 "leaf_index" p.leafIndex
  requirePositiveU32 "leaf_count" p.leafCount
  Exn.ensure (p.leafIndex < p.leafCount) (.valueError "leaf_index must be less than leaf_count")
  Exn.ensure (p.siblings.length = merkleDepth p.leafCount p.leafCount)
    (.valueError "siblings length does not match leaf_count")

/-- `DASMerkleProof`. -/
structure MerkleProof extends MerkleProofFields where
  valid : toMerkleProofFields.postInit = .ok ()
deriving DecidableEq

/-- The constructor: the fields, if they pass the checks. -/
def MerkleProof.make (f : MerkleProofFields) : Except PyError MerkleProof :=
  match h : f.postInit with
  | .ok () => .ok ⟨f, h⟩
  | .error e => .error e

/-- The sibling of a position in a layer. -/
def siblingAt (level : ℕ) (nodes : List Hash) (position : ℕ) : MerkleSibling :=
  if position % 2 = 0 then ⟨false, nodes[position + 1]?.getD (merkleEmpty C domainDasSample level (position / 2))⟩
  else ⟨true, nodes.getD (position - 1) genesisParentHash⟩

/-- The loop of `_ordered_merkle_proof_from_layers`, over all layers but the last. -/
def siblingsFrom : ℕ → List (List Hash) → ℕ → List MerkleSibling
  | level, nodes :: next :: layers, position =>
    siblingAt C level nodes position :: siblingsFrom (level + 1) (next :: layers) (position / 2)
  | _, _, _ => []

/-- `_ordered_merkle_proof_from_layers`. -/
def orderedMerkleProofFromLayers (layers : List (List Hash)) (leafIndex : ℕ) : Except PyError MerkleProof := do
  let leafCount := (layers.headD []).length
  requireU32 "leaf_index" leafIndex
  Exn.ensure (leafIndex < leafCount) (.valueError "leaf_index must be less than leaf_count")
  MerkleProof.make { leafIndex, leafCount, siblings := siblingsFrom C 0 layers leafIndex }

/-- The loop of `_verify_ordered_merkle_proof`: the position, the width and the node it ends
with, or nothing if it returns early. -/
def climbSiblings : List MerkleSibling → ℕ → ℕ → ℕ → Hash → Option (ℕ × ℕ × Hash)
  | [], _, position, width, node => some (position, width, node)
  | s :: siblings, level, position, width, node =>
    let parent := position / 2
    if s.isLeft then
      if position % 2 = 0 then none
      else climbSiblings siblings (level + 1) parent ((width + 1) / 2)
        (merkleNode C domainDasSample level parent s.digest node)
    else if position % 2 ≠ 0 then none
    else if width ≤ position + 1 ∧ s.digest ≠ merkleEmpty C domainDasSample level parent then none
    else climbSiblings siblings (level + 1) parent ((width + 1) / 2)
      (merkleNode C domainDasSample level parent node s.digest)

/-- `_verify_ordered_merkle_proof`. -/
def verifyOrderedMerkleProof (proof : MerkleProof) (item : Bytes) (root : Hash) : Bool :=
  climbSiblings C proof.siblings 0 proof.leafIndex proof.leafCount (merkleLeaf C domainDasSample proof.leafIndex item) =
    some (0, 1, root)

end Merkle

/-! ## Commitments and encodings -/

section Encodings

variable (C : Crypto) (rs : ℕ → Bytes → Bool)

/-- `_commitment_root`. -/
def commitmentRoot (payloadLength dataSide extendedSide : ℕ) (cellRoot : Hash) : Hash :=
  C.domainHash domainDasSample
    (commitmentPrefix ++ le 8 payloadLength ++ le 4 dataSide ++ le 4 extendedSide ++ cellRoot.bytes)

/-- The fields of a commitment. -/
structure CommitmentFields where
  payloadLength : ℕ
  dataSide : ℕ
  extendedSide : ℕ
  cellRoot : Hash
  root : Hash
deriving DecidableEq

/-- `DASCommitment.__post_init__`. -/
def CommitmentFields.postInit (c : CommitmentFields) : Except PyError Unit := do
  Exn.ensure (c.payloadLength ≤ u64Max) (.valueError "payload_length must fit in uint64")
  requirePositiveU32 "data_side" c.dataSide
  requirePositiveU32 "extended_side" c.extendedSide
  Exn.ensure (c.extendedSide = c.dataSide * rsExtensionFactor)
    (.valueError "extended_side must be DAS_RS_EXTENSION_FACTOR * data_side")
  Exn.ensure (c.root = commitmentRoot C c.payloadLength c.dataSide c.extendedSide c.cellRoot)
    (.valueError "root does not match commitment fields")

/-- `DASCommitment`. -/
structure Commitment extends CommitmentFields where
  valid : toCommitmentFields.postInit C = .ok ()
deriving DecidableEq

/-- The fields of an encoding. -/
structure EncodingFields where
  commitment : Commitment C
  cells : List Cell
deriving DecidableEq

/-- `DASEncoding.__post_init__`. -/
def EncodingFields.postInit (e : EncodingFields C) : Except PyError Unit := do
  let side := e.commitment.extendedSide
  Exn.ensure (e.cells.length = side * side) (.valueError "cell count must match extended_side squared")
  let layers ← orderedMerkleLayers C (cellRecords e.cells side)
  Exn.ensure (rootOfLayers layers = e.commitment.cellRoot) (.valueError "cells do not match commitment cell_root")
  Exn.ensure (gridHasValidReedSolomon rs e.cells e.commitment.dataSide = true)
    (.valueError "cells do not satisfy 2D Reed-Solomon encoding")

/-- `DASEncoding`. -/
structure Encoding extends EncodingFields C where
  valid : toEncodingFields.postInit C rs = .ok ()

end Encodings

/-! ## Requests -/

/-- The fields of a sample request. -/
structure RequestFields where
  fruitHash : Hash
  sampleIndex : ℕ
  row : ℕ
  column : ℕ
deriving DecidableEq

/-- `DASSampleRequest.__post_init__`. -/
def RequestFields.postInit (r : RequestFields) : Except PyError Unit := do
  requireU32 "sample_index" r.sampleIndex
  requireU32 "row" r.row
  requireU32 "column" r.column

/-- `DASSampleRequest`. -/
structure Request extends RequestFields where
  valid : toRequestFields.postInit = .ok ()
deriving DecidableEq

/-- The constructor: the fields, if they pass the checks. -/
def Request.make (f : RequestFields) : Except PyError Request :=
  match h : f.postInit with
  | .ok () => .ok ⟨f, h⟩
  | .error e => .error e

section Sampling

variable (C : Crypto)

/-- What one attempt of `_uniform_sample_offset` hashes, after the domain byte. -/
def sampleData (fruitHash : Hash) (sampleIndex attempt : ℕ) : Bytes :=
  fruitHash.bytes ++ le 4 sampleIndex ++ (if attempt = 0 then [] else le 4 attempt)

/-- The value of one attempt. -/
def sampleValue (fruitHash : Hash) (sampleIndex attempt : ℕ) : ℕ :=
  (C.domainHash domainDasSample (sampleData fruitHash sampleIndex attempt)).toNat

/-- The values from which on an attempt is rejected. -/
def sampleLimit (cellCount : ℕ) : ℕ := 2 ^ 256 - 2 ^ 256 % cellCount

/-- The loop of `_uniform_sample_offset`. Of the attempts `0 … U32_MAX` the last `left` are
still to be made. -/
def sampleLoop (fruitHash : Hash) (sampleIndex cellCount : ℕ) : ℕ → Except PyError ℕ
  | 0 => .error (.runtimeError "DAS sample rejection loop exhausted")
  | left + 1 =>
    let value := sampleValue C fruitHash sampleIndex (u32Max - left)
    if value < sampleLimit cellCount then .ok (value % cellCount) else sampleLoop fruitHash sampleIndex cellCount left

/-- `_uniform_sample_offset`. -/
def uniformSampleOffset (fruitHash : Hash) (sampleIndex cellCount : ℕ) : Except PyError ℕ := do
  requireU32 "sample_index" sampleIndex
  requirePositiveU32 "cell_count" cellCount
  sampleLoop C fruitHash sampleIndex cellCount (u32Max + 1)

/-- `select_sample_request`. -/
def selectSampleRequest (fruitHash : Hash) (commitment : Commitment C) (sampleIndex : ℕ) :
    Except PyError Request := do
  requireU32 "sample_index" sampleIndex
  let side := commitment.extendedSide
  let offset ← uniformSampleOffset C fruitHash sampleIndex (side * side)
  Request.make { fruitHash, sampleIndex, row := offset / side, column := offset % side }

end Sampling

/-! ## Sample proofs -/

/-- The fields of a sample proof. -/
structure SampleProofFields where
  row : ℕ
  column : ℕ
  rowCells : List Cell
  rowProofs : List MerkleProof
  columnCells : List Cell
  columnProofs : List MerkleProof
deriving DecidableEq

/-- `DASSampleProof.__post_init__`. -/
def SampleProofFields.postInit (p : SampleProofFields) : Except PyError Unit := do
  Exn.ensure (p.rowCells.length = p.rowProofs.length) (.valueError "row_cells and row_proofs lengths must match")
  Exn.ensure (p.columnCells.length = p.columnProofs.length)
    (.valueError "column_cells and column_proofs lengths must match")
  Exn.ensure (p.rowCells.length ≠ 0 ∧ p.columnCells.length ≠ 0)
    (.valueError "sample proof witnesses must be nonempty")
  Exn.ensure (p.rowCells.length = p.columnCells.length) (.valueError "row and column witness lengths must match")
  Exn.ensure (p.row < p.columnCells.length ∧ p.column < p.rowCells.length)
    (.valueError "sample proof coordinates outside witness grid")

/-- `DASSampleProof`. -/
structure SampleProof extends SampleProofFields where
  valid : toSampleProofFields.postInit = .ok ()
deriving DecidableEq

/-- The constructor: the fields, if they pass the checks. -/
def SampleProof.make (f : SampleProofFields) : Except PyError SampleProof :=
  match h : f.postInit with
  | .ok () => .ok ⟨f, h⟩
  | .error e => .error e

/-- `_cell_index`. -/
def cellIndex (side row column : ℕ) : Except PyError ℕ := do
  requirePositiveU32 "side" side
  Exn.ensure (row < side ∧ column < side) (.valueError "cell coordinates outside DAS grid")
  requireU32 "cell index" (row * side + column)
  return row * side + column

section Proving

variable {C : Crypto} {rs : ℕ → Bytes → Bool}

/-- `DASEncoding.cell`. -/
def Encoding.cell (e : Encoding C rs) (row column : ℕ) : Except PyError Cell := do
  return cellAt e.cells (← cellIndex e.commitment.extendedSide row column)

/-- `create_sample_proof`. -/
def createSampleProof (encoding : Encoding C rs) (request : Request) : Except PyError SampleProof := do
  let expected ← selectSampleRequest C request.fruitHash encoding.commitment request.sampleIndex
  Exn.ensure (request = expected) (.valueError "request coordinates do not match deterministic DAS sampling")
  let side := encoding.commitment.extendedSide
  let layers ← orderedMerkleLayers C (cellRecords encoding.cells side)
  let proofOf (row column : ℕ) : Except PyError MerkleProof := do
    orderedMerkleProofFromLayers C layers (← cellIndex side row column)
  let rowCells ← (List.range side).mapM fun column => encoding.cell request.row column
  let rowProofs ← (List.range side).mapM fun column => proofOf request.row column
  let columnCells ← (List.range side).mapM fun row => encoding.cell row request.column
  let columnProofs ← (List.range side).mapM fun row => proofOf row request.column
  SampleProof.make { row := request.row, column := request.column, rowCells, rowProofs, columnCells, columnProofs }

variable (C rs)

/-- `_verify_cell_proof`. -/
def verifyCellProof (cellRoot : Hash) (side row column : ℕ) (cell : Cell) (proof : MerkleProof) :
    Except PyError Bool := do
  let expectedIndex ← cellIndex side row column
  if proof.leafIndex ≠ expectedIndex ∨ proof.leafCount ≠ side * side then return false
  return verifyOrderedMerkleProof C proof (cellRecord row column cell) cellRoot

/-- One of the two loops of `verify_sample`: it stops at the first cell that fails. -/
def verifyLine (check : ℕ → Cell → MerkleProof → Except PyError Bool) :
    ℕ → List (Cell × MerkleProof) → Except PyError Bool
  | _, [] => .ok true
  | i, p :: rest => do
    if (← check i p.1 p.2) then verifyLine check (i + 1) rest else return false

/-- The body of `verify_sample`. The coordinates are below the side when the cells at their
crossing are compared. -/
def checkSample (request : Request) (commitment : Commitment C) (proof : SampleProof) : Except PyError Bool := do
  let expected ← selectSampleRequest C request.fruitHash commitment request.sampleIndex
  if request ≠ expected then return false
  let side := commitment.extendedSide
  if proof.row ≠ request.row ∨ proof.column ≠ request.column then return false
  if proof.rowCells.length ≠ side ∨ proof.rowProofs.length ≠ side then return false
  if proof.columnCells.length ≠ side ∨ proof.columnProofs.length ≠ side then return false
  if cellAt proof.rowCells request.column ≠ cellAt proof.columnCells request.row then return false
  let rows ← verifyLine (fun column => verifyCellProof C commitment.cellRoot side request.row column) 0
    (proof.rowCells.zip proof.rowProofs)
  if rows = false then return false
  let columns ← verifyLine (fun row => verifyCellProof C commitment.cellRoot side row request.column) 0
    (proof.columnCells.zip proof.columnProofs)
  if columns = false then return false
  return isValidRsCodeword rs proof.rowCells commitment.dataSide &&
    isValidRsCodeword rs proof.columnCells commitment.dataSide

/-- `verify_sample`, with its `except (AttributeError, IndexError, TypeError, ValueError)`. -/
def verifySample (request : Request) (commitment : Commitment C) (proof : SampleProof) : Except PyError Bool :=
  match checkSample C rs request commitment proof with
  | .error (.valueError _) => .ok false
  | .error (.typeError _) => .ok false
  | .error (.indexError _) => .ok false
  | r => r

end Proving

end Das

end TensorPow
