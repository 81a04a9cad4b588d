import TensorPow.Spec.Basic
import TensorPow.Iblt.Basic
import TensorPow.Wire.Reader
import TensorPow.Wire.Xor

/-!
# The cells of fruit relay and UTXO reconciliation

`_iblt.py`, and the functions on cells that `net/graphene.py` and `state/sync.py` both have.
The two modules hash under domains of their own and raise errors of their own, which
`IBLTParams` collects; what else they do in different ways is in their own modules.
-/

namespace TensorPow

open Wire

/-- `GRAPHENE_IBLT_HASH_COUNT` and `UTXO_IBLT_HASH_COUNT`, also the least number of cells. -/
def ibltHashCount : ℕ := 3

/-- A key of `GRAPHENE_IBLT_KEY_BYTES` or `UTXO_IBLT_KEY_BYTES` bytes. -/
abbrev IBLTKey := FixedBytes 8

/-- `_IBLTCell`: the sum is the `key_sum` and the `checksum_sum`. -/
abbrev IBLTCell := Iblt.Cell (IBLTKey × ℕ)

/-- The sum of two keys with their checksums. -/
def xorKeys (a b : IBLTKey × ℕ) : IBLTKey × ℕ := (a.1.xor b.1, a.2 ^^^ b.2)

/-- The sum of no keys. -/
def noKeys : IBLTKey × ℕ := (FixedBytes.zero 8, 0)

/-- What the two modules do not share. -/
structure IBLTParams where
  positionDomain : Bytes
  checksumDomain : Bytes
  /-- The error for a number of cells out of range. -/
  badCellCount : PyError
  /-- The error when the attempts at three positions run out. -/
  noPositions : PyError

section Cells

variable (C : Crypto) (P : IBLTParams)

/-- The first bytes of a digest. -/
def digestPrefix (width : ℕ) (data : Bytes) : Bytes := (C.hashBytes data).bytes.take width

/-- `_require_iblt_cell_count`. -/
def requireIbltCellCount (cellCount : ℕ) : Except PyError Unit :=
  Exn.ensure (ibltHashCount ≤ cellCount ∧ cellCount ≤ u16Max) P.badCellCount

/-- The position one attempt of `_iblt_positions` gives. -/
def ibltPosition (key : IBLTKey) (cellCount attempt : ℕ) : ℕ :=
  ofLe (digestPrefix C 4 (P.positionDomain ++ key.bytes ++ le 2 attempt)) % cellCount

/-- The loop of `_iblt_positions`. Of the attempts `0 … U16_MAX` the last `left` are still to
be made; after the last one the loop gives up, whatever it found. -/
def ibltPositionsLoop (key : IBLTKey) (cellCount : ℕ) : ℕ → List ℕ → Except PyError (List ℕ)
  | 0, _ => .error P.noPositions
  | left + 1, positions =>
    if ibltHashCount ≤ positions.length then .ok positions
    else
      let position := ibltPosition C P key cellCount (u16Max - left)
      ibltPositionsLoop key cellCount left
        (if position ∈ positions then positions else positions ++ [position])

/-- `_iblt_positions`. -/
def ibltPositions (key : IBLTKey) (cellCount : ℕ) : Except PyError (List ℕ) := do
  requireIbltCellCount P cellCount
  ibltPositionsLoop C P key cellCount (u16Max + 1) []

/-- `_iblt_checksum`. -/
def ibltChecksum (key : IBLTKey) : ℕ := ofLe (digestPrefix C 4 (P.checksumDomain ++ key.bytes))

/-- A key with its checksum. -/
def ibltValue (key : IBLTKey) : IBLTKey × ℕ := (key, ibltChecksum C P key)

/-- `_apply_iblt_key`. -/
def applyIbltKey (cells : List IBLTCell) (key : IBLTKey) (delta : ℤ) : Except PyError (List IBLTCell) := do
  Exn.ensure (delta = -1 ∨ delta = 1) (.valueError "IBLT delta must be -1 or 1")
  let positions ← ibltPositions C P key cells.length
  return Iblt.update xorKeys delta (ibltValue C P key) cells positions

/-- The cells of `_build_iblt` before the first key. -/
def emptyIblt (cellCount : ℕ) : List IBLTCell := List.replicate cellCount ⟨0, noKeys⟩

/-- The loop of `_build_iblt`. -/
def applyIbltKeys (cells : List IBLTCell) (keys : List IBLTKey) : Except PyError (List IBLTCell) :=
  keys.foldlM (fun cells key => applyIbltKey C P cells key 1) cells

/-- `_is_empty_iblt_cell`. -/
def isEmptyIbltCell (cell : IBLTCell) : Bool := cell.count = 0 ∧ cell.sum = noKeys

/-- `_encode_iblt_cell`, which refuses a count or a checksum sum that does not fit. -/
def encodeIbltCell (badCount badChecksum : PyError) (cell : IBLTCell) : Except PyError Bytes := do
  Exn.ensure (0 ≤ cell.count ∧ cell.count ≤ u16Max) badCount
  Exn.ensure (cell.sum.2 ≤ u32Max) badChecksum
  return le 2 cell.count.toNat ++ cell.sum.1.bytes ++ le 4 cell.sum.2

/-- `_decode_iblt_cell`, on the next `_IBLT_CELL_BYTES` bytes. -/
def readIbltCell (truncated : PyError) : Reader PyError IBLTCell := do
  let count ← Reader.uint truncated 2
  let keySum ← Reader.fixed truncated 8
  let checksumSum ← Reader.uint truncated 4
  return ⟨count, keySum, checksumSum⟩

end Cells

end TensorPow
