import TensorPow.Spec.Basic
import TensorPow.Wire.Reader

/-!
# The shard tree

The part of `mempool/shard_tree.py` that block validation uses: a tree is its list of
leaf shard ids, which `_validate_leaf_partition` checks to be a partition of the low
bits of transaction ids.
-/

namespace TensorPow

open Wire

/-- `ROOT_SHARD_ID`. -/
def rootShardId : ℕ := 0

/-- `SHARD_TREE_MAX_BYTES`. -/
def shardTreeMaxBytes : ℕ := 262144

/-- `encode_shard_id`. -/
def encodeShardId (depth path : ℕ) : Except PyError ℕ := do
  Exn.ensure (depth ≤ shardMaxDepth) (.valueError "shard_id depth exceeds SHARD_MAX_DEPTH")
  Exn.ensure (path < 2 ^ depth) (.valueError "shard_id path is outside depth")
  return depth * 2 ^ 16 + path

/-- `decode_shard_id`. -/
def decodeShardId (shardId : ℕ) : Except PyError (ℕ × ℕ) := do
  requireShardId shardId
  return (shardDepth shardId, shardPath shardId)

/-- The loop body of `_validate_leaf_partition`: no ancestor of the leaf was seen, and the
leaf adds its share of the paths of depth `SHARD_MAX_DEPTH`. -/
def coverLeaf (acc : Finset ℕ × ℕ) (shardId : ℕ) : Except PyError (Finset ℕ × ℕ) := do
  let (depth, path) ← decodeShardId shardId
  (List.range depth).forM fun ancestorDepth => do
    let ancestor ← encodeShardId ancestorDepth (path % 2 ^ ancestorDepth)
    Exn.ensure (ancestor ∉ acc.1) (.valueError "leaf shard_ids overlap")
  return (insert shardId acc.1, acc.2 + 2 ^ (shardMaxDepth - depth))

/-- `_validate_leaf_partition`. -/
def validateLeafPartition (leafShardIds : List ℕ) : Except PyError Unit := do
  Exn.ensure (leafShardIds ≠ []) (.valueError "leaf_shard_ids must be nonzero")
  Exn.ensure (Sorted.sortBy id leafShardIds = leafShardIds)
    (.valueError "leaf_shard_ids must be strictly ascending")
  Exn.ensure leafShardIds.Nodup (.valueError "duplicate leaf shard_id")
  let (_, coverage) ← leafShardIds.foldlM coverLeaf (∅, 0)
  Exn.ensure (coverage = 2 ^ shardMaxDepth)
    (.valueError "leaf shard_ids leave a gap in the root partition")

/-- `ShardTree`. -/
structure ShardTree where
  leafShardIds : List ℕ
  valid : validateLeafPartition leafShardIds = .ok ()
deriving DecidableEq

namespace ShardTree

/-- `ShardTree()`: the root is the only leaf. -/
def root : ShardTree := ⟨[rootShardId], by decide +kernel⟩

/-- The constructor: the leaves, if they pass the checks. -/
def make (leafShardIds : List ℕ) : Except PyError ShardTree :=
  match h : validateLeafPartition leafShardIds with
  | .ok () => .ok ⟨leafShardIds, h⟩
  | .error e => .error e

/-- Does the leaf match the low bits of `route`? -/
def leafMatches (route shardId : ℕ) : Bool := shardPath shardId = route % 2 ^ shardDepth shardId

/-- `ShardTree.route_tx`. -/
def routeTx (t : ShardTree) (txHash : Hash) : Except PyError ℕ :=
  Exn.get (t.leafShardIds.find? (leafMatches txHash.toNat))
    (.assertionError "validated shard tree has no route for tx_hash")

/-- `ShardTree.serialize`. -/
def serialize (t : ShardTree) : Bytes := le 4 t.leafShardIds.length ++ t.leafShardIds.flatMap (le 4)

/-- `ShardTree.deserialize`. -/
def deserialize (data : Bytes) : Except PyError ShardTree := do
  Exn.ensure (data.length ≤ shardTreeMaxBytes) (.valueError "shard tree exceeds SHARD_TREE_MAX_BYTES")
  let truncated : PyError := .valueError "truncated shard tree"
  let leaves ← Reader.parse (do
    let l ← Reader.replicate (Reader.uint truncated 4) (← Reader.uint truncated 4)
    Reader.finish (.valueError "trailing shard tree bytes")
    return l) data
  make leaves

end ShardTree

end TensorPow
