import TensorPow.Spec.ShardTree

/-!
# Splitting and merging shards

The rest of `mempool/shard_tree.py`: parents and children of shard ids, the two
operations that replace leaves of a tree, and the operations of one anchor as a batch.
-/

namespace TensorPow

open Sorted

/-- `parent_shard_id`. -/
def parentShardId (shardId : ℕ) : Except PyError ℕ := do
  let (depth, path) ← decodeShardId shardId
  Exn.ensure (depth ≠ 0) (.valueError "root shard has no parent")
  encodeShardId (depth - 1) (path % 2 ^ (depth - 1))

/-- `child_shard_ids`. -/
def childShardIds (shardId : ℕ) : Except PyError (ℕ × ℕ) := do
  let (depth, path) ← decodeShardId shardId
  Exn.ensure (depth < shardMaxDepth) (.valueError "split would exceed SHARD_MAX_DEPTH")
  let left ← encodeShardId (depth + 1) path
  let right ← encodeShardId (depth + 1) (path ||| 2 ^ depth)
  return (left, right)

/-- `require_sibling_shards`: the pair, in ascending order. -/
def requireSiblingShards (siblings : ℕ × ℕ) : Except PyError (ℕ × ℕ) := do
  let (left, right) := siblings
  let (leftDepth, leftPath) ← decodeShardId left
  let (rightDepth, rightPath) ← decodeShardId right
  Exn.ensure (left ≠ right) (.valueError "siblings must be distinct")
  Exn.ensure (leftDepth = rightDepth) (.valueError "siblings must have the same depth")
  Exn.ensure (leftDepth ≠ 0) (.valueError "root shard cannot be merged")
  Exn.ensure (leftPath % 2 ^ (leftDepth - 1) = rightPath % 2 ^ (leftDepth - 1))
    (.valueError "siblings must share a parent")
  Exn.ensure (({leftPath / 2 ^ (leftDepth - 1), rightPath / 2 ^ (rightDepth - 1)} : Finset ℕ) = {0, 1})
    (.valueError "siblings must be opposite children")
  return (min left right, max left right)

namespace ShardTree

/-- `ShardTree.leaf_set`. -/
def leafSet (t : ShardTree) : Finset ℕ := t.leafShardIds.toFinset

/-- `apply_split`. -/
def applySplit (tree : ShardTree) (shardId : ℕ) : Except PyError ShardTree := do
  requireShardId shardId
  Exn.ensure (shardId ∈ tree.leafSet) (.valueError "shard_id is not a leaf")
  let (left, right) ← childShardIds shardId
  make (ascending ((tree.leafSet \ {shardId}) ∪ {left, right}))

/-- `apply_merge`. -/
def applyMerge (tree : ShardTree) (siblings : ℕ × ℕ) : Except PyError ShardTree := do
  let (left, right) ← requireSiblingShards siblings
  Exn.ensure (left ∈ tree.leafSet ∧ right ∈ tree.leafSet) (.valueError "siblings must both be leaves")
  let parent ← parentShardId left
  make (ascending ((tree.leafSet \ {left, right}) ∪ {parent}))

/-- `ShardTree.state_root`. -/
def stateRoot (C : Crypto) (t : ShardTree) : Except PyError Hash := do
  Exn.ensure (t.serialize.length ≤ shardTreeMaxBytes)
    (.valueError "canonical_shard_tree_bytes exceeds SHARD_TREE_MAX_BYTES")
  return C.domainHash domainShardTree t.serialize

end ShardTree

/-! ## The operations of one anchor -/

/-- `ShardTreeOperation`. The constructor of `ShardMerge` puts its siblings in order. -/
inductive ShardTreeOperation where
  /-- `ShardSplit` -/
  | split (shardId : ℕ) (valid : requireShardId shardId = .ok ())
  /-- `ShardMerge` -/
  | merge (siblings : ℕ × ℕ) (valid : requireSiblingShards siblings = .ok siblings)
deriving DecidableEq

/-- `_operation_parent`. -/
def operationParent : ShardTreeOperation → Except PyError ℕ
  | .split shardId _ => .ok shardId
  | .merge siblings _ => parentShardId siblings.1

/-- `_apply_operation`. -/
def applyOperation (tree : ShardTree) : ShardTreeOperation → Except PyError ShardTree
  | .split shardId _ => tree.applySplit shardId
  | .merge siblings _ => tree.applyMerge siblings

/-- `ShardTreeUpdate`. -/
structure ShardTreeUpdate where
  tree : ShardTree
  applied : List ShardTreeOperation
  queued : List ShardTreeOperation
deriving DecidableEq

/-- One round of the loop of `apply_operations`; the set is `used_parents`. -/
def operationRound (s : ShardTreeUpdate × Finset ℕ) (operation : ShardTreeOperation) :
    Except PyError (ShardTreeUpdate × Finset ℕ) := do
  let parent ← operationParent operation
  if parent ∈ s.2 then return ({ s.1 with queued := s.1.queued ++ [operation] }, s.2)
  let tree ← applyOperation s.1.tree operation
  return ({ s.1 with tree, applied := s.1.applied ++ [operation] }, insert parent s.2)

/-- `apply_operations`. -/
def applyOperations (tree : ShardTree) (operations : List ShardTreeOperation) : Except PyError ShardTreeUpdate := do
  let s ← operations.foldlM operationRound (⟨tree, [], []⟩, ∅)
  return s.1

end TensorPow
