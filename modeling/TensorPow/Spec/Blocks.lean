import TensorPow.Spec.Headers
import TensorPow.Spec.ShardTree
import TensorPow.Spec.Transaction

/-!
# Fruit and anchor bodies

`chain/merkle.py` and `chain/blocks.py`. A `Fruit` or `Anchor` carries the proof that
its fields pass the checks of `__post_init__`, the commitments of the header to the
body among them.
-/

namespace TensorPow

open Wire Sorted

variable (C : Crypto)

/-- `n.to_bytes(w, "little")`, which raises when `n` does not fit. -/
def encodeUint (w n : ℕ) : Except PyError Bytes := do
  Exn.ensure (n < 256 ^ w) (.overflowError "int too big to convert")
  return le w n

/-! ## Ordered Merkle roots -/

/-- The leaf hash of an item. -/
def merkleLeaf (domain : Byte) (index : ℕ) (item : Bytes) : Hash :=
  C.domainHash domain (0x00 :: (le 4 index ++ le 4 item.length ++ item))

/-- The hash that stands for a missing right node. -/
def merkleEmpty (domain : Byte) (level index : ℕ) : Hash :=
  C.domainHash domain (0x02 :: (le 2 level ++ le 4 index))

/-- The hash of an inner node. -/
def merkleNode (domain : Byte) (level index : ℕ) (left right : Hash) : Hash :=
  C.domainHash domain (0x01 :: (le 2 level ++ le 4 index ++ left.bytes ++ right.bytes))

/-- The next level of the tree, from node `index` on. -/
def merkleNextLevel (domain : Byte) (level : ℕ) : ℕ → List Hash → List Hash
  | _, [] => []
  | index, [left] => [merkleNode C domain level index left (merkleEmpty C domain level index)]
  | index, left :: right :: rest =>
    merkleNode C domain level index left right :: merkleNextLevel domain level (index + 1) rest

/-- The levels above a level, up to its root; `fuel` bounds the number of levels. -/
def merkleClimb (domain : Byte) : ℕ → ℕ → List Hash → Hash
  | 0, _, nodes => nodes.headD genesisParentHash
  | fuel + 1, level, nodes =>
    match nodes with
    | [] => genesisParentHash
    | [root] => root
    | nodes => merkleClimb domain fuel (level + 1) (merkleNextLevel C domain level 0 nodes)

/-- `ordered_merkle_root`. A leaf index is four bytes wide. -/
def orderedMerkleRoot (domain : Byte) (items : List Bytes) (rejectDuplicates : Bool) : Except PyError Hash := do
  items.forM fun item =>
    Exn.ensure (item.length ≤ u32Max) (.valueError "item is too large")
  Exn.ensure (rejectDuplicates = false ∨ items.Nodup) (.valueError "duplicate items are not allowed")
  if items = [] then return C.domainHash domain (0x02 :: le 4 0)
  Exn.ensure (items.length ≤ 256 ^ 4) (.overflowError "int too big to convert")
  let leaves := items.zipIdx.map fun p => merkleLeaf C domain p.2 p.1
  return merkleClimb C domain items.length 0 leaves

/-! ## Fruits -/

/-- `MAX_FRUIT_PAYLOAD_BYTES`. -/
def maxFruitPayloadBytes : ℕ := 8192

/-- `tx_merkle_root`. -/
def txMerkleRoot (transactions : List Bytes) : Except PyError Hash :=
  orderedMerkleRoot C domainTxMerkleRoot
    (transactions.map fun tx => (C.domainHash domainTxId tx).bytes) false

/-- `fruit_payload_size_bytes`. -/
def fruitPayloadSizeBytes (transactions : List Bytes) : ℕ :=
  2 + (transactions.map fun tx => 2 + tx.length).sum

/-- The fields of a fruit. -/
structure FruitFields where
  header : FruitHeader
  transactions : List Bytes
deriving DecidableEq

/-- `Fruit.__post_init__`. -/
def FruitFields.postInit (f : FruitFields) : Except PyError Unit := do
  f.transactions.forM fun tx => requireMaxLen "transaction" tx u16Max
  Exn.ensure (1 ≤ f.transactions.length) (.valueError "fruit must contain the coinbase transaction")
  Exn.ensure (fruitPayloadSizeBytes f.transactions ≤ maxFruitPayloadBytes)
    (.valueError "fruit payload exceeds MAX_FRUIT_PAYLOAD_BYTES")
  let root ← txMerkleRoot C f.transactions
  Exn.ensure (root = f.header.txMerkleRoot) (.valueError "fruit tx_merkle_root does not match transactions")

/-- `Fruit`. -/
structure Fruit extends FruitFields where
  valid : toFruitFields.postInit C = .ok ()
deriving DecidableEq

variable {C}

namespace Fruit

/-- The constructor: the fields, if they pass the checks. -/
def make (f : FruitFields) : Except PyError (Fruit C) :=
  match h : f.postInit C with
  | .ok () => .ok ⟨f, h⟩
  | .error e => .error e

/-- `Fruit.serialize`. The payload bound keeps every count and length inside two bytes. -/
def serialize (f : Fruit C) : Bytes :=
  le 2 f.header.serialize.length ++ f.header.serialize ++ le 2 f.transactions.length ++
    f.transactions.flatMap fun tx => le 2 tx.length ++ tx

/-- The error of a reader that runs out of block bytes. -/
def truncated : PyError := .valueError "truncated block"

/-- `Fruit.deserialize`. -/
def deserialize (data : Bytes) : Except PyError (Fruit C) := do
  let fields ← Reader.parse (do
    let headerBytes ← Reader.take truncated (← Reader.uint truncated 2)
    let header ← Reader.lift (FruitHeader.deserialize headerBytes)
    let transactions ← Reader.replicate (do Reader.take truncated (← Reader.uint truncated 2))
      (← Reader.uint truncated 2)
    Reader.finish (.valueError "trailing block bytes")
    return ({ header, transactions } : FruitFields)) data
  make fields

/-- `Fruit.block_hash`. -/
def blockHash (f : Fruit C) : Hash := f.header.headerHash C

end Fruit

variable (C)

/-! ## Anchors -/

/-- `PARENT_CANDIDATE_MAX_COUNT`. -/
def parentCandidateMaxCount : ℕ := 10000

/-- The fields of a fee-floor entry. -/
structure FeeFloorFields where
  shardId : ℕ
  floorMatomsPerKb : ℕ
deriving DecidableEq

/-- `FeeFloorEntry.__post_init__`. -/
def FeeFloorFields.postInit (e : FeeFloorFields) : Except PyError Unit := do
  requireShardId e.shardId
  requireUint "floor_matoms_per_kb" e.floorMatomsPerKb u64Max

/-- `FeeFloorEntry`: the fee floor of one shard. -/
structure FeeFloorEntry extends FeeFloorFields where
  valid : toFeeFloorFields.postInit = .ok ()
deriving DecidableEq

/-- The constructor: the fields, if they pass the checks. -/
def FeeFloorEntry.make (f : FeeFloorFields) : Except PyError FeeFloorEntry :=
  match h : f.postInit with
  | .ok () => .ok ⟨f, h⟩
  | .error e => .error e

/-- `FeeFloorEntry.serialize`. -/
def FeeFloorEntry.serialize (e : FeeFloorEntry) : Bytes := le 4 e.shardId ++ le 8 e.floorMatomsPerKb

/-- The fields of an anchor. -/
structure AnchorFields where
  header : AnchorHeader
  coveredFruitHashes : List Hash
  parentCandidateHashes : List Hash
  shardTreeBytes : Bytes
  feeFloorEntries : List FeeFloorEntry
  anchorRewardOutputs : List Output
  genesisCommitment : Hash
deriving DecidableEq

namespace AnchorFields

/-- A nonzero `genesis_commitment` marks a genesis anchor. -/
def isGenesis (a : AnchorFields) : Prop := a.genesisCommitment ≠ FixedBytes.zero 32

instance (a : AnchorFields) : Decidable a.isGenesis := inferInstanceAs (Decidable (_ ≠ _))

/-- The checks a genesis anchor gets in place of the others, `_validate_genesis_empty_state`
among them. -/
def checkGenesis (a : AnchorFields) : Except PyError Unit := do
  Exn.ensure (a.header.parentAnchor = FixedBytes.zero 32)
    (.valueError "genesis anchor must use GENESIS_PARENT_HASH")
  Exn.ensure (a.coveredFruitHashes = []) (.valueError "genesis anchor must not cover fruits")
  Exn.ensure (a.parentCandidateHashes = []) (.valueError "genesis anchor must not carry parent candidates")
  Exn.ensure (a.anchorRewardOutputs = []) (.valueError "genesis anchor must not carry reward outputs")
  Exn.ensure (a.shardTreeBytes = ShardTree.root.serialize)
    (.valueError "genesis anchor must use canonical root shard tree")
  Exn.ensure (a.feeFloorEntries.map (·.toFeeFloorFields) = [⟨rootShardId, 0⟩])
    (.valueError "genesis anchor must use zero root-shard fee floor")

/-- `fruit_set_root`. -/
def fruitSetRoot (a : AnchorFields) : Except PyError Hash :=
  orderedMerkleRoot C domainFruitSetRoot (a.coveredFruitHashes.map FixedBytes.bytes) true

/-- `parent_candidate_root`. -/
def parentCandidateRoot (a : AnchorFields) : Except PyError Hash :=
  orderedMerkleRoot C domainParentCandidateRoot (a.parentCandidateHashes.map FixedBytes.bytes) true

/-- `shard_tree_state_root`. -/
def shardTreeStateRoot (a : AnchorFields) : Hash := C.domainHash domainShardTree a.shardTreeBytes

/-- `fee_floor_set_root`. -/
def feeFloorSetRoot (a : AnchorFields) : Except PyError Hash :=
  orderedMerkleRoot C domainFeeFloor (a.feeFloorEntries.map FeeFloorEntry.serialize) false

/-- `anchor_reward_root`. -/
def anchorRewardRoot (a : AnchorFields) : Except PyError Hash :=
  orderedMerkleRoot C domainAnchorRewardRoot (a.anchorRewardOutputs.map Output.toBytes) false

/-- The header commits to the body. -/
def checkRoots (a : AnchorFields) : Except PyError Unit := do
  Exn.ensure ((← a.fruitSetRoot C) = a.header.fruitSetRoot) (.valueError "fruit_set_root mismatch")
  Exn.ensure ((← a.parentCandidateRoot C) = a.header.parentCandidateRoot)
    (.valueError "parent_candidate_root mismatch")
  Exn.ensure (a.shardTreeStateRoot C = a.header.shardTreeStateRoot)
    (.valueError "shard_tree_state_root mismatch")
  Exn.ensure ((← a.feeFloorSetRoot C) = a.header.feeFloorSetRoot) (.valueError "fee_floor_set_root mismatch")
  Exn.ensure ((← a.anchorRewardRoot C) = a.header.anchorRewardRoot)
    (.valueError "anchor_reward_root mismatch")

/-- `Anchor.__post_init__`. -/
def postInit (a : AnchorFields) : Except PyError Unit := do
  Exn.ensure a.coveredFruitHashes.Nodup (.valueError "covered_fruit_hashes must not contain duplicates")
  Exn.ensure a.parentCandidateHashes.Nodup
    (.valueError "parent_candidate_hashes must not contain duplicates")
  Exn.ensure (a.parentCandidateHashes.length ≤ parentCandidateMaxCount)
    (.valueError "too many parent candidates")
  Exn.ensure (sortBy id a.coveredFruitHashes = a.coveredFruitHashes)
    (.valueError "covered fruit hashes must be strictly ascending")
  requireMaxLen "shard_tree_bytes" a.shardTreeBytes shardTreeMaxBytes
  Exn.ensure (sortBy (fun e => e.shardId) a.feeFloorEntries = a.feeFloorEntries)
    (.valueError "fee floor entries must be sorted by shard_id")
  Exn.ensure (a.feeFloorEntries.map fun e => e.shardId).Nodup (.valueError "duplicate fee floor shard_id")
  if a.isGenesis then a.checkGenesis
  else Exn.ensure (a.coveredFruitHashes ≠ []) (.valueError "non-genesis anchor must cover at least one fruit")
  a.checkRoots C

/-- The bytes of an anchor, for counts and lengths that fit their fields. -/
def layout (a : AnchorFields) : Bytes :=
  le 2 a.header.serialize.length ++ a.header.serialize ++
    le 4 a.coveredFruitHashes.length ++ a.coveredFruitHashes.flatMap FixedBytes.bytes ++
    le 4 a.parentCandidateHashes.length ++ a.parentCandidateHashes.flatMap FixedBytes.bytes ++
    le 4 a.shardTreeBytes.length ++ a.shardTreeBytes ++
    le 4 a.feeFloorEntries.length ++ a.feeFloorEntries.flatMap FeeFloorEntry.serialize ++
    le 2 a.anchorRewardOutputs.length ++
    (a.anchorRewardOutputs.flatMap fun o => le 2 o.toBytes.length ++ o.toBytes) ++
    a.genesisCommitment.bytes

end AnchorFields

/-- `Anchor`. -/
structure Anchor extends AnchorFields where
  valid : toAnchorFields.postInit C = .ok ()
deriving DecidableEq

variable {C}

namespace Anchor

/-- The constructor: the fields, if they pass the checks. -/
def make (f : AnchorFields) : Except PyError (Anchor C) :=
  match h : f.postInit C with
  | .ok () => .ok ⟨f, h⟩
  | .error e => .error e

/-- `Anchor.serialize`. The constructor does not bound the counts of covered fruits, fee
floors and reward outputs, so their encodings can raise. -/
def serialize (a : Anchor C) : Except PyError Bytes := do
  let _ ← encodeUint 4 a.coveredFruitHashes.length
  let _ ← encodeUint 4 a.feeFloorEntries.length
  let _ ← encodeUint 2 a.anchorRewardOutputs.length
  return a.layout

/-- `_decode_anchor_reward_output`. -/
def decodeAnchorRewardOutput (data : Bytes) : Except PyError Output :=
  match Reader.parse (do
      let o ← Transaction.readOutput
      Reader.finish (.valueError "trailing transaction bytes")
      return o) data with
  | .ok o => .ok o
  | .error (.valueError _) => .error (.valueError "malformed anchor reward output")
  | .error (.typeError _) => .error (.valueError "malformed anchor reward output")
  | .error e => .error e

/-- `Anchor.deserialize`. -/
def deserialize (data : Bytes) : Except PyError (Anchor C) := do
  let truncated := Fruit.truncated
  let fields ← Reader.parse (do
    let headerBytes ← Reader.take truncated (← Reader.uint truncated 2)
    let header ← Reader.lift (AnchorHeader.deserialize headerBytes)
    let coveredFruitHashes ← Reader.replicate (Reader.fixed truncated 32) (← Reader.uint truncated 4)
    let parentCandidateHashes ← Reader.replicate (Reader.fixed truncated 32) (← Reader.uint truncated 4)
    let shardTreeBytes ← Reader.take truncated (← Reader.uint truncated 4)
    let feeFloorEntries ← Reader.replicate (do
        let shardId ← Reader.uint truncated 4
        let floorMatomsPerKb ← Reader.uint truncated 8
        Reader.lift (FeeFloorEntry.make { shardId, floorMatomsPerKb })) (← Reader.uint truncated 4)
    let anchorRewardOutputs ← Reader.replicate (do
        let outputBytes ← Reader.take truncated (← Reader.uint truncated 2)
        Reader.lift (decodeAnchorRewardOutput outputBytes)) (← Reader.uint truncated 2)
    let genesisCommitment ← Reader.fixed truncated 32
    Reader.finish (.valueError "trailing block bytes")
    return ({ header, coveredFruitHashes, parentCandidateHashes, shardTreeBytes, feeFloorEntries,
              anchorRewardOutputs, genesisCommitment } : AnchorFields)) data
  make fields

/-- `Anchor.block_hash`. A genesis anchor has no covered fruits and no reward outputs, so
its serialization does not raise. -/
def blockHash (a : Anchor C) : Hash :=
  if a.isGenesis then C.hashBytes a.layout else a.header.headerHash C

/-- The shard ids of the fee-floor entries. -/
def feeFloorShardIds (a : Anchor C) : List ℕ := a.feeFloorEntries.map fun e => e.shardId

end Anchor

end TensorPow
