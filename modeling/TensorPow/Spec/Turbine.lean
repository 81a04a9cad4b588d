import TensorPow.Sorted.Basic
import TensorPow.Spec.Basic

/-!
# Turbine relay

The relay tree and the erasure coding of `net/turbine.py`. The Reed-Solomon codec comes from
`reedsolo` and is a parameter.

* `encodePayload`, `decodePayload`: a payload as shards, and back from enough of them.
* `deriveRelayTree`: the tree over the peers, best relays first.
* `arrivalTimes`: when a chunk sent by the root arrives.
-/

namespace TensorPow.Turbine

open Wire Sorted

/-- `_RS_MAX_SHARDS`. -/
def rsMaxShards : ℕ := 255

/-- `TURBINE_MIN_FANOUT`. -/
def minFanout : ℕ := 2

/-- `_TREE_DOMAIN`. -/
def treeDomain : Bytes :=
  [84, 101, 110, 115, 111, 114, 80, 111, 87, 32, 84, 117, 114, 98, 105, 110, 101, 32, 116, 114, 101, 101]

/-- `_require_u32`. -/
def requireU32 (name : String) (value : ℕ) : Except PyError Unit :=
  Exn.ensure (value ≤ u32Max) (.valueError (name ++ " must fit in uint32"))

/-- `_require_positive_int`. -/
def requirePositiveInt (name : String) (value : ℕ) : Except PyError Unit :=
  Exn.ensure (value ≠ 0) (.valueError (name ++ " must be positive"))

/-- `_ceil_div`, for a positive denominator. -/
def ceilDiv (numerator denominator : ℕ) : ℕ := (numerator + denominator - 1) / denominator

/-! ## Erasure coding -/

/-- `RSCodec(parity_shard_count, nsize=data_shard_count + parity_shard_count)`. -/
structure Codec where
  /-- `codec.encode(symbols)`. -/
  encode : (dataShardCount parityShardCount : ℕ) → Bytes → Bytes
  /-- `codec.decode(codeword, erase_pos=erase_pos)[0]`, if it does not raise `ReedSolomonError`. -/
  decode : (dataShardCount parityShardCount : ℕ) → Bytes → List ℕ → Option Bytes

/-- `_expected_shard_size`, without its checks. -/
def shardSizeOf (payloadLength dataShardCount : ℕ) : ℕ := max 1 (ceilDiv payloadLength dataShardCount)

/-- The fields of a chunk. -/
structure ChunkFields where
  index : ℕ
  dataShardCount : ℕ
  parityShardCount : ℕ
  payloadLength : ℕ
  data : Bytes
deriving DecidableEq

/-- `TurbineChunk.total_shards`. -/
def ChunkFields.totalShards (c : ChunkFields) : ℕ := c.dataShardCount + c.parityShardCount

/-- `TurbineChunk.__post_init__`. -/
def ChunkFields.postInit (c : ChunkFields) : Except PyError Unit := do
  requirePositiveInt "data_shard_count" c.dataShardCount
  requirePositiveInt "parity_shard_count" c.parityShardCount
  requireU32 "payload_length" c.payloadLength
  Exn.ensure (c.totalShards ≤ rsMaxShards) (.valueError "total shard count exceeds Reed-Solomon limit")
  Exn.ensure (c.index < c.totalShards) (.valueError "chunk index outside shard set")
  Exn.ensure (c.data.length ≠ 0) (.valueError "chunk data must not be empty")
  Exn.ensure (c.data.length = shardSizeOf c.payloadLength c.dataShardCount)
    (.valueError "chunk data length does not match payload and shard count")

/-- `TurbineChunk`. -/
structure Chunk extends ChunkFields where
  valid : toChunkFields.postInit = .ok ()
deriving DecidableEq

/-- The constructor: the fields, if they pass the checks. -/
def Chunk.make (f : ChunkFields) : Except PyError Chunk :=
  match h : f.postInit with
  | .ok () => .ok ⟨f, h⟩
  | .error e => .error e

/-- `_require_shard_counts`. -/
def requireShardCounts (dataShardCount parityShardCount : ℕ) : Except PyError Unit := do
  requirePositiveInt "data_shard_count" dataShardCount
  requirePositiveInt "parity_shard_count" parityShardCount
  Exn.ensure (dataShardCount + parityShardCount ≤ rsMaxShards)
    (.valueError "total shard count exceeds Reed-Solomon limit")

section Coding

variable (K : Codec)

/-- The padded payload, cut into the data shards. -/
def dataShards (payload : Bytes) (dataShardCount shardSize : ℕ) : List Bytes :=
  let padded := payload ++ List.replicate (shardSize * dataShardCount - payload.length) 0
  (List.range dataShardCount).map fun index => (padded.drop (index * shardSize)).take shardSize

/-- One round of the loop of `encode_payload`: the encoded symbols at an offset. -/
def encodeColumn (dataShardCount parityShardCount : ℕ) (shards : List Bytes) (offset : ℕ) :
    Except PyError Bytes := do
  let symbols := shards.map fun shard => shard.getD offset 0
  let encoded := K.encode dataShardCount parityShardCount symbols
  Exn.ensure (encoded.length = dataShardCount + parityShardCount)
    (.runtimeError "Reed-Solomon codec returned unexpected shard count")
  return encoded

/-- The shard that the columns write at an index. -/
def shardOf (columns : List Bytes) (index : ℕ) : Bytes := columns.map fun column => column.getD index 0

/-- `encode_payload`. -/
def encodePayload (payload : Bytes) (dataShardCount parityShardCount : ℕ) : Except PyError (List Chunk) := do
  requireU32 "payload length" payload.length
  requireShardCounts dataShardCount parityShardCount
  let shardSize := shardSizeOf payload.length dataShardCount
  let shards := dataShards payload dataShardCount shardSize
  let columns ← (List.range shardSize).mapM (encodeColumn K dataShardCount parityShardCount shards)
  (List.range (dataShardCount + parityShardCount)).mapM fun index =>
    Chunk.make { index, dataShardCount, parityShardCount, payloadLength := payload.length,
                 data := shardOf columns index }

/-- One round of the loop of `_canonical_chunks`, over the indexes so far. -/
def checkChunk (first : Chunk) (indexes : Finset ℕ) (chunk : Chunk) : Except PyError (Finset ℕ) := do
  Exn.ensure (chunk.index ∉ indexes) (.valueError "duplicate chunk index")
  Exn.ensure (chunk.dataShardCount = first.dataShardCount) (.valueError "inconsistent data shard count")
  Exn.ensure (chunk.parityShardCount = first.parityShardCount) (.valueError "inconsistent parity shard count")
  Exn.ensure (chunk.payloadLength = first.payloadLength) (.valueError "inconsistent payload length")
  Exn.ensure (chunk.data.length = first.data.length) (.valueError "inconsistent chunk data length")
  return insert chunk.index indexes

/-- `_canonical_chunks`: the first chunk of the sorted ones, and the others. -/
def canonicalChunks (chunks : List Chunk) : Except PyError (Chunk × List Chunk) := do
  let first ← Exn.get chunks.head? (.valueError "chunks must not be empty")
  let _ ← chunks.foldlM (checkChunk first) ∅
  match sortBy (fun c : Chunk => c.index) chunks with
  | [] => .error (.valueError "chunks must not be empty")
  | c :: rest => .ok (c, rest)

/-- The chunk with an index. -/
def presentAt (chunks : List Chunk) (index : ℕ) : Option Chunk := chunks.find? fun c => c.index = index

/-- One round of the loop of `decode_payload`: the data symbols at an offset. A symbol too
many has no shard to be written to. -/
def decodeColumn (first : Chunk) (chunks : List Chunk) (missing : List ℕ) (offset : ℕ) : Except PyError Bytes := do
  let codeword := (List.range first.totalShards).map fun index =>
    ((presentAt chunks index).map fun c => c.data.getD offset 0).getD 0
  let decoded ← Exn.get (K.decode first.dataShardCount first.parityShardCount codeword missing)
    (.valueError "invalid Reed-Solomon chunk set")
  Exn.ensure (decoded.length ≤ first.dataShardCount) (.indexError "list index out of range")
  return decoded

/-- `decode_payload`. -/
def decodePayload (chunks : List Chunk) : Except PyError Bytes := do
  let (first, rest) ← canonicalChunks chunks
  let chunks := first :: rest
  Exn.ensure (first.dataShardCount ≤ chunks.length) (.valueError "not enough chunks to recover payload")
  let missing := (List.range first.totalShards).filter fun index => (presentAt chunks index).isNone
  Exn.ensure (missing.length ≤ first.parityShardCount) (.valueError "too many missing chunks to recover payload")
  let columns ← (List.range first.data.length).mapM (decodeColumn K first chunks missing)
  let recovered := (List.range first.dataShardCount).flatMap (shardOf columns)
  let payload := recovered.take first.payloadLength
  let canonical ← encodePayload K payload first.dataShardCount first.parityShardCount
  chunks.forM fun chunk => do
    let expected ← Exn.get canonical[chunk.index]? (.indexError "tuple index out of range")
    Exn.ensure (expected.data = chunk.data) (.valueError "chunk data does not match recovered payload")
  return payload

end Coding

/-! ## The relay tree -/

/-- The fields of a peer. -/
structure PeerFields where
  peerId : Bytes
  latencyMs : ℕ
  bandwidthBytesPerMs : ℕ
deriving DecidableEq

/-- `_require_peer_id`. -/
def requirePeerId (peerId : Bytes) : Except PyError Unit :=
  Exn.ensure (peerId.length ≠ 0) (.valueError "peer_id must not be empty")

/-- `TurbinePeer.__post_init__`. -/
def PeerFields.postInit (p : PeerFields) : Except PyError Unit := do
  requirePeerId p.peerId
  requirePositiveInt "latency_ms" p.latencyMs
  requirePositiveInt "bandwidth_bytes_per_ms" p.bandwidthBytesPerMs

/-- `TurbinePeer`. -/
structure Peer extends PeerFields where
  valid : toPeerFields.postInit = .ok ()
deriving DecidableEq

/-- The fields of an assignment of children to a parent. -/
structure AssignmentFields where
  parentPeerId : Bytes
  childPeerIds : List Bytes
deriving DecidableEq

/-- `RelayAssignment.__post_init__`. -/
def AssignmentFields.postInit (a : AssignmentFields) : Except PyError Unit := do
  requirePeerId a.parentPeerId
  Exn.ensure a.childPeerIds.Nodup (.valueError "child_peer_ids must be unique")
  a.childPeerIds.forM requirePeerId

/-- `RelayAssignment`. -/
structure Assignment extends AssignmentFields where
  valid : toAssignmentFields.postInit = .ok ()
deriving DecidableEq

/-- The constructor: the fields, if they pass the checks. -/
def Assignment.make (f : AssignmentFields) : Except PyError Assignment :=
  match h : f.postInit with
  | .ok () => .ok ⟨f, h⟩
  | .error e => .error e

/-- The fields of a relay tree. -/
structure RelayTreeFields where
  rootPeerId : Bytes
  assignments : List Assignment
deriving DecidableEq

/-- The inner step of `TurbineRelayTree.__post_init__`: one child, over the children seen. -/
def seeChild (seen : Finset Bytes) (childPeerId : Bytes) : Except PyError (Finset Bytes) := do
  Exn.ensure (childPeerId ∉ seen) (.valueError "peer appears under more than one parent")
  return insert childPeerId seen

/-- `TurbineRelayTree.__post_init__`. -/
def RelayTreeFields.postInit (t : RelayTreeFields) : Except PyError Unit := do
  requirePeerId t.rootPeerId
  let _ ← t.assignments.foldlM (fun seen a => a.childPeerIds.foldlM seeChild seen) ∅

/-- `TurbineRelayTree`. -/
structure RelayTree extends RelayTreeFields where
  valid : toRelayTreeFields.postInit = .ok ()
deriving DecidableEq

/-- The constructor: the fields, if they pass the checks. -/
def RelayTree.make (f : RelayTreeFields) : Except PyError RelayTree :=
  match h : f.postInit with
  | .ok () => .ok ⟨f, h⟩
  | .error e => .error e

/-- `_relay_score`. -/
def relayScore (peer : Peer) : ℕ := peer.bandwidthBytesPerMs * 1000 / peer.latencyMs

/-- `_adaptive_fanout`. -/
def adaptiveFanout (peer : Peer) (maxFanout : ℕ) : ℕ :=
  let score := relayScore peer
  let fanout :=
    if 4000000 ≤ score then 16
    else if 2000000 ≤ score then 12
    else if 1000000 ≤ score then 8
    else if 500000 ≤ score then 4
    else minFanout
  min maxFanout fanout

/-- One round of the loop of `_canonical_peers`, over the peer ids so far. -/
def checkPeer (peerIds : Finset Bytes) (peer : Peer) : Except PyError (Finset Bytes) := do
  Exn.ensure (peer.peerId ∉ peerIds) (.valueError "peer ids must be unique")
  return insert peer.peerId peerIds

/-- `_canonical_peers`. -/
def canonicalPeers (peers : List Peer) : Except PyError (List Peer) := do
  Exn.ensure (peers ≠ []) (.valueError "peers must not be empty")
  let _ ← peers.foldlM checkPeer ∅
  return peers

/-- The sort key of `derive_relay_tree`: the best score first, ties by the seeded digest. -/
def treeKey (C : Crypto) (anchorSeed : Hash) (peer : Peer) : ℤ ×ₗ Hash ×ₗ Bytes :=
  toLex (-(relayScore peer : ℤ), toLex (C.hashBytes (treeDomain ++ anchorSeed.bytes ++ peer.peerId), peer.peerId))

/-- The loop of `derive_relay_tree`; `fuel` bounds its rounds. -/
def assignLoop (maxFanout : ℕ) : ℕ → List Peer → List Peer → Except PyError (List Assignment)
  | _, _, [] => .ok []
  | 0, _, _ :: _ => .error .recursionError
  | _ + 1, [], _ :: _ => .error (.indexError "pop from empty list")
  | fuel + 1, parent :: queue, remaining => do
    let fanout := min (adaptiveFanout parent maxFanout) remaining.length
    let children := remaining.take fanout
    let assignment ← Assignment.make { parentPeerId := parent.peerId,
                                       childPeerIds := children.map fun child => child.peerId }
    let rest ← assignLoop maxFanout fuel (queue ++ children) (remaining.drop fanout)
    return assignment :: rest

/-- `derive_relay_tree`. -/
def deriveRelayTree (C : Crypto) (anchorSeed : Hash) (peers : List Peer) (maxFanout : ℕ) :
    Except PyError RelayTree := do
  let peerTuple ← canonicalPeers peers
  requirePositiveInt "max_fanout" maxFanout
  Exn.ensure (minFanout ≤ maxFanout) (.valueError "max_fanout must be at least TURBINE_MIN_FANOUT")
  match sortBy (treeKey C anchorSeed) peerTuple with
  | [] => .error (.indexError "list index out of range")
  | root :: remaining => do
    let assignments ← assignLoop maxFanout remaining.length [root] remaining
    RelayTree.make { rootPeerId := root.peerId, assignments }

/-! ## Arrival times -/

/-- `TurbineRelayTree.children_by_parent`. -/
def RelayTree.childrenByParent (t : RelayTree) : Table Bytes (List Bytes) :=
  Table.putAll ∅ (t.assignments.map fun a => (a.parentPeerId, a.childPeerIds))

/-- `_edge_latency_ms`. -/
def edgeLatencyMs (parent child : Peer) (chunkSize : ℕ) : ℕ :=
  let transmissionMs := ceilDiv chunkSize (min parent.bandwidthBytesPerMs child.bandwidthBytesPerMs)
  max 1 ((parent.latencyMs + child.latencyMs) / 2 + transmissionMs)

/-- The inner loop of `_arrival_times`, over the arrivals and the queue. -/
def arrive (peerById : Table Bytes Peer) (chunkSize : ℕ) (dropout : Finset Bytes) (parent : Peer)
    (parentArrival : ℕ) (acc : Table Bytes ℕ × List Bytes) (childId : Bytes) :
    Except PyError (Table Bytes ℕ × List Bytes) :=
  if childId ∈ dropout then .ok acc
  else do
    let child ← item peerById childId
    return (acc.1.insert childId (parentArrival + edgeLatencyMs parent child chunkSize), acc.2 ++ [childId])

/-- The outer loop of `_arrival_times`; `fuel` bounds its rounds. -/
def arrivalLoop (children : Table Bytes (List Bytes)) (peerById : Table Bytes Peer) (chunkSize : ℕ)
    (dropout : Finset Bytes) : ℕ → Table Bytes ℕ → List Bytes → Except PyError (Table Bytes ℕ)
  | _, arrivalByPeer, [] => .ok arrivalByPeer
  | 0, _, _ :: _ => .error .recursionError
  | fuel + 1, arrivalByPeer, parentId :: queue => do
    let parent ← item peerById parentId
    let parentArrival ← item arrivalByPeer parentId
    let (arrivalByPeer, queue) ← (children[parentId]?.getD []).foldlM
      (arrive peerById chunkSize dropout parent parentArrival) (arrivalByPeer, queue)
    arrivalLoop children peerById chunkSize dropout fuel arrivalByPeer queue

/-- `_arrival_times`. Every round takes another peer off the queue. -/
def arrivalTimes (tree : RelayTree) (peerById : Table Bytes Peer) (chunkSize : ℕ) (dropout : Finset Bytes) :
    Except PyError (Table Bytes ℕ) :=
  if tree.rootPeerId ∈ dropout then .ok ∅
  else arrivalLoop tree.childrenByParent peerById chunkSize dropout peerById.size
    ((∅ : Table Bytes ℕ).insert tree.rootPeerId 0) [tree.rootPeerId]

/-- `peer_by_id` of `simulate_propagation`. -/
def peerById (peers : List Peer) : Table Bytes Peer := Table.putAll ∅ (peers.map fun peer => (peer.peerId, peer))

end TensorPow.Turbine
