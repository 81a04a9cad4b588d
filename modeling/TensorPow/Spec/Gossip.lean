import TensorPow.Spec.Basic
import TensorPow.Wire.Hex

/-!
# Gossip

The wire envelope and the topics of `net/libp2p_node.py`: what a node publishes on a topic, and
what it takes from a message that arrives. Topics are lists of characters.

* `encodeWireMessage`, `decodeWireMessage`: the envelope.
* `messageTypeForTopic`: what a topic carries.
* `publish`, `nextMessage`: both ends.
-/

namespace TensorPow

namespace Gossip

open Wire

/-! ## Constants -/

/-- `WIRE_MAGIC`. -/
def wireMagic : Bytes := [0x54, 0x50, 0x4f, 0x57]

/-- `WIRE_CHECKSUM_BYTES`. -/
def wireChecksumBytes : ℕ := 4

/-- `WIRE_MAX_PAYLOAD_BYTES`. -/
def wireMaxPayloadBytes : ℕ := 16777216

def msgTypeFruit : ℕ := 0x0001
def msgTypeAnchor : ℕ := 0x0002
def msgTypeTx : ℕ := 0x0003
def msgTypeGrapheneSketch : ℕ := 0x0004
def msgTypeErlaySketch : ℕ := 0x0005
def msgTypeDasRequest : ℕ := 0x0006
def msgTypeDasResponse : ℕ := 0x0007

/-- `KNOWN_MESSAGE_TYPES`. -/
def knownMessageTypes : List ℕ :=
  [msgTypeFruit, msgTypeAnchor, msgTypeTx, msgTypeGrapheneSketch, msgTypeErlaySketch, msgTypeDasRequest, msgTypeDasResponse]

/-- `TOPIC_FRUITS`. -/
def topicFruits : Text :=
  ['t', 'e', 'n', 's', 'o', 'r', 'p', 'o', 'w', '/', 'f', 'r', 'u', 'i', 't', 's', '/', 'm', 'a', 'i', 'n']

/-- `TOPIC_ANCHORS`. -/
def topicAnchors : Text :=
  ['t', 'e', 'n', 's', 'o', 'r', 'p', 'o', 'w', '/', 'a', 'n', 'c', 'h', 'o', 'r', 's', '/', 'm', 'a', 'i', 'n']

/-- `TOPIC_TXS_PREFIX`. -/
def topicTxsPrefix : Text := ['t', 'e', 'n', 's', 'o', 'r', 'p', 'o', 'w', '/', 't', 'x', 's', '/']

/-- `TOPIC_TXS_SUFFIX`. -/
def topicTxsSuffix : Text := ['/', 'm', 'a', 'i', 'n']

/-! ## The envelope -/

variable (C : Crypto)

/-- `_require_message_type`. -/
def requireMessageType (messageType : ℕ) : Except PyError Unit :=
  Exn.ensure (messageType ∈ knownMessageTypes) (.valueError "message_type is unknown")

/-- `_require_payload`. -/
def requirePayload (payload : Bytes) : Except PyError Unit :=
  Exn.ensure (payload.length ≤ wireMaxPayloadBytes) (.valueError "payload exceeds WIRE_MAX_PAYLOAD_BYTES")

/-- `_wire_checksum`. -/
def wireChecksum (payload : Bytes) : Bytes := (C.hashBytes payload).bytes.take wireChecksumBytes

/-- `encode_wire_message`. -/
def encodeWireMessage (messageType : ℕ) (payload : Bytes) : Except PyError Bytes := do
  requireMessageType messageType
  requirePayload payload
  return wireMagic ++ le 2 messageType ++ le 4 payload.length ++ payload ++ wireChecksum C payload

/-- `WireMessage`, with the checks of `__post_init__` as fields. -/
structure WireMessage where
  messageType : ℕ
  payload : Bytes
  type_ok : messageType ∈ knownMessageTypes
  payload_ok : payload.length ≤ wireMaxPayloadBytes

/-- The constructor. -/
def WireMessage.make (messageType : ℕ) (payload : Bytes) : Except PyError WireMessage :=
  if ht : messageType ∈ knownMessageTypes then
    if hp : payload.length ≤ wireMaxPayloadBytes then .ok ⟨messageType, payload, ht, hp⟩
    else .error (.valueError "payload exceeds WIRE_MAX_PAYLOAD_BYTES")
  else .error (.valueError "message_type is unknown")

/-- `decode_wire_message`. -/
def decodeWireMessage (data : Bytes) : Except PyError WireMessage := do
  let headerLen := wireMagic.length + 2 + 4
  Exn.ensure (headerLen + wireChecksumBytes ≤ data.length) (.valueError "wire message is truncated")
  Exn.ensure (data.take wireMagic.length = wireMagic) (.valueError "wire magic is invalid")
  let messageType := ofLe ((data.drop wireMagic.length).take 2)
  Exn.ensure (requireMessageType messageType = .ok ()) (.valueError "wire message_type is unknown")
  let payloadLen := ofLe ((data.drop (wireMagic.length + 2)).take 4)
  Exn.ensure (payloadLen ≤ wireMaxPayloadBytes) (.valueError "wire payload exceeds maximum size")
  Exn.ensure (data.length = headerLen + payloadLen + wireChecksumBytes) (.valueError "wire payload length mismatch")
  let payload := (data.drop headerLen).take payloadLen
  Exn.ensure (data.drop (headerLen + payloadLen) = wireChecksum C payload) (.valueError "wire checksum mismatch")
  WireMessage.make messageType payload

/-! ## Topics -/

/-- `topic_for_shard_txs`, which is `erlay_topic_for_shard`. A shard id has 32 bits, and `08x` writes
them in eight lower-case digits. -/
def topicForShardTxs (shardId : ℕ) : Except PyError Text := do
  requireShardId shardId
  return topicTxsPrefix ++ toHex (le 4 shardId).reverse ++ topicTxsSuffix

/-- `_require_topic`. -/
def requireTopic (topic : Text) : Except PyError Unit := Exn.ensure (topic ≠ []) (.valueError "topic must not be empty")

/-- `int(encoded, 16)` returns, and `encoded.lower()` is `encoded`: of the characters that `int` takes,
`lower` changes the capitals of ASCII. -/
def isLowerHex (encoded : Text) : Bool :=
  intBase16 encoded && encoded.all fun c => decide ¬(65 ≤ c.toNat ∧ c.toNat ≤ 90)

/-- `_is_shard_tx_topic`. -/
def isShardTxTopic (topic : Text) : Bool :=
  let encoded := (topic.take (topic.length - topicTxsSuffix.length)).drop topicTxsPrefix.length
  topicTxsPrefix.isPrefixOf topic && topicTxsSuffix.isSuffixOf topic && decide (encoded.length = 8) && isLowerHex encoded

/-- `message_type_for_topic`. -/
def messageTypeForTopic (topic : Text) : Except PyError ℕ := do
  requireTopic topic
  if topic = topicFruits then return msgTypeFruit
  else if topic = topicAnchors then return msgTypeAnchor
  else if isShardTxTopic topic then return msgTypeTx
  else .error (.valueError "topic has no wire message type")

/-! ## Both ends -/

/-- `LibP2PNode.publish`: the bytes it hands to the pubsub router. -/
def publish (topic : Text) (payload : Bytes) : Except PyError Bytes := do
  requireTopic topic
  let messageType ← messageTypeForTopic topic
  encodeWireMessage C messageType payload

/-- `LibP2PNode.next_message` for a message that the router delivers under `topicIds` to a
subscription of `topic`. -/
def nextMessage (topic : Text) (topicIds : List Text) (data : Bytes) : Except PyError Bytes := do
  requireTopic topic
  Exn.ensure (topic ∈ topicIds) (.runtimeError "received message for unexpected topic")
  match decodeWireMessage C data with
  | .error _ => .error (.runtimeError "received malformed wire message")
  | .ok message => do
    let expected ← messageTypeForTopic topic
    Exn.ensure (message.messageType = expected) (.runtimeError "received wire message_type for unexpected topic")
    return message.payload

end Gossip

end TensorPow
