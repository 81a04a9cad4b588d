import TensorPow.Proof.Routing
import TensorPow.Spec.Gossip
import TensorPow.Wire.Slice

/-!
# Gossip is exact

Bytes are accepted as a message exactly if `encode_wire_message` writes them (`decodeWireMessage_iff`).
So a subscriber of a topic takes a payload exactly from the bytes that publishing it on that topic
gives (`gossip_exact`), and the topics of two shards never mix (`shard_gossip`).
-/

namespace TensorPow

namespace Gossip

open Wire

variable {C : Crypto}

/-! ## The envelope -/

theorem length_wireChecksum (C : Crypto) (payload : Bytes) : (wireChecksum C payload).length = wireChecksumBytes := by
  unfold wireChecksum
  rw [List.length_take, FixedBytes.length_bytes]
  rfl

theorem messageType_lt {messageType : ℕ} (h : messageType ∈ knownMessageTypes) : messageType < 256 ^ 2 := by
  have hall : ∀ t ∈ knownMessageTypes, t < 256 ^ 2 := by decide
  exact hall messageType h

theorem make_iff {messageType : ℕ} {payload : Bytes} {message : WireMessage} :
    WireMessage.make messageType payload = .ok message ↔ message.messageType = messageType ∧ message.payload = payload := by
  unfold WireMessage.make
  constructor
  · intro h
    split at h
    · split at h
      · cases h
        exact ⟨rfl, rfl⟩
      · cases h
    · cases h
  · rintro ⟨rfl, rfl⟩
    rw [dif_pos message.type_ok, dif_pos message.payload_ok]

/-- The bytes of a message. -/
def envelope (C : Crypto) (messageType : ℕ) (payload : Bytes) : Bytes :=
  wireMagic ++ le 2 messageType ++ le 4 payload.length ++ payload ++ wireChecksum C payload

theorem encodeWireMessage_iff {messageType : ℕ} {payload data : Bytes} :
    encodeWireMessage C messageType payload = .ok data ↔ messageType ∈ knownMessageTypes ∧
      payload.length ≤ wireMaxPayloadBytes ∧ envelope C messageType payload = data := by
  unfold encodeWireMessage requireMessageType requirePayload
  simp only [Exn.bind_ok, Exn.ensure_ok, Exn.pure_ok, exists_const]
  rfl

theorem length_envelope (C : Crypto) (messageType : ℕ) (payload : Bytes) :
    (envelope C messageType payload).length = wireMagic.length + 2 + 4 + payload.length + wireChecksumBytes := by
  unfold envelope
  simp only [List.length_append, le_length, length_wireChecksum]

theorem decodeWireMessage_envelope (message : WireMessage) :
    decodeWireMessage C (envelope C message.messageType message.payload) = .ok message := by
  obtain ⟨messageType, payload, htype, hpayload⟩ := message
  dsimp only
  have hknown : requireMessageType messageType = .ok () := Exn.ensure_of _ htype
  have hsmall : payload.length < 256 ^ 4 := lt_of_le_of_lt hpayload (by decide)
  have hlen := length_envelope C messageType payload
  -- every field is read from its own place
  have hmagic : (envelope C messageType payload).take wireMagic.length = wireMagic := by
    unfold envelope
    simp only [List.append_assoc, List.take_left]
  have hread : ofLe (((envelope C messageType payload).drop wireMagic.length).take 2) = messageType := by
    have h := slice_append wireMagic (le 2 messageType) (le 4 payload.length ++ payload ++ wireChecksum C payload) rfl
      (le_length 2 _)
    rw [envelope, List.append_assoc, List.append_assoc, ← List.append_assoc (le 4 _), h, ofLe_le_of_lt (messageType_lt htype)]
  have hcount : ofLe (((envelope C messageType payload).drop (wireMagic.length + 2)).take 4) = payload.length := by
    have h := slice_append (wireMagic ++ le 2 messageType) (le 4 payload.length) (payload ++ wireChecksum C payload)
      (List.length_append.trans (by rw [le_length])) (le_length 4 _)
    rw [envelope, List.append_assoc, h, ofLe_le_of_lt hsmall]
  have hbody : ((envelope C messageType payload).drop (wireMagic.length + 2 + 4)).take payload.length = payload := by
    apply slice_append _ _ _ _ rfl
    simp only [List.length_append, le_length]
  have hsum : (envelope C messageType payload).drop (wireMagic.length + 2 + 4 + payload.length) = wireChecksum C payload := by
    have hfront : (wireMagic ++ le 2 messageType ++ le 4 payload.length ++ payload).length =
        wireMagic.length + 2 + 4 + payload.length := by
      simp only [List.length_append, le_length]
    rw [envelope, ← hfront, List.drop_left]
  unfold decodeWireMessage
  dsimp only
  rw [Exn.ensure_of _ (by rw [hlen]; omega), Exn.ok_bind, Exn.ensure_of _ hmagic, Exn.ok_bind, hread,
    Exn.ensure_of _ hknown, Exn.ok_bind, hcount, Exn.ensure_of _ hpayload, Exn.ok_bind,
    Exn.ensure_of _ hlen, Exn.ok_bind, hbody, Exn.ensure_of _ hsum, Exn.ok_bind]
  exact make_iff.2 ⟨rfl, rfl⟩

theorem envelope_of_decode {data : Bytes} {message : WireMessage} (h : decodeWireMessage C data = .ok message) :
    envelope C message.messageType message.payload = data := by
  unfold decodeWireMessage at h
  dsimp only at h
  simp only [Exn.bind_ok, Exn.ensure_ok, exists_const] at h
  obtain ⟨hmin, hmagic, -, -, hlen, hsum, hmake⟩ := h
  obtain ⟨htype, hpayload⟩ := make_iff.1 hmake
  set count := ofLe ((data.drop (wireMagic.length + 2)).take 4) with hcount
  have hbody : message.payload.length = count := by
    rw [hpayload, List.length_take, List.length_drop]
    omega
  -- the five slices that were read are the whole string
  calc envelope C message.messageType message.payload
      = data.take wireMagic.length ++ (data.drop wireMagic.length).take 2 ++ (data.drop (wireMagic.length + 2)).take 4 ++
          (data.drop (wireMagic.length + 2 + 4)).take count ++ data.drop (wireMagic.length + 2 + 4 + count) := by
        rw [envelope, hbody, htype, le_ofLe_slice (by omega), hcount, le_ofLe_slice (by omega), ← hcount, hmagic, hsum, hpayload]
    _ = data := by
        rw [List.append_assoc, slice_append_drop, List.append_assoc, slice_append_drop, List.append_assoc,
          slice_append_drop, List.take_append_drop]

/-- **An envelope is read exactly as it is written.** -/
theorem decodeWireMessage_iff {data : Bytes} {message : WireMessage} :
    decodeWireMessage C data = .ok message ↔ encodeWireMessage C message.messageType message.payload = .ok data := by
  rw [encodeWireMessage_iff]
  constructor
  · intro h
    exact ⟨message.type_ok, message.payload_ok, envelope_of_decode h⟩
  · rintro ⟨-, -, rfl⟩
    exact decodeWireMessage_envelope message

/-! ## Both ends -/

variable {topic : Text} {topicIds : List Text} {data payload : Bytes}

theorem publish_of_nextMessage (h : nextMessage C topic topicIds data = .ok payload) :
    topic ∈ topicIds ∧ publish C topic payload = .ok data := by
  unfold nextMessage at h
  obtain ⟨_, htopic, h⟩ := Exn.bind_ok.1 h
  obtain ⟨_, hmem, h⟩ := Exn.bind_ok.1 h
  refine ⟨Exn.ensure_ok.1 hmem, ?_⟩
  cases hdecode : decodeWireMessage C data with
  | error e =>
    rw [hdecode] at h
    cases h
  | ok message =>
    rw [hdecode] at h
    obtain ⟨expected, hexpected, h⟩ := Exn.bind_ok.1 h
    obtain ⟨_, hsame, h⟩ := Exn.bind_ok.1 h
    rw [Exn.ensure_ok] at hsame
    rw [Exn.pure_ok] at h
    unfold publish
    rw [htopic, Exn.ok_bind, hexpected, Exn.ok_bind, ← hsame, ← h]
    exact decodeWireMessage_iff.1 hdecode

theorem nextMessage_of_publish (hmem : topic ∈ topicIds) (h : publish C topic payload = .ok data) :
    nextMessage C topic topicIds data = .ok payload := by
  unfold publish at h
  obtain ⟨_, htopic, h⟩ := Exn.bind_ok.1 h
  obtain ⟨messageType, htype, h⟩ := Exn.bind_ok.1 h
  obtain ⟨hknown, hsize, -⟩ := encodeWireMessage_iff.1 h
  have hdecode : decodeWireMessage C data = .ok ⟨messageType, payload, hknown, hsize⟩ := decodeWireMessage_iff.2 h
  unfold nextMessage
  rw [htopic, Exn.ok_bind, Exn.ensure_of _ hmem, Exn.ok_bind, hdecode]
  dsimp only
  rw [htype, Exn.ok_bind, Exn.ensure_of _ rfl, Exn.ok_bind]
  rfl

/-- **A subscriber takes a payload exactly from the bytes that publishing it on its topic gives**: no
truncated, relabelled or altered message is taken for another. -/
theorem gossip_exact (C : Crypto) (topic : Text) (topicIds : List Text) (data payload : Bytes) :
    nextMessage C topic topicIds data = .ok payload ↔
      topic ∈ topicIds ∧ publish C topic payload = .ok data := by
  constructor
  · exact publish_of_nextMessage
  · rintro ⟨hmem, h⟩
    exact nextMessage_of_publish hmem h

/-! ## The topics of the shards -/

variable {s t : ℕ}

/-- The topic of a shard. -/
def shardTopic (shardId : ℕ) : Text := topicTxsPrefix ++ toHex (le 4 shardId).reverse ++ topicTxsSuffix

theorem topicForShardTxs_ok (h : requireShardId s = .ok ()) : topicForShardTxs s = .ok (shardTopic s) := by
  unfold topicForShardTxs
  rw [h]
  rfl

theorem shardId_lt (h : requireShardId s = .ok ()) : s < 256 ^ 4 := by
  obtain ⟨hle, -⟩ := requireShardId_ok.1 h
  unfold u32Max at hle
  omega

theorem shardTopic_inj (hs : s < 256 ^ 4) (ht : t < 256 ^ 4) (h : shardTopic s = shardTopic t) : s = t := by
  have hdigits := List.append_cancel_left (List.append_cancel_right h)
  exact le_inj hs ht (List.reverse_injective (toHex_inj hdigits))

theorem length_shardTopic (shardId : ℕ) : (shardTopic shardId).length = 27 := by
  unfold shardTopic
  rw [List.length_append, List.length_append, length_toHex, List.length_reverse, le_length]
  rfl

/-- The digits of a shard id. -/
theorem isLowerHex_toHex {b : Bytes} (hne : b ≠ []) : isLowerHex (toHex b) = true := by
  have hall : ((toHex b).all fun c => decide ¬(65 ≤ c.toNat ∧ c.toNat ≤ 90)) = true := by
    rw [List.all_eq_true]
    exact fun c hc => decide_eq_true (digit_of_mem_toHex hc).2
  unfold isLowerHex
  rw [intBase16_toHex hne, hall]
  rfl

theorem isShardTxTopic_shardTopic (s : ℕ) : isShardTxTopic (shardTopic s) = true := by
  have hdigits : isLowerHex (toHex (le 4 s).reverse) = true := by
    apply isLowerHex_toHex
    intro hnil
    have hlen := congrArg List.length hnil
    rw [List.length_reverse, le_length] at hlen
    cases hlen
  have htake : (shardTopic s).take ((shardTopic s).length - topicTxsSuffix.length) =
      topicTxsPrefix ++ toHex (le 4 s).reverse := by
    unfold shardTopic
    rw [List.length_append, Nat.add_sub_cancel, List.take_left]
  have hfront : topicTxsPrefix.isPrefixOf (shardTopic s) = true := by
    rw [List.isPrefixOf_iff_prefix, shardTopic, List.append_assoc]
    exact List.prefix_append _ _
  have hback : topicTxsSuffix.isSuffixOf (shardTopic s) = true := by
    rw [List.isSuffixOf_iff_suffix]
    exact List.suffix_append _ _
  unfold isShardTxTopic
  dsimp only
  rw [htake, List.drop_left, hfront, hback, hdigits, length_toHex, List.length_reverse, le_length]
  rfl

theorem messageTypeForTopic_shardTopic (s : ℕ) : messageTypeForTopic (shardTopic s) = .ok msgTypeTx := by
  -- the other topics have other lengths
  have hne (other : Text) (h : other.length ≠ 27) : shardTopic s ≠ other := by
    rintro rfl
    exact h (length_shardTopic s)
  unfold messageTypeForTopic requireTopic
  rw [Exn.ensure_of _ (hne [] (by decide)), Exn.ok_bind, if_neg (hne topicFruits (by decide)),
    if_neg (hne topicAnchors (by decide)), if_pos (isShardTxTopic_shardTopic s)]
  rfl

theorem publish_shardTopic (C : Crypto) (s : ℕ) (hpayload : payload.length ≤ wireMaxPayloadBytes) :
    publish C (shardTopic s) payload = .ok (envelope C msgTypeTx payload) := by
  have htopic : requireTopic (shardTopic s) = .ok () := by
    apply Exn.ensure_of
    intro h
    have hlen := length_shardTopic s
    rw [h] at hlen
    cases hlen
  unfold publish
  rw [htopic, Exn.ok_bind, messageTypeForTopic_shardTopic s, Exn.ok_bind]
  exact encodeWireMessage_iff.2 ⟨by decide, hpayload, rfl⟩

/-- **The topics of two shards never mix**: every payload of the allowed size can be published for a
shard, and a subscriber of a shard takes it from there exactly if the shards are the same. -/
theorem shard_gossip (C : Crypto) (hs : requireShardId s = .ok ()) (ht : requireShardId t = .ok ()) (hpayload : payload.length ≤ wireMaxPayloadBytes) :
    ∃ here there data, topicForShardTxs s = .ok here ∧ topicForShardTxs t = .ok there ∧
      publish C here payload = .ok data ∧
      ∀ taken, nextMessage C there [here] data = .ok taken ↔ s = t ∧ taken = payload := by
  have hwritten := publish_shardTopic C s hpayload
  refine ⟨_, _, _, topicForShardTxs_ok hs, topicForShardTxs_ok ht, hwritten, fun taken => ?_⟩
  constructor
  · intro h
    -- another shard has another topic, under which nothing was delivered
    obtain ⟨hmem, -⟩ := publish_of_nextMessage h
    have hsame : t = s := shardTopic_inj (shardId_lt ht) (shardId_lt hs) (List.mem_singleton.1 hmem)
    subst hsame
    rw [nextMessage_of_publish (List.mem_singleton_self _) hwritten] at h
    exact ⟨rfl, (Except.ok.inj h).symm⟩
  · rintro ⟨rfl, rfl⟩
    exact nextMessage_of_publish (List.mem_singleton_self _) hwritten

def sampleCrypto : Crypto := ⟨fun _ => genesisParentHash, fun _ _ _ => true⟩

theorem shard_gossip_siblings :
    ∃ here there data, topicForShardTxs 65536 = .ok here ∧ topicForShardTxs 65537 = .ok there ∧
      publish sampleCrypto here [1, 2] = .ok data ∧
      ∀ taken, nextMessage sampleCrypto there [here] data = .ok taken ↔ 65536 = 65537 ∧ taken = [1, 2] :=
  shard_gossip sampleCrypto (by decide) (by decide) (by decide)

end Gossip

end TensorPow
