import TensorPow.Proof.BlockBinding
import TensorPow.Spec.Codec

/-!
# Codecs are inverse

Whatever is encoded is read back, and whatever is read is the encoding of what was read.

* `txCodec_bijective`: transactions, with the class of every failure.
* `blockCodecs_inverse`: fruits and anchors. An anchor has an encoding exactly if its
  counts of covered fruits and of reward outputs fit their fields; the constructor bounds
  neither.
-/

namespace TensorPow

open Wire Sorted

variable {C : Crypto}

/-! ## Integers -/

theorem encodeUint_of {w n : ℕ} (h : n < 256 ^ w) : encodeUint w n = .ok (le w n) := by
  unfold encodeUint
  rw [Exn.ensure_of _ h]
  rfl

theorem encodeUint_ok {w n : ℕ} {b : Bytes} (h : encodeUint w n = .ok b) : n < 256 ^ w ∧ b = le w n := by
  obtain ⟨_, hlt, h⟩ := Exn.bind_ok.1 h
  cases h
  exact ⟨Exn.ensure_ok.1 hlt, rfl⟩

theorem encodeSized_of {w : ℕ} {data : Bytes} (h : data.length < 256 ^ w) :
    encodeSized w data = .ok (le w data.length ++ data) := by
  unfold encodeSized
  rw [encodeUint_of h]
  rfl

/-- A string with its length in front is read back. -/
theorem reads_sized {e : PyError} {w : ℕ} {data : Bytes} (h : data.length < 256 ^ w) :
    Reads (do Reader.take e (← Reader.uint e w)) data (le w data.length ++ data) :=
  (Reads.uint e h).bind (Reads.take e rfl)

/-- What a read string with its length in front was. -/
theorem sized_ok {e : PyError} {w : ℕ} {b x r : Bytes}
    (h : (do Reader.take e (← Reader.uint e w) : Reader PyError Bytes) b = .ok (x, r)) :
    b = (le w x.length ++ x) ++ r := by
  obtain ⟨n, c, hn, hx⟩ := Reader.bind_ok.1 h
  obtain ⟨hlen, rfl⟩ := Reader.take_ok hx
  rw [Reader.uint_ok hn, hlen, List.append_assoc]

theorem sizedList_ok {e : PyError} {w n : ℕ} {b : Bytes} {l : List Bytes} {r : Bytes}
    (h : Reader.replicate (do Reader.take e (← Reader.uint e w) : Reader PyError Bytes) n b = .ok (l, r)) :
    l.length = n ∧ b = (l.flatMap fun x => le w x.length ++ x) ++ r :=
  Reader.replicate_ok sized_ok h

/-! ## Transactions -/

namespace Transaction

theorem fromBytes_decode (data : Bytes) : fromBytes data = decode data >>= fun tx => do
    Exn.ensure (tx.toBytes = data) (.valueError "transaction bytes are non-canonical")
    return tx := by
  unfold fromBytes decode
  cases requireMaxLen "data" data maxTxBytes with
  | error e => rfl
  | ok u =>
    simp only [Exn.ok_bind]
    cases Reader.parse (do
      let f ← readFields
      Reader.finish (.valueError "trailing transaction bytes")
      return f) data with
    | error e => rfl
    | ok f => rfl

/-- The two models of `from_bytes` accept the same bytes. -/
theorem fromBytesRaising_ok {data : Bytes} {tx : Transaction} :
    fromBytesRaising data = .ok tx ↔ fromBytes data = .ok tx := by
  rw [fromBytes_decode]
  unfold fromBytesRaising
  cases decode data with
  | error e => exact ⟨fun h => (by cases h), fun h => (by cases h)⟩
  | ok tx' =>
    dsimp only
    rw [Exn.ok_bind]
    by_cases heq : tx'.toBytes = data
    · rw [if_neg (not_not.2 heq), Exn.ensure_of _ heq, Exn.ok_bind, Exn.pure_ok, Except.ok.injEq]
    · rw [if_pos heq, Exn.ensure_not _ heq]
      exact ⟨fun h => (by cases h), fun h => (by cases h)⟩

/-- Accepted bytes are the encoding of what was read. -/
theorem toBytes_fromBytes {data : Bytes} {tx : Transaction} (h : fromBytes data = .ok tx) : tx.toBytes = data := by
  rw [fromBytes_decode] at h
  obtain ⟨tx', -, h⟩ := Exn.bind_ok.1 h
  obtain ⟨_, heq, h⟩ := Exn.bind_ok.1 h
  cases Exn.pure_ok.1 h
  exact Exn.ensure_ok.1 heq

/-- **Nothing but `TxDecodeError`** leaves the decoder. -/
theorem fromBytesRaising_error {data : Bytes} {e : TxFailure} (h : fromBytesRaising data = .error e) :
    ∃ msg, e = .txDecodeError msg := by
  unfold fromBytesRaising at h
  split at h
  · split at h
    · cases h
      exact ⟨_, rfl⟩
    · cases h
  · rename_i raised hraised
    cases h
    have hcaught : raised.IsCaught := by
      refine caught_fromBytes data raised ?_
      rw [fromBytes_decode, hraised]
      rfl
    cases raised with
    | valueError msg => exact ⟨msg, rfl⟩
    | typeError msg => exact ⟨msg, rfl⟩
    | _ => exact hcaught.elim

theorem toBytes_injective {tx tx' : Transaction} (h : tx.toBytes = tx'.toBytes) : tx = tx' := by
  have hback := fromBytes_toBytes tx
  rw [h, fromBytes_toBytes tx'] at hback
  cases hback
  rfl

end Transaction

/-- **The transaction codec is a bijection onto its accepted bytes**: every transaction is
read back, accepted bytes are those of the transaction, which satisfies every check of the
constructors, all other bytes end in `TxDecodeError`, and ids are injective where hashing
is. -/
theorem txCodec_bijective (C : Crypto) :
    (∀ tx : Transaction, Transaction.fromBytesRaising tx.toBytes = .ok tx) ∧
    (∀ b tx, Transaction.fromBytesRaising b = .ok tx → tx.toBytes = b ∧ tx.toTransactionFields.postInit = .ok () ∧
      (∀ i ∈ tx.inputs, i.toInputFields.postInit = .ok ()) ∧
      ∀ o ∈ tx.outputs, o.toOutputFields.postInit = .ok ()) ∧
    (∀ b, (∀ tx : Transaction, tx.toBytes ≠ b) →
      ∃ msg, Transaction.fromBytesRaising b = .error (.txDecodeError msg)) ∧
    ∀ tx tx' : Transaction,
      Set.InjOn C.hashBytes {domainTxId :: tx.toBytes, domainTxId :: tx'.toBytes} →
      tx.txId C = tx'.txId C → tx = tx' := by
  refine ⟨fun tx => ?_, fun b tx h => ?_, fun b hb => ?_, fun tx tx' hinj hid => ?_⟩
  · exact Transaction.fromBytesRaising_ok.2 (fromBytes_toBytes tx)
  · have hbytes := Transaction.toBytes_fromBytes (Transaction.fromBytesRaising_ok.1 h)
    exact ⟨hbytes, tx.valid, fun i _ => i.valid, fun o _ => o.valid⟩
  · cases hr : Transaction.fromBytesRaising b with
    | ok tx => exact absurd (Transaction.toBytes_fromBytes (Transaction.fromBytesRaising_ok.1 hr)) (hb tx)
    | error e =>
      obtain ⟨msg, rfl⟩ := Transaction.fromBytesRaising_error hr
      exact ⟨msg, rfl⟩
  · have hpre := hinj (by simp) (by simp) hid
    exact Transaction.toBytes_injective (List.cons.inj hpre).2

/-- An output of one unit. -/
def unitReward : Output := ⟨⟨1, .pkh, 0, 0, List.replicate 32 0⟩, by decide⟩

/-- Two transactions that differ in their locktime only. -/
theorem txCodec_bijective_sample :
    (⟨⟨0, 0, 0, 0, [], [unitReward]⟩, by decide⟩ : Transaction).txId sampleCrypto ≠
      (⟨⟨0, 0, 1, 0, [], [unitReward]⟩, by decide⟩ : Transaction).txId sampleCrypto := by
  intro hid
  have hne : (⟨⟨0, 0, 0, 0, [], [unitReward]⟩, by decide⟩ : Transaction) ≠ ⟨⟨0, 0, 1, 0, [], [unitReward]⟩, by decide⟩ := by
    decide
  refine hne ((txCodec_bijective sampleCrypto).2.2.2 _ _ ?_ hid)
  intro b hb b' hb' heq
  rcases hb with rfl | rfl
  · rcases hb' with rfl | rfl
    · rfl
    · exact absurd heq (by decide +kernel)
  · rcases hb' with rfl | rfl
    · exact absurd heq (by decide +kernel)
    · rfl

/-! ## Headers -/

namespace FruitHeader

theorem make_ok {f : FruitHeaderFields} {h : FruitHeader} : FruitHeader.make f = .ok h ↔ h.toFruitHeaderFields = f := by
  unfold FruitHeader.make
  split
  · rw [Except.ok.injEq]
    exact ⟨fun h => h ▸ rfl, fun h => by cases h; rfl⟩
  · rename_i e he
    refine ⟨fun h => (by cases h), fun heq => ?_⟩
    rw [← heq, h.valid] at he
    cases he

theorem trySerialize_eq (h : FruitHeader) : h.trySerialize = .ok h.serialize := by
  obtain ⟨hversion, hsig, hbitmap, htime, hshard, hnonce⟩ := h.bounds
  unfold formatEpoch at hversion
  unfold sigTypeEd25519Bit at hsig
  unfold parentBitmapMaxBytes at hbitmap
  unfold trySerialize
  rw [encodeUint_of (by omega), encodeUint_of (by omega), encodeUint_of (by omega),
    encodeUint_of (lt_of_le_u64 htime), encodeUint_of (lt_of_le_u32 hshard.1), encodeUint_of (lt_of_le_u64 hnonce)]
  rfl

theorem length_serialize_lt (h : FruitHeader) : h.serialize.length < 256 ^ 2 := by
  obtain ⟨-, -, hbitmap, -⟩ := h.bounds
  unfold parentBitmapMaxBytes at hbitmap
  unfold serialize
  simp only [List.length_append, le_length, FixedBytes.length_bytes]
  omega

theorem deserialize_serialize (h : FruitHeader) : FruitHeader.deserialize h.serialize = .ok h := by
  unfold deserialize
  rw [h.reads_fields.parse, Exn.ok_bind]
  exact make_ok.2 rfl

theorem serialize_deserialize {data : Bytes} {h : FruitHeader} (hd : FruitHeader.deserialize data = .ok h) :
    h.serialize = data := by
  obtain ⟨f, hparse, hmake⟩ := Exn.bind_ok.1 hd
  have hfields := make_ok.1 hmake
  obtain ⟨r, hread⟩ := Reader.parse_ok.1 hparse
  unfold readFields at hread
  simp only [Reader.bind_ok, Reader.pure_ok] at hread
  obtain ⟨f, c, ⟨version, b₁, h₁, sig, b₂, h₂, selected, b₃, h₃, bitmapLength, b₄, h₄, bitmap, b₅, h₅, latest, b₆, h₆,
    root, b₇, h₇, time, b₈, h₈, shard, b₉, h₉, nonce, b₀, h₀, rfl, rfl⟩, _, d, hfinish, rfl, rfl⟩ := hread
  obtain ⟨rfl, rfl⟩ := Reader.finish_ok hfinish
  obtain ⟨hlen, rfl⟩ := Reader.take_ok h₅
  rw [Reader.uint_ok h₁, Reader.uint_ok h₂, Reader.fixed_ok h₃, Reader.uint_ok h₄, Reader.fixed_ok h₆,
    Reader.fixed_ok h₇, Reader.uint_ok h₈, Reader.uint_ok h₉, Reader.uint_ok h₀]
  unfold serialize
  simp only [hfields, hlen, List.append_assoc, List.append_nil]

end FruitHeader

namespace AnchorHeader

theorem make_ok {f : AnchorHeaderFields} {h : AnchorHeader} :
    AnchorHeader.make f = .ok h ↔ h.toAnchorHeaderFields = f := by
  unfold AnchorHeader.make
  split
  · rw [Except.ok.injEq]
    exact ⟨fun h => h ▸ rfl, fun h => by cases h; rfl⟩
  · rename_i e he
    refine ⟨fun h => (by cases h), fun heq => ?_⟩
    rw [← heq, h.valid] at he
    cases he

theorem trySerialize_eq (h : AnchorHeader) : h.trySerialize = .ok h.serialize := by
  obtain ⟨hversion, htime, hnonce⟩ := h.bounds
  unfold trySerialize
  rw [encodeUint_of (lt_of_le_u16 hversion), encodeUint_of (lt_of_le_u64 htime), encodeUint_of (lt_of_le_u64 hnonce)]
  rfl

theorem length_serialize_lt (h : AnchorHeader) : h.serialize.length < 256 ^ 2 := by
  unfold serialize
  simp only [List.length_append, le_length, FixedBytes.length_bytes]
  omega

theorem deserialize_serialize (h : AnchorHeader) : AnchorHeader.deserialize h.serialize = .ok h := by
  unfold deserialize
  rw [h.reads_fields.parse, Exn.ok_bind]
  exact make_ok.2 rfl

theorem serialize_deserialize {data : Bytes} {h : AnchorHeader} (hd : AnchorHeader.deserialize data = .ok h) :
    h.serialize = data := by
  obtain ⟨f, hparse, hmake⟩ := Exn.bind_ok.1 hd
  have hfields := make_ok.1 hmake
  obtain ⟨r, hread⟩ := Reader.parse_ok.1 hparse
  unfold readFields at hread
  simp only [Reader.bind_ok, Reader.pure_ok] at hread
  obtain ⟨f, c, ⟨version, b₁, h₁, parent, b₂, h₂, fruits, b₃, h₃, candidates, b₄, h₄, tree, b₅, h₅, floors, b₆, h₆,
    rewards, b₇, h₇, time, b₈, h₈, nonce, b₉, h₉, rfl, rfl⟩, _, d, hfinish, rfl, rfl⟩ := hread
  obtain ⟨rfl, rfl⟩ := Reader.finish_ok hfinish
  rw [Reader.uint_ok h₁, Reader.fixed_ok h₂, Reader.fixed_ok h₃, Reader.fixed_ok h₄, Reader.fixed_ok h₅,
    Reader.fixed_ok h₆, Reader.fixed_ok h₇, Reader.uint_ok h₈, Reader.uint_ok h₉]
  unfold serialize
  simp only [hfields, List.append_assoc, List.append_nil]

end AnchorHeader

/-! ## Fruits -/

namespace Fruit

theorem make_ok {f : FruitFields} {x : Fruit C} : Fruit.make f = .ok x ↔ x.toFruitFields = f := by
  unfold Fruit.make
  split
  · rw [Except.ok.injEq]
    exact ⟨fun h => h ▸ rfl, fun h => by cases h; rfl⟩
  · rename_i e he
    refine ⟨fun h => (by cases h), fun heq => ?_⟩
    rw [← heq, x.valid] at he
    cases he

/-- The payload bound keeps the number of transactions and their lengths inside two bytes. -/
theorem payload_bounds (f : Fruit C) :
    f.transactions.length < 256 ^ 2 ∧ ∀ tx ∈ f.transactions, tx.length < 256 ^ 2 := by
  have hvalid := f.valid
  simp only [FruitFields.postInit, Exn.bind_ok, Exn.ensure_ok] at hvalid
  obtain ⟨-, -, -, -, -, hsize, -⟩ := hvalid
  unfold fruitPayloadSizeBytes maxFruitPayloadBytes at hsize
  have hcount : 2 * f.transactions.length ≤ (f.transactions.map fun tx => 2 + tx.length).sum := by
    rw [List.sum_map_add, List.map_const', List.sum_replicate, smul_eq_mul]
    omega
  refine ⟨by omega, fun tx htx => ?_⟩
  have hle : 2 + tx.length ≤ (f.transactions.map fun tx => 2 + tx.length).sum :=
    List.single_le_sum (by simp) _ (List.mem_map.2 ⟨tx, htx, rfl⟩)
  omega

theorem trySerialize_eq (f : Fruit C) : f.trySerialize = .ok f.serialize := by
  obtain ⟨hcount, hlen⟩ := f.payload_bounds
  have htxs : f.transactions.mapM (encodeSized 2) = .ok (f.transactions.map fun tx => le 2 tx.length ++ tx) :=
    Exn.mapM_eq_map fun tx htx => encodeSized_of (hlen tx htx)
  unfold trySerialize
  rw [f.header.trySerialize_eq, Exn.ok_bind, encodeSized_of f.header.length_serialize_lt, Exn.ok_bind,
    encodeUint_of hcount, Exn.ok_bind, htxs, Exn.ok_bind]
  unfold serialize
  rw [List.flatMap_def]
  rfl

/-- A fruit is read back from its bytes. -/
theorem deserialize_serialize (f : Fruit C) : Fruit.deserialize f.serialize = .ok f := by
  obtain ⟨hcount, hlen⟩ := f.payload_bounds
  unfold deserialize
  refine Exn.bind_ok.2 ⟨f.toFruitFields, Reader.parse_ok.2 ⟨[], ?_⟩, make_ok.2 rfl⟩
  unfold serialize
  simp only [List.append_assoc]
  refine (Reads.uint _ f.header.length_serialize_lt).run_bind ((Reads.take _ rfl).run_bind ?_)
  rw [← List.nil_append (le 2 f.transactions.length ++ _)]
  refine (Reads.lift f.header.deserialize_serialize).run_bind ((Reads.uint _ hcount).run_bind ?_)
  rw [← List.append_nil (f.transactions.flatMap _)]
  exact (Reads.replicate fun tx htx => reads_sized (hlen tx htx)).run_bind rfl

/-- Accepted bytes are those of the fruit. -/
theorem serialize_deserialize {data : Bytes} {f : Fruit C} (h : Fruit.deserialize data = .ok f) :
    f.serialize = data := by
  obtain ⟨fields, hparse, hmake⟩ := Exn.bind_ok.1 h
  have hfields := make_ok.1 hmake
  obtain ⟨r, hread⟩ := Reader.parse_ok.1 hparse
  obtain ⟨headerLength, b₁, h₁, hread⟩ := Reader.bind_ok.1 hread
  obtain ⟨headerBytes, b₂, h₂, hread⟩ := Reader.bind_ok.1 hread
  obtain ⟨header, b₃, h₃, hread⟩ := Reader.bind_ok.1 hread
  obtain ⟨count, b₄, h₄, hread⟩ := Reader.bind_ok.1 hread
  obtain ⟨transactions, b₅, h₅, hread⟩ := Reader.bind_ok.1 hread
  obtain ⟨_, b₆, h₆, hread⟩ := Reader.bind_ok.1 hread
  obtain ⟨rfl, rfl⟩ := Reader.pure_ok.1 hread
  obtain ⟨hlen, rfl⟩ := Reader.take_ok h₂
  obtain ⟨hheader, rfl⟩ := Reader.lift_ok.1 h₃
  obtain ⟨hcount, rfl⟩ := sizedList_ok h₅
  obtain ⟨rfl, rfl⟩ := Reader.finish_ok h₆
  rw [Reader.uint_ok h₁, Reader.uint_ok h₄]
  unfold serialize
  simp only [hfields, FruitHeader.serialize_deserialize hheader, hlen, hcount, List.append_assoc, List.append_nil]

end Fruit

/-! ## Parts of an anchor -/

theorem FeeFloorEntry.make_ok {f : FeeFloorFields} {x : FeeFloorEntry} :
    FeeFloorEntry.make f = .ok x ↔ x.toFeeFloorFields = f := by
  unfold FeeFloorEntry.make
  split
  · rw [Except.ok.injEq]
    exact ⟨fun h => h ▸ rfl, fun h => by cases h; rfl⟩
  · rename_i e he
    refine ⟨fun h => (by cases h), fun heq => ?_⟩
    rw [← heq, x.valid] at he
    cases he

theorem FeeFloorEntry.trySerialize_eq (x : FeeFloorEntry) : x.trySerialize = .ok x.serialize := by
  obtain ⟨⟨hshard, -⟩, hfloor⟩ := x.bounds
  unfold trySerialize
  rw [encodeUint_of hshard, encodeUint_of hfloor]
  rfl

/-- A reward output is short. -/
theorem Output.length_toBytes_lt (o : Output) : o.toBytes.length < 256 ^ 2 := by
  have hvalid := o.valid
  simp only [OutputFields.postInit, requireMaxLen, Exn.bind_ok, Exn.ensure_ok] at hvalid
  obtain ⟨-, -, -, -, -, -, -, -, -, -, -, hpayload, -⟩ := hvalid
  unfold txOutputPayloadMaxBytes at hpayload
  unfold Output.toBytes
  simp only [List.length_append, le_length]
  omega

theorem Output.tryToBytes_eq (o : Output) : o.tryToBytes = .ok o.toBytes := by
  have hvalid := o.valid
  simp only [OutputFields.postInit, requireUint, requireMaxLen, Exn.bind_ok, Exn.ensure_ok] at hvalid
  obtain ⟨-, hamount, -, -, -, -, -, hlocktime, -, hlockheight, -, hpayload, -⟩ := hvalid
  have hid : o.template.id < 256 ^ 2 := by cases o.template <;> decide
  unfold txOutputPayloadMaxBytes at hpayload
  unfold tryToBytes
  rw [encodeUint_of (lt_of_le_u64 hamount), encodeUint_of hid, encodeUint_of (lt_of_le_u64 hlocktime),
    encodeUint_of (lt_of_le_u64 hlockheight), encodeUint_of (by omega)]
  rfl

/-- What a decoded output was read from. -/
theorem readOutput_ok {b r : Bytes} {o : Output} (h : Transaction.readOutput b = .ok (o, r)) : b = o.toBytes ++ r := by
  unfold Transaction.readOutput at h
  simp only [Reader.bind_ok, Reader.lift_ok] at h
  obtain ⟨amount, b₁, h₁, id, b₂, h₂, locktime, b₃, h₃, lockheight, b₄, h₄, length, b₅, h₅, payload, b₆, h₆,
    template, b₇, ⟨htemplate, rfl⟩, hmake, rfl⟩ := h
  have hfields := Output.make_ok.1 hmake
  obtain ⟨hlen, rfl⟩ := Reader.take_ok h₆
  obtain ⟨_, -, htemplate⟩ := Exn.bind_ok.1 htemplate
  have hid : template.id = id := by
    unfold Template.ofId at htemplate
    split at htemplate
    · cases htemplate
      rfl
    · cases htemplate
      rfl
    · cases htemplate
      rfl
    · cases htemplate
  rw [Reader.uint_ok h₁, Reader.uint_ok h₂, Reader.uint_ok h₃, Reader.uint_ok h₄, Reader.uint_ok h₅]
  unfold Output.toBytes
  simp only [hfields, hid, hlen, List.append_assoc]

namespace Anchor

theorem decodeReward_toBytes (o : Output) : decodeAnchorRewardOutput o.toBytes = .ok o := by
  unfold decodeAnchorRewardOutput
  rw [(reads_output o).parse]

theorem decodeReward_ok {data : Bytes} {o : Output} (h : decodeAnchorRewardOutput data = .ok o) :
    o.toBytes = data := by
  unfold decodeAnchorRewardOutput at h
  split at h
  · rename_i o' hparse
    cases h
    obtain ⟨r, hall⟩ := Reader.parse_ok.1 hparse
    obtain ⟨read, c, hread, hend⟩ := Reader.bind_ok.1 hall
    obtain ⟨_, d, hfinish, hend⟩ := Reader.bind_ok.1 hend
    obtain ⟨rfl, rfl⟩ := Reader.pure_ok.1 hend
    obtain ⟨rfl, rfl⟩ := Reader.finish_ok hfinish
    rw [readOutput_ok hread, List.append_nil]
  · cases h
  · cases h
  · cases h

theorem make_ok {f : AnchorFields} {x : Anchor C} : Anchor.make f = .ok x ↔ x.toAnchorFields = f := by
  unfold Anchor.make
  split
  · rw [Except.ok.injEq]
    exact ⟨fun h => h ▸ rfl, fun h => by cases h; rfl⟩
  · rename_i e he
    refine ⟨fun h => (by cases h), fun heq => ?_⟩
    rw [← heq, x.valid] at he
    cases he

/-- The counts and lengths the constructor bounds. Fee floors are for distinct shards, and
there are fewer than `2 ^ 32` shards. -/
theorem bounds (a : Anchor C) : a.parentCandidateHashes.length < 256 ^ 4 ∧ a.shardTreeBytes.length < 256 ^ 4 ∧
    a.feeFloorEntries.length < 256 ^ 4 := by
  have hvalid := a.valid
  simp only [AnchorFields.postInit, requireMaxLen, Exn.bind_ok, Exn.ensure_ok] at hvalid
  obtain ⟨-, -, -, -, -, hcandidates, -, -, -, htree, -, -, -, hnodup, -⟩ := hvalid
  unfold parentCandidateMaxCount at hcandidates
  unfold shardTreeMaxBytes at htree
  have hsub : (a.feeFloorEntries.map fun e => e.shardId).toFinset ⊆ Finset.range (17 * 2 ^ 16) := by
    intro x hx
    obtain ⟨e, -, rfl⟩ := List.mem_map.1 (List.mem_toFinset.1 hx)
    obtain ⟨⟨-, hdepth⟩, -⟩ := e.bounds
    unfold shardDepth shardMaxDepth at hdepth
    rw [Finset.mem_range]
    omega
  have hcard := Finset.card_le_card hsub
  rw [List.toFinset_card_of_nodup hnodup, List.length_map, Finset.card_range] at hcard
  exact ⟨by omega, by omega, by omega⟩

/-- The counts the constructor does not bound fit their fields. -/
def CountsFit (a : AnchorFields) : Prop :=
  a.coveredFruitHashes.length < 2 ^ 32 ∧ a.anchorRewardOutputs.length < 2 ^ 16

theorem trySerialize_of {a : Anchor C} (hfit : CountsFit a.toAnchorFields) : a.trySerialize = .ok a.layout := by
  obtain ⟨hcovered, hrewards⟩ := hfit
  obtain ⟨hcandidates, htree, hfloors⟩ := a.bounds
  have hfloorBytes : a.feeFloorEntries.mapM FeeFloorEntry.trySerialize =
      .ok (a.feeFloorEntries.map FeeFloorEntry.serialize) := Exn.mapM_eq_map fun e _ => e.trySerialize_eq
  have hrewardBytes : (a.anchorRewardOutputs.mapM fun o => do
      let outputBytes ← o.tryToBytes
      encodeSized 2 outputBytes) = .ok (a.anchorRewardOutputs.map fun o => le 2 o.toBytes.length ++ o.toBytes) := by
    refine Exn.mapM_eq_map fun o _ => ?_
    rw [o.tryToBytes_eq, Exn.ok_bind]
    exact encodeSized_of o.length_toBytes_lt
  unfold trySerialize
  rw [a.header.trySerialize_eq, Exn.ok_bind, encodeSized_of a.header.length_serialize_lt, Exn.ok_bind,
    encodeUint_of (by omega), Exn.ok_bind, encodeUint_of hcandidates, Exn.ok_bind, encodeSized_of htree, Exn.ok_bind,
    encodeUint_of hfloors, Exn.ok_bind, hfloorBytes, Exn.ok_bind, encodeUint_of (by omega), Exn.ok_bind, hrewardBytes,
    Exn.ok_bind]
  unfold AnchorFields.layout
  simp only [List.flatMap_def, List.append_assoc]
  rfl

theorem countsFit_of_trySerialize {a : Anchor C} {b : Bytes} (h : a.trySerialize = .ok b) :
    CountsFit a.toAnchorFields := by
  unfold trySerialize at h
  simp only [Exn.bind_ok] at h
  obtain ⟨_, -, _, -, _, hcovered, _, -, _, -, _, -, _, -, _, hrewards, -⟩ := h
  have hcovered := (encodeUint_ok hcovered).1
  have hrewards := (encodeUint_ok hrewards).1
  exact ⟨by omega, by omega⟩

/-- An anchor whose counts fit is read back from its bytes. -/
theorem deserialize_layout {a : Anchor C} (hfit : CountsFit a.toAnchorFields) :
    Anchor.deserialize a.layout = .ok a := by
  obtain ⟨hcovered, hrewards⟩ := hfit
  obtain ⟨hcandidates, htree, hfloors⟩ := a.bounds
  have hfixed : ∀ l : List Hash, Reads (Reader.replicate (Reader.fixed Fruit.truncated 32) l.length) l
      (l.flatMap FixedBytes.bytes) := fun l => Reads.replicate fun x _ => Reads.fixed _ x
  have hfloor : ∀ e ∈ a.feeFloorEntries, Reads (do
      let shardId ← Reader.uint Fruit.truncated 4
      let floorMatomsPerKb ← Reader.uint Fruit.truncated 8
      Reader.lift (FeeFloorEntry.make { shardId, floorMatomsPerKb })) e e.serialize := by
    intro e _
    obtain ⟨⟨hshard, -⟩, hfloor⟩ := e.bounds
    unfold FeeFloorEntry.serialize
    rw [← List.append_nil (le 8 _)]
    exact (Reads.uint _ hshard).bind ((Reads.uint _ hfloor).bind (Reads.lift (FeeFloorEntry.make_ok.2 rfl)))
  have hreward : ∀ o ∈ a.anchorRewardOutputs, Reads (do
      let outputBytes ← Reader.take Fruit.truncated (← Reader.uint Fruit.truncated 2)
      Reader.lift (decodeAnchorRewardOutput outputBytes)) o (le 2 o.toBytes.length ++ o.toBytes) := by
    intro o _
    rw [← List.append_nil (_ ++ o.toBytes), List.append_assoc]
    exact (Reads.uint _ o.length_toBytes_lt).bind ((Reads.take _ rfl).bind (Reads.lift (decodeReward_toBytes o)))
  -- field by field, in the order of the source
  unfold deserialize
  refine Exn.bind_ok.2 ⟨a.toAnchorFields, Reader.parse_ok.2 ⟨[], ?_⟩, make_ok.2 rfl⟩
  unfold AnchorFields.layout
  simp only [List.append_assoc]
  refine (Reads.uint _ a.header.length_serialize_lt).run_bind ((Reads.take _ rfl).run_bind ?_)
  rw [← List.nil_append (le 4 a.coveredFruitHashes.length ++ _)]
  refine (Reads.lift a.header.deserialize_serialize).run_bind ?_
  refine (Reads.uint _ (by omega)).run_bind ((hfixed _).run_bind ?_)
  refine (Reads.uint _ hcandidates).run_bind ((hfixed _).run_bind ?_)
  refine (Reads.uint _ htree).run_bind ((Reads.take _ rfl).run_bind ?_)
  refine (Reads.uint _ hfloors).run_bind ((Reads.replicate hfloor).run_bind ?_)
  refine (Reads.uint _ (by omega)).run_bind ((Reads.replicate hreward).run_bind ?_)
  rw [← List.append_nil a.genesisCommitment.bytes]
  exact (Reads.fixed _ _).run_bind rfl

/-- What a decoded reward output with its length in front was read from. -/
theorem reward_ok {b r : Bytes} {o : Output} (h : (do
      let outputBytes ← Reader.take Fruit.truncated (← Reader.uint Fruit.truncated 2)
      Reader.lift (decodeAnchorRewardOutput outputBytes) : Reader PyError Output) b = .ok (o, r)) :
    b = (le 2 o.toBytes.length ++ o.toBytes) ++ r := by
  obtain ⟨n, c, hn, h⟩ := Reader.bind_ok.1 h
  obtain ⟨outputBytes, d, htake, h⟩ := Reader.bind_ok.1 h
  obtain ⟨hdecode, rfl⟩ := Reader.lift_ok.1 h
  obtain ⟨hlen, rfl⟩ := Reader.take_ok htake
  rw [Reader.uint_ok hn, decodeReward_ok hdecode, hlen, List.append_assoc]

/-- What a decoded fee-floor entry was read from. -/
theorem floor_ok {b r : Bytes} {e : FeeFloorEntry} (h : (do
      let shardId ← Reader.uint Fruit.truncated 4
      let floorMatomsPerKb ← Reader.uint Fruit.truncated 8
      Reader.lift (FeeFloorEntry.make { shardId, floorMatomsPerKb }) : Reader PyError FeeFloorEntry) b = .ok (e, r)) :
    b = e.serialize ++ r := by
  obtain ⟨shardId, c, hshard, h⟩ := Reader.bind_ok.1 h
  obtain ⟨floor, d, hfloor, h⟩ := Reader.bind_ok.1 h
  obtain ⟨hmake, rfl⟩ := Reader.lift_ok.1 h
  have hfields := FeeFloorEntry.make_ok.1 hmake
  rw [Reader.uint_ok hshard, Reader.uint_ok hfloor]
  unfold FeeFloorEntry.serialize
  rw [hfields, List.append_assoc]

/-- Accepted bytes are those of the anchor, whose counts fit. -/
theorem layout_deserialize {data : Bytes} {a : Anchor C} (h : Anchor.deserialize data = .ok a) :
    CountsFit a.toAnchorFields ∧ a.layout = data := by
  obtain ⟨fields, hparse, hmake⟩ := Exn.bind_ok.1 h
  have hfields := make_ok.1 hmake
  obtain ⟨r, hread⟩ := Reader.parse_ok.1 hparse
  obtain ⟨headerLength, b₁, h₁, hread⟩ := Reader.bind_ok.1 hread
  obtain ⟨headerBytes, b₂, h₂, hread⟩ := Reader.bind_ok.1 hread
  obtain ⟨header, b₃, h₃, hread⟩ := Reader.bind_ok.1 hread
  obtain ⟨coveredCount, b₄, h₄, hread⟩ := Reader.bind_ok.1 hread
  obtain ⟨covered, b₅, h₅, hread⟩ := Reader.bind_ok.1 hread
  obtain ⟨candidateCount, b₆, h₆, hread⟩ := Reader.bind_ok.1 hread
  obtain ⟨candidates, b₇, h₇, hread⟩ := Reader.bind_ok.1 hread
  obtain ⟨treeLength, b₈, h₈, hread⟩ := Reader.bind_ok.1 hread
  obtain ⟨tree, b₉, h₉, hread⟩ := Reader.bind_ok.1 hread
  obtain ⟨floorCount, c₁, g₁, hread⟩ := Reader.bind_ok.1 hread
  obtain ⟨floors, c₂, g₂, hread⟩ := Reader.bind_ok.1 hread
  obtain ⟨rewardCount, c₃, g₃, hread⟩ := Reader.bind_ok.1 hread
  obtain ⟨rewards, c₄, g₄, hread⟩ := Reader.bind_ok.1 hread
  obtain ⟨commitment, c₅, g₅, hread⟩ := Reader.bind_ok.1 hread
  obtain ⟨_, c₆, g₆, hread⟩ := Reader.bind_ok.1 hread
  -- what each reader returned is the bytes it took
  obtain ⟨rfl, rfl⟩ := Reader.pure_ok.1 hread
  obtain ⟨hlen, rfl⟩ := Reader.take_ok h₂
  obtain ⟨hheader, rfl⟩ := Reader.lift_ok.1 h₃
  obtain ⟨hcovered, rfl⟩ := Reader.replicate_ok Reader.fixed_ok h₅
  obtain ⟨hcandidates, rfl⟩ := Reader.replicate_ok Reader.fixed_ok h₇
  obtain ⟨htree, rfl⟩ := Reader.take_ok h₉
  obtain ⟨hfloors, rfl⟩ := Reader.replicate_ok floor_ok g₂
  obtain ⟨hrewards, rfl⟩ := Reader.replicate_ok reward_ok g₄
  have hcommitment := Reader.fixed_ok g₅
  obtain ⟨rfl, rfl⟩ := Reader.finish_ok g₆
  have hcoveredLt := Reader.uint_lt h₄
  have hrewardsLt := Reader.uint_lt g₃
  constructor
  · unfold CountsFit
    rw [hfields]
    dsimp only
    constructor
    · omega
    · omega
  · rw [Reader.uint_ok h₁, Reader.uint_ok h₄, Reader.uint_ok h₆, Reader.uint_ok h₈, Reader.uint_ok g₁,
      Reader.uint_ok g₃, hcommitment]
    unfold AnchorFields.layout
    simp only [hfields, AnchorHeader.serialize_deserialize hheader, hlen, hcovered, hcandidates, htree, hfloors,
      hrewards, List.append_assoc, List.append_nil]

/-- The model of `serialize` the node uses raises in the same cases. -/
theorem trySerialize_eq (a : Anchor C) : a.trySerialize.toOption = a.serialize.toOption := by
  obtain ⟨-, -, hfloors⟩ := a.bounds
  by_cases hfit : CountsFit a.toAnchorFields
  · rw [trySerialize_of hfit]
    unfold serialize
    rw [encodeUint_of (show a.coveredFruitHashes.length < 256 ^ 4 by have := hfit.1; omega), encodeUint_of hfloors,
      encodeUint_of (show a.anchorRewardOutputs.length < 256 ^ 2 by have := hfit.2; omega)]
    rfl
  · have htry : a.trySerialize.toOption = none := by
      cases h : a.trySerialize with
      | error e => rfl
      | ok b => exact absurd (countsFit_of_trySerialize h) hfit
    rw [htry]
    cases h : a.serialize with
    | error e => rfl
    | ok b =>
      unfold serialize at h
      simp only [Exn.bind_ok] at h
      obtain ⟨_, hcovered, _, -, _, hrewards, -⟩ := h
      have hcovered := (encodeUint_ok hcovered).1
      have hrewards := (encodeUint_ok hrewards).1
      exact absurd ⟨by omega, by omega⟩ hfit

end Anchor

/-- **Block codecs are inverse**, for an anchor exactly if its counts of covered fruits and
of reward outputs fit their fields. -/
theorem blockCodecs_inverse (C : Crypto) :
    (∀ f : Fruit C, ∃ b, f.trySerialize = .ok b ∧ Fruit.deserialize b = .ok f) ∧
    (∀ b (f : Fruit C), Fruit.deserialize b = .ok f → f.trySerialize = .ok b) ∧
    (∀ a : Anchor C, (∃ b, a.trySerialize = .ok b ∧ Anchor.deserialize b = .ok a) ↔
      a.coveredFruitHashes.length < 2 ^ 32 ∧ a.anchorRewardOutputs.length < 2 ^ 16) ∧
    ∀ b (a : Anchor C), Anchor.deserialize b = .ok a → a.trySerialize = .ok b := by
  refine ⟨fun f => ?_, fun b f h => ?_, fun a => ⟨?_, fun hfit => ?_⟩, fun b a h => ?_⟩
  · exact ⟨f.serialize, f.trySerialize_eq, f.deserialize_serialize⟩
  · rw [f.trySerialize_eq, Fruit.serialize_deserialize h]
  · rintro ⟨b, hb, -⟩
    exact Anchor.countsFit_of_trySerialize hb
  · exact ⟨a.layout, Anchor.trySerialize_of hfit, Anchor.deserialize_layout hfit⟩
  · obtain ⟨hfit, rfl⟩ := Anchor.layout_deserialize h
    exact Anchor.trySerialize_of hfit

/-- Roots are defined for lists the constructor admits. -/
theorem orderedMerkleRoot_returns (domain : Byte) {items : List Bytes} {rejectDuplicates : Bool}
    (hsize : ∀ item ∈ items, item.length ≤ u32Max) (hdup : rejectDuplicates = false ∨ items.Nodup)
    (hcount : items.length ≤ 256 ^ 4) : ∃ root, orderedMerkleRoot C domain items rejectDuplicates = .ok root := by
  have hall : (items.forM fun item => Exn.ensure (item.length ≤ u32Max) (PyError.valueError "item is too large")) =
      .ok () := Exn.forM_ok.2 fun item h => Exn.ensure_of _ (hsize item h)
  unfold orderedMerkleRoot
  rw [hall, Exn.ok_bind, Exn.ensure_of _ hdup, Exn.ok_bind]
  by_cases hnil : items = []
  · rw [if_pos hnil]
    exact ⟨_, rfl⟩
  · rw [if_neg hnil, Exn.ensure_of _ hcount]
    exact ⟨_, rfl⟩

theorem rootOf_eq {domain : Byte} {items : List Bytes} {rejectDuplicates : Bool}
    (hsize : ∀ item ∈ items, item.length ≤ u32Max) (hdup : rejectDuplicates = false ∨ items.Nodup)
    (hcount : items.length ≤ 256 ^ 4) :
    orderedMerkleRoot C domain items rejectDuplicates =
      .ok (rootOf (orderedMerkleRoot C domain items rejectDuplicates)) := by
  obtain ⟨root, hroot⟩ := orderedMerkleRoot_returns (C := C) domain hsize hdup hcount
  rw [hroot]
  rfl

/-- The fields of an anchor that covers one fruit and pays the given number of rewards. -/
def crowdedFields (count : ℕ) : AnchorFields where
  header := ⟨{
    version := 0
    parentAnchor := genesisParentHash
    fruitSetRoot := rootOf (orderedMerkleRoot sampleCrypto domainFruitSetRoot [genesisParentHash.bytes] true)
    parentCandidateRoot := rootOf (orderedMerkleRoot sampleCrypto domainParentCandidateRoot [] true)
    shardTreeStateRoot := sampleCrypto.domainHash domainShardTree []
    feeFloorSetRoot := rootOf (orderedMerkleRoot sampleCrypto domainFeeFloor [] false)
    anchorRewardRoot := rootOf (orderedMerkleRoot sampleCrypto domainAnchorRewardRoot
      (List.replicate count unitReward.toBytes) false)
    timestampMs := 0
    nonce := 0 }, rfl⟩
  coveredFruitHashes := [genesisParentHash]
  parentCandidateHashes := []
  shardTreeBytes := []
  feeFloorEntries := []
  anchorRewardOutputs := List.replicate count unitReward
  genesisCommitment := FixedBytes.zero 32

theorem crowdedFields_valid {count : ℕ} (hcount : count ≤ 256 ^ 4) :
    (crowdedFields count).postInit sampleCrypto = .ok () := by
  have hgenesis : ¬(crowdedFields count).isGenesis := fun h => h rfl
  have hempty : ∀ item ∈ ([] : List Bytes), item.length ≤ u32Max := fun item h => (by cases h)
  have hone : ∀ item ∈ [genesisParentHash.bytes], item.length ≤ u32Max := by decide
  have hlength : [genesisParentHash.bytes].length ≤ 256 ^ 4 := by decide
  have hfruits : (crowdedFields count).fruitSetRoot sampleCrypto = .ok (crowdedFields count).header.fruitSetRoot :=
    rootOf_eq hone (.inr (List.nodup_singleton _)) hlength
  have hcandidates : (crowdedFields count).parentCandidateRoot sampleCrypto =
      .ok (crowdedFields count).header.parentCandidateRoot :=
    rootOf_eq hempty (.inr List.nodup_nil) (Nat.zero_le _)
  have hfloors : (crowdedFields count).feeFloorSetRoot sampleCrypto = .ok (crowdedFields count).header.feeFloorSetRoot :=
    rootOf_eq hempty (.inl rfl) (Nat.zero_le _)
  have hrewards : (crowdedFields count).anchorRewardRoot sampleCrypto = .ok (crowdedFields count).header.anchorRewardRoot := by
    have hmap : (crowdedFields count).anchorRewardOutputs.map Output.toBytes =
        List.replicate count unitReward.toBytes :=
      List.map_replicate
    unfold AnchorFields.anchorRewardRoot
    rw [hmap]
    refine rootOf_eq (fun item h => ?_) (.inl rfl) ?_
    · rw [List.eq_of_mem_replicate h]
      decide
    · rw [List.length_replicate]
      exact hcount
  have hroots : (crowdedFields count).checkRoots sampleCrypto = .ok () := by
    refine Exn.bind_ok.2 ⟨_, hfruits, Exn.bind_ok.2 ⟨(), Exn.ensure_of _ rfl, ?_⟩⟩
    refine Exn.bind_ok.2 ⟨_, hcandidates, Exn.bind_ok.2 ⟨(), Exn.ensure_of _ rfl, ?_⟩⟩
    refine Exn.bind_ok.2 ⟨(), Exn.ensure_of _ rfl, ?_⟩
    refine Exn.bind_ok.2 ⟨_, hfloors, Exn.bind_ok.2 ⟨(), Exn.ensure_of _ rfl, ?_⟩⟩
    exact Exn.bind_ok.2 ⟨_, hrewards, Exn.ensure_of _ rfl⟩
  refine Exn.bind_ok.2 ⟨(), Exn.ensure_of _ (List.nodup_singleton _), ?_⟩
  refine Exn.bind_ok.2 ⟨(), Exn.ensure_of _ List.nodup_nil, Exn.bind_ok.2 ⟨(), Exn.ensure_of _ (Nat.zero_le _), ?_⟩⟩
  refine Exn.bind_ok.2 ⟨(), Exn.ensure_of _ rfl, Exn.bind_ok.2 ⟨(), Exn.ensure_of _ (Nat.zero_le _), ?_⟩⟩
  refine Exn.bind_ok.2 ⟨(), Exn.ensure_of _ rfl, Exn.bind_ok.2 ⟨(), Exn.ensure_of _ List.nodup_nil, ?_⟩⟩
  dsimp only
  rw [if_neg hgenesis]
  exact Exn.bind_ok.2 ⟨(), Exn.ensure_of _ (List.cons_ne_nil _ _), hroots⟩

/-- An anchor that the constructor admits and that has no encoding. -/
def crowdedAnchor : Anchor sampleCrypto := ⟨crowdedFields (2 ^ 16), crowdedFields_valid (by omega)⟩

theorem crowdedAnchor_unencodable :
    ¬∃ b, crowdedAnchor.trySerialize = .ok b ∧ Anchor.deserialize b = .ok crowdedAnchor := by
  rintro ⟨b, hb, -⟩
  have hfit := (Anchor.countsFit_of_trySerialize hb).2
  have hcount : crowdedAnchor.anchorRewardOutputs.length = 2 ^ 16 := List.length_replicate
  omega

end TensorPow
