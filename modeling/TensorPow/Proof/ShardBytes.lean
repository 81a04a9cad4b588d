import TensorPow.Proof.Conservation
import TensorPow.Proof.Decode
import TensorPow.Proof.Partition

/-!
# The bytes of a shard tree

The byte limit leaves room for `2 ^ 16` leaves but not for their count, so the full tree of
the greatest depth has no bytes that can be read or committed to.

* `deserialize_inv`: only the serialization of a tree is read as the tree.
* `serialize_iff`: a tree is read back, and has a state root, exactly if it is not full.
-/

namespace TensorPow

open Wire

namespace ShardTree

theorem length_serialize (t : ShardTree) : t.serialize.length = 4 + 4 * t.leafShardIds.length := by
  have hsum : ∀ l : List ℕ, (l.flatMap (le 4)).length = 4 * l.length := by
    intro l
    induction l with
    | nil => rfl
    | cons s l ih =>
      rw [List.flatMap_cons, List.length_append, ih, le_length, List.length_cons]
      omega
  unfold serialize
  rw [List.length_append, le_length, hsum]

theorem leaf_lt (t : ShardTree) {s : ℕ} (hs : s ∈ t.leafShardIds) : s < 256 ^ 4 := by
  obtain ⟨hmax, -⟩ := requireShardId_ok.1 (t.isPartition.2.canonical s (List.mem_toFinset.2 hs))
  exact lt_of_le_u32 hmax

/-- The reads of `deserialize` give back the leaves. -/
theorem deserialize_serialize {t : ShardTree} (h : t.serialize.length ≤ shardTreeMaxBytes) :
    deserialize t.serialize = .ok t := by
  have hcount : t.leafShardIds.length < 256 ^ 4 := by
    rw [length_serialize] at h
    unfold shardTreeMaxBytes at h
    omega
  have hread : Reads (do
      let n ← Reader.uint (.valueError "truncated shard tree") 4
      Reader.replicate (Reader.uint (PyError.valueError "truncated shard tree") 4) n) t.leafShardIds t.serialize :=
    (Reads.uint _ hcount).bind (Reads.replicate fun s hs => Reads.uint _ (t.leaf_lt hs))
  have hparse := hread.parse (.valueError "trailing shard tree bytes")
  rw [bind_assoc] at hparse
  unfold deserialize
  rw [Exn.ensure_of _ h, Exn.ok_bind]
  dsimp only
  rw [hparse, Exn.ok_bind]
  exact make_iff.2 rfl

/-- **Only the serialization of a tree is read as the tree.** -/
theorem deserialize_inv {t : ShardTree} {data : Bytes} (h : deserialize data = .ok t) : data = t.serialize := by
  simp only [deserialize, Exn.bind_ok, Exn.ensure_ok] at h
  obtain ⟨-, -, leaves, hparse, hmake⟩ := h
  rw [make_iff] at hmake
  obtain ⟨rest, hread⟩ := Reader.parse_ok.1 hparse
  obtain ⟨n, c, hcount, hread⟩ := Reader.bind_ok.1 hread
  obtain ⟨l, d, hleaves, hread⟩ := Reader.bind_ok.1 hread
  obtain ⟨u, e, hfinish, hread⟩ := Reader.bind_ok.1 hread
  obtain ⟨rfl, -⟩ := Reader.finish_ok hfinish
  obtain ⟨rfl, -⟩ := Reader.pure_ok.1 hread
  obtain ⟨hlen, rfl⟩ := Reader.replicate_ok (fun hx => Reader.uint_ok hx) hleaves
  rw [Reader.uint_ok hcount, ← hlen, List.append_nil, ← hmake]
  rfl

theorem stateRoot_ok {C : Crypto} {t : ShardTree} :
    (∃ root, t.stateRoot C = .ok root) ↔ t.serialize.length ≤ shardTreeMaxBytes := by
  unfold stateRoot
  constructor
  · rintro ⟨root, hroot⟩
    obtain ⟨_, hle, -⟩ := Exn.bind_ok.1 hroot
    exact Exn.ensure_ok.1 hle
  · intro h
    rw [Exn.ensure_of _ h]
    exact ⟨_, rfl⟩

theorem serialize_fits {t : ShardTree} : t.serialize.length ≤ shardTreeMaxBytes ↔ t.leafShardIds.length < 2 ^ 16 := by
  rw [length_serialize]
  unfold shardTreeMaxBytes
  omega

end ShardTree

/-- **A shard tree is read back from its bytes and has a state root, and no other bytes are
read as it, exactly if** it has fewer than `2 ^ 16` leaves. -/
theorem serialize_iff (C : Crypto) (t : ShardTree) :
    (ShardTree.deserialize t.serialize = .ok t ∧ (∃ root, t.stateRoot C = .ok root) ∧
      ∀ data, ShardTree.deserialize data = .ok t → data = t.serialize) ↔ t.leafShardIds.length < 2 ^ 16 := by
  rw [← ShardTree.serialize_fits]
  constructor
  · rintro ⟨-, hroot, -⟩
    exact ShardTree.stateRoot_ok.1 hroot
  · intro h
    exact ⟨ShardTree.deserialize_serialize h, ShardTree.stateRoot_ok.2 h, fun data hdata => ShardTree.deserialize_inv hdata⟩

/-! ## The full tree -/

/-- All shard ids of the greatest depth. -/
@[irreducible]
def deepestIds : List ℕ := (List.range (2 ^ 16)).map fun path => shardMaxDepth * 2 ^ 16 + path

theorem deepestIds_valid : validateLeafPartition deepestIds = .ok () := by
  have hfields : ∀ {path : ℕ}, path < 2 ^ 16 →
      shardDepth (shardMaxDepth * 2 ^ 16 + path) = shardMaxDepth ∧ shardPath (shardMaxDepth * 2 ^ 16 + path) = path ∧
        requireShardId (shardMaxDepth * 2 ^ 16 + path) = .ok () :=
    fun hpath => ShardTree.shardId_fields le_rfl hpath
  have hmem : ∀ {s : ℕ}, s ∈ deepestIds.toFinset ↔ ∃ path < 2 ^ 16, shardMaxDepth * 2 ^ 16 + path = s := by
    intro s
    unfold deepestIds
    rw [List.mem_toFinset, List.mem_map]
    simp only [List.mem_range]
  refine ShardTree.validateLeafPartition_iff.2 ⟨?_, ?_, ?_⟩
  · unfold deepestIds
    rw [List.pairwise_map]
    exact List.pairwise_lt_range.imp fun hlt => Nat.add_lt_add_left hlt _
  · intro s hs
    obtain ⟨path, hpath, rfl⟩ := hmem.1 hs
    exact (hfields hpath).2.2
  · intro r
    have hr : r % 2 ^ 16 < 2 ^ 16 := Nat.mod_lt _ (by omega)
    refine ⟨shardMaxDepth * 2 ^ 16 + r % 2 ^ 16, ⟨hmem.2 ⟨_, hr, rfl⟩, ?_⟩, ?_⟩
    · obtain ⟨hdepth, hpath, -⟩ := hfields hr
      unfold ShardTree.leafMatches
      rw [hdepth, hpath]
      exact decide_eq_true rfl
    · rintro s ⟨hs, hmatch⟩
      obtain ⟨path, hlt, rfl⟩ := hmem.1 hs
      obtain ⟨hdepth, hpath, -⟩ := hfields hlt
      unfold ShardTree.leafMatches at hmatch
      rw [hdepth, hpath, decide_eq_true_eq] at hmatch
      rw [hmatch]
      rfl

theorem length_deepestIds : deepestIds.length = 2 ^ 16 := by
  unfold deepestIds
  rw [List.length_map, List.length_range]

/-- The full tree of the greatest depth. -/
def fullTree : ShardTree := ⟨deepestIds, deepestIds_valid⟩

theorem fullTree_leaves : fullTree.leafShardIds = deepestIds := rfl

theorem fullTree_long : ¬fullTree.serialize.length ≤ shardTreeMaxBytes := by
  rw [ShardTree.serialize_fits, fullTree_leaves, length_deepestIds]
  exact lt_irrefl _

/-- The full tree cannot be read back and has no state root. -/
theorem serialize_fullTree : ShardTree.deserialize fullTree.serialize ≠ .ok fullTree ∧
    ¬∃ root, fullTree.stateRoot sampleCrypto = .ok root := by
  refine ⟨fun h => ?_, fun h => fullTree_long (ShardTree.stateRoot_ok.1 h)⟩
  unfold ShardTree.deserialize at h
  rw [Exn.ensure_not _ fullTree_long] at h
  cases h

end TensorPow
