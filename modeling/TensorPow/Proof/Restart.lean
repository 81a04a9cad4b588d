import TensorPow.Spec.Restart
import TensorPow.Proof.Atomic
import TensorPow.Proof.Conflicts
import TensorPow.Proof.Decode

/-!
# Restart is a no-op

* `ShardTree.serialize_deserialize`: the stored shard tree can be read back, as can the
  unspent outputs (`UTXO.fromBytes_toBytes`) and the transactions.
* `Mirrored`: the UTXO column and the stored shard tree are those in memory.
* `restart_noop`: a node opened on the store of a reachable node, and any node that
  synchronizes from it, has its state.
-/

namespace TensorPow

open Wire Sorted

variable {C : Crypto}

/-! ## Reading back -/

/-- The bytes of a decoded shard tree are those of the tree. -/
theorem ShardTree.serialize_deserialize {data : Bytes} {t : ShardTree} (h : ShardTree.deserialize data = .ok t) :
    t.serialize = data := by
  unfold ShardTree.deserialize at h
  simp only [Exn.bind_ok] at h
  obtain ⟨-, -, leaves, hparse, hmake⟩ := h
  obtain ⟨r, hread⟩ := Reader.parse_ok.1 hparse
  obtain ⟨count, b, hcount, hread⟩ := Reader.bind_ok.1 hread
  obtain ⟨l, c, hl, hread⟩ := Reader.bind_ok.1 hread
  obtain ⟨u, d, hend, hread⟩ := Reader.bind_ok.1 hread
  obtain ⟨rfl, rfl⟩ := Reader.finish_ok hend
  cases hread
  obtain ⟨hlen, rfl⟩ := Reader.replicate_ok Reader.uint_ok hl
  have ht : t.leafShardIds = leaves := by
    unfold ShardTree.make at hmake
    split at hmake
    · cases hmake
      rfl
    · cases hmake
  rw [Reader.uint_ok hcount, ShardTree.serialize, ht, hlen, List.append_nil]

namespace UTXOSet

variable (s : UTXOSet C)

theorem get_column {k : Hash} {u : UTXO} : s.column[k]? = some u ↔ u ∈ s.entries ∧ u.outpoint.key C = k := by
  have hput : ∀ u ∈ s.entries, s.column[u.outpoint.key C]? = some u := fun u hu =>
    Table.get_putAll_of_mem ∅ s.nodup_column (List.mem_map.2 ⟨u, hu, rfl⟩)
  constructor
  · intro h
    obtain ⟨v, hv, rfl⟩ : ∃ v ∈ s.entries, v.outpoint.key C = k := by
      by_contra hno
      unfold column at h
      rw [Table.get_putAll_of_notMem, Table.get_empty] at h
      · cases h
      · intro v hv
        obtain ⟨w, hw, heq⟩ := List.mem_map.1 hv
        exact hno ⟨w, hw, congrArg Prod.fst heq⟩
    cases (hput v hv).symm.trans h
    exact ⟨hv, rfl⟩
  · rintro ⟨hu, rfl⟩
    exact hput u hu

/-- The column read back is the set. -/
theorem readUtxoSet_column {store : Store C} (h : store.utxo = s.column) : store.readUtxoSet = .ok s := by
  have hitem : ∀ p ∈ store.utxo.toList, p.2 ∈ s.entries ∧ p.2.outpoint.key C = p.1 := by
    intro p hp
    rw [h] at hp
    exact s.get_column.1 (Table.mem_toList.1 hp)
  have hloop : store.readUtxoSet = ofList (store.utxo.toList.map Prod.snd) := by
    unfold Store.readUtxoSet ofList
    rw [List.foldlM_map]
    refine Exn.foldlM_congr (fun p hp t => ?_) _
    unfold Store.addStored
    rw [← (hitem p hp).2, UTXO.fromBytes_toBytes]
    rfl
  rw [hloop]
  refine ofList_members ?_ fun u => ?_
  · have hkeys : ((store.utxo.toList.map Prod.snd).map fun u => u.outpoint.key C) = store.utxo.keys := by
      rw [List.map_map, ← Std.ExtTreeMap.map_fst_toList_eq_keys]
      exact List.map_congr_left fun p hp => (hitem p hp).2
    refine List.Nodup.of_map (Outpoint.key C) ?_
    rw [List.map_map]
    exact hkeys ▸ store.utxo.nodup_keys
  · rw [← mem_entries, List.mem_map]
    constructor
    · rintro ⟨p, hp, rfl⟩
      exact (hitem p hp).1
    · intro hu
      refine ⟨(u.outpoint.key C, u), Table.mem_toList.2 ?_, rfl⟩
      rw [h]
      exact s.get_column.2 ⟨hu, rfl⟩

end UTXOSet

theorem Store.readMempoolTxs_eq (s : Store C) : s.readMempoolTxs = .ok s.mempoolTxs := by
  unfold Store.readMempoolTxs
  rw [Exn.mapM_eq_map (g := id) fun tx _ => fromBytes_toBytes tx, List.map_id]

theorem Store.syncFrom_eq (target source : Store C) : target.syncFrom source = source := by
  have hitem : ∀ {V : Type} (t s : Option V), syncItem t s = s := by
    intro V t s
    unfold syncItem
    cases s with
    | some v => rfl
    | none => cases t <;> rfl
  unfold syncFrom syncColumn
  simp only [Table.replace_table_eq, hitem]

/-! ## The state in memory -/

namespace Node

variable {cfg : Config} {n n' : Node C}

/-- The UTXO column and the stored shard tree are those in memory. -/
structure Mirrored (n : Node C) : Prop where
  utxos : n.store.utxo = n.utxoSet.column
  tree : n.store.shardTree.getD .root = n.shardTree
  treeBytes : ∀ t, n.store.shardTree = some t → ShardTree.deserialize t.serialize = .ok t

theorem mirrored_empty : Mirrored (empty : Node C) := by
  refine ⟨Table.ext_get fun k => ?_, rfl, fun t ht => (by cases ht)⟩
  change (∅ : Table Hash UTXO)[k]? = _
  rw [Table.get_empty, eq_comm, Option.eq_none_iff_forall_ne_some]
  intro u hu
  have hmem := UTXOSet.mem_entries.1 ((UTXOSet.empty : UTXOSet C).get_column.1 hu).1
  rw [UTXOSet.get_none] at hmem
  cases hmem

theorem Mirrored.sameChain (hn : Mirrored n) (h : SameChain n n') : Mirrored n' := by
  have hcol {β : Type} (g : Store C → β) : g n'.store.chain = g n.store.chain := congrArg g h.store
  have htree : n'.store.shardTree = n.store.shardTree := hcol Store.shardTree
  have hutxo : n'.store.utxo = n.store.utxo := hcol Store.utxo
  refine ⟨by rw [hutxo, h.utxoSet, hn.utxos], by rw [htree, h.shardTree, hn.tree], ?_⟩
  rw [htree]
  exact hn.treeBytes

/-- An anchor that becomes the tip writes the state it leaves in memory. -/
theorem Mirrored.afterAnchor (hn : Mirrored n) {a : Anchor C} {plan : AnchorPlan C}
    (h : n.checkAnchorLate a = .ok plan) : Mirrored (n.afterAnchor a plan) := by
  obtain ⟨branch, -, happly⟩ := (checkAnchorLate_ok h).applied
  obtain ⟨r, hr, hstate⟩ := applyAnchorToBranch_ok.1 happly
  obtain ⟨tree, htree, -, -, -, -, htree', -⟩ := applyAnchor_ok hr
  rw [hstate] at htree'
  unfold Node.afterAnchor
  cases plan.isBest with
  | false => exact ⟨hn.utxos, hn.tree, hn.treeBytes⟩
  | true =>
    refine ⟨rfl, rfl, fun t ht => ?_⟩
    have ht : t = tree := (Option.some.inj ht).symm.trans htree'
    unfold anchorTree at htree
    simp only [Exn.bind_ok, rejecting_ok] at htree
    obtain ⟨tree', hdecode, -, -, hpure⟩ := htree
    cases hpure
    rw [ht, ShardTree.serialize_deserialize hdecode, hdecode]

theorem mirrored_of_reachable (h : Reachable cfg n) : Mirrored n := by
  refine h.inv mirrored_empty fun k e hk => ?_
  cases step_cases cfg k e with
  | same hsame _ => exact hk.sameChain hsame
  | @fruit f now plan hchk hsame _ =>
    have hfruit : Mirrored (k.afterFruit f plan) := ⟨hk.utxos, hk.tree, hk.treeBytes⟩
    exact hfruit.sameChain hsame
  | anchor _ hlate hsame _ => exact ((hk.sameChain k.withFruitDag_same).afterAnchor hlate).sameChain hsame

/-- The mempool column holds the pending transactions. -/
theorem PoolOk.column_eq (hn : PoolOk n) : n.store.mempool = n.mempool.entries.map fun _ e => e.tx := by
  refine Table.ext_get fun id => Option.ext fun tx => ?_
  rw [hn.column, Table.get_map, Option.map_eq_some_iff]

theorem PoolOk.mempoolTxs_eq (hn : PoolOk n) : n.store.mempoolTxs = n.mempool.transactions := by
  unfold Store.mempoolTxs Mempool.transactions
  rw [hn.column_eq, Std.ExtTreeMap.toList_map, List.map_map]
  rfl

/-- What a restart keeps. -/
structure Restored (n n' : Node C) : Prop where
  utxoSet : n'.utxoSet = n.utxoSet
  shardTree : n'.shardTree = n.shardTree
  feeFloors : n'.store.feeFloors = n.store.feeFloors
  height : n'.anchorHeight = n.anchorHeight
  minted : n'.mintedSupply = n.mintedSupply
  pending : n'.mempool.entries = n.mempool.entries
  store : n'.store = n.store

/-- Rebuilding from the store of a node gives its state, whatever was in memory before. -/
theorem reload_restores (hn : PoolOk n) (hm : Mirrored n) {k : Node C} (hk : k.store = n.store) :
    ∃ n', k.reload = .ok n' ∧ Restored n n' := by
  obtain ⟨m, hrebuild, -, hvalid, hsame⟩ := rebuildMempool_own hn
  have htree : ∃ t, k.store.getShardTree = .ok t ∧ t.getD .root = n.shardTree := by
    unfold Store.getShardTree
    rw [hk, ← hm.tree]
    cases ht : n.store.shardTree with
    | none => exact ⟨none, rfl, rfl⟩
    | some t =>
      dsimp only
      rw [hm.treeBytes t ht]
      exact ⟨some t, rfl, rfl⟩
  obtain ⟨t, ht, htree⟩ := htree
  have hentries : m.entries = n.mempool.entries := hn.valid.entries_eq hvalid hsame
  have hset : k.store.readUtxoSet = .ok n.utxoSet := n.utxoSet.readUtxoSet_column (by rw [hk, hm.utxos])
  -- the mempool is rebuilt from the same column at the same tip
  have hpool : ({ k with shardTree := n.shardTree, utxoSet := n.utxoSet } : Node C).rebuildMempool k.store.mempoolTxs =
      .ok (m, n.store) := by
    rw [hk, hn.mempoolTxs_eq, ← hrebuild]
    obtain ⟨store, tree, set, pool, cache⟩ := k
    obtain ⟨store', tree', set', pool', cache'⟩ := n
    cases hk
    rfl
  refine ⟨{ k with shardTree := n.shardTree, utxoSet := n.utxoSet, mempool := m, store := n.store }, ?_, ?_⟩
  · unfold reload
    rw [raising_eq ht, Exn.ok_bind, raising_eq hset, Exn.ok_bind, htree]
    dsimp only
    rw [raising_eq (Store.readMempoolTxs_eq _), Exn.ok_bind, hpool]
    rfl
  · exact ⟨rfl, rfl, rfl, rfl, rfl, hentries, rfl⟩

end Node

/-- **Restart is a no-op.** A node opened on the store of a reachable node, and any node
that synchronizes from it, has its state; no pending transaction is stale, and the mempool
column holds exactly the pending ids. -/
theorem restart_noop {cfg : Config} {n : Node C} (h : Reachable cfg n) :
    (∃ n', Node.opened n.store = .ok n' ∧ n.Restored n') ∧
    (∀ other : Node C, ∃ n', other.syncFrom n = .ok n' ∧ n.Restored n') ∧
    (∃ m, n.store.mempoolTxs.foldlM n.readmit (Mempool.new n.shardTree n.store.feeFloors, []) = .ok (m, [])) ∧
    n.store.mempool.keys = n.mempool.entries.toList.map fun p => p.2.txId := by
  have hn := Node.poolOk_of_reachable h
  have hm := Node.mirrored_of_reachable h
  refine ⟨Node.reload_restores hn hm rfl, fun other => ?_, ?_, ?_⟩
  · exact Node.reload_restores hn hm (Store.syncFrom_eq _ _)
  · obtain ⟨m, -, hloop, -⟩ := Node.rebuildMempool_own hn
    exact ⟨m, by rw [hn.mempoolTxs_eq, hloop]⟩
  · rw [hn.column_eq, Std.ExtTreeMap.keys_map, ← Std.ExtTreeMap.map_fst_toList_eq_keys]
    refine List.map_congr_left fun p hp => ?_
    obtain ⟨hid, shardId, -, heq⟩ := hn.valid.entries p.1 p.2 (Table.mem_toList.1 hp)
    rw [heq, ← hid]
    rfl

/-- The node that has accepted the paying anchor, with a spend of its reward pending. -/
def samplePending : Node sampleCrypto :=
  run sampleConfig [.anchor sampleGenesis 0 true, .fruit sampleFruit 30000 true, .anchor samplePaying 60000 true,
    .rawTx sampleParent.toBytes true]

theorem restart_noop_pending :
    samplePending.anchorHeight = 1 ∧
    (samplePending.utxoSet.get ⟨anchorRewardId (C := sampleCrypto) samplePaying.blockHash, 0, Nat.zero_le _⟩).isSome ∧
    samplePending.store.mempool.keys = [sampleParent.txId sampleCrypto] ∧
    (∃ n', Node.opened samplePending.store = .ok n' ∧ samplePending.Restored n') ∧
    (∃ n', sampleNode.syncFrom samplePending = .ok n' ∧ samplePending.Restored n') ∧
    samplePending.store.mempool.keys = samplePending.mempool.entries.toList.map fun p => p.2.txId := by
  have hreach : Reachable sampleConfig samplePending := ⟨_, rfl⟩
  obtain ⟨hopen, hsync, -, hkeys⟩ := restart_noop hreach
  exact ⟨by decide +kernel, by decide +kernel, by decide +kernel, hopen, hsync sampleNode, hkeys⟩

end TensorPow
