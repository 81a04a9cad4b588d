import TensorPow.Proof.Conservation
import TensorPow.Proof.Mempool

/-!
# Calls are atomic

* `PoolOk`: the pending transactions are those of the mempool column, each admissible at
  the active tip. So rebuilding the mempool finds nothing stale (`rebuildMempool_own`),
  and it never raises (`rebuildMempool_returns`).
* `step_poolOk`: a call that accepts keeps `PoolOk`; any other call changes nothing but
  the fruit DAG cache.
-/

namespace TensorPow

open Wire Sorted

variable {C : Crypto}

namespace Node

variable {cfg : Config} {n n' : Node C} {now : ℕ} {writeOk : Bool}

/-! ## Rebuilding the mempool -/

/-- What admission reads of the active tip is in range. -/
structure TipOk (n : Node C) : Prop where
  floors : ∀ k ∈ n.store.feeFloors.keys, requireShardId k = .ok ()
  height : n.anchorHeight ≤ u64Max

/-- The entries are valid at the active tip. -/
def PoolValid (n : Node C) (m : Mempool) : Prop := m.Valid n.shardTree n.store.feeFloors n.utxoSet n.anchorHeight

/-- One transaction is admitted, or it is noted as stale. -/
theorem readmit_cases (acc : Mempool × List Hash) (tx : Transaction) :
    (∃ m, acc.1.addTx tx none n.utxoSet 0 n.anchorHeight = .ok m ∧ n.readmit acc tx = .ok (m, acc.2)) ∨
    (∀ m, acc.1.addTx tx none n.utxoSet 0 n.anchorHeight ≠ .ok m) ∧
      n.readmit acc tx = .ok (acc.1, acc.2 ++ [tx.txId C]) := by
  have hpost : Exn.Post (acc.1.addTx tx none n.utxoSet 0 n.anchorHeight) (fun _ => True) Stop.IsReject :=
    Mempool.addTx_post
  unfold readmit
  cases h : acc.1.addTx tx none n.utxoSet 0 n.anchorHeight with
  | ok m => exact .inl ⟨m, rfl, rfl⟩
  | error s =>
    rw [h] at hpost
    obtain ⟨r, rfl⟩ := hpost
    exact .inr ⟨fun m hm => (by cases hm), rfl⟩

/-- What the loop of `_rebuild_mempool` has done: each transaction is pending or stale. -/
structure Readmitted (n : Node C) (done : List Transaction) (acc : Mempool × List Hash) : Prop where
  valid : n.PoolValid acc.1
  entries : ∀ (id : Hash) e, acc.1.entries[id]? = some e → e.tx ∈ done
  stale : ∀ id ∈ acc.2, ∃ tx ∈ done, tx.txId C = id
  pending : ∀ tx ∈ done, tx.txId C ∉ acc.2 → ∃ e, acc.1.entries[tx.txId C]? = some e ∧ e.tx = tx
  apart : ∀ id ∈ acc.2, acc.1.entries[id]? = none

theorem readmitted_new (n : Node C) : n.Readmitted [] (Mempool.new n.shardTree n.store.feeFloors, []) := by
  refine ⟨Mempool.valid_new _ _ _ _, fun id e h => ?_, fun id h => (by cases h), fun tx h => (by cases h),
    fun id h => (by cases h)⟩
  change (∅ : Table Hash MempoolEntry)[id]? = some e at h
  rw [Table.get_empty] at h
  cases h

theorem Readmitted.admitted {done : List Transaction} {acc : Mempool × List Hash} {tx : Transaction} {m : Mempool}
    (h : n.Readmitted done acc) (hh : n.anchorHeight ≤ u64Max) (hnew : ∀ tx' ∈ done, tx'.txId C ≠ tx.txId C)
    (hm : acc.1.addTx tx none n.utxoSet 0 n.anchorHeight = .ok m) : n.Readmitted (done ++ [tx]) (m, acc.2) := by
  have hvalid : n.PoolValid m := h.valid.addTx hh (.inr rfl) hm
  obtain ⟨shardId, -, -, -, rfl⟩ := Mempool.addTx_ok.1 hm
  have hget : ∀ id : Hash, (acc.1.insertEntry (entryOf n.utxoSet tx shardId)).entries[id]? =
      if tx.txId C = id then some (entryOf n.utxoSet tx shardId) else acc.1.entries[id]? := by
    intro id
    change (acc.1.entries.insert (tx.txId C) _)[id]? = _
    rw [Table.get_insert]
    congr
  refine ⟨hvalid, fun id e he => ?_, fun id hid => ?_, fun tx' htx' hfresh => ?_, fun id hid => ?_⟩
  · rw [hget] at he
    split at he
    · cases he
      simp [entryOf]
    · exact List.mem_append_left _ (h.entries id e he)
  · obtain ⟨tx', htx', rfl⟩ := h.stale id hid
    exact ⟨tx', List.mem_append_left _ htx', rfl⟩
  · rw [hget]
    rcases List.mem_append.1 htx' with htx' | htx'
    · rw [if_neg fun e => hnew tx' htx' e.symm]
      exact h.pending tx' htx' hfresh
    · rw [List.mem_singleton.1 htx', if_pos rfl]
      exact ⟨_, rfl, rfl⟩
  · obtain ⟨tx', htx', rfl⟩ := h.stale id hid
    rw [hget, if_neg fun e => hnew tx' htx' e.symm]
    exact h.apart _ hid

theorem Readmitted.drop {done : List Transaction} {acc : Mempool × List Hash} {tx : Transaction}
    (h : n.Readmitted done acc) (hnew : ∀ tx' ∈ done, tx'.txId C ≠ tx.txId C) :
    n.Readmitted (done ++ [tx]) (acc.1, acc.2 ++ [tx.txId C]) := by
  have hnone : acc.1.entries[tx.txId C]? = none := by
    refine Option.eq_none_iff_forall_ne_some.2 fun e he => ?_
    exact hnew e.tx (h.entries _ e he) (h.valid.entries _ e he).1
  refine ⟨h.valid, fun id e he => List.mem_append_left _ (h.entries id e he), fun id hid => ?_,
    fun tx' htx' hfresh => ?_, fun id hid => ?_⟩
  · rcases List.mem_append.1 hid with hid | hid
    · obtain ⟨tx', htx', rfl⟩ := h.stale id hid
      exact ⟨tx', List.mem_append_left _ htx', rfl⟩
    · exact ⟨tx, by simp, (List.mem_singleton.1 hid).symm⟩
  · rw [List.mem_append, List.mem_singleton, not_or] at hfresh
    rcases List.mem_append.1 htx' with htx' | htx'
    · exact h.pending tx' htx' hfresh.1
    · exact absurd (by rw [List.mem_singleton.1 htx']) hfresh.2
  · rcases List.mem_append.1 hid with hid | hid
    · exact h.apart id hid
    · rw [List.mem_singleton.1 hid]
      exact hnone

/-- **Rebuilding the mempool never raises**: every transaction is pending afterwards or
gone from the column. -/
theorem rebuildMempool_returns (hn : n.TipOk) {txs : List Transaction}
    (hnodup : (txs.map fun tx => tx.txId C).Nodup) :
    ∃ m stale, n.rebuildMempool txs =
        .ok (m, { n.store with mempool := Table.eraseAll n.store.mempool stale }) ∧
      txs.foldlM n.readmit (Mempool.new n.shardTree n.store.feeFloors, []) = .ok (m, stale) ∧
      n.Readmitted txs (m, stale) := by
  obtain ⟨⟨m, stale⟩, hloop, hdone⟩ : ∃ acc,
      txs.foldlM n.readmit (Mempool.new n.shardTree n.store.feeFloors, []) = .ok acc ∧ n.Readmitted txs acc := by
    refine (Exn.Post.foldlM (E := fun _ => False) n.Readmitted n.readmitted_new
      fun done tx todo acc hl h => ?_).returns
    have hnew : ∀ tx' ∈ done, tx'.txId C ≠ tx.txId C := by
      rw [hl, List.map_append, List.map_cons] at hnodup
      intro tx' htx' heq
      refine (List.disjoint_of_nodup_append hnodup) (List.mem_map.2 ⟨tx', htx', heq⟩) List.mem_cons_self
    rcases readmit_cases (n := n) acc tx with ⟨m, hm, heq⟩ | ⟨-, heq⟩
    · rw [heq]
      exact Exn.Post.ok (h.admitted hn.height hnew hm)
    · rw [heq]
      exact Exn.Post.ok (h.drop hnew)
  refine ⟨m, stale, ?_, hloop, hdone⟩
  have hfloors : (n.store.feeFloors.keys.forM fun shardId => raising (requireShardId shardId)) = .ok () :=
    Exn.forM_ok.2 fun k hk => raising_eq (hn.floors k hk)
  unfold rebuildMempool
  rw [hfloors, Exn.ok_bind, hloop, Exn.ok_bind, ← Store.delete_mempool, List.foldl_map]
  rfl

/-- Transactions that are all admissible and spend different outpoints are all pending
afterwards. -/
theorem readmit_all {txs : List Transaction} (hn : n.TipOk) (hnodup : (txs.map fun tx => tx.txId C).Nodup)
    (hadmits : ∀ tx ∈ txs, ∃ shardId, Admits n.shardTree n.store.feeFloors n.utxoSet 0 n.anchorHeight tx shardId)
    (hdisj : ∀ tx ∈ txs, ∀ tx' ∈ txs, ∀ o ∈ tx.spent, o ∈ tx'.spent → tx = tx') :
    ∃ m, txs.foldlM n.readmit (Mempool.new n.shardTree n.store.feeFloors, []) = .ok (m, []) := by
  have hpost := Exn.Post.foldlM (E := fun _ => False) (f := n.readmit) (l := txs)
    (s := (Mempool.new n.shardTree n.store.feeFloors, [])) (fun done acc => n.Readmitted done acc ∧ acc.2 = [])
    ⟨n.readmitted_new, rfl⟩ fun done tx todo acc hl h => ?_
  · obtain ⟨⟨m, stale⟩, hloop, -, hstale⟩ := hpost.returns
    cases hstale
    exact ⟨m, hloop⟩
  · obtain ⟨h, hstale⟩ := h
    have htx : tx ∈ txs := by rw [hl]; simp
    have hdone : ∀ tx' ∈ done, tx' ∈ txs ∧ tx'.txId C ≠ tx.txId C := by
      intro tx' htx'
      refine ⟨by rw [hl]; exact List.mem_append_left _ htx', fun heq => ?_⟩
      rw [hl, List.map_append, List.map_cons] at hnodup
      exact (List.disjoint_of_nodup_append hnodup) (List.mem_map.2 ⟨tx', htx', heq⟩) List.mem_cons_self
    obtain ⟨shardId, hadm⟩ := hadmits tx htx
    -- no id was taken before, and no input
    have hadd : acc.1.addTx tx none n.utxoSet 0 n.anchorHeight =
        .ok (acc.1.insertEntry (entryOf n.utxoSet tx shardId)) := by
      refine Mempool.addTx_ok.2 ⟨shardId, ?_, ?_, fun o ho => ?_, rfl⟩
      · rw [h.valid.sameTree, h.valid.sameFloors]
        exact hadm
      · refine Option.eq_none_iff_forall_ne_some.2 fun e he => ?_
        exact (hdone e.tx (h.entries _ e he)).2 (h.valid.entries _ e he).1
      · refine Option.eq_none_iff_forall_ne_some.2 fun id hid => ?_
        obtain ⟨e, he, ho'⟩ := (h.valid.spent o id).1 hid
        obtain ⟨hmem, hne⟩ := hdone e.tx (h.entries id e he)
        exact hne (by rw [hdisj e.tx hmem tx htx o ho' ho])
    rcases readmit_cases (n := n) acc tx with ⟨m, hm, heq⟩ | ⟨hno, -⟩
    · rw [heq]
      exact Exn.Post.ok ⟨h.admitted hn.height (fun tx' htx' => (hdone tx' htx').2) hm, hstale⟩
    · exact absurd hadd (hno _)

/-! ## The invariant -/

/-- The pending transactions are the mempool column, each admissible at the active tip. -/
structure PoolOk (n : Node C) : Prop where
  tip : n.TipOk
  valid : n.PoolValid n.mempool
  column : ∀ (id : Hash) tx, n.store.mempool[id]? = some tx ↔
    ∃ e, n.mempool.entries[id]? = some e ∧ e.tx = tx

theorem poolOk_empty : PoolOk (empty : Node C) := by
  refine ⟨⟨fun k hk => ?_, Nat.zero_le _⟩, Mempool.valid_new _ _ _ _, fun id tx => ?_⟩
  · obtain ⟨v, hv⟩ := Table.mem_keys.1 hk
    change (∅ : Table ℕ ℕ)[k]? = some v at hv
    rw [Table.get_empty] at hv
    cases hv
  · change (∅ : Table Hash Transaction)[id]? = some tx ↔
      ∃ e, (∅ : Table Hash MempoolEntry)[id]? = some e ∧ e.tx = tx
    simp

theorem mempoolTxs_nodup (hkeys : ∀ (id : Hash) tx, n.store.mempool[id]? = some tx → tx.txId C = id) :
    (n.store.mempoolTxs.map fun tx => tx.txId C).Nodup := by
  have hids : (n.store.mempoolTxs.map fun tx => tx.txId C) = n.store.mempool.keys := by
    unfold Store.mempoolTxs
    rw [List.map_map, ← Std.ExtTreeMap.map_fst_toList_eq_keys]
    exact List.map_congr_left fun p hp => hkeys p.1 p.2 (Table.mem_toList.1 hp)
  rw [hids]
  exact n.store.mempool.nodup_keys

/-- A node whose column holds transactions under their ids, after `_rebuild_mempool` on
that column. -/
theorem poolOk_rebuilt (hn : n.TipOk) (hkeys : ∀ (id : Hash) tx, n.store.mempool[id]? = some tx → tx.txId C = id) :
    ∃ m store, n.rebuildMempool n.store.mempoolTxs = .ok (m, store) ∧ store.chain = n.store.chain ∧
      PoolOk { n with mempool := m, store := store } := by
  have hmem : ∀ tx, tx ∈ n.store.mempoolTxs ↔ n.store.mempool[tx.txId C]? = some tx := by
    intro tx
    unfold Store.mempoolTxs
    rw [List.mem_map]
    constructor
    · rintro ⟨p, hp, rfl⟩
      have hp := Table.mem_toList.1 hp
      rw [hkeys p.1 p.2 hp, hp]
    · intro h
      exact ⟨_, Table.mem_toList.2 h, rfl⟩
  obtain ⟨m, stale, hrebuild, -, hdone⟩ := rebuildMempool_returns hn (mempoolTxs_nodup hkeys)
  refine ⟨m, _, hrebuild, rfl, ⟨hn.floors, hn.height⟩, hdone.valid, fun id tx => ?_⟩
  change (Table.eraseAll n.store.mempool stale)[id]? = some tx ↔ ∃ e, m.entries[id]? = some e ∧ e.tx = tx
  rw [Table.get_eraseAll]
  constructor
  · intro h
    split at h
    · cases h
    · rename_i hfresh
      have hid := hkeys id tx h
      subst hid
      exact hdone.pending tx ((hmem tx).2 h) hfresh
  · rintro ⟨e, he, rfl⟩
    have hid := (hdone.valid.entries id e he).1
    rw [if_neg fun hs => (by rw [hdone.apart id hs] at he; cases he), ← hid]
    exact (hmem e.tx).1 (hdone.entries id e he)

theorem PoolOk.keys (hn : PoolOk n) (id : Hash) (tx : Transaction) (h : n.store.mempool[id]? = some tx) :
    tx.txId C = id := by
  obtain ⟨e, he, rfl⟩ := (hn.column id tx).1 h
  exact (hn.valid.entries id e he).1

/-- **Nothing pending is stale.** -/
theorem rebuildMempool_own (hn : PoolOk n) :
    ∃ m, n.rebuildMempool n.mempool.transactions = .ok (m, n.store) ∧
      n.mempool.transactions.foldlM n.readmit (Mempool.new n.shardTree n.store.feeFloors, []) = .ok (m, []) ∧
      n.PoolValid m ∧ ∀ tx, tx ∈ m.transactions ↔ tx ∈ n.mempool.transactions := by
  obtain ⟨m, stale, hrebuild, hloop, hdone⟩ := rebuildMempool_returns hn.tip hn.valid.nodup
  obtain ⟨m', hm'⟩ := readmit_all hn.tip hn.valid.nodup
    (fun tx htx => by
      obtain ⟨e, he, rfl⟩ := hn.valid.pending_iff.1 htx
      obtain ⟨-, shardId, hadmits, -⟩ := hn.valid.entries _ e he
      exact ⟨shardId, hadmits⟩)
    fun tx htx tx' htx' o ho ho' => hn.valid.disjoint htx htx' ho ho'
  cases hloop.symm.trans hm'
  refine ⟨m, hrebuild, hm', hdone.valid, fun tx => ?_⟩
  rw [hdone.valid.pending_iff]
  constructor
  · rintro ⟨e, he, rfl⟩
    exact hdone.entries _ e he
  · exact fun htx => hdone.pending tx htx (by simp)

/-! ## One call -/

/-- Everything but the fruit DAG cache is the same. -/
structure Unchanged (n n' : Node C) : Prop where
  store : n'.store = n.store
  utxoSet : n'.utxoSet = n.utxoSet
  shardTree : n'.shardTree = n.shardTree
  mempool : n'.mempool = n.mempool

theorem Unchanged.refl (n : Node C) : Unchanged n n := ⟨rfl, rfl, rfl, rfl⟩

theorem withFruitDag_unchanged (n : Node C) : Unchanged n n.withFruitDag := by
  unfold withFruitDag
  split
  · exact ⟨rfl, rfl, rfl, rfl⟩
  · exact .refl n

theorem PoolOk.unchanged (hn : PoolOk n) (h : Unchanged n n') : PoolOk n' := by
  obtain ⟨store, tree, utxoSet, mempool, cache⟩ := n
  obtain ⟨store', tree', utxoSet', mempool', cache'⟩ := n'
  obtain ⟨hstore, hutxo, htree, hpool⟩ := h
  cases hstore
  cases hutxo
  cases htree
  cases hpool
  exact ⟨⟨hn.tip.floors, hn.tip.height⟩, hn.valid, hn.column⟩

theorem stop_isAccepted (s : Stop) : s.outcome.isAccepted = false := by cases s <;> rfl

variable (writeOk) in
/-- A raw transaction is admitted and written, or nothing changes. -/
theorem processRawTx_cases (hn : PoolOk n) (data : Bytes) :
    (n.processRawTx data writeOk).1.isAccepted = false ∧ (n.processRawTx data writeOk).2 = n ∨
    ∃ tx m, (n.processRawTx data writeOk) = (.accepted (tx.txId C),
      { n with store := { n.store with mempool := n.store.mempool.insert (tx.txId C) tx }, mempool := m }) ∧
      PoolOk (n.processRawTx data writeOk).2 := by
  obtain ⟨staged, hrebuild, -, hvalid, hsame⟩ := rebuildMempool_own hn
  simp only [hvalid.pending_iff, hn.valid.pending_iff] at hsame
  unfold processRawTx
  split
  · exact .inl ⟨rfl, rfl⟩
  rename_i tx htx
  split
  · exact .inl ⟨rfl, rfl⟩
  rw [hrebuild]
  dsimp only
  cases hadd : staged.addTx tx none n.utxoSet 0 0 with
  | error s => exact .inl ⟨stop_isAccepted s, rfl⟩
  | ok m =>
    cases writeOk with
    | false => exact .inl ⟨rfl, rfl⟩
    | true =>
      refine .inr ⟨tx, m, rfl, ⟨hn.tip.floors, hn.tip.height⟩, hvalid.addTx hn.tip.height (.inl rfl) hadd,
        fun id tx' => ?_⟩
      obtain ⟨shardId, -, -, -, rfl⟩ := Mempool.addTx_ok.1 hadd
      change (n.store.mempool.insert (tx.txId C) tx)[id]? = some tx' ↔
        ∃ e, (staged.entries.insert (tx.txId C) (entryOf n.utxoSet tx shardId))[id]? = some e ∧ e.tx = tx'
      simp only [Table.get_insert]
      -- column and pool gain the same transaction under the same id
      by_cases hid : tx.txId C = id
      · simp [hid, entryOf]
      · simp only [if_neg hid]
        constructor
        · intro h
          have hid' := hn.keys id tx' h
          subst hid'
          exact (hsame tx').2 ((hn.column _ tx').1 h)
        · rintro ⟨e, he, rfl⟩
          have hid' := (hvalid.entries id e he).1
          subst hid'
          exact (hn.column _ e.tx).2 ((hsame e.tx).1 ⟨e, he, rfl⟩)

/-- The confirmed transactions are gone from the column, and what is left is as admissible
as before: `_rebuild_mempool` after a fruit deletes nothing. -/
theorem commitFruit_eq (hn : PoolOk n) (f : Fruit C) (plan : FruitPlan) :
    ∃ m, n.commitFruit f plan = (.accepted f.blockHash, { n.afterFruit f plan with mempool := m }) ∧
      PoolOk { n.afterFruit f plan with mempool := m } := by
  have hcolumn : ∀ (id : Hash) tx, (n.afterFruit f plan).store.mempool[id]? = some tx →
      id ∉ (plan.txs.map fun tx => tx.txId C) ∧ n.store.mempool[id]? = some tx := by
    intro id tx h
    change (Table.eraseAll n.store.mempool _)[id]? = some tx at h
    rw [Table.get_eraseAll] at h
    split at h
    · cases h
    · rename_i hnot
      exact ⟨hnot, h⟩
  have hkeys : ∀ (id : Hash) tx, (n.afterFruit f plan).store.mempool[id]? = some tx → tx.txId C = id :=
    fun id tx h => hn.keys id tx (hcolumn id tx h).2
  -- what stays in the column was pending and is not confirmed by the fruit
  have hpending : ∀ tx ∈ (n.afterFruit f plan).store.mempoolTxs, tx ∈ n.mempool.transactions ∧
      tx.txId C ∉ plan.txs.map fun tx => tx.txId C := by
    intro tx htx
    obtain ⟨p, hp, rfl⟩ := List.mem_map.1 htx
    have hp := Table.mem_toList.1 hp
    obtain ⟨hnot, hold⟩ := hcolumn p.1 p.2 hp
    obtain ⟨e, he, heq⟩ := (hn.column p.1 p.2).1 hold
    exact ⟨Mempool.mem_transactions.2 ⟨p.1, e, he, heq⟩, by rw [hkeys p.1 p.2 hp]; exact hnot⟩
  have hfilter : ((n.afterFruit f plan).store.mempoolTxs.filter fun tx =>
      tx.txId C ∉ plan.txs.map fun tx => tx.txId C) = (n.afterFruit f plan).store.mempoolTxs :=
    List.filter_eq_self.2 fun tx htx => decide_eq_true (hpending tx htx).2
  have htip : (n.afterFruit f plan).TipOk := ⟨hn.tip.floors, hn.tip.height⟩
  obtain ⟨m, store, hrebuild, -, hpool⟩ := poolOk_rebuilt htip hkeys
  -- so all of it is admitted again, and none is stale
  obtain ⟨m', hall⟩ := readmit_all htip (mempoolTxs_nodup hkeys)
    (fun tx htx => by
      obtain ⟨id, e, he, rfl⟩ := Mempool.mem_transactions.1 (hpending tx htx).1
      obtain ⟨-, shardId, hadmits, -⟩ := hn.valid.entries id e he
      exact ⟨shardId, hadmits⟩)
    fun tx htx tx' htx' o ho ho' => hn.valid.disjoint (hpending tx htx).1 (hpending tx' htx').1 ho ho'
  obtain ⟨stale, hloop, hstore⟩ := rebuildMempool_ok hrebuild
  cases hloop.symm.trans hall
  have hsame : store = (n.afterFruit f plan).store := hstore
  rw [hsame] at hpool
  refine ⟨m, ?_, hpool⟩
  unfold commitFruit
  rw [fruitBatch_eq]
  dsimp only
  rw [hfilter, hrebuild, hsame]

variable (cfg now writeOk) in
/-- A fruit passes its checks and is written, or nothing changes. -/
theorem processFruit_cases (hn : PoolOk n) (f : Fruit C) :
    (n.processFruit cfg f now writeOk).1.isAccepted = false ∧ (n.processFruit cfg f now writeOk).2 = n ∨
    ∃ plan m, n.checkFruit cfg f now = .ok plan ∧
      n.processFruit cfg f now writeOk = (.accepted f.blockHash, { n.afterFruit f plan with mempool := m }) ∧
      PoolOk { n.afterFruit f plan with mempool := m } := by
  unfold processFruit
  cases hplan : n.checkFruit cfg f now with
  | error s => exact .inl ⟨stop_isAccepted s, rfl⟩
  | ok plan =>
    cases writeOk with
    | false => exact .inl ⟨rfl, rfl⟩
    | true =>
      obtain ⟨m, hcommit, hpool⟩ := commitFruit_eq hn f plan
      exact .inr ⟨plan, m, rfl, hcommit, hpool⟩

/-- The active tip an anchor sets is in range. -/
theorem AnchorCheckedLate.tipOk {a : Anchor C} {plan : AnchorPlan C} (h : AnchorCheckedLate n a plan)
    (hbest : plan.isBest = true) : TipOk (n.afterAnchor a plan) := by
  obtain ⟨branch, -, happly⟩ := h.applied
  obtain ⟨r, hr, hstate⟩ := applyAnchorToBranch_ok.1 happly
  obtain ⟨tree, -, -, -, -, hheight, -, hfloors, -⟩ := applyAnchor_ok hr
  rw [hstate] at hheight hfloors
  rw [afterAnchor, hbest]
  refine ⟨fun s hs => ?_, ?_⟩
  · change s ∈ plan.state.feeFloors.keys at hs
    obtain ⟨v, hv⟩ := Table.mem_keys.1 hs
    rw [hfloors] at hv
    obtain ⟨e, -, rfl⟩ : ∃ e ∈ a.feeFloorEntries, e.shardId = s := by
      by_contra hno
      rw [Table.get_putAll_of_notMem, Table.get_empty] at hv
      · cases hv
      · intro w hw
        obtain ⟨e, he, heq⟩ := List.mem_map.1 hw
        cases heq
        exact hno ⟨e, he, rfl⟩
    exact (Exn.bind_ok.1 e.valid).choose_spec.1
  · change plan.state.height ≤ u64Max
    rw [hheight]
    exact h.height_le

/-- The write of an anchor, and the mempool after it: rebuilt if the anchor is the best. -/
theorem commitAnchor_ok (hn : PoolOk n) {a : Anchor C} {plan : AnchorPlan C} (hchk : AnchorCheckedLate n a plan) :
    (n.commitAnchor a plan).1 = .accepted a.blockHash ∧ SameChain (n.afterAnchor a plan) (n.commitAnchor a plan).2 ∧
      PoolOk (n.commitAnchor a plan).2 := by
  unfold commitAnchor
  rw [anchorBatch_eq]
  cases hbest : plan.isBest with
  | false =>
    refine ⟨by rw [← hchk.hash]; rfl, ?_, ⟨hn.tip.floors, hn.tip.height⟩, hn.valid, hn.column⟩
    rw [afterAnchor, hbest]
    exact .refl _
  | true =>
    have htip := hchk.tipOk hbest
    rw [afterAnchor, hbest] at htip ⊢
    simp only [if_true] at htip ⊢
    obtain ⟨m, store, hrebuild, hchain, hpool⟩ := poolOk_rebuilt htip fun id tx h => by
      change (Table.eraseAll n.store.mempool _)[id]? = some tx at h
      rw [Table.get_eraseAll] at h
      split at h
      · cases h
      · exact hn.keys id tx h
    rw [hrebuild]
    exact ⟨by rw [← hchk.hash], ⟨hchain, rfl, rfl⟩, hpool⟩

variable (cfg now writeOk) in
/-- An anchor passes its checks and is written, or nothing changes. -/
theorem processAnchor_cases (hn : PoolOk n) (a : Anchor C) :
    (n.processAnchor cfg a now writeOk).1.isAccepted = false ∧ Unchanged n (n.processAnchor cfg a now writeOk).2 ∨
    ∃ plan, n.checkAnchorEarly cfg a now = .ok () ∧ n.withFruitDag.checkAnchorLate a = .ok plan ∧
      (n.processAnchor cfg a now writeOk).1 = .accepted a.blockHash ∧
      SameChain (n.withFruitDag.afterAnchor a plan) (n.processAnchor cfg a now writeOk).2 ∧
      PoolOk (n.processAnchor cfg a now writeOk).2 := by
  unfold processAnchor
  cases hearly : n.checkAnchorEarly cfg a now with
  | error s => exact .inl ⟨stop_isAccepted s, .refl n⟩
  | ok _ =>
    dsimp only
    cases hlate : n.withFruitDag.checkAnchorLate a with
    | error s => exact .inl ⟨stop_isAccepted s, n.withFruitDag_unchanged⟩
    | ok plan =>
      cases writeOk with
      | false => exact .inl ⟨rfl, n.withFruitDag_unchanged⟩
      | true =>
        have hcommit := commitAnchor_ok (hn.unchanged n.withFruitDag_unchanged) (checkAnchorLate_ok hlate)
        exact .inr ⟨plan, rfl, rfl, hcommit⟩

end Node

/-- A call that accepts keeps the mempool in order; any other call changes nothing. -/
theorem step_poolOk (cfg : Config) {n : Node C} (hn : n.PoolOk) (e : Event C) :
    (step cfg n e).1.isAccepted = true ∧ (step cfg n e).2.PoolOk ∨
    (step cfg n e).1.isAccepted = false ∧ n.Unchanged (step cfg n e).2 := by
  have hraw : ∀ data writeOk, (n.processRawTx data writeOk).1.isAccepted = true ∧ (n.processRawTx data writeOk).2.PoolOk ∨
      (n.processRawTx data writeOk).1.isAccepted = false ∧ n.Unchanged (n.processRawTx data writeOk).2 := by
    intro data writeOk
    rcases Node.processRawTx_cases writeOk hn data with ⟨hrej, heq⟩ | ⟨tx, m, heq, hpool⟩
    · rw [heq]
      exact .inr ⟨hrej, .refl n⟩
    · exact .inl ⟨by rw [heq]; rfl, hpool⟩
  have hfruit : ∀ f now writeOk, (n.processFruit cfg f now writeOk).1.isAccepted = true ∧
        (n.processFruit cfg f now writeOk).2.PoolOk ∨
      (n.processFruit cfg f now writeOk).1.isAccepted = false ∧ n.Unchanged (n.processFruit cfg f now writeOk).2 := by
    intro f now writeOk
    rcases Node.processFruit_cases cfg now writeOk hn f with
      ⟨hrej, heq⟩ | ⟨plan, m, -, heq, hpool⟩
    · rw [heq]
      exact .inr ⟨hrej, .refl n⟩
    · rw [heq]
      exact .inl ⟨rfl, hpool⟩
  have hanchor : ∀ a now writeOk, (n.processAnchor cfg a now writeOk).1.isAccepted = true ∧
        (n.processAnchor cfg a now writeOk).2.PoolOk ∨
      (n.processAnchor cfg a now writeOk).1.isAccepted = false ∧ n.Unchanged (n.processAnchor cfg a now writeOk).2 := by
    intro a now writeOk
    rcases Node.processAnchor_cases cfg now writeOk hn a with
      hrej | ⟨plan, -, -, hacc, -, hpool⟩
    · exact .inr hrej
    · exact .inl ⟨by rw [hacc]; rfl, hpool⟩
  cases e with
  | rawTx data writeOk => exact hraw data writeOk
  | fruit f now writeOk => exact hfruit f now writeOk
  | fruitBytes data now writeOk =>
    unfold step Node.processFruitBytes
    dsimp only
    split
    · exact .inr ⟨rfl, .refl n⟩
    · exact hfruit _ now writeOk
  | anchor a now writeOk => exact hanchor a now writeOk
  | anchorBytes data now writeOk =>
    unfold step Node.processAnchorBytes
    dsimp only
    split
    · exact .inr ⟨rfl, .refl n⟩
    · exact hanchor _ now writeOk

theorem Node.poolOk_of_reachable {cfg : Config} {n : Node C} (h : Reachable cfg n) : n.PoolOk := by
  refine h.inv Node.poolOk_empty fun k e hk => ?_
  rcases step_poolOk cfg hk e with ⟨-, hpool⟩ | ⟨-, hsame⟩
  · exact hpool
  · exact hk.unchanged hsame

/-- **Rejection is atomic.** A call that does not accept its input, whether it rejects it or
its write fails, leaves every column of the store and the state in memory as they were. -/
theorem step_atomic {cfg : Config} {n : Node C} (h : Reachable cfg n) (e : Event C)
    (hrej : (step cfg n e).1.isAccepted = false) :
    (step cfg n e).2.store = n.store ∧ (step cfg n e).2.utxoSet = n.utxoSet ∧
      (step cfg n e).2.shardTree = n.shardTree ∧ (step cfg n e).2.mempool = n.mempool := by
  rcases step_poolOk cfg (Node.poolOk_of_reachable h) e with ⟨hacc, -⟩ | ⟨-, hsame⟩
  · rw [hacc] at hrej
    cases hrej
  · exact ⟨hsame.store, hsame.utxoSet, hsame.shardTree, hsame.mempool⟩

/-- A spend of an output that does not exist. -/
def sampleSpend : Transaction :=
  ⟨⟨0, 0, 0, 0, [⟨⟨⟨genesisParentHash, 0, Nat.zero_le _⟩, txSequenceFinal, []⟩, by decide +kernel⟩],
    [⟨⟨1, .pkh, 0, 0, (FixedBytes.ofNat 32 5).bytes⟩, sampleOutput_valid⟩]⟩, by decide +kernel⟩

/-- A spend that is rejected leaves the sample node as it was. -/
theorem step_atomic_missingInput :
    (step sampleConfig sampleNode (.rawTx sampleSpend.toBytes true)).1 = .rejected .missingInput ∧
    (step sampleConfig sampleNode (.rawTx sampleSpend.toBytes true)).2.store = sampleNode.store := by
  have hrej : (step sampleConfig sampleNode (.rawTx sampleSpend.toBytes true)).1 = .rejected .missingInput := by
    decide +kernel
  have hreach : Reachable sampleConfig sampleNode := ⟨_, rfl⟩
  have hnot : (step sampleConfig sampleNode (.rawTx sampleSpend.toBytes true)).1.isAccepted = false := by rw [hrej]; rfl
  have hsame := step_atomic hreach (.rawTx sampleSpend.toBytes true) hnot
  exact ⟨hrej, hsame.1⟩

end TensorPow
