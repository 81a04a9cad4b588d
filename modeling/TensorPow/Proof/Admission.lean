import TensorPow.Proof.Pool
import TensorPow.Proof.Relay

/-!
# Admission and block validation

The mempool and the block validator check a spend with code of their own.

* `entryFor_iff`: what the mempool admits over a UTXO set.
* `applySpend_of_admits`: what is admissible passes `_apply_spend_tx`.
* `addTx_iff_applySpendTx`: the two agree, and record the same fee.
-/

namespace TensorPow

open Wire Sorted Exn

variable {C : Crypto} {view : UTXOSet C} {tx : Transaction} {time height shardId : ℕ} {tree : ShardTree}
  {floors : Table ℕ ℕ}

/-- A transaction that passes `_apply_spend_tx` has inputs. -/
theorem inputs_of_applySpend {floor : ℕ} {r : UTXOSet C × ℕ}
    (h : applySpendTx view tx tree shardId floor time height = .ok r) : tx.inputs ≠ [] := by
  intro hnil
  have happlied : SpendApplied view tx tree shardId floor time height r.1 r.2 := applySpendTx_ok h
  apply happlied.spent_ne_nil
  rw [Transaction.spent, hnil, List.map_nil]

/-- An admissible transaction passes `_apply_spend_tx`. -/
theorem applySpend_of_admits (h : Admits tree floors view time height tx shardId) :
    ∃ r, applySpendTx view tx tree shardId (floors[shardId]?.getD 0) time height = .ok r := by
  have hpresent : ∀ o ∈ tx.spent, ∃ u, view.get o = some u := by
    intro o ho
    obtain ⟨i, hi, rfl⟩ := List.mem_map.1 ho
    obtain ⟨k, hk⟩ := List.mem_iff_getElem?.1 hi
    obtain ⟨u, -, hu, -⟩ := h.spendable (i, k) (List.mk_mem_zipIdx_iff_getElem?.2 hk)
    exact ⟨u, hu⟩
  obtain ⟨view', hview'⟩ := UTXOSet.removeAll_returns h.nodup hpresent
  rw [Transaction.spent, List.foldlM_map] at hview'
  have hloop := spendInputs_ok.2 ⟨h.nodup, h.spendable, rfl⟩
  have hrate : floors[shardId]?.getD 0 ≤ (inputSum view tx - tx.outputSum) * bytesPerKb / tx.toBytes.length := h.rate
  unfold applySpendTx
  rw [raising_eq h.routed, Exn.ok_bind, rejectUnless, Exn.ensure_of _ rfl, Exn.ok_bind, rejecting_eq h.locks,
    Exn.ok_bind, hloop, Exn.ok_bind]
  dsimp only
  rw [rejectUnless, Exn.ensure_of _ h.balance, Exn.ok_bind, rejectUnless, Exn.ensure_of _ hrate, Exn.ok_bind,
    raising_eq hview', Exn.ok_bind]
  exact ⟨_, rfl⟩

/-- **Admission over a UTXO set.** -/
theorem entryFor_iff {m : Mempool} {e : MempoolEntry} :
    m.entryFor C (.inl tx) none (some view.get) time height = .ok e ↔
      ∃ shardId, Admits m.shardTree m.feeFloors view time height tx shardId ∧ m.entries[tx.txId C]? = none ∧
        (∀ o ∈ tx.spent, m.spentOutpoints[o]? = none) ∧ e = entryOf view tx shardId := by
  simp only [Mempool.entryFor, Mempool.decodeCanonical, Mempool.checkRequestedShard, Mempool.assessSpends, Exn.get_some,
    Exn.ok_bind, Exn.bind_ok, Mempool.decodeCanonicalTx_ok, raising_ok, rejectUnless_ok, rejecting_ok,
    Mempool.assessInputs_ok, Exn.pure_ok]
  constructor
  · rintro ⟨_, ⟨_, ⟨hdecodes, rfl⟩, rfl⟩, shardId, hrouted, -, hnew, fee,
      ⟨-, hinputs, ⟨⟩, hlocks, _, ⟨⟨hnodup, hspendable, rfl⟩, hfree⟩, -, hbalance, rfl⟩, -, hrate, ⟨⟩, -, rfl⟩
    exact ⟨shardId, ⟨hdecodes, hrouted, hinputs, hlocks, hnodup, hspendable, hbalance, hrate⟩, hnew, hfree, rfl⟩
  · rintro ⟨shardId, h, hnew, hfree, rfl⟩
    exact ⟨(tx, tx.toBytes), ⟨tx, ⟨h.decodes, rfl⟩, rfl⟩, shardId, h.routed, (), hnew, _,
      ⟨(), h.inputs, (), h.locks, _, ⟨⟨h.nodup, h.spendable, rfl⟩, hfree⟩, (), h.balance, rfl⟩, (), h.rate, (),
      Mempool.postInit_returns h.routed, rfl⟩

/-- **Admission is block validation.** Take any mempool in use that neither holds a transaction
nor spends one of its inputs. `add_tx` accepts it over a UTXO set exactly if `_apply_spend_tx`
accepts it in its shard at the floor of that shard, and the fee recorded is the burned part and
the tip. -/
theorem addTx_iff_applySpendTx {calls : List PoolCall} {s : Pool} (hs : s = (Pool.new tree floors).after C calls)
    (view : UTXOSet C) (tx : Transaction) (time height : ℕ) (hnew : s.entries[tx.txId C]? = none)
    (hshare : ∀ (id : Hash) e, s.entries[id]? = some e → ∀ o ∈ e.tx.spent, o ∉ tx.spent) :
    ∃ shardId, s.shardTree.routeTx (tx.txId C) = .ok shardId ∧
      ((∃ result s', (Pool.addTx C (.inl tx) none (some view.get) time height).runOn s = (.ok result, s')) ↔
        ∃ view' tip, applySpendTx view tx s.shardTree shardId (s.toMempool.feeFloor shardId) time height =
          .ok (view', tip)) ∧
      ∀ result s' view' tip, (Pool.addTx C (.inl tx) none (some view.get) time height).runOn s = (.ok result, s') →
        applySpendTx view tx s.shardTree shardId (s.toMempool.feeFloor shardId) time height = .ok (view', tip) →
        ∃ e, s'.entries[tx.txId C]? = some e ∧ result.feeMatoms = e.feeMatoms ∧
          e.feeMatoms = burnedFeeMatoms (s.toMempool.feeFloor shardId) tx.toBytes.length + tip := by
  have hrep : s.toMempool.Rep C := by
    rw [hs]
    exact Pool.after_rep (Mempool.rep_new tree floors) calls
  have hfree : ∀ o ∈ tx.spent, s.spentOutpoints[o]? = none :=
    fun o ho => hrep.free fun id e he hoe => hshare id e he o hoe ho
  obtain ⟨shardId, hrouted⟩ := s.shardTree.routeTx_returns (tx.txId C)
  -- an add that returns has passed every check of the mempool
  have haccepts : ∀ {result s'}, (Pool.addTx C (.inl tx) none (some view.get) time height).runOn s = (.ok result, s') →
      Admits s.shardTree s.feeFloors view time height tx shardId ∧
        result.feeMatoms = (entryOf view tx shardId).feeMatoms ∧
        s' = { s with toMempool := s.toMempool.insertEntry (entryOf view tx shardId) } := by
    intro result s' hrun
    rw [Pool.runOn_addTx] at hrun
    cases hentry : s.toMempool.entryFor C (.inl tx) none (some view.get) time height with
    | error stop =>
      rw [hentry] at hrun
      cases hrun
    | ok e =>
      obtain ⟨shardId', hadmits, -, -, rfl⟩ := entryFor_iff.1 hentry
      cases hrouted.symm.trans hadmits.routed
      rw [hentry] at hrun
      cases hrun
      exact ⟨hadmits, rfl, rfl⟩
  refine ⟨shardId, hrouted, ⟨?_, ?_⟩, ?_⟩
  · rintro ⟨result, s', hrun⟩
    obtain ⟨r, hr⟩ := applySpend_of_admits (haccepts hrun).1
    exact ⟨r.1, r.2, hr⟩
  · rintro ⟨view', tip, happly⟩
    have hadmits := admits_of_applySpend (inputs_of_applySpend happly) happly
    have hentry := entryFor_iff.2 ⟨shardId, hadmits, hnew, hfree, rfl⟩
    rw [Pool.runOn_addTx, hentry]
    exact ⟨_, _, rfl⟩
  · intro result s' view' tip hrun happly
    obtain ⟨-, hfee, rfl⟩ := haccepts hrun
    have hbalance := (applySpendTx_ok happly).balance
    refine ⟨entryOf view tx shardId, ?_, hfee, ?_⟩
    · change (s.entries.insert (tx.txId C) _)[tx.txId C]? = _
      rw [Table.get_insert, if_pos rfl]
    · show inputSum view tx - tx.outputSum = _
      omega

/-- The spend of a reward is admitted to an empty mempool. -/
theorem addTx_iff_applySpendTx_reward :
    ∃ result s', (Pool.addTx sampleCrypto (.inl sampleParent) none (some (nodeAfter samplePaying).utxoSet.get) 0 1).runOn
      (Pool.new .root ∅) = (.ok result, s') := by
  have hempty : ∀ id : Hash, (Pool.new .root ∅).entries[id]? = none := fun id => Table.get_empty id
  have hroot : ShardTree.root.routeTx (sampleParent.txId sampleCrypto) = .ok 0 := by decide +kernel
  have happly : ((applySpendTx (nodeAfter samplePaying).utxoSet sampleParent .root 0 0 0 1).map Prod.snd) = .ok 0 := by
    decide +kernel
  have hnone : Pool.new .root ∅ = (Pool.new .root ∅).after sampleCrypto [] := rfl
  obtain ⟨shardId, hrouted, hiff, -⟩ := addTx_iff_applySpendTx hnone (nodeAfter samplePaying).utxoSet sampleParent 0 1
    (hempty _) fun id e he => by rw [hempty] at he; cases he
  cases hrouted.symm.trans hroot
  refine hiff.2 ?_
  cases hr : applySpendTx (nodeAfter samplePaying).utxoSet sampleParent .root 0 0 0 1 with
  | error e =>
    rw [hr] at happly
    cases happly
  | ok r => exact ⟨r.1, r.2, hr⟩

end TensorPow
