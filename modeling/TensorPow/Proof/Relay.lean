import TensorPow.Proof.Atomic
import TensorPow.Proof.Conflicts
import TensorPow.Proof.Pool

/-!
# Relay and inclusion

`process_raw_tx` admits a transaction at height zero, while fruits and anchors validate it at
the height of the chain.

* `admits_of_applySpend`: a spend that can be included is admissible at the same height.
* `Admits.atZero_iff`: what height zero changes.
* `processRawTx_accepts_iff`: which includable transactions are relayed.
* `processRawTx_result`: the two results of the call agree.
-/

namespace TensorPow

open Wire Sorted

variable {C : Crypto} {view : UTXOSet C} {tx : Transaction} {time height : ℕ} {tree : ShardTree}
  {floors : Table ℕ ℕ} {shardId : ℕ}

/-! ## The two checks -/

/-- A spend that passes `_apply_spend_tx` is admissible at the same time and height. -/
theorem admits_of_applySpend {r : UTXOSet C × ℕ} (hinputs : tx.inputs ≠ [])
    (h : applySpendTx view tx tree shardId (floors[shardId]?.getD 0) time height = .ok r) :
    Admits tree floors view time height tx shardId := by
  simp only [applySpendTx, Exn.bind_ok, raising_ok, rejectUnless_ok, rejecting_ok] at h
  obtain ⟨routed, hrouted, -, rfl, ⟨⟩, hlocks, q, hloop, -, hneg, -, hrate, -⟩ := h
  obtain ⟨hnodup, hspendable, rfl⟩ := spendInputs_ok.1 hloop
  exact ⟨fromBytes_toBytes tx, hrouted, hinputs, hlocks, hnodup, hspendable, hneg, hrate⟩

/-- An input that can be spent at some height can be spent at height zero exactly if its
output has no lockheight. -/
theorem Spendable.atZero_iff {p : Input × ℕ} (h : Spendable view tx time height p) :
    Spendable view tx time 0 p ↔ ∀ u, view.get p.1.previousOutpoint = some u → u.lockheight = 0 := by
  obtain ⟨utxo, message, hget, hmessage, hverify⟩ := h
  simp only [verifyUtxoSpend, verifyTemplate, guarded_true, checkLocks_ok] at hverify
  obtain ⟨hcheck, hwitness, hsig, ⟨hlt, hlh, ht, -, htime, -⟩, hbody⟩ := hverify
  constructor
  · rintro ⟨utxo', message', hget', -, hverify'⟩ u hu
    cases hget.symm.trans hget'
    cases hget.symm.trans hu
    simp only [verifyUtxoSpend, verifyTemplate, guarded_true, checkLocks_ok] at hverify'
    obtain ⟨-, -, -, ⟨-, -, -, -, -, hzero⟩, -⟩ := hverify'
    omega
  · intro hzero
    refine ⟨utxo, message, hget, hmessage, ?_⟩
    simp only [verifyUtxoSpend, verifyTemplate, guarded_true, checkLocks_ok]
    exact ⟨hcheck, hwitness, hsig, ⟨hlt, hlh, ht, Nat.zero_le _, htime, .inl (hzero utxo hget)⟩, hbody⟩

/-- An admissible transaction is admissible at height zero exactly if neither it nor an
output it spends has a lockheight. -/
theorem Admits.atZero_iff (h : Admits tree floors view time height tx shardId) :
    Admits tree floors view time 0 tx shardId ↔
      tx.lockheight = 0 ∧ ∀ o ∈ tx.spent, ∀ u, view.get o = some u → u.lockheight = 0 := by
  have hinput : ∀ o ∈ tx.spent, ∃ p ∈ tx.inputs.zipIdx, p.1.previousOutpoint = o := by
    intro o ho
    obtain ⟨i, hi, rfl⟩ := List.mem_map.1 ho
    obtain ⟨k, hk⟩ := List.mem_iff_getElem?.1 hi
    exact ⟨(i, k), List.mk_mem_zipIdx_iff_getElem?.2 hk, rfl⟩
  obtain ⟨hlt, hlh, ht, -, htime, -⟩ := checkLocks_ok.1 h.locks
  constructor
  · intro h₀
    obtain ⟨-, -, -, -, -, hzero⟩ := checkLocks_ok.1 h₀.locks
    refine ⟨by omega, fun o ho u hu => ?_⟩
    obtain ⟨p, hp, rfl⟩ := hinput o ho
    exact (h.spendable p hp).atZero_iff.1 (h₀.spendable p hp) u hu
  · rintro ⟨hzero, hlocks⟩
    refine ⟨h.decodes, h.routed, h.inputs, checkLocks_ok.2 ⟨hlt, hlh, ht, Nat.zero_le _, htime, .inl hzero⟩, h.nodup,
      fun p hp => (h.spendable p hp).atZero_iff.2 (hlocks _ ?_), h.balance, h.rate⟩
    exact List.mem_map.2 ⟨p.1, List.fst_mem_of_mem_zipIdx hp, rfl⟩

/-! ## Relay -/

/-- **Which includable transactions are relayed.** In every reachable state a transaction that
could be included at the tip, is not pending and shares no input with an entry is accepted by
`process_raw_tx` exactly if neither it nor an output it spends has a lockheight. -/
theorem processRawTx_accepts_iff {cfg : Config} {n : Node C} (hn : Reachable cfg n) (hinputs : tx.inputs ≠ [])
    (hnew : n.mempool.entries[tx.txId C]? = none)
    (hshare : ∀ (id : Hash) e, n.mempool.entries[id]? = some e → ∀ o ∈ e.tx.spent, o ∉ tx.spent)
    {r : UTXOSet C × ℕ}
    (happly : applySpendTx n.utxoSet tx n.shardTree shardId (n.feeFloorForShard shardId) 0 n.anchorHeight = .ok r) :
    (n.processRawTx tx.toBytes true).1 = .accepted (tx.txId C) ↔
      tx.lockheight = 0 ∧ ∀ o ∈ tx.spent, ∀ u, n.utxoSet.get o = some u → u.lockheight = 0 := by
  have hpool := Node.poolOk_of_reachable hn
  obtain ⟨staged, hrebuild, -, hvalid, hsame⟩ := Node.rebuildMempool_own hpool
  have hadmits := admits_of_applySpend hinputs happly
  rw [← hadmits.atZero_iff]
  -- rebuilding the mempool keeps its entries
  have hentries : staged.entries = n.mempool.entries := hpool.valid.entries_eq hvalid hsame
  have hentry : staged.entries[tx.txId C]? = none := by rw [hentries, hnew]
  have hfree : ∀ o ∈ tx.spent, staged.spentOutpoints[o]? = none := by
    intro o ho
    refine Option.eq_none_iff_forall_ne_some.2 fun id hid => ?_
    obtain ⟨e, he, hoe⟩ := (hvalid.spent o id).1 hid
    rw [hentries] at he
    exact hshare id e he o hoe ho
  unfold Node.processRawTx
  rw [fromBytes_toBytes tx]
  simp only [if_neg hinputs, hrebuild]
  constructor
  · intro hacc
    cases hadd : staged.addTx tx none n.utxoSet 0 0 with
    | error s =>
      rw [hadd] at hacc
      have hnot := Node.stop_isAccepted s
      simp only at hacc
      rw [hacc] at hnot
      cases hnot
    | ok m =>
      obtain ⟨shardId', hadmits', -⟩ := Mempool.addTx_ok.1 hadd
      rw [hvalid.sameTree, hvalid.sameFloors] at hadmits'
      cases hadmits.routed.symm.trans hadmits'.routed
      exact hadmits'
  · intro hzero
    have hadd : staged.addTx tx none n.utxoSet 0 0 = .ok (staged.insertEntry (entryOf n.utxoSet tx shardId)) := by
      refine Mempool.addTx_ok.2 ⟨shardId, ?_, hentry, hfree, rfl⟩
      rw [hvalid.sameTree, hvalid.sameFloors]
      exact hzero
    rw [hadd]
    rfl

/-- **The two results of `process_raw_tx`** agree: what the mempool returned with it is of the
transaction it accepts, or has the reason of its rejection. -/
theorem processRawTx_result (n : Node C) (data : Bytes) (writeOk : Bool) :
    (∀ r, n.rawTxResult data writeOk = some (.ok r) → (n.processRawTx data writeOk).1 = .accepted r.txId) ∧
    ∀ reason txId shardId, n.rawTxResult data writeOk = some (.reject reason txId shardId) →
      (n.processRawTx data writeOk).1 = .rejected reason := by
  unfold Node.rawTxResult Node.processRawTx
  cases Transaction.fromBytes data with
  | error e => exact ⟨fun r h => (by cases h), fun reason txId shardId h => (by cases h)⟩
  | ok tx =>
    dsimp only
    by_cases hinputs : tx.inputs = []
    · rw [if_pos hinputs]
      exact ⟨fun r h => (by cases h), fun reason txId shardId h => (by cases h)⟩
    · rw [if_neg hinputs, if_neg hinputs]
      cases n.rebuildMempool n.mempool.transactions with
      | error stop => exact ⟨fun r h => (by cases h), fun reason txId shardId h => (by cases h)⟩
      | ok rebuilt =>
        obtain ⟨staged, store⟩ := rebuilt
        dsimp only
        rw [Mempool.addTx_eq]
        unfold Mempool.addTxResult
        cases hentry : staged.entryFor C (.inl tx) none (some n.utxoSet.get) 0 0 with
        | error stop =>
          cases stop with
          | reject reason =>
            refine ⟨fun r h => (by cases h), fun reason' txId shardId h => ?_⟩
            cases h
            rfl
          | none => exact ⟨fun r h => (by cases h), fun reason txId shardId h => (by cases h)⟩
          | raise e => exact ⟨fun r h => (by cases h), fun reason txId shardId h => (by cases h)⟩
        | ok entry =>
          have hid : entry.txId = tx.txId C := Mempool.entryFor_txId hentry
          cases writeOk with
          | false => exact ⟨fun r h => (by cases h), fun reason txId shardId h => (by cases h)⟩
          | true =>
            refine ⟨fun r h => ?_, fun reason txId shardId h => (by cases h)⟩
            cases h
            exact congrArg Outcome.accepted hid.symm

/-- A reward that can be spent from height one on. -/
def sampleLocked : Output :=
  ⟨⟨10, .pkh, 0, 1, (sampleCrypto.domainHash domainAddress sampleKey).bytes⟩, by decide +kernel⟩

/-- The anchor at height one that pays it. -/
def sampleLocking : Anchor sampleCrypto :=
  ⟨sampleAnchor sampleGenesis.blockHash [sampleFruit.blockHash] [sampleFruit.blockHash] [sampleLocked] 60000
    genesisParentHash (by decide +kernel), by decide +kernel⟩

/-- The spend of that reward. -/
def sampleUnlocking : Transaction :=
  ⟨passOn (anchorRewardId (C := sampleCrypto) sampleLocking.blockHash), by decide +kernel⟩

/-- The node at height one, with a given anchor there. -/
def nodeAfter (anchor : Anchor sampleCrypto) : Node sampleCrypto :=
  run sampleConfig [.anchor sampleGenesis 0 true, .fruit sampleFruit 30000 true, .anchor anchor 60000 true]

/-- At height one the locked reward can be spent in a block, but its spend is not relayed. -/
theorem processRawTx_rejects_unlocked :
    (nodeAfter sampleLocking).anchorHeight = 1 ∧
    (nodeAfter sampleLocking).mempool.entries.keys = [] ∧
    ((applySpendTx (nodeAfter sampleLocking).utxoSet sampleUnlocking (nodeAfter sampleLocking).shardTree 0
      ((nodeAfter sampleLocking).feeFloorForShard 0) 0 1).map Prod.snd) = .ok 0 ∧
    ((nodeAfter sampleLocking).processRawTx sampleUnlocking.toBytes true).1 = .rejected .scriptFailed := by
  decide +kernel

/-- The spend of a reward without a lockheight is relayed. -/
theorem processRawTx_accepts_reward :
    ((nodeAfter samplePaying).processRawTx sampleParent.toBytes true).1 =
      .accepted (sampleParent.txId sampleCrypto) := by
  have hempty : (nodeAfter samplePaying).mempool.entries.keys = [] := by decide +kernel
  have hnone : ∀ id : Hash, (nodeAfter samplePaying).mempool.entries[id]? = none := by
    intro id
    refine Option.eq_none_iff_forall_ne_some.2 fun e he => ?_
    have hkey := Table.mem_keys.2 ⟨e, he⟩
    rw [hempty] at hkey
    cases hkey
  have happly : (applySpendTx (nodeAfter samplePaying).utxoSet sampleParent (nodeAfter samplePaying).shardTree 0
      ((nodeAfter samplePaying).feeFloorForShard 0) 0 (nodeAfter samplePaying).anchorHeight).map Prod.snd = .ok 0 := by
    decide +kernel
  have hlocks : (sampleParent.spent.all fun o => ((nodeAfter samplePaying).utxoSet.get o).all fun u =>
      u.lockheight = 0) = true := by
    decide +kernel
  cases hr : applySpendTx (nodeAfter samplePaying).utxoSet sampleParent (nodeAfter samplePaying).shardTree 0
      ((nodeAfter samplePaying).feeFloorForShard 0) 0 (nodeAfter samplePaying).anchorHeight with
  | error e =>
    rw [hr] at happly
    cases happly
  | ok r =>
    have hreach : Reachable sampleConfig (nodeAfter samplePaying) := ⟨_, rfl⟩
    refine (processRawTx_accepts_iff hreach (by decide +kernel) (hnone _) (fun id e he => ?_) hr).2
      ⟨by decide +kernel, fun o ho u hu => ?_⟩
    · rw [hnone] at he
      cases he
    · have := List.all_eq_true.1 hlocks o ho
      rw [hu] at this
      simpa using this

end TensorPow
