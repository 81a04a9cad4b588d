import TensorPow.Proof.Decode
import TensorPow.Proof.Routing
import TensorPow.Proof.Spend

/-!
# Admission to the mempool

* `Admits`: what a transaction needs to be admitted, whatever is pending already;
  `addTx_ok`: it is admitted exactly if it also conflicts with no entry.
* `Mempool.Valid`: every entry would be admitted again, and no two spend one outpoint.
* `addTx_post`: admission never raises.
* `Admits.atHeight`: what was admitted at height zero is admitted at every height.
-/

namespace TensorPow

open Wire

variable {C : Crypto} {tree : ShardTree} {floors : Table ℕ ℕ} {view : UTXOSet C} {time height : ℕ} {tx : Transaction}
  {m m' : Mempool}

/-! ## Locks -/

theorem checkLocks_ok {locktime lockheight : ℕ} {u : Unit} :
    checkLocks locktime lockheight time height = .ok u ↔ locktime ≤ u64Max ∧ lockheight ≤ u64Max ∧ time ≤ u64Max ∧
      height ≤ u64Max ∧ (locktime = 0 ∨ locktime ≤ time) ∧ (lockheight = 0 ∨ lockheight ≤ height) := by
  simp [checkLocks, requireUint, Exn.bind_ok]

theorem guarded_true {check : Except PyError Unit} {witness : Bytes} {sigType locktime lockheight : ℕ}
    {body : Except PyError Bool} :
    guarded check witness sigType locktime lockheight time height body = true ↔
      check = .ok () ∧ requireMaxLen "witness" witness txWitnessMaxBytes = .ok () ∧ requireSigType sigType = .ok () ∧
      checkLocks locktime lockheight time height = .ok () ∧ body = .ok true := by
  unfold guarded
  cases check with
  | error e => simp
  | ok _ =>
    cases requireMaxLen "witness" witness txWitnessMaxBytes with
    | error e => simp
    | ok _ =>
      cases requireSigType sigType with
      | error e => simp
      | ok _ =>
        cases checkLocks locktime lockheight time height with
        | error e => simp
        | ok _ => cases body <;> simp

/-- What can be spent at height zero can be spent at every height. -/
theorem Spendable.atHeight {p : Input × ℕ} (h : Spendable view tx time 0 p) (hle : height ≤ u64Max) :
    Spendable view tx time height p := by
  obtain ⟨utxo, message, hget, hmessage, hverify⟩ := h
  refine ⟨utxo, message, hget, hmessage, ?_⟩
  simp only [verifyUtxoSpend, verifyTemplate, guarded_true, checkLocks_ok] at hverify ⊢
  obtain ⟨hcheck, hwitness, hsig, ⟨hlt, hlh, ht, -, htime, hheight⟩, hbody⟩ := hverify
  exact ⟨hcheck, hwitness, hsig, ⟨hlt, hlh, ht, hle, htime, by omega⟩, hbody⟩

/-! ## Admission -/

/-- What a transaction needs to be admitted, apart from the entries already there. -/
structure Admits (tree : ShardTree) (floors : Table ℕ ℕ) (view : UTXOSet C) (time height : ℕ) (tx : Transaction)
    (shardId : ℕ) : Prop where
  decodes : Transaction.fromBytes tx.toBytes = .ok tx
  routed : tree.routeTx (tx.txId C) = .ok shardId
  inputs : tx.inputs ≠ []
  locks : checkLocks tx.locktimeMs tx.lockheight time height = .ok ()
  nodup : tx.spent.Nodup
  spendable : ∀ p ∈ tx.inputs.zipIdx, Spendable view tx time height p
  balance : tx.outputSum ≤ inputSum view tx
  rate : floors[shardId]?.getD 0 ≤ feeRateMatomsPerKb (inputSum view tx - tx.outputSum) tx.toBytes.length

theorem Admits.atHeight {shardId : ℕ} (h : Admits tree floors view time 0 tx shardId) (hle : height ≤ u64Max) :
    Admits tree floors view time height tx shardId := by
  obtain ⟨hlt, hlh, ht, -, htime, hheight⟩ := checkLocks_ok.1 h.locks
  exact ⟨h.decodes, h.routed, h.inputs, checkLocks_ok.2 ⟨hlt, hlh, ht, hle, htime, by omega⟩, h.nodup,
    fun p hp => (h.spendable p hp).atHeight hle, h.balance, h.rate⟩

/-- The entry of an admitted transaction. -/
def entryOf (view : UTXOSet C) (tx : Transaction) (shardId : ℕ) : MempoolEntry where
  tx := tx
  txId := tx.txId C
  shardId := shardId
  txSizeBytes := tx.toBytes.length
  feeMatoms := inputSum view tx - tx.outputSum
  feeRateMatomsPerKb := feeRateMatomsPerKb (inputSum view tx - tx.outputSum) tx.toBytes.length

namespace Mempool

/-- An input is assessed like a spend, and must not conflict with an entry. -/
theorem assessInput_ok {acc r : Finset Outpoint × ℕ} {p : Input × ℕ} :
    m.assessInput C tx view.get time height acc p = .ok r ↔
      spendInput view tx time height acc p = .ok r ∧ m.spentOutpoints[p.1.previousOutpoint]? = none := by
  unfold assessInput spendInput
  simp only [Exn.bind_ok, rejectUnless_ok]
  constructor
  · rintro ⟨-, hnew, -, hfree, h⟩
    exact ⟨⟨(), hnew, h⟩, hfree⟩
  · rintro ⟨⟨-, hnew, h⟩, hfree⟩
    exact ⟨(), hnew, (), hfree, h⟩

theorem assessLoop_ok {l : List (Input × ℕ)} {acc r : Finset Outpoint × ℕ} :
    l.foldlM (m.assessInput C tx view.get time height) acc = .ok r ↔
      l.foldlM (spendInput view tx time height) acc = .ok r ∧
      ∀ p ∈ l, m.spentOutpoints[p.1.previousOutpoint]? = none := by
  induction l generalizing acc with
  | nil => simp
  | cons p l ih =>
    simp only [Exn.foldlM_cons_ok, assessInput_ok, ih, List.forall_mem_cons]
    constructor
    · rintro ⟨s, ⟨hs, hp⟩, h, hl⟩
      exact ⟨⟨s, hs, h⟩, hp, hl⟩
    · rintro ⟨⟨s, hs, h⟩, hp, hl⟩
      exact ⟨s, ⟨hs, hp⟩, h, hl⟩

theorem assessInputs_ok {r : Finset Outpoint × ℕ} :
    tx.inputs.zipIdx.foldlM (m.assessInput C tx view.get time height) (∅, 0) = .ok r ↔
      (tx.spent.Nodup ∧ (∀ p ∈ tx.inputs.zipIdx, Spendable view tx time height p) ∧
        r = (tx.spent.toFinset, inputSum view tx)) ∧ ∀ o ∈ tx.spent, m.spentOutpoints[o]? = none := by
  rw [assessLoop_ok, spendInputs_ok]
  refine and_congr_right fun _ => ⟨fun h o ho => ?_, fun h p hp => ?_⟩
  · obtain ⟨i, hi, rfl⟩ := List.mem_map.1 ho
    obtain ⟨k, hk⟩ := List.mem_iff_getElem?.1 hi
    exact h (i, k) (List.mk_mem_zipIdx_iff_getElem?.2 hk)
  · exact h _ (List.mem_map.2 ⟨p.1, List.fst_mem_of_mem_zipIdx hp, rfl⟩)

theorem decodeCanonicalTx_ok {tx' : Transaction} :
    decodeCanonicalTx tx = .ok tx' ↔ Transaction.fromBytes tx.toBytes = .ok tx ∧ tx' = tx := by
  simp only [decodeCanonicalTx, Exn.bind_ok, rejecting_ok, rejectUnless_ok, Exn.pure_ok]
  constructor
  · rintro ⟨decoded, hdecoded, -, rfl, rfl⟩
    exact ⟨hdecoded, rfl⟩
  · rintro ⟨hdecoded, rfl⟩
    exact ⟨_, hdecoded, (), rfl, rfl⟩

/-- **Admission.** A transaction is admitted exactly if it is admissible, not pending
already, and spends no outpoint that an entry spends. -/
theorem addTx_ok : m.addTx tx none view time height = .ok m' ↔
    ∃ shardId, Admits m.shardTree m.feeFloors view time height tx shardId ∧ m.entries[tx.txId C]? = none ∧
      (∀ o ∈ tx.spent, m.spentOutpoints[o]? = none) ∧ m' = m.insertEntry (entryOf view tx shardId) := by
  simp only [addTx, assessSpends, Exn.get_some, Exn.ok_bind, Exn.bind_ok, decodeCanonicalTx_ok, raising_ok,
    rejectUnless_ok, rejecting_ok, assessInputs_ok, Exn.pure_ok]
  constructor
  · rintro ⟨_, ⟨hdecodes, rfl⟩, shardId, hrouted, -, hnew, fee,
      ⟨-, hinputs, ⟨⟩, hlocks, _, ⟨⟨hnodup, hspendable, rfl⟩, hfree⟩, -, hbalance, rfl⟩, -, hrate, rfl⟩
    exact ⟨shardId, ⟨hdecodes, hrouted, hinputs, hlocks, hnodup, hspendable, hbalance, hrate⟩, hnew, hfree, rfl⟩
  · rintro ⟨shardId, h, hnew, hfree, rfl⟩
    exact ⟨tx, ⟨h.decodes, rfl⟩, shardId, h.routed, (), hnew, _,
      ⟨(), h.inputs, (), h.locks, _, ⟨⟨h.nodup, h.spendable, rfl⟩, hfree⟩, (), h.balance, rfl⟩, (), h.rate, rfl⟩

/-- Admission never raises. -/
theorem addTx_post : Exn.Post (m.addTx tx none view time height) (fun _ => True) Stop.IsReject := by
  obtain ⟨shardId, hrouted⟩ := m.shardTree.routeTx_returns (tx.txId C)
  have hdecode : Exn.Post (decodeCanonicalTx tx) (fun tx' => tx' = tx) Stop.IsReject := by
    refine (rejecting_post (caught_fromBytes _).post).bind fun decoded _ _ => ?_
    exact (rejectUnless_post _).bind fun _ _ h => Exn.Post.pure h
  have hloop : Exn.Post (tx.inputs.zipIdx.foldlM (m.assessInput C tx view.get time height) (∅, 0)) (fun _ => True)
      Stop.IsReject := by
    refine Exn.Post.foldlM (fun _ _ => True) trivial fun done p todo acc hl _ => ?_
    obtain ⟨message, hmessage⟩ := sighash_returns (C := C) (show p ∈ tx.inputs.zipIdx by rw [hl]; simp)
    unfold assessInput
    refine (rejectUnless_post _).bind fun _ _ _ => (rejectUnless_post _).bind fun _ _ _ => ?_
    split
    · exact Exn.Post.error (Stop.isReject _)
    · rw [raising_eq hmessage, Exn.ok_bind]
      exact (rejectUnless_post _).bind fun _ _ _ => Exn.Post.pure trivial
  unfold addTx assessSpends
  refine hdecode.bind fun tx' _ htx' => ?_
  subst htx'
  dsimp only
  rw [raising_eq hrouted, Exn.ok_bind]
  refine (rejectUnless_post _).bind fun _ _ _ => Exn.Post.bind (P := fun _ => True) ?_ fun fee _ _ => ?_
  · refine (rejectUnless_post _).bind fun _ _ _ => ?_
    rw [Exn.get_some, Exn.ok_bind]
    refine (rejecting_post (checkLocks_caught _ _)).bind fun _ _ _ => hloop.bind fun _ _ _ => ?_
    exact (rejectUnless_post _).bind fun _ _ _ => Exn.Post.pure trivial
  · exact (rejectUnless_post _).bind fun _ _ _ => Exn.Post.pure trivial

/-! ## The entries -/

/-- Every entry is that of an admissible transaction, and no two entries spend one
outpoint: the index of spent outpoints is a function. -/
structure Valid (m : Mempool) (tree : ShardTree) (floors : Table ℕ ℕ) (view : UTXOSet C) (height : ℕ) : Prop where
  sameTree : m.shardTree = tree
  sameFloors : m.feeFloors = floors
  entries : ∀ (id : Hash) e, m.entries[id]? = some e →
    e.tx.txId C = id ∧ ∃ shardId, Admits tree floors view 0 height e.tx shardId ∧ e = entryOf view e.tx shardId
  spent : ∀ (o : Outpoint) id, m.spentOutpoints[o]? = some id ↔ ∃ e, m.entries[id]? = some e ∧ o ∈ e.tx.spent

theorem valid_new (tree : ShardTree) (floors : Table ℕ ℕ) (view : UTXOSet C) (height : ℕ) :
    (Mempool.new tree floors).Valid tree floors view height :=
  ⟨rfl, rfl, fun id e h => (by rw [new, Table.get_empty] at h; cases h), fun o id => by simp [new]⟩

theorem get_spentOutpoints_insertEntry {e : MempoolEntry} (hnodup : e.tx.spent.Nodup) (o : Outpoint) :
    (m.insertEntry e).spentOutpoints[o]? = if o ∈ e.tx.spent then some e.txId else m.spentOutpoints[o]? := by
  unfold insertEntry
  dsimp only
  split
  · rename_i ho
    obtain ⟨i, hi, rfl⟩ := List.mem_map.1 ho
    refine Table.get_putAll_of_mem _ ?_ (List.mem_map.2 ⟨i, hi, rfl⟩)
    rw [List.map_map]
    exact hnodup
  · rename_i ho
    refine Table.get_putAll_of_notMem _ _ fun v hv => ho ?_
    obtain ⟨i, hi, heq⟩ := List.mem_map.1 hv
    cases heq
    exact List.mem_map.2 ⟨i, hi, rfl⟩

/-- Admission keeps the entries valid. -/
theorem Valid.addTx (hv : m.Valid tree floors view height) (hle : height ≤ u64Max) {height' : ℕ}
    (hh : height' = 0 ∨ height' = height) (h : m.addTx tx none view 0 height' = .ok m') :
    m'.Valid tree floors view height := by
  obtain ⟨shardId, hadmits, hnew, hfree, rfl⟩ := addTx_ok.1 h
  -- what is mature at height zero is mature at every height
  have hadmits : Admits tree floors view 0 height tx shardId := by
    rw [hv.sameTree, hv.sameFloors] at hadmits
    rcases hh with rfl | rfl
    · exact hadmits.atHeight hle
    · exact hadmits
  refine ⟨hv.sameTree, hv.sameFloors, fun id e he => ?_, fun o id => ?_⟩
  · change (m.entries.insert (tx.txId C) _)[id]? = some e at he
    rw [Table.get_insert] at he
    split at he
    · rename_i heq
      cases he
      exact ⟨heq, shardId, hadmits, rfl⟩
    · exact hv.entries id e he
  · rw [get_spentOutpoints_insertEntry hadmits.nodup]
    change (if o ∈ tx.spent then some (tx.txId C) else _) = _ ↔
      ∃ e, (m.entries.insert (tx.txId C) (entryOf view tx shardId))[id]? = some e ∧ _
    simp only [Table.get_insert]
    by_cases hid : tx.txId C = id
    · subst hid
      rw [if_pos rfl]
      constructor
      · intro ho
        split at ho
        · rename_i hmem
          exact ⟨_, rfl, hmem⟩
        · obtain ⟨e, he, -⟩ := (hv.spent o _).1 ho
          rw [hnew] at he
          cases he
      · rintro ⟨e, he, ho⟩
        cases he
        exact if_pos ho
    · rw [if_neg hid, ← hv.spent]
      split
      · rename_i ho
        rw [hfree o ho]
        simp [hid]
      · rfl

/-- The pending transactions have distinct ids. -/
theorem Valid.nodup (hv : m.Valid tree floors view height) : (m.transactions.map fun tx => tx.txId C).Nodup := by
  have hkeys : (m.transactions.map fun tx => tx.txId C) = m.entries.keys := by
    unfold transactions
    rw [List.map_map, ← Std.ExtTreeMap.map_fst_toList_eq_keys]
    refine List.map_congr_left fun p hp => ?_
    exact (hv.entries p.1 p.2 (Table.mem_toList.1 hp)).1
  rw [hkeys]
  exact m.entries.nodup_keys

theorem mem_transactions : tx ∈ m.transactions ↔ ∃ (id : Hash) (e : MempoolEntry), m.entries[id]? = some e ∧ e.tx = tx := by
  unfold transactions
  rw [List.mem_map]
  constructor
  · rintro ⟨p, hp, rfl⟩
    exact ⟨p.1, p.2, Table.mem_toList.1 hp, rfl⟩
  · rintro ⟨id, e, he, rfl⟩
    exact ⟨(id, e), Table.mem_toList.2 he, rfl⟩

/-- A transaction is pending under its own id. -/
theorem Valid.pending_iff (hv : m.Valid tree floors view height) {tx : Transaction} :
    tx ∈ m.transactions ↔ ∃ e, m.entries[tx.txId C]? = some e ∧ e.tx = tx := by
  rw [Mempool.mem_transactions]
  constructor
  · rintro ⟨id, e, he, rfl⟩
    exact ⟨e, by rw [(hv.entries id e he).1, he], rfl⟩
  · rintro ⟨e, he, rfl⟩
    exact ⟨_, e, he, rfl⟩

/-- Two pending transactions that spend one outpoint are one. -/
theorem Valid.disjoint (hv : m.Valid tree floors view height) {tx tx' : Transaction} (h : tx ∈ m.transactions)
    (h' : tx' ∈ m.transactions) {o : Outpoint} (ho : o ∈ tx.spent) (ho' : o ∈ tx'.spent) : tx = tx' := by
  obtain ⟨id, e, he, rfl⟩ := mem_transactions.1 h
  obtain ⟨id', e', he', rfl⟩ := mem_transactions.1 h'
  have hid := (hv.spent o id).2 ⟨e, he, ho⟩
  rw [(hv.spent o id').2 ⟨e', he', ho'⟩] at hid
  cases hid
  rw [he] at he'
  cases he'
  rfl

/-- Two valid mempools at one tip with the same transactions have the same entries. -/
theorem Valid.entries_eq (hv : m.Valid tree floors view height) (hv' : m'.Valid tree floors view height)
    (h : ∀ tx, tx ∈ m'.transactions ↔ tx ∈ m.transactions) : m'.entries = m.entries := by
  have hsub : ∀ {k k' : Mempool}, k.Valid tree floors view height → k'.Valid tree floors view height →
      (∀ tx, tx ∈ k.transactions → tx ∈ k'.transactions) → ∀ (id : Hash) e, k.entries[id]? = some e →
      k'.entries[id]? = some e := by
    intro k k' hk hk' hmem id e he
    obtain ⟨id', e', he', htx⟩ := mem_transactions.1 (hmem e.tx (mem_transactions.2 ⟨id, e, he, rfl⟩))
    obtain ⟨hid, shardId, hadmits, heq⟩ := hk.entries id e he
    obtain ⟨hid', shardId', hadmits', heq'⟩ := hk'.entries id' e' he'
    rw [htx] at hid' hadmits' heq'
    cases hid.symm.trans hid'
    cases hadmits.routed.symm.trans hadmits'.routed
    rw [he', heq', ← heq]
  refine Table.ext_get fun id => Option.ext fun e => ⟨fun he => ?_, fun he => ?_⟩
  · exact hsub hv' hv (fun tx => (h tx).1) id e he
  · exact hsub hv hv' (fun tx => (h tx).2) id e he

end Mempool

end TensorPow
