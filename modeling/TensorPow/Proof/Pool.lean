import TensorPow.Proof.Codec
import TensorPow.Proof.Mempool
import TensorPow.Proof.Partition
import TensorPow.Spec.Pool

/-!
# The indexes of a mempool

A mempool keeps its entries by id, by shard and by the outpoints they spend.

* `Mempool.Rep`: the three indexes say the same; `Rep.insertEntry`, `Rep.removeEntry`: filing
  and removing an entry keep them so.
* `entryFor_ok`: what an admitted entry looks like; `entryFor_post`: admission never raises.
* `Pool.addTx_result`: what `add_tx` returns, with the ids of a rejection.
* `Pool.sound_after`: the indexes agree after every sequence of operations.
-/

namespace TensorPow

open Wire Sorted Exn

theorem filter_shard (e : MempoolEntry) (shardId : ℕ) :
    (some e).filter (fun e => decide (e.shardId = shardId)) = if e.shardId = shardId then some e else none := by
  rw [Option.filter_some]
  simp only [decide_eq_true_eq]

/-- The three indexes of a mempool agree. -/
structure Mempool.Rep (C : Crypto) (m : Mempool) : Prop where
  ids : ∀ (id : Hash) e, m.entries[id]? = some e → e.txId = id ∧ e.tx.txId C = id
  routed : ∀ (id : Hash) e, m.entries[id]? = some e → m.shardTree.routeTx id = .ok e.shardId
  sizes : ∀ (id : Hash) e, m.entries[id]? = some e → e.txSizeBytes = e.tx.toBytes.length
  grouped : ∀ (shardId : ℕ) (id : Hash),
    (m.entriesByShard[shardId]?.getD ∅)[id]? = (m.entries[id]?).filter fun e => e.shardId = shardId
  nonempty : ∀ (shardId : ℕ) group, m.entriesByShard[shardId]? = some group → group ≠ ∅
  spent : ∀ (o : Outpoint) id, m.spentOutpoints[o]? = some id ↔ ∃ e, m.entries[id]? = some e ∧ o ∈ e.tx.spent

namespace Mempool

variable {C : Crypto} {m : Mempool}

theorem rep_new (tree : ShardTree) (floors : Table ℕ ℕ) : (Mempool.new tree floors).Rep C := by
  have hnone : ∀ id : Hash, (Mempool.new tree floors).entries[id]? = none := fun id => Table.get_empty id
  have hgroup : ∀ shardId : ℕ, (Mempool.new tree floors).entriesByShard[shardId]? = none := fun s => Table.get_empty s
  refine ⟨?_, ?_, ?_, ?_, ?_, ?_⟩
  · intro id e he
    rw [hnone] at he
    cases he
  · intro id e he
    rw [hnone] at he
    cases he
  · intro id e he
    rw [hnone] at he
    cases he
  · intro shardId id
    rw [hgroup, hnone]
    exact Table.get_empty id
  · intro shardId group hgroup'
    rw [hgroup] at hgroup'
    cases hgroup'
  · intro o id
    simp only [new, Table.get_empty]
    simp

namespace Rep

/-- No two entries share an input. -/
theorem disjoint (h : m.Rep C) {id id' : Hash} {e e' : MempoolEntry} (he : m.entries[id]? = some e)
    (he' : m.entries[id']? = some e') {o : Outpoint} (ho : o ∈ e.tx.spent) (ho' : o ∈ e'.tx.spent) : id = id' := by
  have hid := (h.spent o id).2 ⟨e, he, ho⟩
  rw [(h.spent o id').2 ⟨e', he', ho'⟩] at hid
  exact (Option.some.inj hid).symm

/-- An outpoint that no entry spends is not in the index. -/
theorem free (h : m.Rep C) {o : Outpoint} (ho : ∀ (id : Hash) e, m.entries[id]? = some e → o ∉ e.tx.spent) :
    m.spentOutpoints[o]? = none := by
  refine Option.eq_none_iff_forall_ne_some.2 fun id hid => ?_
  obtain ⟨e, he, hoe⟩ := (h.spent o id).1 hid
  exact ho id e he hoe

/-! ## Filing an entry -/

/-- **Filing a new entry** whose inputs are free keeps the indexes in step. -/
theorem insertEntry (h : m.Rep C) {e : MempoolEntry} (hid : e.tx.txId C = e.txId)
    (hroute : m.shardTree.routeTx e.txId = .ok e.shardId) (hsize : e.txSizeBytes = e.tx.toBytes.length)
    (hnew : m.entries[e.txId]? = none) (hnodup : e.tx.spent.Nodup)
    (hfree : ∀ o ∈ e.tx.spent, m.spentOutpoints[o]? = none) : (m.insertEntry e).Rep C := by
  have hget : ∀ id : Hash, (m.insertEntry e).entries[id]? = if e.txId = id then some e else m.entries[id]? := by
    intro id
    change (m.entries.insert e.txId e)[id]? = _
    rw [Table.get_insert]
    congr
  -- what is filed is the new entry, or was there before
  have hcases : ∀ {id : Hash} {e' : MempoolEntry}, (m.insertEntry e).entries[id]? = some e' →
      (e.txId = id ∧ e' = e) ∨ m.entries[id]? = some e' := by
    intro id e' he'
    rw [hget] at he'
    split at he'
    · rename_i heq
      exact .inl ⟨heq, (Option.some.inj he').symm⟩
    · exact .inr he'
  refine ⟨?_, ?_, ?_, ?_, ?_, ?_⟩
  · intro id e' he'
    rcases hcases he' with ⟨rfl, rfl⟩ | he'
    · exact ⟨rfl, hid⟩
    · exact h.ids id e' he'
  · intro id e' he'
    rcases hcases he' with ⟨rfl, rfl⟩ | he'
    · exact hroute
    · exact h.routed id e' he'
  · intro id e' he'
    rcases hcases he' with ⟨rfl, rfl⟩ | he'
    · exact hsize
    · exact h.sizes id e' he'
  · intro shardId id
    have hold := h.grouped shardId id
    rw [hget]
    change ((m.entriesByShard.insert e.shardId _)[shardId]?.getD ∅)[id]? = _
    rw [Table.get_insert]
    -- only the group of its shard gains the entry
    by_cases hs : e.shardId = shardId
    · subst hs
      rw [if_pos rfl, Option.getD_some, Table.get_insert]
      by_cases heq : e.txId = id
      · rw [if_pos heq, if_pos heq, filter_shard, if_pos rfl]
      · rw [if_neg heq, if_neg heq, hold]
    · rw [if_neg hs, hold]
      by_cases heq : e.txId = id
      · rw [if_pos heq, ← heq, hnew, filter_shard, if_neg hs]
        rfl
      · rw [if_neg heq]
  · intro shardId group hgroup
    change (m.entriesByShard.insert e.shardId _)[shardId]? = some group at hgroup
    rw [Table.get_insert] at hgroup
    split at hgroup
    · cases hgroup
      intro hempty
      have hmem : ((m.entriesByShard[e.shardId]?.getD ∅).insert e.txId e)[e.txId]? = some e := by
        rw [Table.get_insert, if_pos rfl]
      rw [hempty, Table.get_empty] at hmem
      cases hmem
    · exact h.nonempty shardId group hgroup
  · intro o id
    rw [get_spentOutpoints_insertEntry hnodup, hget]
    by_cases hid' : e.txId = id
    · subst hid'
      rw [if_pos rfl]
      constructor
      · intro ho
        split at ho
        · rename_i hmem
          exact ⟨e, rfl, hmem⟩
        · obtain ⟨e', he', -⟩ := (h.spent o _).1 ho
          rw [hnew] at he'
          cases he'
      · rintro ⟨e', he', ho⟩
        cases he'
        exact if_pos ho
    · rw [if_neg hid', ← h.spent]
      -- another entry has none of its outpoints: they were free
      split
      · rename_i ho
        rw [hfree o ho, Option.some.injEq]
        exact ⟨fun heq => absurd heq hid', fun hnone => by cases hnone⟩
      · rfl

/-! ## Removing an entry -/

/-- The outpoints of an entry are freed, whatever else is in the index. -/
theorem get_freed (spent : Table Outpoint Hash) (inputs : List Input) (txId : Hash) (o : Outpoint) :
    (inputs.foldl (fun spent i => if spent[i.previousOutpoint]? = some txId then spent.erase i.previousOutpoint
      else spent) spent)[o]? =
      if o ∈ inputs.map (fun i => i.previousOutpoint) ∧ spent[o]? = some txId then none else spent[o]? := by
  induction inputs generalizing spent with
  | nil => simp
  | cons i inputs ih =>
    simp only [List.foldl_cons, ih, List.map_cons, List.mem_cons]
    by_cases hown : spent[i.previousOutpoint]? = some txId
    · rw [if_pos hown, Table.get_erase]
      by_cases ho : i.previousOutpoint = o
      · subst ho
        simp [hown]
      · have ho' : ¬o = i.previousOutpoint := fun heq => ho heq.symm
        simp [ho, ho']
    · rw [if_neg hown]
      by_cases ho : o = i.previousOutpoint
      · subst ho
        simp [hown]
      · simp [ho]

/-- **Removing an entry** keeps the indexes in step. -/
theorem removeEntry (h : m.Rep C) (txId : Hash) : (m.removeEntry txId).Rep C := by
  cases he : m.entries[txId]? with
  | none =>
    unfold Mempool.removeEntry
    rw [he]
    exact h
  | some entry =>
    have hentries : (m.removeEntry txId).entries = m.entries.erase txId := by
      unfold Mempool.removeEntry
      rw [he]
    have htree : (m.removeEntry txId).shardTree = m.shardTree := by
      unfold Mempool.removeEntry
      rw [he]
    have hold : ∀ {id : Hash} {e : MempoolEntry}, (m.removeEntry txId).entries[id]? = some e →
        txId ≠ id ∧ m.entries[id]? = some e := by
      intro id e hget
      rw [hentries, Table.get_erase] at hget
      split at hget
      · cases hget
      · rename_i hne
        exact ⟨hne, hget⟩
    -- the group of the entry is there, since it holds the entry
    have hin : (m.entriesByShard[entry.shardId]?.getD ∅)[txId]? = some entry := by
      rw [h.grouped, he, filter_shard, if_pos rfl]
    obtain ⟨group, hgroup⟩ : ∃ group, m.entriesByShard[entry.shardId]? = some group := by
      cases hg : m.entriesByShard[entry.shardId]? with
      | none =>
        rw [hg, Option.getD_none, Table.get_empty] at hin
        cases hin
      | some group => exact ⟨group, rfl⟩
    have hbyShard : (m.removeEntry txId).entriesByShard =
        if (group.erase txId).isEmpty then m.entriesByShard.erase entry.shardId
        else m.entriesByShard.insert entry.shardId (group.erase txId) := by
      unfold Mempool.removeEntry
      rw [he]
      dsimp only
      rw [hgroup]
    -- a group goes with its last entry
    have hgroups : ∀ shardId : ℕ, (m.removeEntry txId).entriesByShard[shardId]? =
        if entry.shardId = shardId then (if (group.erase txId).isEmpty then none else some (group.erase txId))
        else m.entriesByShard[shardId]? := by
      intro shardId
      rw [hbyShard]
      by_cases hempty : (group.erase txId).isEmpty = true
      · rw [if_pos hempty, if_pos hempty, Table.get_erase]
      · rw [if_neg hempty, if_neg hempty, Table.get_insert]
    refine ⟨?_, ?_, ?_, ?_, ?_, ?_⟩
    · intro id e hget
      exact h.ids id e (hold hget).2
    · intro id e hget
      rw [htree]
      exact h.routed id e (hold hget).2
    · intro id e hget
      exact h.sizes id e (hold hget).2
    · intro shardId id
      rw [hgroups, hentries, Table.get_erase]
      by_cases hs : entry.shardId = shardId
      · subst hs
        have hgrouped := h.grouped entry.shardId id
        rw [hgroup, Option.getD_some] at hgrouped
        have hleft : ((if (group.erase txId).isEmpty = true then none else some (group.erase txId)).getD ∅)[id]? =
            (group.erase txId)[id]? := by
          split
          · rename_i hempty
            rw [Std.ExtTreeMap.isEmpty_iff.1 hempty]
            rfl
          · rfl
        rw [if_pos rfl, hleft, Table.get_erase, hgrouped]
        split <;> rfl
      · rw [if_neg hs, h.grouped]
        by_cases heq : txId = id
        · rw [if_pos heq, ← heq, he, filter_shard, if_neg hs]
          rfl
        · rw [if_neg heq]
    · intro shardId group' hget
      rw [hgroups] at hget
      split at hget
      · split at hget
        · cases hget
        · rename_i hnot
          cases hget
          exact fun hempty => hnot (Std.ExtTreeMap.isEmpty_iff.2 hempty)
      · exact h.nonempty shardId group' hget
    · intro o id
      have hspent : (m.removeEntry txId).spentOutpoints[o]? =
          if o ∈ entry.tx.spent ∧ m.spentOutpoints[o]? = some txId then none else m.spentOutpoints[o]? := by
        unfold Mempool.removeEntry
        rw [he]
        exact get_freed _ _ _ _
      rw [hspent, hentries, Table.get_erase]
      by_cases hid : txId = id
      · subst hid
        rw [if_pos rfl]
        constructor
        · intro hget
          split at hget
          · cases hget
          · rename_i hnot
            obtain ⟨e, he', ho⟩ := (h.spent o txId).1 hget
            rw [he] at he'
            cases he'
            exact absurd ⟨ho, hget⟩ hnot
        · rintro ⟨e, hnone, -⟩
          cases hnone
      · rw [if_neg hid, ← h.spent]
        -- the outpoints of other entries are filed under other ids
        split
        · rename_i hown
          rw [hown.2, Option.some.injEq]
          exact ⟨fun hnone => (by cases hnone), fun heq => absurd heq hid⟩
        · rfl

theorem removeAll (h : m.Rep C) (ids : List Hash) : (ids.foldl Mempool.removeEntry m).Rep C := by
  induction ids generalizing m with
  | nil => exact h
  | cons id ids ih => exact ih (h.removeEntry id)

/-- The entries of a shard determine its group. -/
theorem group_eq {m' : Mempool} (h : m.Rep C) (h' : m'.Rep C) {shardId : ℕ}
    (heq : ∀ id : Hash, (m'.entries[id]?).filter (fun e => e.shardId = shardId) =
      (m.entries[id]?).filter fun e => e.shardId = shardId) :
    m'.entriesByShard[shardId]? = m.entriesByShard[shardId]? := by
  have hget : m'.entriesByShard[shardId]?.getD ∅ = m.entriesByShard[shardId]?.getD ∅ := by
    apply Table.ext_get
    intro id
    rw [h'.grouped, h.grouped, heq]
  cases hg : m.entriesByShard[shardId]? with
  | none =>
    cases hg' : m'.entriesByShard[shardId]? with
    | none => rfl
    | some group' =>
      rw [hg, hg', Option.getD_some, Option.getD_none] at hget
      exact absurd hget (h'.nonempty shardId group' hg')
  | some group =>
    cases hg' : m'.entriesByShard[shardId]? with
    | none =>
      rw [hg, hg', Option.getD_some, Option.getD_none] at hget
      exact absurd hget.symm (h.nonempty shardId group hg)
    | some group' =>
      rw [hg, hg', Option.getD_some, Option.getD_some] at hget
      rw [hget]

theorem mem_belowFloor (h : m.Rep C) {shardId floor : ℕ} {id : Hash} : id ∈ m.belowFloor shardId floor ↔
    ∃ e, m.entries[id]? = some e ∧ e.shardId = shardId ∧ e.feeRateMatomsPerKb < floor := by
  unfold belowFloor
  rw [mem_sortBy, List.mem_map]
  have hgroup : ∀ e, (m.entriesByShard[shardId]?.getD ∅)[id]? = some e ↔
      m.entries[id]? = some e ∧ e.shardId = shardId := by
    intro e
    rw [h.grouped, Option.filter_eq_some_iff, decide_eq_true_eq]
  constructor
  · rintro ⟨⟨id', e⟩, hp, rfl⟩
    rw [List.mem_filter, Table.mem_toList, hgroup, decide_eq_true_eq] at hp
    obtain ⟨⟨he, hs⟩, hlow⟩ := hp
    exact ⟨e, he, hs, hlow⟩
  · rintro ⟨e, he, hs, hlow⟩
    refine ⟨(id, e), ?_, rfl⟩
    rw [List.mem_filter, Table.mem_toList, hgroup, decide_eq_true_eq]
    exact ⟨⟨he, hs⟩, hlow⟩

end Rep

theorem get_entries_removeEntry (m : Mempool) (txId id : Hash) :
    (m.removeEntry txId).entries[id]? = if txId = id then none else m.entries[id]? := by
  cases he : m.entries[txId]? with
  | none =>
    unfold removeEntry
    rw [he]
    dsimp only
    split
    · rename_i heq
      rw [← heq, he]
    · rfl
  | some entry =>
    unfold removeEntry
    rw [he]
    dsimp only
    rw [Table.get_erase]
    congr

theorem get_entries_removeAll (m : Mempool) (ids : List Hash) (id : Hash) :
    (ids.foldl removeEntry m).entries[id]? = if id ∈ ids then none else m.entries[id]? := by
  induction ids generalizing m with
  | nil => simp
  | cons k ids ih =>
    rw [List.foldl_cons, ih, get_entries_removeEntry]
    by_cases hk : k = id
    · subst hk
      simp
    · have hk' : ¬id = k := fun heq => hk heq.symm
      simp [hk, hk']

/-! ## Admission -/

/-- An entry that can be filed: it is that of its transaction, new, and its inputs are free. -/
structure Admitted (C : Crypto) (m : Mempool) (e : MempoolEntry) : Prop where
  id : e.tx.txId C = e.txId
  routed : m.shardTree.routeTx e.txId = .ok e.shardId
  size : e.txSizeBytes = e.tx.toBytes.length
  new : m.entries[e.txId]? = none
  nodup : e.tx.spent.Nodup
  free : ∀ o ∈ e.tx.spent, m.spentOutpoints[o]? = none

variable {tx : Transaction} {view : UTXOView} {time height : ℕ}

theorem assessInput_free {acc r : Finset Outpoint × ℕ} {p : Input × ℕ}
    (h : m.assessInput C tx view time height acc p = .ok r) : p.1.previousOutpoint ∉ acc.1 ∧
      m.spentOutpoints[p.1.previousOutpoint]? = none ∧ r.1 = insert p.1.previousOutpoint acc.1 := by
  unfold assessInput at h
  simp only [Exn.bind_ok, rejectUnless_ok] at h
  obtain ⟨-, hnew, -, hfree, h⟩ := h
  refine ⟨hnew, hfree, ?_⟩
  split at h
  · cases h
  · simp only [Exn.bind_ok, Exn.pure_ok] at h
    obtain ⟨message, -, -, -, rfl⟩ := h
    rfl

theorem assessLoop_free {l : List (Input × ℕ)} {acc r : Finset Outpoint × ℕ}
    (h : l.foldlM (m.assessInput C tx view time height) acc = .ok r) :
    (l.map fun p => p.1.previousOutpoint).Nodup ∧
      ∀ p ∈ l, p.1.previousOutpoint ∉ acc.1 ∧ m.spentOutpoints[p.1.previousOutpoint]? = none := by
  induction l generalizing acc with
  | nil => simp
  | cons p l ih =>
    obtain ⟨acc₁, hp, hl⟩ := Exn.foldlM_cons_ok.1 h
    obtain ⟨hnew, hfree, hacc⟩ := assessInput_free hp
    obtain ⟨hnodup, hrest⟩ := ih hl
    rw [hacc] at hrest
    rw [List.map_cons, List.nodup_cons, List.forall_mem_cons]
    refine ⟨⟨fun hmem => ?_, hnodup⟩, ⟨hnew, hfree⟩, fun q hq => ⟨fun hold => ?_, (hrest q hq).2⟩⟩
    · obtain ⟨q, hq, heq⟩ := List.mem_map.1 hmem
      exact (hrest q hq).1 (by rw [heq]; exact Finset.mem_insert_self _ _)
    · exact (hrest q hq).1 (Finset.mem_insert_of_mem hold)

theorem assessSpends_free {view : Option UTXOView} {fee : ℕ} (h : m.assessSpends C tx view time height = .ok fee) :
    tx.spent.Nodup ∧ ∀ o ∈ tx.spent, m.spentOutpoints[o]? = none := by
  simp only [assessSpends, Exn.bind_ok] at h
  obtain ⟨-, -, view, -, -, -, r, hloop, -⟩ := h
  obtain ⟨hnodup, hfree⟩ := assessLoop_free hloop
  have hmap : (tx.inputs.zipIdx.map fun p => p.1.previousOutpoint) = tx.spent := by
    unfold Transaction.spent
    conv_rhs => rw [← List.zipIdx_map_fst 0 tx.inputs, List.map_map]
    rfl
  rw [hmap] at hnodup
  refine ⟨hnodup, fun o ho => ?_⟩
  rw [← hmap] at ho
  obtain ⟨p, hp, rfl⟩ := List.mem_map.1 ho
  exact (hfree p hp).2

theorem decodeCanonical_ok {txOrBytes : Transaction ⊕ Bytes} {tx : Transaction} {raw : Bytes}
    (h : decodeCanonical txOrBytes = .ok (tx, raw)) : raw = tx.toBytes := by
  cases txOrBytes with
  | inl tx' =>
    simp only [decodeCanonical, Exn.bind_ok, Exn.pure_ok, decodeCanonicalTx_ok] at h
    obtain ⟨_, ⟨-, rfl⟩, heq⟩ := h
    cases heq
    rfl
  | inr raw' =>
    simp only [decodeCanonical, Exn.bind_ok, Exn.pure_ok, rejecting_ok] at h
    obtain ⟨decoded, hdecoded, heq⟩ := h
    cases heq
    exact (Transaction.toBytes_fromBytes hdecoded).symm

/-- **What is admitted can be filed.** -/
theorem entryFor_ok {txOrBytes : Transaction ⊕ Bytes} {shardId : Option ℕ} {view : Option UTXOView} {e : MempoolEntry}
    (h : m.entryFor C txOrBytes shardId view time height = .ok e) : m.Admitted C e := by
  unfold entryFor at h
  obtain ⟨⟨tx, raw⟩, hdecode, h⟩ := Exn.bind_ok.1 h
  obtain ⟨routed, hrouted, h⟩ := Exn.bind_ok.1 h
  obtain ⟨-, -, h⟩ := Exn.bind_ok.1 h
  simp only [Exn.bind_ok, rejectUnless_ok, Exn.pure_ok] at h
  obtain ⟨-, hnew, fee, hassess, -, -, -, -, rfl⟩ := h
  obtain ⟨hnodup, hfree⟩ := assessSpends_free hassess
  exact ⟨rfl, raising_ok.1 hrouted, congrArg List.length (decodeCanonical_ok hdecode), hnew, hnodup, hfree⟩

/-- What is admitted is what it was asked to admit. -/
theorem entryFor_txId {tx : Transaction} {shardId : Option ℕ} {view : Option UTXOView} {e : MempoolEntry}
    (h : m.entryFor C (.inl tx) shardId view time height = .ok e) : e.txId = tx.txId C := by
  unfold entryFor decodeCanonical at h
  simp only [Exn.bind_ok, decodeCanonicalTx_ok, Exn.pure_ok] at h
  obtain ⟨r, ⟨_, ⟨-, rfl⟩, rfl⟩, -, -, -, -, -, -, -, -, -, -, -, -, rfl⟩ := h
  rfl

theorem Admitted.rep {e : MempoolEntry} (he : m.Admitted C e) (h : m.Rep C) : (m.insertEntry e).Rep C :=
  h.insertEntry he.id he.routed he.size he.new he.nodup he.free

/-- The fields of an entry for a routed transaction pass their checks. -/
theorem postInit_returns {tx : Transaction} {routed fee rate : ℕ} (hrouted : m.shardTree.routeTx (tx.txId C) = .ok routed) :
    (MempoolEntry.mk tx (tx.txId C) routed tx.toBytes.length fee rate).postInit C = .ok () := by
  have hshard : requireShardId routed = .ok () := m.shardTree.isPartition.2.canonical _ (ShardTree.routeTx_iff.1 hrouted).1
  have hmax : tx.toBytes.length ≤ maxTxBytes := by
    have hvalid := tx.valid
    simp only [TransactionFields.postInit, Exn.bind_ok, Exn.ensure_ok] at hvalid
    obtain ⟨-, -, -, -, -, -, -, -, -, -, -, -, -, -, h⟩ := hvalid
    exact h
  have hpos : 0 < tx.toBytes.length := by
    unfold TransactionFields.toBytes TransactionFields.layout
    simp only [List.length_append, le_length]
    omega
  unfold MempoolEntry.postInit
  rw [Exn.ensure_of _ rfl, Exn.ok_bind, hshard, Exn.ok_bind, Exn.ensure_of _ hpos, Exn.ok_bind, Exn.ensure_of _ hmax]

/-- Admission never raises. -/
theorem entryFor_post {txOrBytes : Transaction ⊕ Bytes} {shardId : Option ℕ} {view : Option UTXOView} :
    Exn.Post (m.entryFor C txOrBytes shardId view time height) (fun _ => True) Stop.IsReject := by
  have hdecode : Exn.Post (decodeCanonical txOrBytes) (fun r => r.2 = r.1.toBytes) Stop.IsReject := by
    cases txOrBytes with
    | inl tx =>
      refine Exn.Post.bind (P := fun decoded => decoded = tx) ?_ fun decoded _ hdecoded => ?_
      · refine (rejecting_post (caught_fromBytes _).post).bind fun decoded _ _ => ?_
        exact (rejectUnless_post _).bind fun _ _ h => Exn.Post.pure h
      · rw [hdecoded]
        exact Exn.Post.pure rfl
    | inr raw =>
      refine (rejecting_post (caught_fromBytes _).post).bind fun decoded hdecoded _ => ?_
      exact Exn.Post.pure (Transaction.toBytes_fromBytes (rejecting_ok.1 hdecoded)).symm
  have hshard : ∀ routed, Exn.Post (checkRequestedShard shardId routed) (fun _ => True) Stop.IsReject := by
    intro routed
    cases shardId with
    | none => exact Exn.Post.ok trivial
    | some requested =>
      have hcaught : Exn.Post (requireShardId requested) (fun _ => True) PyError.IsCaught := by
        unfold requireShardId
        refine (ensure_caught _).bind fun _ _ _ => (ensure_caught _).bind fun _ _ _ => ?_
        exact (ensure_caught _).mono (fun _ _ => trivial) fun _ h => h
      exact (rejecting_post hcaught).bind fun _ _ _ => (rejectUnless_post _).mono (fun _ _ => trivial) fun _ h => h
  unfold entryFor
  refine hdecode.bind fun r _ hraw => ?_
  obtain ⟨tx, raw⟩ := r
  obtain ⟨routed, hrouted⟩ := m.shardTree.routeTx_returns (tx.txId C)
  dsimp only at hraw ⊢
  rw [raising_eq hrouted, Exn.ok_bind]
  refine (hshard routed).bind fun _ _ _ => (rejectUnless_post _).bind fun _ _ _ => ?_
  refine Exn.Post.bind (P := fun _ => True) ?_ fun fee _ _ => (rejectUnless_post _).bind fun _ _ _ => ?_
  · unfold assessSpends
    refine (rejectUnless_post _).bind fun _ _ _ => ?_
    cases view with
    | none => exact Exn.Post.error (Stop.isReject _)
    | some view =>
      rw [Exn.get_some, Exn.ok_bind]
      refine (rejecting_post (checkLocks_caught _ _)).bind fun _ _ _ => ?_
      refine Exn.Post.bind (P := fun _ => True) ?_ fun _ _ _ => (rejectUnless_post _).bind fun _ _ _ => Exn.Post.pure trivial
      refine Exn.Post.foldlM (fun _ _ => True) trivial fun done p todo acc hl _ => ?_
      -- the index is that of an input, so the message to sign can be built
      obtain ⟨message, hmessage⟩ := sighash_returns (C := C) (show p ∈ tx.inputs.zipIdx by rw [hl]; simp)
      unfold assessInput
      refine (rejectUnless_post _).bind fun _ _ _ => (rejectUnless_post _).bind fun _ _ _ => ?_
      split
      · exact Exn.Post.error (Stop.isReject _)
      · rw [raising_eq hmessage, Exn.ok_bind]
        exact (rejectUnless_post _).bind fun _ _ _ => Exn.Post.pure trivial
  · subst hraw
    rw [raising_eq (postInit_returns hrouted), Exn.ok_bind]
    exact Exn.Post.pure trivial

/-- The node admits as the mempool does. -/
theorem addTx_eq (m : Mempool) (tx : Transaction) (view : UTXOSet C) (time height : ℕ) :
    m.addTx tx none view time height = (m.entryFor C (.inl tx) none (some view.get) time height).map m.insertEntry := by
  obtain ⟨routed, hrouted⟩ := m.shardTree.routeTx_returns (tx.txId C)
  unfold addTx entryFor decodeCanonical checkRequestedShard
  dsimp only
  cases hdecode : decodeCanonicalTx tx with
  | error stop => rfl
  | ok decoded =>
    obtain ⟨-, rfl⟩ := decodeCanonicalTx_ok.1 hdecode
    rw [Exn.ok_bind, Exn.ok_bind]
    show _ = Except.map m.insertEntry (raising (m.shardTree.routeTx (decoded.txId C)) >>= _)
    rw [raising_eq hrouted, Exn.ok_bind, Exn.ok_bind]
    cases rejectUnless (m.entries[decoded.txId C]? = none) .duplicate with
    | error stop => rfl
    | ok _ =>
      show m.assessSpends C decoded (some view.get) time height >>= _ =
        Except.map m.insertEntry (m.assessSpends C decoded (some view.get) time height >>= _)
      cases m.assessSpends C decoded (some view.get) time height with
      | error stop => rfl
      | ok fee =>
        rw [Exn.ok_bind, Exn.ok_bind]
        dsimp only
        cases rejectUnless (m.feeFloor routed ≤ feeRateMatomsPerKb fee decoded.toBytes.length) .belowFeeFloor with
        | error stop => rfl
        | ok _ =>
          show _ = Except.map m.insertEntry (raising ((MempoolEntry.mk decoded (decoded.txId C) routed
            decoded.toBytes.length fee _).postInit C) >>= _)
          rw [raising_eq (postInit_returns hrouted)]
          rfl

/-- A rejection names the transaction, if there is one. -/
theorem rejectedIds_fst (m : Mempool) (txOrBytes : Transaction ⊕ Bytes) (shardId : Option ℕ) (reason : Reject) :
    (m.rejectedIds C txOrBytes shardId reason).1 = (decodeCanonical txOrBytes).toOption.map fun r => r.1.txId C := by
  unfold rejectedIds
  cases decodeCanonical txOrBytes with
  | error stop => rfl
  | ok r => cases reason <;> rfl

end Mempool

namespace Pool

variable {C : Crypto} {s : Pool}

/-! ## The operations -/

/-- A call of `add_tx` files the entry that is admitted, or stops and changes nothing. -/
theorem runOn_addTx (txOrBytes : Transaction ⊕ Bytes) (shardId : Option ℕ) (view : Option UTXOView)
    (time height : ℕ) : (addTx C txOrBytes shardId view time height).runOn s =
      match s.toMempool.entryFor C txOrBytes shardId view time height with
      | .ok e => (.ok ⟨e.txId, e.shardId, e.feeMatoms, e.feeRateMatomsPerKb⟩,
          { s with toMempool := s.toMempool.insertEntry e })
      | .error stop => (.error stop, s) := by
  unfold addTx
  rw [Stateful.runOn_bind]
  dsimp only [Stateful.runOn_get]
  rw [Stateful.runOn_bind, Stateful.runOn_lift]
  cases s.toMempool.entryFor C txOrBytes shardId view time height with
  | ok e => rfl
  | error stop => rfl

/-- **What `add_tx` returns.** It never raises: it returns what it has filed, or a rejection that
changes nothing and names the transaction, if the bytes are one. -/
theorem addTx_result (txOrBytes : Transaction ⊕ Bytes) (shardId : Option ℕ) (view : Option UTXOView) (time height : ℕ) :
    (∃ r, s.toMempool.addTxResult C txOrBytes shardId view time height = .ok (.ok r) ∧
      ((addTx C txOrBytes shardId view time height).runOn s).1 = .ok r) ∨
    ∃ reason routed, s.toMempool.addTxResult C txOrBytes shardId view time height = .ok (.reject reason
        ((Mempool.decodeCanonical txOrBytes).toOption.map fun r => r.1.txId C) routed) ∧
      (addTx C txOrBytes shardId view time height).runOn s = (.error (.reject reason), s) := by
  have hpost : Exn.Post (s.toMempool.entryFor C txOrBytes shardId view time height) (fun _ => True) Stop.IsReject :=
    Mempool.entryFor_post
  rw [runOn_addTx]
  unfold Mempool.addTxResult
  cases hentry : s.toMempool.entryFor C txOrBytes shardId view time height with
  | ok e => exact .inl ⟨_, rfl, rfl⟩
  | error stop =>
    rw [hentry] at hpost
    obtain ⟨reason, rfl⟩ := hpost
    exact .inr ⟨reason, _, by rw [← Mempool.rejectedIds_fst], rfl⟩

/-- The floor that an eviction applies. -/
def floorOf (s : Pool) (shardId : ℕ) (floor : Option ℕ) : ℕ := floor.getD (s.toMempool.feeFloor shardId)

/-- The floors after an eviction. -/
def floorsAfter (s : Pool) (shardId : ℕ) : Option ℕ → Table ℕ ℕ
  | none => s.feeFloors
  | some floor => s.feeFloors.insert shardId (max feeFloorMinMatomsPerKb floor)

/-- The mempool after an eviction. -/
def evicted (s : Pool) (shardId : ℕ) (floor : Option ℕ) : Mempool :=
  (s.toMempool.belowFloor shardId (s.floorOf shardId floor)).foldl Mempool.removeEntry
    { s.toMempool with feeFloors := s.floorsAfter shardId floor }

theorem runOn_evictBelowFloor {shardId : ℕ} (hshard : requireShardId shardId = .ok ()) (floor : Option ℕ) :
    (evictBelowFloor shardId floor).runOn s =
      (.ok (s.toMempool.belowFloor shardId (s.floorOf shardId floor)),
        { s with toMempool := s.evicted shardId floor }) := by
  have hraise : (raising (requireShardId shardId) : Except Stop Unit) = .ok () := raising_eq hshard
  unfold evictBelowFloor
  rw [hraise]
  cases floor with
  | none =>
    unfold evictionFloor feeFloor
    rw [hraise]
    rfl
  | some floor =>
    unfold evictionFloor setFeeFloor
    rw [hraise]
    rfl

/-- The floors are not part of what the indexes say. -/
theorem rep_floors {m : Mempool} (h : m.Rep C) (floors : Table ℕ ℕ) : ({ m with feeFloors := floors } : Mempool).Rep C :=
  ⟨h.ids, h.routed, h.sizes, h.grouped, h.nonempty, h.spent⟩

/-- **One operation** keeps the indexes in step. -/
theorem step_rep (h : s.toMempool.Rep C) (call : PoolCall) : (s.step C call).toMempool.Rep C := by
  cases call with
  | addTx txOrBytes shardId view time height =>
    show ((addTx C txOrBytes shardId view time height).runOn s).2.toMempool.Rep C
    rw [runOn_addTx]
    cases hentry : s.toMempool.entryFor C txOrBytes shardId view time height with
    | ok e => exact (Mempool.entryFor_ok hentry).rep h
    | error stop => exact h
  | remove txId => exact h.removeEntry txId
  | evictBelowFloor shardId floor =>
    show ((evictBelowFloor shardId floor).runOn s).2.toMempool.Rep C
    cases hshard : requireShardId shardId with
    | ok _ =>
      rw [runOn_evictBelowFloor hshard]
      exact (rep_floors h _).removeAll _
    | error e =>
      unfold evictBelowFloor
      rw [hshard]
      exact h
  | setFeeFloor shardId floor =>
    show ((setFeeFloor shardId floor).runOn s).2.toMempool.Rep C
    unfold setFeeFloor
    cases hshard : requireShardId shardId with
    | ok _ => exact rep_floors h _
    | error e => exact h
  | recordConfirmedFruit shardId fees payloadBytes =>
    show ((recordConfirmedFruit shardId fees payloadBytes).runOn s).2.toMempool.Rep C
    unfold recordConfirmedFruit
    cases hsample : (FeeFloorSample.mk shardId fees payloadBytes).postInit with
    | ok _ =>
      dsimp only
      rw [hsample]
      exact rep_floors h _
    | error e =>
      dsimp only
      rw [hsample]
      exact h

theorem after_rep (h : s.toMempool.Rep C) (calls : List PoolCall) : (s.after C calls).toMempool.Rep C := by
  induction calls generalizing s with
  | nil => exact h
  | cons call calls ih => exact ih (step_rep h call)

/-- An eviction from a shard leaves the other shards as they are, and of its own shard what
reaches the floor. -/
structure Evicts (s : Pool) (shardId floor : ℕ) (evicted : List Hash) (s' : Pool) : Prop where
  gone : ∀ id, id ∈ evicted ↔ ∃ e, s.entries[id]? = some e ∧ e.shardId = shardId ∧ e.feeRateMatomsPerKb < floor
  left : ∀ (id : Hash) e, s'.entries[id]? = some e ↔
    s.entries[id]? = some e ∧ (e.shardId = shardId → floor ≤ e.feeRateMatomsPerKb)
  others : ∀ other : ℕ, other ≠ shardId → s'.entriesByShard[other]? = s.entriesByShard[other]?

theorem evictBelowFloor_evicts (h : s.toMempool.Rep C) {shardId : ℕ} (hshard : requireShardId shardId = .ok ())
    (floor : Option ℕ) : ∃ evicted s', (evictBelowFloor shardId floor).runOn s = (.ok evicted, s') ∧
      Evicts s shardId (s.floorOf shardId floor) evicted s' := by
  refine ⟨_, _, runOn_evictBelowFloor hshard floor, fun id => h.mem_belowFloor, ?_, ?_⟩
  · intro id e
    show (s.evicted shardId floor).entries[id]? = some e ↔ _
    unfold evicted
    rw [Mempool.get_entries_removeAll]
    dsimp only
    split
    · rename_i hout
      obtain ⟨e', he', hs, hlow⟩ := h.mem_belowFloor.1 hout
      constructor
      · intro hnone
        cases hnone
      · rintro ⟨he, hkeep⟩
        rw [he'] at he
        cases he
        exact absurd (hkeep hs) (not_le.2 hlow)
    · rename_i hin
      constructor
      · intro he
        refine ⟨he, fun hs => not_lt.1 fun hlow => hin ?_⟩
        exact h.mem_belowFloor.2 ⟨e, he, hs, hlow⟩
      · rintro ⟨he, -⟩
        exact he
  · intro other hother
    have hrep : (s.evicted shardId floor).Rep C := (rep_floors h _).removeAll _
    refine h.group_eq hrep fun id => ?_
    unfold evicted
    rw [Mempool.get_entries_removeAll]
    split
    · rename_i hout
      obtain ⟨e, he, hs, -⟩ := h.mem_belowFloor.1 hout
      rw [he, filter_shard, if_neg fun heq => hother (heq.symm.trans hs)]
      rfl
    · rfl

/-- What holds of a mempool in use: its indexes agree, no two entries share an input, an
`add_tx` that stops is a rejection that changes nothing, and an eviction removes exactly the
entries of its shard below the floor. -/
structure Sound (C : Crypto) (s : Pool) : Prop where
  rep : s.toMempool.Rep C
  disjoint : ∀ (id id' : Hash) e e' (o : Outpoint), s.entries[id]? = some e → s.entries[id']? = some e' →
    o ∈ e.tx.spent → o ∈ e'.tx.spent → id = id'
  rejected : ∀ txOrBytes shardId view time height stop s',
    (addTx C txOrBytes shardId view time height).runOn s = (.error stop, s') → stop.IsReject ∧ s' = s
  evicts : ∀ shardId floor, requireShardId shardId = .ok () → ∃ evicted s',
    (evictBelowFloor shardId floor).runOn s = (.ok evicted, s') ∧
      Evicts s shardId (s.floorOf shardId floor) evicted s'

/-- **The indexes of a mempool** are sound after every sequence of operations. -/
theorem sound_after (C : Crypto) (tree : ShardTree) (floors : Table ℕ ℕ) (calls : List PoolCall) :
    ((Pool.new tree floors).after C calls).Sound C := by
  have h : ((Pool.new tree floors).after C calls).toMempool.Rep C := after_rep (Mempool.rep_new tree floors) calls
  generalize (Pool.new tree floors).after C calls = s at h
  refine ⟨h, fun id id' e e' o he he' ho ho' => h.disjoint he he' ho ho', ?_, fun shardId floor hshard =>
    evictBelowFloor_evicts h hshard floor⟩
  intro txOrBytes shardId view time height stop s' hrun
  have hpost : Exn.Post (s.toMempool.entryFor C txOrBytes shardId view time height) (fun _ => True) Stop.IsReject :=
    Mempool.entryFor_post
  rw [runOn_addTx] at hrun
  cases hentry : s.toMempool.entryFor C txOrBytes shardId view time height with
  | ok e =>
    rw [hentry] at hrun
    cases hrun
  | error stop' =>
    rw [hentry] at hrun hpost
    cases hrun
    exact ⟨hpost, rfl⟩

end Pool

end TensorPow
