import TensorPow.Proof.Apply
import TensorPow.Spec.Node

/-!
# What one call of the node does to its chain

* `checkFruit_ok`, `checkAnchorEarly_ok`, `checkAnchorLate_ok`: what an accepted block
  passed.
* `fruitBatch_eq`, `anchorBatch_eq`: the store after the write of a block.
* `step_cases`: apart from the mempool, a call changes nothing, or adds one fruit that
  passed its checks, or one anchor that passed its checks.
* `Reachable.inv`: an invariant that every call keeps holds in every reachable state.
-/

namespace TensorPow

open Wire Sorted

variable {C : Crypto}

/-! ## The store -/

namespace Store

theorem put_utxos {β : Type} (f : β → Hash × UTXO) (l : List β) (s : Store C) :
    (l.map fun b => BatchPut.utxo (C := C) (f b).1 (f b).2).foldl put s =
      { s with utxo := Table.putAll s.utxo (l.map f) } := by
  induction l generalizing s with
  | nil => rfl
  | cons b l ih => exact ih _

theorem put_feeFloors (l : List (ℕ × ℕ)) (s : Store C) :
    (l.map fun p => BatchPut.feeFloor (C := C) p.1 p.2).foldl put s =
      { s with feeFloors := Table.putAll s.feeFloors l } := by
  induction l generalizing s with
  | nil => rfl
  | cons b l ih => exact ih _

theorem put_coinbaseClaimed (l : List (Hash × ℕ)) (s : Store C) :
    (l.map fun p => BatchPut.coinbaseClaimed (C := C) p.1 p.2).foldl put s =
      { s with coinbaseClaimed := Table.putAll s.coinbaseClaimed l } := by
  induction l generalizing s with
  | nil => rfl
  | cons b l ih => exact ih _

theorem delete_utxos (l : List Hash) (s : Store C) :
    (l.map BatchDelete.utxo).foldl delete s = { s with utxo := Table.eraseAll s.utxo l } := by
  induction l generalizing s with
  | nil => rfl
  | cons b l ih => exact ih _

theorem delete_feeFloors (l : List ℕ) (s : Store C) :
    (l.map BatchDelete.feeFloor).foldl delete s = { s with feeFloors := Table.eraseAll s.feeFloors l } := by
  induction l generalizing s with
  | nil => rfl
  | cons b l ih => exact ih _

theorem delete_coinbaseClaimed (l : List Hash) (s : Store C) :
    (l.map BatchDelete.coinbaseClaimed).foldl delete s =
      { s with coinbaseClaimed := Table.eraseAll s.coinbaseClaimed l } := by
  induction l generalizing s with
  | nil => rfl
  | cons b l ih => exact ih _

theorem delete_mempool (l : List Hash) (s : Store C) :
    (l.map BatchDelete.mempool).foldl delete s = { s with mempool := Table.eraseAll s.mempool l } := by
  induction l generalizing s with
  | nil => rfl
  | cons b l ih => exact ih _

/-- The store without its mempool column. -/
def chain (s : Store C) : Store C := { s with mempool := ∅ }

end Store

/-- The UTXO column of a set: its entries under their storage keys. -/
def UTXOSet.column (s : UTXOSet C) : Table Hash UTXO :=
  Table.putAll ∅ (s.entries.map fun u => (u.outpoint.key C, u))

theorem UTXOSet.nodup_column (s : UTXOSet C) :
    ((s.entries.map fun u => (u.outpoint.key C, u)).map Prod.fst).Nodup := by
  rw [List.map_map]
  have : s.entries.map (Prod.fst ∘ fun u => (u.outpoint.key C, u)) =
      (s.entries.map fun u => u.outpoint).map (Outpoint.key C) := by
    rw [List.map_map]
    rfl
  rw [this]
  refine List.Nodup.map_on ?_ s.nodup_entries
  intro o₁ h₁ o₂ h₂ hk
  obtain ⟨u₁, hu₁, rfl⟩ := List.mem_map.1 h₁
  obtain ⟨u₂, hu₂, rfl⟩ := List.mem_map.1 h₂
  exact UTXOSet.key_injOn (UTXOSet.mem_entries.1 hu₁) (UTXOSet.mem_entries.1 hu₂) hk

namespace Node

variable {cfg : Config} {n n' : Node C} {now : ℕ}

/-! ## Fruits -/

/-- What a fruit passed before it was written. -/
structure FruitChecked (cfg : Config) (n : Node C) (fruit : Fruit C) (now : ℕ) (plan : FruitPlan)
    (coinbase : Transaction) (spends : List Transaction) : Prop where
  fresh : n.store.bodies[fruit.blockHash]? = none
  txs : fruitTxs fruit = .ok (coinbase :: spends)
  planned : plan.txs = coinbase :: spends
  coinbase_inputs : coinbase.inputs = []
  spend_inputs : ∀ tx ∈ spends, tx.inputs ≠ []
  dependencies : ∃ candidates, n.validateFruitDependencies fruit now = .ok candidates
  spendable : ∃ view, spends.foldlM (n.validateSpend fruit) (n.utxoSet, 0) = .ok (view, plan.info.tipMatoms)
  claim : plan.info.coinbaseClaimMatoms = coinbase.outputSum

theorem checkFruit_ok {fruit : Fruit C} {plan : FruitPlan} (h : n.checkFruit cfg fruit now = .ok plan) :
    ∃ coinbase spends, FruitChecked cfg n fruit now plan coinbase spends := by
  unfold checkFruit at h
  simp only [Exn.bind_ok, rejectUnless_ok] at h
  obtain ⟨-, hfresh, txs, htxs, h⟩ := h
  cases txs with
  | nil => cases h
  | cons coinbase spends =>
    rw [raising_eq (UTXOSet.ofList_entries n.utxoSet)] at h
    simp only [Exn.ok_bind, Exn.bind_ok, rejectUnless_ok, raising_ok, rejecting_ok] at h
    obtain ⟨-, hcoinbase, -, hspends, candidates, hdeps, powHeader, -, -, -, ⟨view, tips⟩, hloop, claim, hclaim,
      limit, -, -, -, info, hinfo, h⟩ := h
    obtain ⟨-, -, hclaim⟩ := Exn.bind_ok.1 hclaim
    simp only [encodeFruitMeta, Exn.bind_ok, Exn.pure_ok] at hinfo
    obtain ⟨-, -, -, -, rfl⟩ := hinfo
    cases h
    exact ⟨coinbase, spends, hfresh, htxs, rfl, hcoinbase, hspends, ⟨candidates, hdeps⟩, ⟨view, hloop⟩,
      (Exn.pure_ok.1 hclaim).symm⟩

/-- The node after the write of a fruit. -/
def afterFruit (n : Node C) (fruit : Fruit C) (plan : FruitPlan) : Node C :=
  { n with
    store := { n.store with
      headers := n.store.headers.insert fruit.blockHash fruit.header.serialize
      bodies := n.store.bodies.insert fruit.blockHash (.fruit fruit)
      fruitMeta := n.store.fruitMeta.insert fruit.blockHash plan.info
      mempool := Table.eraseAll n.store.mempool (plan.txs.map fun tx => tx.txId C) }
    fruitDagCache := none }

theorem fruitBatch_eq (fruit : Fruit C) (plan : FruitPlan) :
    { n with store := n.fruitBatch fruit plan, fruitDagCache := none } = n.afterFruit fruit plan := by
  have hdel : (plan.txs.map fun tx => BatchDelete.mempool (tx.txId C)) =
      (plan.txs.map fun tx => tx.txId C).map BatchDelete.mempool := by
    rw [List.map_map]
    rfl
  unfold fruitBatch Store.writeBatch
  rw [hdel, Store.delete_mempool]
  rfl

/-! ## Anchors -/

theorem requireAfter_ok {bound : Option ℕ} {time : ℕ} {reason : Reject} {u : Unit} :
    requireAfter bound time reason = .ok u ↔ ∀ b, bound = some b → b < time := by
  cases bound with
  | none => simp [requireAfter]
  | some b => simp [requireAfter]

/-- What an anchor passed before the first use of the fruit DAG. -/
structure AnchorCheckedEarly (cfg : Config) (n : Node C) (anchor : Anchor C) (now : ℕ) : Prop where
  fresh : n.store.bodies[anchor.blockHash]? = none
  first : anchor.isGenesis → n.store.bodies.toList = []
  extends' : ¬anchor.isGenesis → ∃ history, n.anchorHistory anchor.header.parentAnchor = .ok history ∧
    ∀ last, history.getLast? = some last → last.timestampMs < anchor.header.timestampMs
  covered : ¬anchor.isGenesis → ∀ h ∈ anchor.coveredFruitHashes, ∃ fruit, n.loadFruit h = some fruit
  candidates : ¬anchor.isGenesis → ∀ h ∈ anchor.parentCandidateHashes, ∃ fruit, n.loadFruit h = some fruit

theorem checkAnchorEarly_ok {anchor : Anchor C} {u : Unit} (h : n.checkAnchorEarly cfg anchor now = .ok u) :
    AnchorCheckedEarly cfg n anchor now := by
  unfold checkAnchorEarly validateAnchorChain at h
  simp only [Exn.bind_ok, rejectUnless_ok] at h
  obtain ⟨-, hfresh, -, -, h⟩ := h
  by_cases hg : anchor.isGenesis
  · rw [if_pos hg] at h
    simp only [Exn.bind_ok, rejectUnless_ok] at h
    obtain ⟨-, hfirst, -⟩ := h
    exact ⟨hfresh, fun _ => hfirst, fun h => absurd hg h, fun h => absurd hg h, fun h => absurd hg h⟩
  · rw [if_neg hg] at h
    simp only [Exn.bind_ok, rejectUnless_ok, noneAs_ok, raising_ok, Exn.forM_ok] at h
    obtain ⟨history, hhistory, ⟨⟩, hlast, -, -, target, -, -, -, -, hcovered, hcandidates⟩ := h
    refine ⟨hfresh, fun h => absurd h hg, fun _ => ⟨history, hhistory, fun last hl => ?_⟩, fun _ h hh => ?_,
      fun _ h hh => ?_⟩
    · exact requireAfter_ok.1 hlast _ (by rw [hl]; rfl)
    · exact Option.isSome_iff_exists.1 (hcovered h hh)
    · exact Option.isSome_iff_exists.1 (hcandidates h hh)

/-- What an anchor passed between the first use of the fruit DAG and its write. -/
structure AnchorCheckedLate (n : Node C) (anchor : Anchor C) (plan : AnchorPlan C) : Prop where
  hash : plan.anchorHash = anchor.blockHash
  canonical : ¬anchor.isGenesis → n.canonicalParentCandidates = .ok anchor.parentCandidateHashes
  position : ∃ parentWork weight,
    n.anchorPosition anchor = .ok (plan.info.height, plan.info.target, parentWork) ∧
    anchorWorkWeight plan.info.target = .ok weight ∧ plan.info.cumulativeWork = parentWork + weight
  applied : ∃ branch, n.rebuildAnchorBranchState anchor.header.parentAnchor = .ok branch ∧
    n.applyAnchorToBranch anchor anchor.blockHash plan.info.height plan.info.target branch = .ok plan.state
  best : ∃ tip, n.bestAnchorTip (anchor.blockHash, plan.info) = .ok tip ∧
    plan.isBest = decide (tip = anchor.blockHash)
  height_le : plan.info.height ≤ u64Max

theorem checkAnchorLate_ok {anchor : Anchor C} {plan : AnchorPlan C} (h : n.checkAnchorLate anchor = .ok plan) :
    AnchorCheckedLate n anchor plan := by
  unfold checkAnchorLate at h
  simp only [Exn.bind_ok, noneAs_ok, raising_ok] at h
  obtain ⟨⟨⟩, hcand, tree, -, ⟨height, target, parentWork⟩, hpos, branch, hbranch, state, hstate, weight, hweight,
    best, hbest, bytes, -, info, hinfo, h⟩ := h
  simp only [encodeAnchorMeta, Exn.bind_ok, Exn.pure_ok, Exn.ensure_ok] at hinfo
  obtain ⟨-, hheight, -, -, rfl⟩ := hinfo
  have hplan : plan = ⟨anchor.blockHash, ⟨height, target, parentWork + weight⟩, state, best = anchor.blockHash⟩ := by
    split at h
    · obtain ⟨-, -, h⟩ := Exn.bind_ok.1 h
      exact (Exn.pure_ok.1 h).symm
    · exact (Exn.pure_ok.1 h).symm
  subst hplan
  refine ⟨rfl, fun hg => ?_, ⟨parentWork, weight, hpos, hweight, rfl⟩, ⟨branch, hbranch, hstate⟩,
    ⟨best, hbest, rfl⟩, hheight⟩
  unfold validateCandidates at hcand
  rw [if_neg hg] at hcand
  simp only [Exn.bind_ok, noneAs_ok, rejectUnless_ok] at hcand
  obtain ⟨canonical, hcanonical, rfl⟩ := hcand
  exact hcanonical

/-- The store with the active columns of a branch state. -/
def activate (s : Store C) (tip : Hash) (state : BranchState C) : Store C :=
  { s with
    anchorHeight := some state.height
    anchorTip := some tip
    mintedSupply := some state.mintedSupply
    shardTree := some state.shardTree
    utxo := state.utxoSet.column
    feeFloors := state.feeFloors
    coinbaseClaimed := state.claimedFruits
    mempool := Table.eraseAll s.mempool (ascending state.confirmedTxIds) }

/-- The store with an anchor and its metadata. -/
def withAnchor (s : Store C) (anchor : Anchor C) (plan : AnchorPlan C) : Store C :=
  { s with
    headers := s.headers.insert plan.anchorHash anchor.header.serialize
    bodies := s.bodies.insert plan.anchorHash (.anchor anchor)
    anchorMeta := s.anchorMeta.insert plan.anchorHash plan.info }

/-- **The write of an anchor.** The incremental puts and deletes leave exactly the
columns of the new branch state. -/
theorem anchorBatch_eq (anchor : Anchor C) (plan : AnchorPlan C) :
    n.anchorBatch anchor plan =
      if plan.isBest then activate (withAnchor n.store anchor plan) plan.anchorHash plan.state
      else withAnchor n.store anchor plan := by
  unfold anchorBatch
  cases plan.isBest with
  | false => rfl
  | true =>
    -- what is put and what is deleted leave the column of the new state
    have hutxo : Table.eraseAll (Table.putAll n.store.utxo
        (plan.state.utxoSet.entries.map fun u => (u.outpoint.key C, u)))
        (n.store.utxo.keys.filter fun k => !plan.state.utxoSet.outpointByKey.contains k) =
        plan.state.utxoSet.column := by
      refine Table.replace_eq _ plan.state.utxoSet.nodup_column fun k => ?_
      rw [← Std.ExtTreeMap.mem_iff_contains, Table.mem_iff]
      simp only [plan.state.utxoSet.key_iff, List.map_map, List.mem_map, Function.comp_apply]
      constructor
      · rintro ⟨o, ⟨u, hu⟩, rfl⟩
        have ho := UTXOSet.outpoint_of_get hu
        subst ho
        exact ⟨u, UTXOSet.mem_entries.2 hu, rfl⟩
      · rintro ⟨u, hu, rfl⟩
        exact ⟨u.outpoint, ⟨u, UTXOSet.mem_entries.1 hu⟩, rfl⟩
    simp only [if_true, activePuts, activeDeletes, Store.writeBatch, List.foldl_append, List.foldl_cons,
      List.foldl_nil]
    rw [Store.put_utxos fun u => (u.outpoint.key C, u), Store.put_feeFloors, Store.put_coinbaseClaimed,
      Store.delete_utxos, Store.delete_feeFloors, Store.delete_coinbaseClaimed, Store.delete_mempool]
    simp only [Store.put, hutxo, Table.replace_table_eq]
    rfl

/-- The node after the write of an anchor. -/
def afterAnchor (n : Node C) (anchor : Anchor C) (plan : AnchorPlan C) : Node C :=
  if plan.isBest then
    { n with
      store := activate (withAnchor n.store anchor plan) plan.anchorHash plan.state
      shardTree := plan.state.shardTree
      utxoSet := plan.state.utxoSet }
  else { n with store := withAnchor n.store anchor plan }

theorem bodies_afterAnchor (anchor : Anchor C) (plan : AnchorPlan C) :
    (n.afterAnchor anchor plan).store.bodies = n.store.bodies.insert plan.anchorHash (.anchor anchor) := by
  unfold afterAnchor
  split <;> rfl

theorem fruitMeta_afterAnchor (anchor : Anchor C) (plan : AnchorPlan C) :
    (n.afterAnchor anchor plan).store.fruitMeta = n.store.fruitMeta := by
  unfold afterAnchor
  split <;> rfl

theorem anchorMeta_afterAnchor (anchor : Anchor C) (plan : AnchorPlan C) :
    (n.afterAnchor anchor plan).store.anchorMeta = n.store.anchorMeta.insert plan.anchorHash plan.info := by
  unfold afterAnchor
  split <;> rfl

/-! ## Stored blocks -/

theorem loadFruit_congr {h : Hash} (hb : n'.store.bodies[h]? = n.store.bodies[h]?) :
    n'.loadFruit h = n.loadFruit h := by
  unfold loadFruit
  rw [hb]

theorem loadAnchor_congr {h : Hash} (hb : n'.store.bodies[h]? = n.store.bodies[h]?) :
    n'.loadAnchor h = n.loadAnchor h := by
  unfold loadAnchor
  rw [hb]

theorem loadFruit_iff {h : Hash} {f : Fruit C} :
    n.loadFruit h = some f ↔ h ≠ genesisParentHash ∧ n.store.bodies[h]? = some (.fruit f) := by
  unfold loadFruit
  by_cases hh : h = genesisParentHash
  · simp [hh]
  · rw [if_neg hh]
    cases hb : n.store.bodies[h]? with
    | none => simp
    | some b => cases b <;> simp [hh]

theorem loadAnchor_iff {h : Hash} {a : Anchor C} :
    n.loadAnchor h = some a ↔ h ≠ genesisParentHash ∧ n.store.bodies[h]? = some (.anchor a) := by
  unfold loadAnchor
  by_cases hh : h = genesisParentHash
  · simp [hh]
  · rw [if_neg hh]
    cases hb : n.store.bodies[h]? with
    | none => simp
    | some b => cases b <;> simp [hh]

/-! ## One call -/

/-- Two nodes that differ at most in their mempools and their fruit DAG caches. -/
structure SameChain (n n' : Node C) : Prop where
  store : n'.store.chain = n.store.chain
  shardTree : n'.shardTree = n.shardTree
  utxoSet : n'.utxoSet = n.utxoSet

theorem SameChain.refl (n : Node C) : SameChain n n := ⟨rfl, rfl, rfl⟩

theorem SameChain.bodies (h : SameChain n n') : n'.store.bodies = n.store.bodies := by
  have := congrArg Store.bodies h.store
  exact this

theorem SameChain.fruitMeta (h : SameChain n n') : n'.store.fruitMeta = n.store.fruitMeta := by
  have := congrArg Store.fruitMeta h.store
  exact this

theorem SameChain.anchorMeta (h : SameChain n n') : n'.store.anchorMeta = n.store.anchorMeta := by
  have := congrArg Store.anchorMeta h.store
  exact this

/-- What a call does, apart from the mempool. -/
inductive ChainStep (cfg : Config) (n : Node C) : Node C → Prop where
  | same {n' : Node C} : SameChain n n' →
      n'.fruitDagCache = n.fruitDagCache ∨ n'.fruitDagCache = n.withFruitDag.fruitDagCache → ChainStep cfg n n'
  | fruit {n' : Node C} {fruit : Fruit C} {now : ℕ} {plan : FruitPlan} :
      n.checkFruit cfg fruit now = .ok plan → SameChain (n.afterFruit fruit plan) n' →
      n'.fruitDagCache = none → ChainStep cfg n n'
  | anchor {n' : Node C} {anchor : Anchor C} {now : ℕ} {plan : AnchorPlan C} :
      n.checkAnchorEarly cfg anchor now = .ok () → n.withFruitDag.checkAnchorLate anchor = .ok plan →
      SameChain (n.withFruitDag.afterAnchor anchor plan) n' →
      n'.fruitDagCache = n.withFruitDag.fruitDagCache → ChainStep cfg n n'

/-- Rebuilding the mempool only deletes from the mempool column. -/
theorem rebuildMempool_ok {txs : List Transaction} {m : Mempool} {store : Store C}
    (h : n.rebuildMempool txs = .ok (m, store)) :
    ∃ stale, txs.foldlM n.readmit (Mempool.new n.shardTree n.store.feeFloors, []) = .ok (m, stale) ∧
      store = { n.store with mempool := Table.eraseAll n.store.mempool stale } := by
  unfold rebuildMempool at h
  simp only [Exn.bind_ok] at h
  obtain ⟨-, -, ⟨m', stale⟩, hloop, h⟩ := h
  rw [Exn.pure_ok, Prod.mk.injEq] at h
  obtain ⟨rfl, rfl⟩ := h
  refine ⟨stale, hloop, ?_⟩
  rw [← Store.delete_mempool, List.foldl_map]

theorem processRawTx_chain (data : Bytes) (writeOk : Bool) : ChainStep cfg n (n.processRawTx data writeOk).2 := by
  unfold processRawTx
  split
  · exact .same (.refl n) (.inl rfl)
  split
  · exact .same (.refl n) (.inl rfl)
  split
  · exact .same (.refl n) (.inl rfl)
  · rename_i staged store hrebuild
    obtain ⟨stale, -, rfl⟩ := rebuildMempool_ok hrebuild
    dsimp only
    split
    · exact .same ⟨rfl, rfl, rfl⟩ (.inl rfl)
    · split
      · exact .same ⟨rfl, rfl, rfl⟩ (.inl rfl)
      · exact .same ⟨rfl, rfl, rfl⟩ (.inl rfl)

theorem processFruit_chain (fruit : Fruit C) (now : ℕ) (writeOk : Bool) :
    ChainStep cfg n (n.processFruit cfg fruit now writeOk).2 := by
  unfold processFruit
  split
  · exact .same (.refl n) (.inl rfl)
  · rename_i plan hplan
    split
    · unfold commitFruit
      rw [fruitBatch_eq]
      dsimp only
      split
      · rename_i mempool store hrebuild
        obtain ⟨stale, -, rfl⟩ := rebuildMempool_ok hrebuild
        exact .fruit hplan ⟨rfl, rfl, rfl⟩ rfl
      · exact .fruit hplan (.refl _) rfl
    · exact .same (.refl n) (.inl rfl)

theorem withFruitDag_same (n : Node C) : SameChain n n.withFruitDag := by
  unfold withFruitDag
  split
  · exact ⟨rfl, rfl, rfl⟩
  · exact .refl n

theorem processAnchor_chain (anchor : Anchor C) (now : ℕ) (writeOk : Bool) :
    ChainStep cfg n (n.processAnchor cfg anchor now writeOk).2 := by
  unfold processAnchor
  split
  · exact .same (.refl n) (.inl rfl)
  · -- the fruit DAG may be built even if the anchor is rejected later
    rename_i hearly
    dsimp only
    split
    · exact .same n.withFruitDag_same (.inr rfl)
    · rename_i plan hlate
      split
      · unfold commitAnchor
        rw [anchorBatch_eq]
        dsimp only
        cases hbest : plan.isBest with
        | false =>
          refine .anchor hearly hlate ?_ rfl
          rw [afterAnchor, hbest]
          exact .refl _
        | true =>
          simp only [if_true]
          split
          · rename_i mempool store hrebuild
            obtain ⟨stale, -, rfl⟩ := rebuildMempool_ok hrebuild
            refine .anchor hearly hlate ?_ rfl
            rw [afterAnchor, hbest]
            exact ⟨rfl, rfl, rfl⟩
          · refine .anchor hearly hlate ?_ rfl
            rw [afterAnchor, hbest]
            exact ⟨rfl, rfl, rfl⟩
      · exact .same n.withFruitDag_same (.inr rfl)

end Node

/-- **What a call does.** Apart from the mempool, a call changes nothing, or adds one fruit
or one anchor that passed its checks. -/
theorem step_cases (cfg : Config) (n : Node C) (e : Event C) : n.ChainStep cfg (step cfg n e).2 := by
  cases e with
  | rawTx data writeOk => exact n.processRawTx_chain data writeOk
  | fruit f now writeOk => exact n.processFruit_chain f now writeOk
  | fruitBytes data now writeOk =>
    unfold step Node.processFruitBytes
    dsimp only
    split
    · exact .same (.refl n) (.inl rfl)
    · exact n.processFruit_chain _ now writeOk
  | anchor a now writeOk => exact n.processAnchor_chain a now writeOk
  | anchorBytes data now writeOk =>
    unfold step Node.processAnchorBytes
    dsimp only
    split
    · exact .same (.refl n) (.inl rfl)
    · exact n.processAnchor_chain _ now writeOk

theorem Reachable.next {cfg : Config} {n : Node C} (h : Reachable cfg n) (e : Event C) :
    Reachable cfg (step cfg n e).2 := by
  obtain ⟨events, rfl⟩ := h
  refine ⟨events ++ [e], ?_⟩
  unfold run
  rw [List.foldl_append]
  rfl

/-- An invariant that every call keeps holds in every reachable state. -/
theorem Reachable.inv {cfg : Config} {P : Node C → Prop} (start : P Node.empty)
    (step : ∀ n e, P n → P (step cfg n e).2) {n : Node C} (h : Reachable cfg n) : P n := by
  obtain ⟨events, rfl⟩ := h
  unfold run
  induction events using List.reverseRecOn with
  | nil => exact start
  | append_singleton events e ih =>
    rw [List.foldl_append]
    exact step _ e ih

end TensorPow
