import TensorPow.Proof.Replay

/-!
# The active chain

* `tipKey`: the total order behind `_is_better_anchor_tip`; `bestAnchorTip_ok`: the best
  tip is the greatest.
* `Inv`: the invariant of the node. `Active` is its part about the active state: every
  column and the state in memory are the replay of the active tip.
* `inv_of_reachable`: the invariant holds in every reachable state in which no stored block
  has the zero hash.
-/

namespace TensorPow

open Wire Sorted

variable {C : Crypto}

/-! ## The order of tips -/

/-- More work, then more height, then the lesser hash. -/
def tipKey (p : Hash × AnchorMeta) : ℕ ×ₗ ℕ ×ₗ Hashᵒᵈ :=
  toLex (p.2.cumulativeWork, toLex (p.2.height, OrderDual.toDual p.1))

theorem tipKey_fst {p q : Hash × AnchorMeta} (h : tipKey p = tipKey q) : p.1 = q.1 := by
  unfold tipKey at h
  have h₁ := congrArg (fun k => (ofLex (ofLex k).2).2) h
  exact h₁

theorem isBetterAnchorTip_iff {h : Hash} {info : AnchorMeta} {best : Hash × AnchorMeta} :
    isBetterAnchorTip h info (some best) = true ↔ tipKey best < tipKey (h, info) := by
  obtain ⟨b, binfo⟩ := best
  unfold isBetterAnchorTip tipKey
  rw [Prod.Lex.toLex_lt_toLex, Prod.Lex.toLex_lt_toLex]
  dsimp only
  split
  · rename_i hw
    simp only [decide_eq_true_eq, Ne.symm hw, false_and, or_false]
  · rename_i hw
    rw [not_not] at hw
    split
    · rename_i hh
      simp [hw, Ne.symm hh]
    · rename_i hh
      rw [not_not] at hh
      simp [hw, hh, OrderDual.toDual_lt_toDual]

namespace Node

variable {cfg : Config} {n n' : Node C} {h : Hash} {a : Anchor C}

/-- `best` is the greatest of the stored anchors among `hs`. -/
def IsBest (n : Node C) (hs : List Hash) (best : Option (Hash × AnchorMeta)) : Prop :=
  (∀ p, best = some p → (∃ a, n.loadAnchor p.1 = some a) ∧ n.store.anchorMeta[p.1]? = some p.2) ∧
  ∀ x ∈ hs, ∀ a info, n.loadAnchor x = some a → n.store.anchorMeta[x]? = some info →
    ∃ p, best = some p ∧ tipKey (x, info) ≤ tipKey p

theorem betterTip_post (hn : AnchorsOk n) {extra : Hash × AnchorMeta} (hfresh : n.loadAnchor extra.1 = none)
    {done : List Hash} {best : Option (Hash × AnchorMeta)} (hb : IsBest n done best) (x : Hash) :
    Exn.Post (n.betterTip extra best x) (IsBest n (done ++ [x])) fun _ => False := by
  unfold betterTip
  split
  · rename_i hnone
    refine Exn.Post.ok ⟨hb.1, fun y hy b info hload hinfo => ?_⟩
    rcases List.mem_append.1 hy with hy | hy
    · exact hb.2 y hy b info hload hinfo
    · rw [List.mem_singleton.1 hy, hnone] at hload
      cases hload
  · rename_i a ha
    obtain ⟨info, hinfo, -⟩ := (hn x a ha).info
    -- the new anchor is not stored yet, so a stored one has its own metadata
    have hne : x ≠ extra.1 := by
      rintro rfl
      rw [hfresh] at ha
      cases ha
    rw [if_neg hne, anchorMeta_eq hinfo]
    change Exn.Post (Except.ok (if isBetterAnchorTip x info best = true then some (x, info) else best)) _ _
    cases best with
    | none =>
      refine Exn.Post.ok ⟨fun p hp => ?_, fun y hy b i hload hi => ?_⟩
      · cases hp
        exact ⟨⟨a, ha⟩, hinfo⟩
      · rcases List.mem_append.1 hy with hy | hy
        · obtain ⟨p, hp, -⟩ := hb.2 y hy b i hload hi
          cases hp
        · rw [List.mem_singleton.1 hy] at hi
          cases hinfo.symm.trans hi
          rw [List.mem_singleton.1 hy]
          exact ⟨_, rfl, le_rfl⟩
    | some best =>
      by_cases hbetter : isBetterAnchorTip x info (some best) = true
      · rw [if_pos hbetter]
        have hlt := isBetterAnchorTip_iff.1 hbetter
        refine Exn.Post.ok ⟨fun p hp => ?_, fun y hy b i hload hi => ⟨_, rfl, ?_⟩⟩
        · cases hp
          exact ⟨⟨a, ha⟩, hinfo⟩
        · rcases List.mem_append.1 hy with hy | hy
          · obtain ⟨p, hp, hle⟩ := hb.2 y hy b i hload hi
            cases hp
            exact hle.trans hlt.le
          · rw [List.mem_singleton.1 hy] at hi ⊢
            cases hinfo.symm.trans hi
            exact le_rfl
      · rw [if_neg hbetter]
        have hle := not_lt.1 (mt isBetterAnchorTip_iff.2 hbetter)
        refine Exn.Post.ok ⟨hb.1, fun y hy b i hload hi => ?_⟩
        rcases List.mem_append.1 hy with hy | hy
        · exact hb.2 y hy b i hload hi
        · rw [List.mem_singleton.1 hy] at hi ⊢
          cases hinfo.symm.trans hi
          exact ⟨best, rfl, hle⟩

/-- The stored anchors, each with its metadata. -/
def Stored (n : Node C) (p : Hash × AnchorMeta) : Prop :=
  (∃ a, n.loadAnchor p.1 = some a) ∧ n.store.anchorMeta[p.1]? = some p.2

/-- **The best tip** is the new anchor if it is greater than every stored one, else the
greatest stored anchor. -/
theorem bestAnchorTip_ok (hn : AnchorsOk n) {extra : Hash × AnchorMeta} (hfresh : n.loadAnchor extra.1 = none) :
    ∃ tip, n.bestAnchorTip extra = .ok tip ∧
      (tip = extra.1 ∧ (∀ p, Stored n p → tipKey p ≤ tipKey extra) ∨
        ∃ best, Stored n best ∧ tip = best.1 ∧ tip ≠ extra.1 ∧ tipKey extra ≤ tipKey best ∧
          ∀ p, Stored n p → tipKey p ≤ tipKey best) := by
  -- the loop leaves the greatest stored anchor
  obtain ⟨best, hfold, hstored, hbest⟩ : ∃ best, n.store.bodies.keys.foldlM (n.betterTip extra) none = .ok best ∧
      (∀ p, best = some p → Stored n p) ∧ ∀ p, Stored n p → ∃ q, best = some q ∧ tipKey p ≤ tipKey q := by
    have h₀ : IsBest n [] none := ⟨fun p hp => (by cases hp), fun x hx => (by cases hx)⟩
    obtain ⟨best, hfold, hb⟩ := (Exn.Post.foldlM (IsBest n) (l := n.store.bodies.keys) h₀
      fun done x todo best _ hb => betterTip_post hn hfresh hb x).returns
    refine ⟨best, hfold, hb.1, fun p hp => ?_⟩
    obtain ⟨⟨a, ha⟩, hinfo⟩ := hp
    exact hb.2 p.1 (Table.mem_keys.2 ⟨_, (loadAnchor_iff.1 ha).2⟩) a p.2 ha hinfo
  unfold bestAnchorTip
  rw [hfold, Exn.ok_bind]
  cases best with
  | none =>
    refine ⟨extra.1, rfl, .inl ⟨rfl, fun p hp => ?_⟩⟩
    obtain ⟨q, hq, -⟩ := hbest p hp
    cases hq
  | some best =>
    have hbs := hstored best rfl
    by_cases hbetter : isBetterAnchorTip extra.1 extra.2 (some best) = true
    · rw [if_pos hbetter]
      refine ⟨extra.1, rfl, .inl ⟨rfl, fun p hp => ?_⟩⟩
      obtain ⟨q, hq, hle⟩ := hbest p hp
      cases hq
      exact hle.trans (isBetterAnchorTip_iff.1 hbetter).le
    · rw [if_neg hbetter]
      refine ⟨best.1, rfl, .inr ⟨best, hbs, rfl, ?_, not_lt.1 (mt isBetterAnchorTip_iff.2 hbetter), ?_⟩⟩
      · intro e
        obtain ⟨a, ha⟩ := hbs.1
        rw [e, hfresh] at ha
        cases ha
      · intro p hp
        obtain ⟨q, hq, hle⟩ := hbest p hp
        cases hq
        exact hle

/-! ## The invariant -/

/-- The active tip, zero before the first anchor. -/
def activeTip (n : Node C) : Hash := n.store.anchorTip.getD genesisParentHash

/-- Every column and the state in memory are those of the branch state. -/
structure Holds (n : Node C) (state : BranchState C) : Prop where
  utxoColumn : n.store.utxo = state.utxoSet.column
  feeFloors : n.store.feeFloors = state.feeFloors
  storedTree : n.store.shardTree.getD .root = state.shardTree
  minted : n.mintedSupply = state.mintedSupply
  height : n.anchorHeight = state.height
  claimed : n.store.coinbaseClaimed = state.claimedFruits
  utxoSet : n.utxoSet = state.utxoSet
  shardTree : n.shardTree = state.shardTree

/-- The active state is the replay of the active tip, the greatest stored anchor. -/
structure Active (n : Node C) : Prop where
  replayed : ∃ state, n.rebuildAnchorBranchState n.activeTip = .ok state ∧ Holds n state
  stored : n.activeTip = genesisParentHash ∧ (∀ h, n.loadAnchor h = none) ∨ ∃ info, Stored n (n.activeTip, info)
  greatest : ∀ info, n.store.anchorMeta[n.activeTip]? = some info → ∀ p, Stored n p →
    tipKey p ≤ tipKey (n.activeTip, info)

/-- The invariant of the node. -/
structure Inv (n : Node C) : Prop where
  fruits : FruitsOk n
  cache : CacheOk n
  anchors : AnchorsOk n
  replay : ∀ h a, n.loadAnchor h = some a → ∃ state, n.rebuildAnchorBranchState h = .ok state
  active : Active n

theorem inv_empty : Inv (empty : Node C) := by
  have hbody : ∀ x : Hash, (empty : Node C).store.bodies[x]? = none := fun x => Table.get_empty x
  have hfruit : ∀ x f, (empty : Node C).loadFruit x ≠ some f := by
    intro x f hf
    have := (loadFruit_iff.1 hf).2
    rw [hbody] at this
    cases this
  have hanchor : ∀ x a, (empty : Node C).loadAnchor x ≠ some a := by
    intro x a ha
    have := (loadAnchor_iff.1 ha).2
    rw [hbody] at this
    cases this
  refine ⟨fun x f hf => absurd hf (hfruit x f), fun d hd => (by cases hd), fun x a ha => absurd ha (hanchor x a),
    fun x a ha => absurd ha (hanchor x a), ⟨⟨_, rebuild_genesis, ?_⟩, .inl ⟨rfl, fun x => ?_⟩, ?_⟩⟩
  · refine ⟨?_, rfl, rfl, rfl, rfl, rfl, rfl, rfl⟩
    unfold UTXOSet.column
    have : (UTXOSet.empty : UTXOSet C).entries = [] := by
      rw [UTXOSet.entries, List.map_eq_nil_iff]
      exact Std.ExtTreeMap.toList_eq_nil_iff.2 rfl
    change _ = Table.putAll ∅ ((UTXOSet.empty : UTXOSet C).entries.map _)
    rw [this]
    rfl
  · exact Option.eq_none_iff_forall_ne_some.2 (hanchor x)
  · rintro info - p ⟨⟨a, ha⟩, -⟩
    exact absurd ha (hanchor p.1 a)

/-! ## Steps that keep the anchors -/

/-- A DAG of the stored fruits stays one as long as no fruit is added. -/
theorem IsFruitDag.of_same {d : BlockDAG Hash} (hd : IsFruitDag n d) (hn : FruitsOk n) (hg : Grows n n')
    (hsame : ∀ x, n'.loadFruit x = n.loadFruit x) : IsFruitDag n' d := by
  refine ⟨hd.wf, fun x b => ?_⟩
  rw [hd.blocks, hsame]
  refine exists_congr fun f => and_congr_right fun hf => ?_
  obtain ⟨ps, hps, -⟩ := (hn x f hf).parents
  rw [hps, hg.fruitParentsForDag hps]

/-- The active state of a node whose anchors and active columns another one has too. -/
theorem Active.of_same (ha : Active n) (hs : Stable n n') (hn : AnchorsOk n) (hn' : AnchorsOk n')
    (hload : ∀ x, n'.loadAnchor x = n.loadAnchor x) (hmeta : n'.store.anchorMeta = n.store.anchorMeta)
    (htip : n'.activeTip = n.activeTip) (hholds : ∀ state, Holds n state → Holds n' state) : Active n' := by
  have hstored : ∀ p, Stored n' p ↔ Stored n p := fun p => by rw [Stored, Stored, hload, hmeta]
  obtain ⟨state, hstate, hhold⟩ := ha.replayed
  refine ⟨⟨state, ?_, hholds state hhold⟩, ?_, ?_⟩
  · rw [htip]
    rcases ha.stored with ⟨hzero, -⟩ | ⟨info, ⟨a, hta⟩, -⟩
    · rw [hzero, rebuild_genesis] at hstate ⊢
      exact hstate
    · rw [rebuild_stable hs hn hn' hta, hstate]
  · simp only [htip, hload, hstored]
    exact ha.stored
  · simp only [htip, hmeta, hstored]
    exact ha.greatest

theorem SameChain.holds (h : SameChain n n') {state : BranchState C} (hs : Holds n state) : Holds n' state := by
  have hcol {β : Type} (g : Store C → β) : g n'.store.chain = g n.store.chain := congrArg g h.store
  refine ⟨?_, ?_, ?_, ?_, ?_, ?_, h.utxoSet.trans hs.utxoSet, h.shardTree.trans hs.shardTree⟩
  · exact (hcol Store.utxo).trans hs.utxoColumn
  · exact (hcol Store.feeFloors).trans hs.feeFloors
  · exact (hcol fun s => s.shardTree.getD .root).trans hs.storedTree
  · exact (hcol fun s => s.mintedSupply.getD 0).trans hs.minted
  · exact (hcol fun s => s.anchorHeight.getD 0).trans hs.height
  · exact (hcol Store.coinbaseClaimed).trans hs.claimed

/-- The invariant says nothing about the mempool. -/
theorem Inv.sameChain (hn : Inv n) (h : SameChain n n')
    (hcache : ∀ d, n'.fruitDagCache = some d → IsFruitDag n d) : Inv n' := by
  have hg := h.grows
  have hfruit : ∀ x, n'.loadFruit x = n.loadFruit x := fun x => loadFruit_congr (by rw [h.bodies])
  have hanchor : ∀ x, n'.loadAnchor x = n.loadAnchor x := fun x => loadAnchor_congr (by rw [h.bodies])
  have hfruits : FruitsOk n' := fun x f hf => (hn.fruits x f (hfruit x ▸ hf)).grows hg (by rw [h.fruitMeta])
  have hanchors : AnchorsOk n' := fun x a ha => (hn.anchors x a (hanchor x ▸ ha)).grows hn.anchors hg
    (fun _ _ _ => by rw [h.anchorMeta]) (hanchor x ▸ ha)
  have hc : CacheOk n' := fun d hd => (hcache d hd).of_same hn.fruits hg hfruit
  have hs : Stable n n' := ⟨hn.fruits, hn.cache, hfruits, hc, hg⟩
  refine ⟨hfruits, hc, hanchors, fun x a ha => ?_, ?_⟩
  · rw [hanchor] at ha
    rw [rebuild_stable hs hn.anchors hanchors ha]
    exact hn.replay x a ha
  · have htip := congrArg (fun s : Store C => s.anchorTip.getD genesisParentHash) h.store
    exact hn.active.of_same hs hn.anchors hanchors hanchor h.anchorMeta htip fun _ => h.holds

theorem withFruitDag_cache (hn : Inv n) : ∀ d, n.withFruitDag.fruitDagCache = some d → IsFruitDag n d := by
  obtain ⟨d, hd, hdag⟩ := fruitDag_ok hn.fruits hn.cache
  intro d' hd'
  rw [withFruitDag, hd] at hd'
  cases hd'
  exact hdag

theorem Inv.withFruitDag (hn : Inv n) : Inv n.withFruitDag :=
  hn.sameChain n.withFruitDag_same (withFruitDag_cache hn)

/-- A fruit that passed its checks. -/
theorem Inv.afterFruit {f : Fruit C} {now : ℕ} {plan : FruitPlan} (hn : Inv n)
    (hplan : n.checkFruit cfg f now = .ok plan) : Inv (n.afterFruit f plan) := by
  obtain ⟨coinbase, spends, hchk⟩ := checkFruit_ok hplan
  have hg : Grows n (n.afterFruit f plan) := Table.Ext.insert _ _ hchk.fresh
  have hanchor : ∀ x, (n.afterFruit f plan).loadAnchor x = n.loadAnchor x := by
    intro x
    refine Option.ext fun a => ?_
    rw [loadAnchor_iff, loadAnchor_iff]
    change _ ∧ (n.store.bodies.insert f.blockHash (.fruit f))[x]? = _ ↔ _
    rw [Table.get_insert]
    split
    · rename_i heq
      rw [← heq, hchk.fresh]
      simp
    · rfl
  have hfruits := hn.fruits.afterFruit hplan
  have hanchors : AnchorsOk (n.afterFruit f plan) := fun x a ha =>
    (hn.anchors x a (hanchor x ▸ ha)).grows hn.anchors hg (fun _ _ _ => rfl) (hanchor x ▸ ha)
  have hc : CacheOk (n.afterFruit f plan) := fun d hd => by cases hd
  have hs : Stable n (n.afterFruit f plan) := ⟨hn.fruits, hn.cache, hfruits, hc, hg⟩
  refine ⟨hfruits, hc, hanchors, fun x a ha => ?_, ?_⟩
  · rw [hanchor] at ha
    rw [rebuild_stable hs hn.anchors hanchors ha]
    exact hn.replay x a ha
  · exact hn.active.of_same hs hn.anchors hanchors hanchor rfl rfl fun _ h => ⟨h.1, h.2, h.3, h.4, h.5, h.6, h.7, h.8⟩

/-! ## A new anchor -/

/-- What is known of an anchor and its plan when it is written. -/
structure NewAnchor (n : Node C) (a : Anchor C) (plan : AnchorPlan C) : Prop where
  fresh : n.store.bodies[a.blockHash]? = none
  parent : ¬a.isGenesis → ∃ pa, n.loadAnchor a.header.parentAnchor = some pa ∧
    pa.header.timestampMs < a.header.timestampMs
  covered : ∀ x ∈ a.coveredFruitHashes, ∃ f, n.loadFruit x = some f
  late : AnchorCheckedLate n a plan

theorem newAnchor {now : ℕ} {plan : AnchorPlan C} (hearly : n.checkAnchorEarly cfg a now = .ok ())
    (hlate : n.withFruitDag.checkAnchorLate a = .ok plan) : NewAnchor n.withFruitDag a plan := by
  have he := checkAnchorEarly_ok hearly
  have hbodies := n.withFruitDag_same.bodies
  have hg := n.withFruitDag_same.grows
  refine ⟨by rw [hbodies, he.fresh], fun hgen => ?_, fun x hx => ?_, checkAnchorLate_ok hlate⟩
  · obtain ⟨history, hhistory, hlast⟩ := he.extends' hgen
    obtain ⟨pa, hpa, hold⟩ := anchorHistory_last hhistory
    exact ⟨pa, hg.loadAnchor hpa, hold _ hlast⟩
  · by_cases hgen : a.isGenesis
    · rw [(genesis_fields hgen).2.1] at hx
      cases hx
    · obtain ⟨f, hf⟩ := he.covered hgen x hx
      exact ⟨f, hg.loadFruit hf⟩

namespace NewAnchor

variable {plan : AnchorPlan C} (hnew : NewAnchor n a plan)

include hnew

theorem bodies : (n.afterAnchor a plan).store.bodies = n.store.bodies.insert a.blockHash (.anchor a) := by
  rw [bodies_afterAnchor, hnew.late.hash]

theorem grows : Grows n (n.afterAnchor a plan) := by
  unfold Grows
  rw [hnew.bodies]
  exact Table.Ext.insert _ _ hnew.fresh

theorem loadFruit (x : Hash) : (n.afterAnchor a plan).loadFruit x = n.loadFruit x := by
  refine Option.ext fun f => ?_
  rw [loadFruit_iff, loadFruit_iff, hnew.bodies, Table.get_insert]
  split
  · rename_i heq
    rw [← heq, hnew.fresh]
    simp
  · rfl

theorem loadAnchor_iff {x : Hash} {b : Anchor C} : (n.afterAnchor a plan).loadAnchor x = some b ↔
    (x = a.blockHash ∧ x ≠ genesisParentHash ∧ b = a) ∨ n.loadAnchor x = some b := by
  rw [Node.loadAnchor_iff, Node.loadAnchor_iff, hnew.bodies, Table.get_insert]
  by_cases heq : a.blockHash = x
  · subst heq
    rw [if_pos rfl, hnew.fresh]
    simp [eq_comm]
  · have hne : ¬x = a.blockHash := fun e => heq e.symm
    simp [heq, hne]

theorem meta_new : (n.afterAnchor a plan).store.anchorMeta[a.blockHash]? = some plan.info := by
  rw [anchorMeta_afterAnchor, hnew.late.hash, Table.get_insert, if_pos rfl]

theorem meta_old {x : Hash} {b : Anchor C} (hx : n.loadAnchor x = some b) :
    (n.afterAnchor a plan).store.anchorMeta[x]? = n.store.anchorMeta[x]? := by
  rw [anchorMeta_afterAnchor, hnew.late.hash, Table.get_insert, if_neg]
  rintro rfl
  rw [Node.loadAnchor_iff, hnew.fresh] at hx
  cases hx.2

theorem anchorsOk (hn : AnchorsOk n) : AnchorsOk (n.afterAnchor a plan) := by
  intro x b hb
  rcases hnew.loadAnchor_iff.1 hb with ⟨rfl, -, rfl⟩ | hb
  · refine ⟨rfl, fun hgen => ?_, fun y hy => ?_, plan.info, hnew.meta_new, ?_⟩
    · obtain ⟨pa, hpa, hlt⟩ := hnew.parent hgen
      exact ⟨pa, hnew.grows.loadAnchor hpa, hlt⟩
    · obtain ⟨f, hf⟩ := hnew.covered y hy
      exact ⟨f, hnew.grows.loadFruit hf⟩
    · obtain ⟨parentWork, weight, hpos, hweight⟩ := hnew.late.position
      refine ⟨parentWork, weight, ?_, hweight⟩
      rw [anchorPosition_congr hn hnew.grows (fun hgen => ?_) fun l hl p hp => hnew.meta_old (hl.mem p hp), hpos]
      obtain ⟨pa, hpa, -⟩ := hnew.parent hgen
      exact ⟨pa, hpa⟩
  · exact (hn x b hb).grows hn hnew.grows (fun y c hc => hnew.meta_old hc) hb

theorem stable (hn : Inv n) (hcache : CacheOk (n.afterAnchor a plan)) : Stable n (n.afterAnchor a plan) := by
  refine ⟨hn.fruits, hn.cache, fun x f hf => ?_, hcache, hnew.grows⟩
  rw [hnew.loadFruit] at hf
  exact (hn.fruits x f hf).grows hnew.grows (by rw [fruitMeta_afterAnchor])

/-- The replay up to the new anchor gives the state of its plan. -/
theorem rebuild (hn : Inv n) (hcache : CacheOk (n.afterAnchor a plan)) (hne : a.blockHash ≠ genesisParentHash) :
    (n.afterAnchor a plan).rebuildAnchorBranchState a.blockHash = .ok plan.state := by
  have hs := hnew.stable hn hcache
  have hload := hnew.loadAnchor_iff.2 (.inl ⟨rfl, hne, rfl⟩)
  obtain ⟨branch, hbranch, happly⟩ := hnew.late.applied
  have hparent : (n.afterAnchor a plan).rebuildAnchorBranchState a.header.parentAnchor = .ok branch := by
    by_cases hgen : a.isGenesis
    · rw [(genesis_fields hgen).1, rebuild_genesis] at hbranch ⊢
      exact hbranch
    · obtain ⟨pa, hpa, -⟩ := hnew.parent hgen
      rw [rebuild_stable hs hn.anchors (hnew.anchorsOk hn.anchors) hpa, hbranch]
  rw [rebuild_cons (hnew.anchorsOk hn.anchors) hload, hparent, Exn.ok_bind, replayStep_eq hload hnew.meta_new,
    applyAnchorToBranch_stable hs hnew.covered, happly]
  rfl

theorem stored_iff {p : Hash × AnchorMeta} (hne : a.blockHash ≠ genesisParentHash) :
    Stored (n.afterAnchor a plan) p ↔ p = (a.blockHash, plan.info) ∨ Stored n p := by
  constructor
  · rintro ⟨⟨b, hb⟩, hinfo⟩
    rcases hnew.loadAnchor_iff.1 hb with ⟨heq, -, -⟩ | hb
    · rw [heq, hnew.meta_new] at hinfo
      exact .inl (Prod.ext heq (Option.some.inj hinfo.symm))
    · exact .inr ⟨⟨b, hb⟩, hnew.meta_old hb ▸ hinfo⟩
  · rintro (rfl | ⟨⟨b, hb⟩, hinfo⟩)
    · exact ⟨⟨a, hnew.loadAnchor_iff.2 (.inl ⟨rfl, hne, rfl⟩)⟩, hnew.meta_new⟩
    · exact ⟨⟨b, hnew.grows.loadAnchor hb⟩, (hnew.meta_old hb).trans hinfo⟩

/-- The new anchor becomes the active tip. -/
theorem active_best (hn : Inv n) (hcache : CacheOk (n.afterAnchor a plan)) (hne : a.blockHash ≠ genesisParentHash)
    (hbest : plan.isBest = true) (hgreat : ∀ p, Stored n p → tipKey p ≤ tipKey (a.blockHash, plan.info)) :
    Active (n.afterAnchor a plan) := by
  have hafter : n.afterAnchor a plan = { n with
      store := activate (withAnchor n.store a plan) plan.anchorHash plan.state
      shardTree := plan.state.shardTree
      utxoSet := plan.state.utxoSet } := by
    rw [afterAnchor, hbest]
    rfl
  have htip : (n.afterAnchor a plan).activeTip = a.blockHash := by
    rw [hafter, ← hnew.late.hash]
    rfl
  refine ⟨⟨plan.state, ?_, ?_⟩, .inr ⟨plan.info, ?_⟩, fun info hinfo p hp => ?_⟩
  · rw [htip]
    exact hnew.rebuild hn hcache hne
  · rw [hafter]
    exact ⟨rfl, rfl, rfl, rfl, rfl, rfl, rfl, rfl⟩
  · rw [htip]
    exact (hnew.stored_iff hne).2 (.inl rfl)
  · rw [htip, hnew.meta_new] at hinfo
    cases hinfo
    rw [htip]
    rcases (hnew.stored_iff hne).1 hp with rfl | hp
    · exact le_rfl
    · exact hgreat p hp

/-- The new anchor is not the best: the active state stays. -/
theorem active_side (hn : Inv n) (hcache : CacheOk (n.afterAnchor a plan)) (hne : a.blockHash ≠ genesisParentHash)
    (hbest : plan.isBest = false) {best : Hash × AnchorMeta} (hb : Stored n best)
    (hle : tipKey (a.blockHash, plan.info) ≤ tipKey best) : Active (n.afterAnchor a plan) := by
  have hafter : n.afterAnchor a plan = { n with store := withAnchor n.store a plan } := by
    rw [afterAnchor, hbest]
    rfl
  have htip : (n.afterAnchor a plan).activeTip = n.activeTip := by
    rw [hafter]
    rfl
  obtain ⟨state, hstate, hholds⟩ := hn.active.replayed
  obtain ⟨info, hstored⟩ : ∃ info, Stored n (n.activeTip, info) := by
    rcases hn.active.stored with ⟨-, hnone⟩ | hstored
    · obtain ⟨b, hb⟩ := hb.1
      rw [hnone] at hb
      cases hb
    · exact hstored
  obtain ⟨⟨ta, hta⟩, hinfo⟩ := id hstored
  refine ⟨⟨state, ?_, ?_⟩, .inr ⟨info, ?_⟩, fun info' hinfo' p hp => ?_⟩
  · rw [htip, rebuild_stable (hnew.stable hn hcache) hn.anchors (hnew.anchorsOk hn.anchors) hta, hstate]
  · rw [hafter]
    exact ⟨hholds.1, hholds.2, hholds.3, hholds.4, hholds.5, hholds.6, hholds.7, hholds.8⟩
  · rw [htip]
    exact (hnew.stored_iff hne).2 (.inr hstored)
  · rw [htip, hnew.meta_old hta] at hinfo'
    rw [htip]
    rcases (hnew.stored_iff hne).1 hp with rfl | hp
    · exact hle.trans (hn.active.greatest info' hinfo' best hb)
    · exact hn.active.greatest info' hinfo' p hp

/-- An anchor that passed its checks. -/
theorem inv (hn : Inv n) (hne : a.blockHash ≠ genesisParentHash) : Inv (n.afterAnchor a plan) := by
  have hcache : CacheOk (n.afterAnchor a plan) := by
    intro d hd
    refine (hn.cache d ?_).of_same hn.fruits hnew.grows hnew.loadFruit
    rw [← hd, afterAnchor]
    split <;> rfl
  have hs := hnew.stable hn hcache
  refine ⟨hs.fruits', hcache, hnew.anchorsOk hn.anchors, fun x b hb => ?_, ?_⟩
  · rcases hnew.loadAnchor_iff.1 hb with ⟨rfl, -, -⟩ | hb
    · exact ⟨_, hnew.rebuild hn hcache hne⟩
    · rw [rebuild_stable hs hn.anchors (hnew.anchorsOk hn.anchors) hb]
      exact hn.replay x b hb
  · obtain ⟨tip, htip, hbest⟩ := hnew.late.best
    have hload : n.loadAnchor a.blockHash = none := by
      refine Option.eq_none_iff_forall_ne_some.2 fun b hb => ?_
      rw [Node.loadAnchor_iff, hnew.fresh] at hb
      cases hb.2
    obtain ⟨tip', htip', hcases⟩ := @bestAnchorTip_ok _ _ hn.anchors (a.blockHash, plan.info) hload
    cases htip.symm.trans htip'
    rcases hcases with ⟨rfl, hgreat⟩ | ⟨best, hb, -, hne', hle, -⟩
    · exact hnew.active_best hn hcache hne (by rw [hbest]; simp) hgreat
    · exact hnew.active_side hn hcache hne (by rw [hbest]; simp [hne']) hb hle

end NewAnchor

end Node

/-! ## Reachable states -/

/-- The checksum of the sample chain is never zero. -/
theorem sampleCrypto_ne_zero (b : Bytes) : sampleCrypto.hashBytes b ≠ genesisParentHash := by
  intro h
  have hlt : b.foldl (fun acc x => (acc * 257 + x.val + 1) % (2 ^ 255 - 19)) 7 < 2 ^ 255 - 19 := by
    induction b using List.reverseRecOn with
    | nil => decide
    | append_singleton b x _ =>
      rw [List.foldl_append]
      exact Nat.mod_lt _ (by decide)
  have hnat := congrArg FixedBytes.toNat h
  change (FixedBytes.ofNat 32 (1 + b.foldl (fun acc x => (acc * 257 + x.val + 1) % (2 ^ 255 - 19)) 7)).toNat =
    (FixedBytes.zero 32).toNat at hnat
  have hzero : (FixedBytes.zero 32).toNat = 0 := by decide
  rw [FixedBytes.toNat_ofNat (by omega), hzero] at hnat
  omega

namespace Node

variable {cfg : Config} {n n' : Node C}

/-- No stored block has the zero hash, which stands for "no parent". -/
def NeverZero (n : Node C) : Prop := n.store.bodies[genesisParentHash]? = none

instance (n : Node C) : Decidable n.NeverZero := inferInstanceAs (Decidable (_ = none))

theorem NeverZero.of_grows (hz : n'.NeverZero) (hg : Grows n n') : n.NeverZero := by
  refine Option.eq_none_iff_forall_ne_some.2 fun b hb => ?_
  have hb' := hg _ _ hb
  rw [hz] at hb'
  cases hb'

theorem NeverZero.ne (hz : n.NeverZero) {h : Hash} {b : Body C} (hb : n.store.bodies[h]? = some b) :
    h ≠ genesisParentHash := by
  rintro rfl
  rw [hz] at hb
  cases hb

/-- A call forgets no block. -/
theorem ChainStep.grows (hstep : ChainStep cfg n n') : Grows n n' := by
  cases hstep with
  | same hsame _ => exact hsame.grows
  | @fruit f _ plan hplan hsame _ =>
    obtain ⟨coinbase, spends, hchk⟩ := checkFruit_ok hplan
    have hg : Grows n (n.afterFruit f plan) := Table.Ext.insert _ _ hchk.fresh
    exact hg.trans hsame.grows
  | anchor hearly hlate hsame _ =>
    exact n.withFruitDag_same.grows.trans ((newAnchor hearly hlate).grows.trans hsame.grows)

/-- **Every call keeps the invariant**, as long as the block it stores has no zero hash. -/
theorem Inv.step (hz : n'.NeverZero) (hn : Inv n) (hstep : ChainStep cfg n n') : Inv n' := by
  cases hstep with
  | same hsame hcache =>
    refine hn.sameChain hsame fun d hd => ?_
    rcases hcache with hcache | hcache
    · exact hn.cache d (hcache ▸ hd)
    · exact withFruitDag_cache hn d (hcache ▸ hd)
  | fruit hplan hsame hcache =>
    refine (hn.afterFruit hplan).sameChain hsame fun d hd => ?_
    rw [hcache] at hd
    cases hd
  | @anchor a now plan hearly hlate hsame hcache =>
    have hnew := newAnchor hearly hlate
    have hne : a.blockHash ≠ genesisParentHash := by
      apply hz.ne (b := .anchor a)
      rw [hsame.bodies, hnew.bodies, Table.get_insert, if_pos rfl]
    have hinv := hnew.inv hn.withFruitDag hne
    refine hinv.sameChain hsame fun d hd => hinv.cache d ?_
    rw [← hd, hcache, afterAnchor]
    split <;> rfl

theorem inv_of_reachable (hz : n.NeverZero) (h : Reachable cfg n) : Inv n := by
  refine h.inv (P := fun n => n.NeverZero → Inv n) (fun _ => inv_empty) (fun n e ih hz => ?_) hz
  have hstep := step_cases cfg n e
  exact (ih (hz.of_grows hstep.grows)).step hz hstep

end Node

end TensorPow
