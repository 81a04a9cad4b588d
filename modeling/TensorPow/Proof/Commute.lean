import TensorPow.Proof.Convergence

/-!
# The order of deliveries

* `fruits_commute`: two fruits that a node accepts are accepted in either order, unless
  both claim to be the first fruit.
* `anchor_after_fruit`: the one check of an anchor that a later fruit can change is that
  of its parent candidates.
-/

namespace TensorPow

open Wire Sorted

variable {C : Crypto} {cfg : Config} {n n' : Node C} {f : Fruit C} {now : ℕ}

namespace Node

/-! ## A fruit after another -/

/-- The selected parent of a stored fruit is stored, if it has one. -/
theorem FruitOk.selected {h : Hash} (hf : FruitOk n h f) (hne : f.header.parentSelected ≠ genesisParentHash) :
    ∃ pf, n.loadFruit f.header.parentSelected = some pf := by
  obtain ⟨ps, hps, hold⟩ := hf.parents
  obtain ⟨latest, effective, -, heff, rfl⟩ := fruitParentsForDag_ok.1 hps
  simp only [FruitHeader.effectiveParentHashes, Exn.bind_ok, Exn.pure_ok] at heff
  obtain ⟨-, -, -, -, rfl⟩ := heff
  obtain ⟨pf, hpf, -⟩ := hold f.header.parentSelected (List.mem_filter.2 ⟨List.mem_cons_self, by simpa using hne⟩)
  exact ⟨pf, hpf⟩

/-- The walk along selected parents meets only fruits that were stored before. -/
theorem selectedChainTimestamps_grows (hn : FruitsOk n) (hg : Grows n n') {fuel : ℕ} {seen : List Hash}
    {current : Hash} (hc : current ≠ genesisParentHash → ∃ f, n.loadFruit current = some f) :
    n'.selectedChainTimestamps fuel seen current = n.selectedChainTimestamps fuel seen current := by
  induction fuel generalizing seen current with
  | zero => rfl
  | succ fuel ih =>
    unfold selectedChainTimestamps
    by_cases hzero : current = genesisParentHash
    · rw [if_pos hzero, if_pos hzero]
    · obtain ⟨f, hf⟩ := hc hzero
      rw [if_neg hzero, if_neg hzero, hf, hg.loadFruit hf]
      dsimp only
      rw [ih (hn current f hf).selected]

theorem checkSelectedParent_ok {selected : Hash} (hne : selected ≠ genesisParentHash) {u : Unit} :
    n.checkSelectedParent selected = .ok u ↔ (n.loadFruit selected).isSome = true := by
  rw [checkSelectedParent, if_neg hne, rejectUnless_ok]

/-- A fruit whose dependencies were met meets them after more blocks are stored. -/
theorem validateFruitDependencies_grows (hn : FruitsOk n) (hg : Grows n n') {candidates : List Hash}
    (hne : f.header.parentSelected ≠ genesisParentHash) (h : n.validateFruitDependencies f now = .ok candidates) :
    n'.validateFruitDependencies f now = .ok candidates := by
  have hkeep : ∀ x, (n.loadFruit x).isSome = true → (n'.loadFruit x).isSome = true := by
    intro x hx
    obtain ⟨g, hg'⟩ := Option.isSome_iff_exists.1 hx
    rw [hg.loadFruit hg']
    rfl
  unfold validateFruitDependencies at h ⊢
  simp only [Exn.bind_ok, rejectUnless_ok, rejecting_ok, Exn.get_ok, Exn.forM_ok, checkSelectedParent_ok hne] at h ⊢
  obtain ⟨⟨⟩, htime, latest, hlatest, effective, heff, ⟨⟩, hsel, ⟨⟩, htail, ⟨⟩, htimes, ⟨⟩, hmedian, hret⟩ := h
  have hstored := Option.isSome_iff_exists.1 hsel
  refine ⟨(), htime, latest, hg.loadAnchor hlatest, effective, heff, (), hkeep _ hsel, (),
    fun x hx => hkeep x (htail x hx), (), fun x hx => ?_, (), ?_, hret⟩
  · have hx := htimes x hx
    unfold checkParentTime at hx ⊢
    by_cases hzero : x = genesisParentHash
    · rw [if_pos hzero]
    · rw [if_neg hzero] at hx ⊢
      simp only [Exn.bind_ok, Exn.get_ok] at hx ⊢
      obtain ⟨pf, hpf, hlt⟩ := hx
      exact ⟨pf, hg.loadFruit hpf, hlt⟩
  · rw [selectedChainTimestamps_grows hn hg fun _ => hstored]
    exact hmedian

/-- What `process_fruit` reads besides the stored blocks. -/
structure SameTip (n n' : Node C) : Prop where
  utxoSet : n'.utxoSet = n.utxoSet
  shardTree : n'.shardTree = n.shardTree
  feeFloors : n'.store.feeFloors = n.store.feeFloors
  height : n'.anchorHeight = n.anchorHeight
  minted : n'.mintedSupply = n.mintedSupply

theorem SameTip.validateSpend (hs : SameTip n n') : n'.validateSpend f = n.validateSpend f := by
  unfold Node.validateSpend feeFloorForShard
  rw [hs.shardTree, hs.feeFloors, hs.height]

/-- A fruit that passed its checks passes them after more blocks are stored. -/
theorem checkFruit_grows (hn : FruitsOk n) (hg : Grows n n') (hs : SameTip n n')
    (hfresh : n'.store.bodies[f.blockHash]? = none) (hne : f.header.parentSelected ≠ genesisParentHash)
    {plan : FruitPlan} (h : n.checkFruit cfg f now = .ok plan) : n'.checkFruit cfg f now = .ok plan := by
  unfold checkFruit at h ⊢
  simp only [Exn.bind_ok, rejectUnless_ok] at h ⊢
  obtain ⟨⟨⟩, -, txs, htxs, h⟩ := h
  refine ⟨(), hfresh, txs, htxs, ?_⟩
  cases txs with
  | nil => cases h
  | cons coinbase spends =>
    simp only [Exn.bind_ok] at h ⊢
    obtain ⟨u₁, h₁, u₂, h₂, candidates, hdeps, powHeader, hpow, u₃, h₃, view, hview, r, hr, h⟩ := h
    refine ⟨u₁, h₁, u₂, h₂, candidates, validateFruitDependencies_grows hn hg hne hdeps, powHeader, hpow, u₃, h₃,
      view, by rw [hs.utxoSet]; exact hview, r, by rw [hs.validateSpend]; exact hr, ?_⟩
    rw [hs.height, hs.minted]
    exact h

theorem sameTip_afterFruit (n : Node C) (f : Fruit C) (plan : FruitPlan) (m : Mempool) :
    SameTip n { n.afterFruit f plan with mempool := m } := ⟨rfl, rfl, rfl, rfl, rfl⟩

/-- An accepted fruit with a zero selected parent is the first. -/
theorem checkFruit_first {plan : FruitPlan} (h : n.checkFruit cfg f now = .ok plan) :
    f.header.parentSelected = genesisParentHash ↔ n.hasStoredFruits = false := by
  obtain ⟨coinbase, spends, hchk⟩ := checkFruit_ok h
  obtain ⟨candidates, hdeps⟩ := hchk.dependencies
  unfold validateFruitDependencies at hdeps
  simp only [Exn.bind_ok] at hdeps
  obtain ⟨-, -, latest, -, effective, -, ⟨⟩, hsel, -⟩ := hdeps
  unfold checkSelectedParent at hsel
  split at hsel
  · rename_i hzero
    exact ⟨fun _ => rejectUnless_ok.1 hsel, fun _ => hzero⟩
  · rename_i hne
    refine ⟨fun hzero => absurd hzero hne, fun hnone => ?_⟩
    obtain ⟨pf, hpf⟩ := Option.isSome_iff_exists.1 (rejectUnless_ok.1 hsel)
    unfold hasStoredFruits at hnone
    rw [List.any_eq_false] at hnone
    refine absurd ?_ (hnone f.header.parentSelected (Table.mem_keys.2 ⟨_, (loadFruit_iff.1 hpf).2⟩))
    rw [hpf]
    rfl

/-- The two stores after two fruits in either order. -/
theorem afterFruit_comm {f₁ f₂ : Fruit C} (hne : f₁.blockHash ≠ f₂.blockHash) (p₁ p₂ : FruitPlan) :
    ((n.afterFruit f₁ p₁).afterFruit f₂ p₂).store = ((n.afterFruit f₂ p₂).afterFruit f₁ p₁).store := by
  have hins {V : Type} (t : Table Hash V) (v₁ v₂ : V) :
      (t.insert f₁.blockHash v₁).insert f₂.blockHash v₂ = (t.insert f₂.blockHash v₂).insert f₁.blockHash v₁ := by
    refine Table.ext_get fun h => ?_
    simp only [Table.get_insert]
    by_cases h₁ : f₁.blockHash = h
    · have h₂ : ¬f₂.blockHash = h := fun e => hne (h₁.trans e.symm)
      simp [h₁, h₂]
    · simp [h₁]
  have hers (t : Table Hash Transaction) (l₁ l₂ : List Hash) :
      Table.eraseAll (Table.eraseAll t l₁) l₂ = Table.eraseAll (Table.eraseAll t l₂) l₁ := by
    refine Table.ext_get fun h => ?_
    simp only [Table.get_eraseAll]
    by_cases h₁ : h ∈ l₁ <;> by_cases h₂ : h ∈ l₂ <;> simp [h₁, h₂]
  unfold afterFruit
  simp only [hins, hers]

theorem hasStoredFruits_afterFruit (hne : f.blockHash ≠ genesisParentHash) (plan : FruitPlan) (m : Mempool) :
    hasStoredFruits { n.afterFruit f plan with mempool := m } = true := by
  unfold hasStoredFruits
  rw [List.any_eq_true]
  have hload : loadFruit { n.afterFruit f plan with mempool := m } f.blockHash = some f := by
    refine loadFruit_iff.2 ⟨hne, ?_⟩
    change (n.store.bodies.insert f.blockHash (.fruit f))[f.blockHash]? = _
    rw [Table.get_insert, if_pos rfl]
  exact ⟨f.blockHash, Table.mem_keys.2 ⟨_, (loadFruit_iff.1 hload).2⟩, by rw [hload]; rfl⟩

/-- A second first fruit is rejected as such: every check before that one is passed. -/
theorem checkFruit_notFirst (hg : Grows n n') (hfresh : n'.store.bodies[f.blockHash]? = none)
    (hzero : f.header.parentSelected = genesisParentHash) (hhas : n'.hasStoredFruits = true) {plan : FruitPlan}
    (h : n.checkFruit cfg f now = .ok plan) :
    n'.checkFruit cfg f now = .error (.reject .genesisFruitParentNotFirst) := by
  unfold checkFruit at h ⊢
  simp only [Exn.bind_ok, rejectUnless_ok] at h
  obtain ⟨-, -, txs, htxs, h⟩ := h
  rw [rejectUnless, Exn.ensure_of _ hfresh, Exn.ok_bind, htxs, Exn.ok_bind]
  cases txs with
  | nil => cases h
  | cons coinbase spends =>
    simp only [Exn.bind_ok, rejectUnless_ok] at h
    obtain ⟨-, hcoinbase, -, hspends, candidates, hdeps, -⟩ := h
    unfold validateFruitDependencies at hdeps ⊢
    simp only [Exn.bind_ok, rejectUnless_ok, Exn.get_ok] at hdeps
    obtain ⟨-, htime, latest, hlatest, effective, heff, -⟩ := hdeps
    dsimp only
    rw [rejectUnless, Exn.ensure_of _ hcoinbase, Exn.ok_bind, rejectUnless, Exn.ensure_of _ hspends, Exn.ok_bind,
      rejectUnless, Exn.ensure_of _ htime, Exn.ok_bind, hg.loadAnchor hlatest, Exn.get_some, Exn.ok_bind, heff,
      Exn.ok_bind, checkSelectedParent, if_pos hzero, hhas]
    rfl

end Node

/-! ## Fruits commute -/

section Fruits

variable {f₁ f₂ : Fruit C}

/-- The second of two fruits, if it has a parent. -/
theorem processFruit_second (hz : n.NeverZero) (hn : Reachable cfg n) (hne : f₁.blockHash ≠ f₂.blockHash)
    {p₁ p₂ : Node.FruitPlan} {m : Mempool} (h₁ : n.checkFruit cfg f₁ now = .ok p₁)
    (h₂ : n.checkFruit cfg f₂ now = .ok p₂)
    (hpool : Node.PoolOk { n.afterFruit f₁ p₁ with mempool := m })
    (hparent : f₂.header.parentSelected ≠ genesisParentHash) :
    ∃ m', Node.processFruit cfg { n.afterFruit f₁ p₁ with mempool := m } f₂ now true =
      (.accepted f₂.blockHash, { (n.afterFruit f₁ p₁).afterFruit f₂ p₂ with mempool := m' }) := by
  obtain ⟨_, _, hc₁⟩ := Node.checkFruit_ok h₁
  obtain ⟨_, _, hc₂⟩ := Node.checkFruit_ok h₂
  have hfresh : (n.store.bodies.insert f₁.blockHash (.fruit f₁))[f₂.blockHash]? = none := by
    rw [Table.get_insert, if_neg hne, hc₂.fresh]
  have hg : n.Grows { n.afterFruit f₁ p₁ with mempool := m } := Table.Ext.insert _ _ hc₁.fresh
  have hcheck : Node.checkFruit cfg { n.afterFruit f₁ p₁ with mempool := m } f₂ now = .ok p₂ :=
    Node.checkFruit_grows (Node.inv_of_reachable hz hn).fruits hg (Node.sameTip_afterFruit n f₁ p₁ m) hfresh
      hparent h₂
  obtain ⟨m', hcommit, -⟩ := Node.commitFruit_eq hpool f₂ p₂
  refine ⟨m', ?_⟩
  unfold Node.processFruit
  rw [hcheck]
  exact hcommit

/-- **Fruits commute.** Two fruits that a node accepts, each on its own, are both accepted
in either order, and the store ends up the same, unless both name no selected parent:
then each is accepted only as the first fruit, and the second one is rejected. -/
theorem fruits_commute (hz : n.NeverZero) (hzero₁ : f₁.blockHash ≠ genesisParentHash)
    (hzero₂ : f₂.blockHash ≠ genesisParentHash) (hn : Reachable cfg n) (hne : f₁.blockHash ≠ f₂.blockHash)
    (h₁ : (n.processFruit cfg f₁ now true).1.isAccepted = true)
    (h₂ : (n.processFruit cfg f₂ now true).1.isAccepted = true) :
    (¬(f₁.header.parentSelected = genesisParentHash ∧ f₂.header.parentSelected = genesisParentHash) →
      (Node.processFruit cfg (n.processFruit cfg f₁ now true).2 f₂ now true).1 = .accepted f₂.blockHash ∧
      (Node.processFruit cfg (n.processFruit cfg f₂ now true).2 f₁ now true).1 = .accepted f₁.blockHash ∧
      (Node.processFruit cfg (n.processFruit cfg f₁ now true).2 f₂ now true).2.store =
        (Node.processFruit cfg (n.processFruit cfg f₂ now true).2 f₁ now true).2.store) ∧
    (f₁.header.parentSelected = genesisParentHash → f₂.header.parentSelected = genesisParentHash →
      (Node.processFruit cfg (n.processFruit cfg f₁ now true).2 f₂ now true).1 =
        .rejected .genesisFruitParentNotFirst ∧
      (Node.processFruit cfg (n.processFruit cfg f₂ now true).2 f₁ now true).1 =
        .rejected .genesisFruitParentNotFirst) := by
  have hpool := Node.poolOk_of_reachable hn
  rcases Node.processFruit_cases cfg now true hpool f₁ with
    ⟨hrej, -⟩ | ⟨p₁, m₁, hc₁, heq₁, hpool₁⟩
  · rw [hrej] at h₁
    cases h₁
  rcases Node.processFruit_cases cfg now true hpool f₂ with
    ⟨hrej, -⟩ | ⟨p₂, m₂, hc₂, heq₂, hpool₂⟩
  · rw [hrej] at h₂
    cases h₂
  rw [heq₁, heq₂]
  dsimp only
  have hfirst := (Node.checkFruit_first hc₁).trans (Node.checkFruit_first hc₂).symm
  refine ⟨fun hnot => ?_, fun hz₁ hz₂ => ?_⟩
  · -- neither names a zero parent, as the node has stored a fruit or none
    have hp₁ : f₁.header.parentSelected ≠ genesisParentHash := fun e => hnot ⟨e, hfirst.1 e⟩
    have hp₂ : f₂.header.parentSelected ≠ genesisParentHash := fun e => hnot ⟨hfirst.2 e, e⟩
    obtain ⟨m₁₂, h₁₂⟩ := processFruit_second hz hn hne hc₁ hc₂ hpool₁ hp₂
    obtain ⟨m₂₁, h₂₁⟩ := processFruit_second hz hn hne.symm hc₂ hc₁ hpool₂ hp₁
    rw [h₁₂, h₂₁]
    exact ⟨rfl, rfl, Node.afterFruit_comm hne p₁ p₂⟩
  · -- whichever comes second names a zero parent in a node that has a fruit
    have hreject : ∀ {g₁ g₂ : Fruit C} {q₁ q₂ : Node.FruitPlan} {m : Mempool}, g₁.blockHash ≠ genesisParentHash →
        g₁.blockHash ≠ g₂.blockHash → n.checkFruit cfg g₁ now = .ok q₁ → n.checkFruit cfg g₂ now = .ok q₂ →
        g₂.header.parentSelected = genesisParentHash →
        (Node.processFruit cfg { n.afterFruit g₁ q₁ with mempool := m } g₂ now true).1 =
          .rejected .genesisFruitParentNotFirst := by
      intro g₁ g₂ q₁ q₂ m hg₁ hg hq₁ hq₂ hzero
      obtain ⟨_, _, hchk₁⟩ := Node.checkFruit_ok hq₁
      obtain ⟨_, _, hchk₂⟩ := Node.checkFruit_ok hq₂
      have hfresh : (n.store.bodies.insert g₁.blockHash (.fruit g₁))[g₂.blockHash]? = none := by
        rw [Table.get_insert, if_neg hg, hchk₂.fresh]
      have hgrows : Node.Grows n { n.afterFruit g₁ q₁ with mempool := m } := Table.Ext.insert _ _ hchk₁.fresh
      have hcheck := Node.checkFruit_notFirst hgrows hfresh hzero
        (Node.hasStoredFruits_afterFruit hg₁ q₁ m) hq₂
      unfold Node.processFruit
      rw [hcheck]
      rfl
    exact ⟨hreject hzero₁ hne hc₁ hc₂ hz₂, hreject hzero₂ hne.symm hc₂ hc₁ hz₁⟩

end Fruits

/-- The sample node and two fruits on top of its first one. -/
theorem fruits_commute_fork :
    (Node.processFruit sampleConfig (sampleNode.processFruit sampleConfig sampleLeft 40000 true).2 sampleRight
      40000 true).2.store =
    (Node.processFruit sampleConfig (sampleNode.processFruit sampleConfig sampleRight 40000 true).2 sampleLeft
      40000 true).2.store := by
  have hreach : Reachable sampleConfig sampleNode := ⟨_, rfl⟩
  have h₁ : (sampleNode.processFruit sampleConfig sampleLeft 40000 true).1.isAccepted = true := by decide +kernel
  have h₂ : (sampleNode.processFruit sampleConfig sampleRight 40000 true).1.isAccepted = true := by decide +kernel
  have h := fruits_commute (by decide +kernel) (sampleCrypto_ne_zero _) (sampleCrypto_ne_zero _) hreach
    (by decide +kernel) h₁ h₂
  exact (h.1 (by decide +kernel)).2.2

/-- A second fruit without a selected parent. -/
def sampleFirst : Fruit sampleCrypto :=
  ⟨⟨⟨sampleFruitHeader genesisParentHash sampleGenesis.blockHash [sampleCoinbase.toBytes] 31000, by decide +kernel⟩,
    [sampleCoinbase.toBytes]⟩, by decide +kernel⟩

/-- After the genesis anchor either of two first fruits is accepted, but not both. -/
theorem fruits_not_commute :
    (Node.processFruit sampleConfig (run sampleConfig [.anchor sampleGenesis 0 true]) sampleFruit 40000 true).1 =
      .accepted sampleFruit.blockHash ∧
    (Node.processFruit sampleConfig (run sampleConfig [.anchor sampleGenesis 0 true]) sampleFirst 40000 true).1 =
      .accepted sampleFirst.blockHash ∧
    sampleFruit ≠ sampleFirst ∧
    (Node.processFruit sampleConfig
      (Node.processFruit sampleConfig (run sampleConfig [.anchor sampleGenesis 0 true]) sampleFruit 40000 true).2
      sampleFirst 40000 true).1 = .rejected .genesisFruitParentNotFirst := by
  decide +kernel

/-! ## An anchor after a fruit -/

namespace Node

variable {a : Anchor C}

/-- The canonical parent candidates can always be computed. -/
theorem canonicalParentCandidates_returns (hn : FruitsOk n) (hc : CacheOk n) :
    ∃ l, n.canonicalParentCandidates = .ok l := by
  obtain ⟨d, hdag, hd⟩ := fruitDag_ok hn hc
  obtain ⟨m, d', hm, hset, -⟩ := BlockDAG.ghostdagMetadata_settled hd.wf ghostdagK_nonneg
  have href : Exn.Post n.referencedFruits (fun _ => True) fun _ => False := by
    refine Exn.Post.foldlM (fun _ _ => True) trivial fun done h todo acc hl _ => ?_
    obtain ⟨f, hf⟩ := mem_storedFruitHashes.1 (show h ∈ n.storedFruitHashes by rw [hl]; simp)
    obtain ⟨ps, hps, -⟩ := (hn h f hf).parents
    rw [hf, Exn.get_some, Exn.ok_bind, hps, Exn.ok_bind]
    exact Exn.Post.pure trivial
  obtain ⟨referenced, href, -⟩ := href.returns
  have hkeyed : Exn.Post ((n.storedFruitHashes.filter (· ∉ referenced)).mapM fun h => do
      let data ← raising (item m h)
      return ((-(data.blueScore : ℤ), h) : ℤ × Hash)) (fun _ => True) fun _ => False := by
    refine (Exn.Post.mapM (Q := fun _ => True) fun h hh => ?_).mono (fun _ _ => trivial) fun _ h => h
    obtain ⟨f, hf⟩ := mem_storedFruitHashes.1 (List.mem_filter.1 hh).1
    obtain ⟨b, hb⟩ := exists_fruitBlock hn hf
    obtain ⟨data, hdata, -⟩ := hset h b ((hd.blocks h b).2 ⟨f, hf, hb⟩)
    rw [item, hdata, Exn.get_some]
    exact Exn.Post.pure trivial
  obtain ⟨keyed, hkeyed, -⟩ := hkeyed.returns
  unfold canonicalParentCandidates
  rw [hdag, Exn.ok_bind]
  split
  · exact ⟨[], rfl⟩
  · rw [href, Exn.ok_bind, raising_eq hm, Exn.ok_bind]
    dsimp only
    rw [hkeyed]
    exact ⟨_, rfl⟩

theorem canonicalParentCandidates_withFruitDag (n : Node C) :
    n.withFruitDag.canonicalParentCandidates = n.canonicalParentCandidates := by
  unfold withFruitDag
  cases h : n.fruitDag with
  | error s => rfl
  | ok d =>
    unfold canonicalParentCandidates
    rw [h]
    rfl

/-- The best tip depends only on the stored anchors and their metadata. -/
theorem bestAnchorTip_agree (hn : AnchorsOk n) (hn' : AnchorsOk n') (hstored : ∀ p, Stored n' p ↔ Stored n p)
    {extra : Hash × AnchorMeta} (hfresh : n.loadAnchor extra.1 = none) (hfresh' : n'.loadAnchor extra.1 = none) :
    n'.bestAnchorTip extra = n.bestAnchorTip extra := by
  obtain ⟨tip, htip, hcases⟩ := bestAnchorTip_ok hn hfresh
  obtain ⟨tip', htip', hcases'⟩ := bestAnchorTip_ok hn' hfresh'
  rw [htip, htip']
  rcases hcases with ⟨rfl, hgreat⟩ | ⟨best, hb, rfl, hne, hle, hgreat⟩
  · rcases hcases' with ⟨rfl, -⟩ | ⟨best', hb', rfl, hne', hle', -⟩
    · rfl
    · exact absurd (tipKey_fst (le_antisymm (hgreat best' ((hstored _).1 hb')) hle')) hne'
  · rcases hcases' with ⟨rfl, hgreat'⟩ | ⟨best', hb', rfl, -, -, hgreat'⟩
    · exact absurd (tipKey_fst (le_antisymm (hgreat' best ((hstored _).2 hb)) hle)) hne
    · rw [tipKey_fst (le_antisymm (hgreat best' ((hstored _).1 hb')) (hgreat' best ((hstored _).2 hb)))]

/-- Early checks that passed pass after more blocks are stored. -/
theorem checkAnchorEarly_grows (hn : AnchorsOk n) (hn' : AnchorsOk n') (hg : Grows n n') (hgen : ¬a.isGenesis)
    (hfresh : n'.store.bodies[a.blockHash]? = none) (h : n.checkAnchorEarly cfg a now = .ok ()) :
    n'.checkAnchorEarly cfg a now = .ok () := by
  have hkeep : ∀ x, (n.loadFruit x).isSome = true → (n'.loadFruit x).isSome = true := by
    intro x hx
    obtain ⟨g, hg'⟩ := Option.isSome_iff_exists.1 hx
    rw [hg.loadFruit hg']
    rfl
  unfold checkAnchorEarly validateAnchorChain at h ⊢
  simp only [if_neg hgen, Exn.bind_ok, rejectUnless_ok, noneAs_ok, Exn.forM_ok] at h ⊢
  obtain ⟨⟨⟩, -, ⟨⟩, htime, history, hhistory, ⟨⟩, hlast, ⟨⟩, hmedian, target, htarget, ⟨⟩, hpow, ⟨⟩, hcovered, hcand⟩ := h
  obtain ⟨pa, hpa, -⟩ := anchorHistory_last hhistory
  have hsame := (anchorHistory_congr hn hg hpa fun l hl => anchorMeta_agree hn hn' hg hl).2
  exact ⟨(), hfresh, (), htime, history, hsame.trans hhistory, (), hlast, (), hmedian, target, htarget, (), hpow, (),
    fun x hx => hkeep x (hcovered x hx), fun x hx => hkeep x (hcand x hx)⟩

/-- Late checks that passed pass after more fruits are stored, except that of the parent
candidates. -/
theorem checkAnchorLate_grows (hs : Stable n n') (hn : AnchorsOk n) (hn' : AnchorsOk n')
    (hload : ∀ x, n'.loadAnchor x = n.loadAnchor x) {plan : AnchorPlan C} (hnew : NewAnchor n a plan)
    (h : n.checkAnchorLate a = .ok plan) :
    n'.checkAnchorLate a = (n'.validateCandidates a >>= fun _ => .ok plan) := by
  have hmeta : ∀ x b, n.loadAnchor x = some b → n'.store.anchorMeta[x]? = n.store.anchorMeta[x]? := by
    intro x b hx
    obtain ⟨l, hl⟩ := exists_anchorChain hn hx
    obtain ⟨l', rfl, -⟩ := hl.head hx
    exact anchorMeta_agree hn hn' hs.grows hl (x, b) List.mem_cons_self
  have hstored : ∀ p, Stored n' p ↔ Stored n p := by
    intro p
    unfold Stored
    rw [hload]
    refine and_congr_right fun ⟨b, hb⟩ => ?_
    rw [hmeta p.1 b hb]
  have hnone : n.loadAnchor a.blockHash = none := by
    refine Option.eq_none_iff_forall_ne_some.2 fun b hb => ?_
    rw [loadAnchor_iff, hnew.fresh] at hb
    cases hb.2
  have hposition : n'.anchorPosition a = n.anchorPosition a := by
    refine anchorPosition_congr hn hs.grows (fun hgen => ?_) fun l hl p hp => hmeta p.1 p.2 (hl.mem p hp)
    obtain ⟨pa, hpa, -⟩ := hnew.parent hgen
    exact ⟨pa, hpa⟩
  have hbranch : n'.rebuildAnchorBranchState a.header.parentAnchor =
      n.rebuildAnchorBranchState a.header.parentAnchor := by
    by_cases hgen : a.isGenesis
    · rw [(genesis_fields hgen).1, rebuild_genesis, rebuild_genesis]
    · obtain ⟨pa, hpa, -⟩ := hnew.parent hgen
      exact rebuild_stable hs hn hn' hpa
  have hbest : ∀ info, n'.bestAnchorTip (a.blockHash, info) = n.bestAnchorTip (a.blockHash, info) :=
    fun info => bestAnchorTip_agree hn hn' hstored hnone (by rw [hload]; exact hnone)
  -- all that the late checks read is the same, up to the candidates
  unfold checkAnchorLate at h ⊢
  rw [hposition, hbranch]
  simp only [applyAnchorToBranch_stable hs hnew.covered, hbest]
  obtain ⟨⟨⟩, -, h⟩ := Exn.bind_ok.1 h
  rw [h]

end Node

/-- **An anchor after a fruit.** A fruit that a node accepts changes only one check of an
anchor that the node accepts too: that the anchor lists the canonical parent candidates. -/
theorem anchor_after_fruit (hz : n.NeverZero) (hzero : f.blockHash ≠ genesisParentHash) (hn : Reachable cfg n) {a : Anchor C}
    (hne : a.blockHash ≠ f.blockHash) (ha : (n.processAnchor cfg a now true).1.isAccepted = true)
    (hf : (n.processFruit cfg f now true).1.isAccepted = true) :
    ∃ canonical, (n.processFruit cfg f now true).2.canonicalParentCandidates = .ok canonical ∧
      (Node.processAnchor cfg (n.processFruit cfg f now true).2 a now true).1 =
        if a.parentCandidateHashes = canonical then .accepted a.blockHash
        else .rejected .badParentCandidateOrder := by
  have hpool := Node.poolOk_of_reachable hn
  rcases Node.processFruit_cases cfg now true hpool f with
    ⟨hrej, -⟩ | ⟨p, m, hplan, heq, hpool₁⟩
  · rw [hrej] at hf
    cases hf
  rcases Node.processAnchor_cases cfg now true hpool a with
    ⟨hrej, -⟩ | ⟨plan, hearly, hlate, -⟩
  · rw [hrej] at ha
    cases ha
  obtain ⟨_, _, hchk⟩ := Node.checkFruit_ok hplan
  have hn₁ : Reachable cfg (n.processFruit cfg f now true).2 := hn.next (.fruit f now true)
  rw [heq] at hn₁ ⊢
  dsimp only at hn₁ ⊢
  generalize hk : ({ n.afterFruit f p with mempool := m } : Node C) = n₁ at *
  have hbodies : n₁.store.bodies = n.store.bodies.insert f.blockHash (.fruit f) := by
    rw [← hk]
    rfl
  have hz₁ : n₁.NeverZero := by
    unfold Node.NeverZero
    rw [hbodies, Table.get_insert, if_neg hzero, hz]
  have hi := Node.inv_of_reachable hz hn
  have hi₁ := Node.inv_of_reachable hz₁ hn₁
  have hgrows : n.Grows n₁ := by
    unfold Node.Grows
    rw [hbodies]
    exact Table.Ext.insert _ _ hchk.fresh
  -- the anchor is no genesis: the fruit names a stored anchor
  have hgen : ¬a.isGenesis := by
    intro hgen
    have hempty := (Node.checkAnchorEarly_ok hearly).first hgen
    obtain ⟨candidates, hdeps⟩ := hchk.dependencies
    obtain ⟨ps, hps, -⟩ := Node.validateFruitDependencies_ok hdeps
    obtain ⟨latest, -, hlatest, -⟩ := Node.fruitParentsForDag_ok.1 hps
    have hmem := Table.mem_toList.2 (Node.loadAnchor_iff.1 hlatest).2
    rw [hempty] at hmem
    cases hmem
  have hfresh : n₁.store.bodies[a.blockHash]? = none := by
    rw [hbodies, Table.get_insert, if_neg hne.symm]
    exact (Node.checkAnchorEarly_ok hearly).fresh
  have hearly₁ := Node.checkAnchorEarly_grows hi.anchors hi₁.anchors hgrows hgen hfresh hearly
  -- the fruit hides no anchor and adds none
  have hload : ∀ x, n₁.withFruitDag.loadAnchor x = n.withFruitDag.loadAnchor x := by
    intro x
    have h₁ : n₁.withFruitDag.loadAnchor x = n₁.loadAnchor x := Node.loadAnchor_congr (by rw [n₁.withFruitDag_same.bodies])
    have h₀ : n.withFruitDag.loadAnchor x = n.loadAnchor x := Node.loadAnchor_congr (by rw [n.withFruitDag_same.bodies])
    rw [h₁, h₀]
    refine Option.ext fun b => ?_
    rw [Node.loadAnchor_iff, Node.loadAnchor_iff, hbodies, Table.get_insert]
    split
    · rename_i hx
      rw [← hx, hchk.fresh]
      simp
    · rfl
  have hgrows' : n.withFruitDag.Grows n₁.withFruitDag := by
    unfold Node.Grows
    rw [n.withFruitDag_same.bodies, n₁.withFruitDag_same.bodies]
    exact hgrows
  have hw := hi.withFruitDag
  have hw₁ := hi₁.withFruitDag
  have hlate₁ := Node.checkAnchorLate_grows ⟨hw.fruits, hw.cache, hw₁.fruits, hw₁.cache, hgrows'⟩ hw.anchors hw₁.anchors
    hload (Node.newAnchor hearly hlate) hlate
  obtain ⟨canonical, hcanonical⟩ := Node.canonicalParentCandidates_returns hi₁.fruits hi₁.cache
  refine ⟨canonical, hcanonical, ?_⟩
  -- the late checks pass but for the list of candidates, which the fruit may change
  unfold Node.processAnchor
  rw [hearly₁]
  dsimp only
  rw [hlate₁, Node.validateCandidates, if_neg hgen, n₁.canonicalParentCandidates_withFruitDag, hcanonical]
  by_cases hcand : a.parentCandidateHashes = canonical
  · rw [if_pos hcand]
    have hlate₁ : n₁.withFruitDag.checkAnchorLate a = .ok plan := by
      rw [hlate₁, Node.validateCandidates, if_neg hgen, n₁.canonicalParentCandidates_withFruitDag, hcanonical]
      simp [noneAs, rejectUnless, Exn.ensure, hcand]
    have hcommit := Node.commitAnchor_ok (hpool₁.unchanged n₁.withFruitDag_unchanged) (Node.checkAnchorLate_ok hlate₁)
    rw [← hcommit.1]
    simp [noneAs, rejectUnless, Exn.ensure, hcand]
  · rw [if_neg hcand]
    simp [noneAs, rejectUnless, Exn.ensure, hcand, Stop.outcome]

/-- In the sample node the covering anchor is accepted, and it is rejected once another
fruit has been accepted that it does not refer to. -/
theorem anchor_after_fruit_rejected :
    (sampleNode.processAnchor sampleConfig sampleNext 60000 true).1 = .accepted sampleNext.blockHash ∧
    (sampleNode.processFruit sampleConfig sampleLeft 60000 true).1 = .accepted sampleLeft.blockHash ∧
    sampleLeft.blockHash ∉ sampleNext.coveredFruitHashes ∧ sampleLeft.blockHash ∉ sampleNext.parentCandidateHashes ∧
    (Node.processAnchor sampleConfig (sampleNode.processFruit sampleConfig sampleLeft 60000 true).2 sampleNext
      60000 true).1 = .rejected .badParentCandidateOrder := by
  decide +kernel

/-- The verdict on that anchor, as the candidates decide it. -/
theorem anchor_after_fruit_sample : ∃ canonical,
    (sampleNode.processFruit sampleConfig sampleLeft 60000 true).2.canonicalParentCandidates = .ok canonical ∧
      (Node.processAnchor sampleConfig (sampleNode.processFruit sampleConfig sampleLeft 60000 true).2 sampleNext
        60000 true).1 =
        if sampleNext.parentCandidateHashes = canonical then .accepted sampleNext.blockHash
        else .rejected .badParentCandidateOrder := by
  have hreach : Reachable sampleConfig sampleNode := ⟨_, rfl⟩
  have ha : (sampleNode.processAnchor sampleConfig sampleNext 60000 true).1.isAccepted = true := by decide +kernel
  have hf : (sampleNode.processFruit sampleConfig sampleLeft 60000 true).1.isAccepted = true := by decide +kernel
  exact anchor_after_fruit (by decide +kernel) (sampleCrypto_ne_zero _) hreach (by decide +kernel) ha hf

end TensorPow
