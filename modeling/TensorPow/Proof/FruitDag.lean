import TensorPow.Proof.Conservation
import TensorPow.Proof.PowBinding

/-!
# The fruit DAG of a node

* `FruitOk`: what every stored fruit satisfies; in particular its parents are stored and
  older.
* `IsFruitDag n d`: `d` has exactly the stored fruits of `n`, with their parents.
* `buildFruitDag_ok`: the DAG can be built.
* `canonicalCoveredFruitOrder_stable`: fruits accepted later do not change the order of
  earlier ones.
-/

namespace TensorPow

open Wire Sorted

variable {C : Crypto}

namespace Node

variable {n n' : Node C} {h : Hash} {f : Fruit C} {d d' : BlockDAG Hash}

/-! ## Growth -/

/-- Every block `n` has stored, `n'` has stored too. -/
def Grows (n n' : Node C) : Prop := Table.Ext n.store.bodies n'.store.bodies

theorem Grows.refl (n : Node C) : Grows n n := Table.Ext.refl _

theorem Grows.trans {n₁ n₂ n₃ : Node C} (h : Grows n₁ n₂) (h' : Grows n₂ n₃) : Grows n₁ n₃ := Table.Ext.trans h h'

theorem Grows.loadFruit (hg : Grows n n') (hf : n.loadFruit h = some f) : n'.loadFruit h = some f := by
  rw [loadFruit_iff] at hf ⊢
  exact ⟨hf.1, hg _ _ hf.2⟩

theorem Grows.loadAnchor (hg : Grows n n') {a : Anchor C} (ha : n.loadAnchor h = some a) :
    n'.loadAnchor h = some a := by
  rw [loadAnchor_iff] at ha ⊢
  exact ⟨ha.1, hg _ _ ha.2⟩

theorem SameChain.grows (h : SameChain n n') : Grows n n' := by
  unfold Grows
  rw [h.bodies]
  exact Table.Ext.refl _

theorem fruitParentsForDag_ok {ps : List Hash} : n.fruitParentsForDag f = .ok ps ↔
    ∃ latest effective, n.loadAnchor f.header.latestAnchor = some latest ∧
      f.header.effectiveParentHashes latest.parentCandidateHashes = .ok effective ∧
      ps = effective.filter (· ≠ genesisParentHash) := by
  unfold fruitParentsForDag
  simp only [Exn.bind_ok, Exn.get_ok]
  constructor
  · rintro ⟨latest, hlatest, hps⟩
    split at hps
    · rename_i effective heff
      exact ⟨latest, effective, hlatest, heff, (Exn.pure_ok.1 hps).symm⟩
    · cases hps
  · rintro ⟨latest, effective, hlatest, heff, rfl⟩
    exact ⟨latest, hlatest, by rw [heff]; rfl⟩

theorem Grows.fruitParentsForDag (hg : Grows n n') {ps : List Hash} (hps : n.fruitParentsForDag f = .ok ps) :
    n'.fruitParentsForDag f = .ok ps := by
  obtain ⟨latest, effective, hlatest, heff, rfl⟩ := fruitParentsForDag_ok.1 hps
  exact fruitParentsForDag_ok.2 ⟨latest, effective, hg.loadAnchor hlatest, heff, rfl⟩

theorem fruitParentsForDag_nodup {ps : List Hash} (hps : n.fruitParentsForDag f = .ok ps) : ps.Nodup := by
  obtain ⟨latest, effective, -, heff, rfl⟩ := fruitParentsForDag_ok.1 hps
  simp only [FruitHeader.effectiveParentHashes, Exn.bind_ok, Exn.ensure_ok, Exn.pure_ok] at heff
  obtain ⟨-, -, -, hnodup, rfl⟩ := heff
  exact hnodup.filter _

/-! ## Stored fruits -/

theorem mem_storedFruitHashes : h ∈ n.storedFruitHashes ↔ ∃ f, n.loadFruit h = some f := by
  unfold storedFruitHashes
  rw [List.mem_filter, Option.isSome_iff_exists]
  constructor
  · exact fun h => h.2
  · rintro ⟨f, hf⟩
    exact ⟨Table.mem_keys.2 ⟨_, (loadFruit_iff.1 hf).2⟩, f, hf⟩

theorem nodup_storedFruitHashes (n : Node C) : n.storedFruitHashes.Nodup := n.store.bodies.nodup_keys.filter _

/-- What the checks of `process_fruit` leave true of a stored fruit. -/
structure FruitOk (n : Node C) (h : Hash) (f : Fruit C) : Prop where
  hash : f.blockHash = h
  parents : ∃ ps, n.fruitParentsForDag f = .ok ps ∧
    ∀ p ∈ ps, ∃ pf, n.loadFruit p = some pf ∧ pf.header.timestampMs < f.header.timestampMs
  txs : ∃ coinbase spends info, fruitTxs f = .ok (coinbase :: spends) ∧ coinbase.inputs = [] ∧
    (∀ tx ∈ spends, tx.inputs ≠ []) ∧ n.store.fruitMeta[h]? = some info ∧
    info.coinbaseClaimMatoms = coinbase.outputSum

/-- Every stored fruit passed its checks. -/
def FruitsOk (n : Node C) : Prop := ∀ h f, n.loadFruit h = some f → FruitOk n h f

theorem FruitOk.grows (hf : FruitOk n h f) (hg : Grows n n')
    (hm : n'.store.fruitMeta[h]? = n.store.fruitMeta[h]?) : FruitOk n' h f := by
  refine ⟨hf.hash, ?_, ?_⟩
  · obtain ⟨ps, hps, hold⟩ := hf.parents
    refine ⟨ps, hg.fruitParentsForDag hps, fun p hp => ?_⟩
    obtain ⟨pf, hpf, hlt⟩ := hold p hp
    exact ⟨pf, hg.loadFruit hpf, hlt⟩
  · obtain ⟨coinbase, spends, info, htxs, hcb, hspends, hinfo, hclaim⟩ := hf.txs
    exact ⟨coinbase, spends, info, htxs, hcb, hspends, hm ▸ hinfo, hclaim⟩

/-- The parents a fruit was checked against are the parents the DAG gives it. -/
theorem validateFruitDependencies_ok {now : ℕ} {candidates : List Hash}
    (hv : n.validateFruitDependencies f now = .ok candidates) :
    ∃ ps, n.fruitParentsForDag f = .ok ps ∧
      ∀ p ∈ ps, ∃ pf, n.loadFruit p = some pf ∧ pf.header.timestampMs < f.header.timestampMs := by
  unfold validateFruitDependencies at hv
  simp only [Exn.bind_ok, rejectUnless_ok, rejecting_ok, Exn.get_ok, Exn.forM_ok] at hv
  obtain ⟨-, -, latest, hlatest, effective, heff, -, -, -, -, -, htimes, -⟩ := hv
  refine ⟨_, fruitParentsForDag_ok.2 ⟨latest, effective, hlatest, heff, rfl⟩, fun p hp => ?_⟩
  obtain ⟨hp, hne⟩ := List.mem_filter.1 hp
  have htime := htimes p hp
  unfold checkParentTime at htime
  rw [if_neg (by simpa using hne)] at htime
  simp only [Exn.bind_ok, Exn.get_ok, rejectUnless_ok] at htime
  obtain ⟨pf, hpf, hlt⟩ := htime
  exact ⟨pf, hpf, hlt⟩

/-- Adding a fruit that passed its checks keeps every stored fruit well formed. -/
theorem FruitsOk.afterFruit {cfg : Config} {now : ℕ} {plan : FruitPlan} (hn : FruitsOk n)
    (hplan : n.checkFruit cfg f now = .ok plan) : FruitsOk (n.afterFruit f plan) := by
  obtain ⟨coinbase, spends, hchk⟩ := checkFruit_ok hplan
  have hgrows : Grows n (n.afterFruit f plan) := Table.Ext.insert _ _ hchk.fresh
  intro x g hg
  rw [loadFruit_iff] at hg
  obtain ⟨hx, hg⟩ := hg
  change (n.store.bodies.insert f.blockHash (.fruit f))[x]? = _ at hg
  rw [Table.get_insert] at hg
  by_cases heq : f.blockHash = x
  · rw [if_pos heq] at hg
    cases hg
    obtain ⟨candidates, hdeps⟩ := hchk.dependencies
    obtain ⟨ps, hps, hold⟩ := validateFruitDependencies_ok hdeps
    refine ⟨heq, ⟨ps, hgrows.fruitParentsForDag hps, fun p hp => ?_⟩, coinbase, spends, plan.info, hchk.txs,
      hchk.coinbase_inputs, hchk.spend_inputs, ?_, hchk.claim⟩
    · obtain ⟨pf, hpf, hlt⟩ := hold p hp
      exact ⟨pf, hgrows.loadFruit hpf, hlt⟩
    · change (n.store.fruitMeta.insert f.blockHash plan.info)[x]? = _
      rw [Table.get_insert, if_pos heq]
  · rw [if_neg heq] at hg
    refine (hn x g (loadFruit_iff.2 ⟨hx, hg⟩)).grows hgrows ?_
    change (n.store.fruitMeta.insert f.blockHash plan.info)[x]? = _
    rw [Table.get_insert, if_neg heq]

/-! ## Building the DAG -/

/-- `d` has exactly the stored fruits of `n`, with their parents and timestamps. -/
structure IsFruitDag (n : Node C) (d : BlockDAG Hash) : Prop where
  wf : d.WF
  blocks : ∀ (h : Hash) (b : FruitBlock Hash), d.blocks[h]? = some b ↔ ∃ f, n.loadFruit h = some f ∧
    b.fruitHash = h ∧ n.fruitParentsForDag f = .ok b.parents ∧ b.timestampMs = f.header.timestampMs ∧ b.work = 1

/-- The record the DAG keeps of a stored fruit. -/
theorem exists_fruitBlock (hn : FruitsOk n) (hf : n.loadFruit h = some f) :
    ∃ b : FruitBlock Hash, b.fruitHash = h ∧ n.fruitParentsForDag f = .ok b.parents ∧
      b.timestampMs = f.header.timestampMs ∧ b.work = 1 := by
  obtain ⟨ps, hps, -⟩ := (hn h f hf).parents
  exact ⟨⟨h, ps, f.header.timestampMs, 1, fruitParentsForDag_nodup hps, f.header.bounds.2.2.2.1, by decide, by decide⟩, rfl, hps,
    rfl, rfl⟩

/-- The fruits in the order `_fruit_dag` visits them. -/
def fruitOrder (n : Node C) : List Hash :=
  sortBy (fun h => (toLex (n.fruitTime h, h) : ℕ ×ₗ Hash)) n.storedFruitHashes

/-- An older fruit comes earlier. -/
theorem older_before {done todo : List Hash} {p : Hash} (hl : n.fruitOrder = done ++ h :: todo)
    (hp : p ∈ n.fruitOrder) (hlt : n.fruitTime p < n.fruitTime h) : p ∈ done := by
  have hsorted := pairwise_sortBy (fun h => (toLex (n.fruitTime h, h) : ℕ ×ₗ Hash)) n.storedFruitHashes
  change n.fruitOrder.Pairwise _ at hsorted
  rw [hl] at hsorted hp
  rcases List.mem_append.1 hp with hp | hp
  · exact hp
  · have hle : (toLex (n.fruitTime h, h) : ℕ ×ₗ Hash) ≤ toLex (n.fruitTime p, p) := by
      rcases List.mem_cons.1 hp with rfl | hp
      · exact le_rfl
      · exact (List.pairwise_cons.1 (List.pairwise_append.1 hsorted).2.1).1 p hp
    rw [Prod.Lex.toLex_le_toLex] at hle
    rcases hle with hle | ⟨hle, -⟩ <;> simp only at hle <;> omega

theorem fruitTime_eq (hf : n.loadFruit h = some f) : n.fruitTime h = f.header.timestampMs := by
  rw [fruitTime, hf]
  rfl

/-- Parents that are in the DAG already are passed over. -/
theorem addFruit_visited {depth : ℕ} {s : DagBuild} {ps : List Hash} (hps : ∀ p ∈ ps, p ∈ s.visited) :
    ps.foldlM (n.addFruit (depth + 1)) s = .ok s := by
  refine Exn.foldlM_eq (fun _ => s) fun done p todo hl => ?_
  rw [addFruit, if_pos (hps p (by simp [hl]))]

/-- The DAG of the fruits visited so far. -/
structure BuiltTo (n : Node C) (done : List Hash) (s : DagBuild) : Prop where
  visiting : s.visiting = ∅
  visited : s.visited = done.toFinset
  wf : s.dag.WF
  blocks : ∀ (h : Hash) (b : FruitBlock Hash), s.dag.blocks[h]? = some b ↔ h ∈ done ∧ ∃ f,
    n.loadFruit h = some f ∧ b.fruitHash = h ∧ n.fruitParentsForDag f = .ok b.parents ∧
    b.timestampMs = f.header.timestampMs ∧ b.work = 1

/-- One fruit of `_fruit_dag`: its parents are in the DAG, so it is added at once. -/
theorem BuiltTo.addFruit {done todo : List Hash} {s : DagBuild} {depth : ℕ} (hn : FruitsOk n)
    (hs : BuiltTo n done s) (hl : n.fruitOrder = done ++ h :: todo) :
    ∃ s', n.addFruit (depth + 2) s h = .ok s' ∧ BuiltTo n (done ++ [h]) s' := by
  have hnodup : n.fruitOrder.Nodup := nodup_sortBy.2 n.nodup_storedFruitHashes
  have hfresh : h ∉ done := by
    rw [hl] at hnodup
    intro hh
    exact (List.disjoint_of_nodup_append hnodup) hh List.mem_cons_self
  have hmem : ∀ x, x ∈ n.fruitOrder ↔ ∃ f, n.loadFruit x = some f := by
    intro x
    rw [fruitOrder, mem_sortBy, mem_storedFruitHashes]
  obtain ⟨f, hf⟩ := (hmem h).1 (by simp [hl])
  obtain ⟨b, hbh, hbp, hbt, hbw⟩ := exists_fruitBlock hn hf
  obtain ⟨ps, hps, hold⟩ := (hn h f hf).parents
  cases hps.symm.trans hbp
  -- parents are older, so they come earlier in the order
  have hdone : ∀ p ∈ b.parents, ∃ pf, n.loadFruit p = some pf ∧ pf.header.timestampMs < b.timestampMs ∧ p ∈ done := by
    intro p hp
    obtain ⟨pf, hpf, hlt⟩ := hold p hp
    refine ⟨pf, hpf, hbt ▸ hlt, older_before hl ((hmem p).2 ⟨pf, hpf⟩) ?_⟩
    rw [fruitTime_eq hpf, fruitTime_eq hf]
    exact hlt
  have hvisited : ∀ p ∈ b.parents, p ∈ s.visited := by
    intro p hp
    obtain ⟨-, -, -, hp⟩ := hdone p hp
    rw [hs.visited, List.mem_toFinset]
    exact hp
  -- the order has no repeats, so the fruit is not in the DAG
  have hnew : s.dag.blocks[b.fruitHash]? = none := by
    by_contra hne
    obtain ⟨b', hb'⟩ := Option.ne_none_iff_exists'.1 hne
    rw [hbh] at hb'
    exact hfresh ((hs.blocks h b').1 hb').1
  obtain ⟨dag, hdag⟩ := BlockDAG.addBlock_returns hs.wf hnew (by
    intro p hp
    obtain ⟨pf, hpf, hlt, hpd⟩ := hdone p hp
    obtain ⟨pb, hpb⟩ := exists_fruitBlock hn hpf
    exact ⟨pb, (hs.blocks p pb).2 ⟨hpd, pf, hpf, hpb⟩, hpb.2.2.1 ▸ hlt⟩)
  have hadd : s.dag.addFruit h b.parents f.header.timestampMs 1 = .ok dag := by
    unfold BlockDAG.addFruit
    rw [dif_pos b.parents_nodup, dif_pos (hbt ▸ b.timestamp_le), dif_pos (by decide), dif_pos (by decide)]
    rw [← hdag]
    congr 1
    cases b
    simp only at hbh hbt hbw ⊢
    subst hbh hbt hbw
    rfl
  refine ⟨⟨dag, s.visiting, insert h s.visited⟩, ?_, ?_⟩
  · rw [Node.addFruit, hs.visited, hs.visiting, if_neg (by simpa using hfresh), if_neg (by simp), hf, Exn.get_some,
      Exn.ok_bind, hbp, Exn.ok_bind, addFruit_visited, Exn.ok_bind]
    · dsimp only
      rw [hadd]
      simp [pure, Except.pure]
    · intro p hp
      rw [← hs.visited]
      exact hvisited p hp
  · obtain ⟨-, -, anc, -, rfl⟩ := BlockDAG.addBlock_ok hdag
    refine ⟨hs.visiting, ?_, BlockDAG.addBlock_wf hs.wf hdag, fun x c => ?_⟩
    · rw [hs.visited]
      ext x
      simp
    · dsimp only
      rw [Table.get_insert, hbh, List.mem_append, List.mem_singleton]
      by_cases hx : h = x
      · subst hx
        rw [if_pos rfl]
        constructor
        · intro hc
          cases hc
          exact ⟨.inr rfl, f, hf, hbh, hbp, hbt, hbw⟩
        · rintro ⟨-, g, hg, hch, hcp, hct, hcw⟩
          cases hf.symm.trans hg
          have hparents := Except.ok.inj (hbp.symm.trans hcp)
          congr 1
          cases b
          cases c
          simp only at hbh hbt hbw hch hct hcw hparents ⊢
          subst hbh hbt hbw hct hcw hparents
          cases hch
          rfl
      · rw [if_neg hx, hs.blocks]
        have hx' : ¬x = h := fun e => hx e.symm
        simp [hx']

/-- **The fruit DAG can be built**: fruits come in the order of their timestamps, so
parents are always there before their children. -/
theorem buildFruitDag_ok (hn : FruitsOk n) : ∃ d, n.buildFruitDag = .ok d ∧ IsFruitDag n d := by
  have hpost : Exn.Post (n.fruitOrder.foldlM (n.addFruit (n.store.bodies.size + 1)) ⟨BlockDAG.empty, ∅, ∅⟩)
      (BuiltTo n n.fruitOrder) fun _ => False := by
    refine Exn.Post.foldlM (BuiltTo n) ⟨rfl, rfl, BlockDAG.wf_empty, ?_⟩ fun done h todo s hl hs => ?_
    · intro h b
      simp [BlockDAG.empty]
    · -- there is a stored fruit, so the recursion may go one level deep
      obtain ⟨depth, hdepth⟩ : ∃ depth, n.store.bodies.size = depth + 1 := by
        have hh : h ∈ n.storedFruitHashes := mem_sortBy.1 (hl ▸ (by simp) : h ∈ n.fruitOrder)
        obtain ⟨f, hf⟩ := mem_storedFruitHashes.1 hh
        have hle := Table.length_le_size n.store.bodies (List.nodup_singleton h) (by
          intro k hk
          rw [List.mem_singleton.1 hk]
          exact ⟨_, (loadFruit_iff.1 hf).2⟩)
        exact ⟨n.store.bodies.size - 1, by simp only [List.length_singleton] at hle; omega⟩
      rw [hdepth]
      obtain ⟨s', hs', hbuilt⟩ := hs.addFruit hn hl
      rw [hs']
      exact Exn.Post.ok hbuilt
  obtain ⟨s, hs, hbuilt⟩ := hpost.returns
  refine ⟨s.dag, ?_, hbuilt.wf, fun h b => ?_⟩
  · unfold buildFruitDag
    exact Exn.bind_ok.2 ⟨s, hs, rfl⟩
  · rw [hbuilt.blocks, fruitOrder, mem_sortBy, mem_storedFruitHashes]
    constructor
    · exact fun h => h.2
    · rintro ⟨f, hf, hb⟩
      exact ⟨⟨f, hf⟩, f, hf, hb⟩

/-- The cached DAG, if there is one, is the DAG of the stored fruits. -/
def CacheOk (n : Node C) : Prop := ∀ d, n.fruitDagCache = some d → IsFruitDag n d

theorem fruitDag_ok (hn : FruitsOk n) (hc : CacheOk n) : ∃ d, n.fruitDag = .ok d ∧ IsFruitDag n d := by
  unfold fruitDag
  split
  · rename_i d hd
    exact ⟨d, rfl, hc d hd⟩
  · exact buildFruitDag_ok hn

/-! ## Stability -/

/-- The DAG of a node that has grown extends the old one. -/
theorem IsFruitDag.ext (hd : IsFruitDag n d) (hd' : IsFruitDag n' d') (hg : Grows n n') :
    Table.Ext d.blocks d'.blocks := by
  intro h b hb
  obtain ⟨f, hf, hbh, hbp, hbt, hbw⟩ := (hd.blocks h b).1 hb
  exact (hd'.blocks h b).2 ⟨f, hg.loadFruit hf, hbh, hg.fruitParentsForDag hbp, hbt, hbw⟩

theorem ghostdagK_nonneg : 0 ≤ ghostdagK := by decide

/-- A settled metadata table agrees with that of a node that has grown. -/
theorem IsFruitDag.agree (hd : IsFruitDag n d) (hd' : IsFruitDag n' d') (hg : Grows n n') (hn : FruitsOk n)
    {m m' : Table Hash (GhostdagData Hash)} (hm : d.Settled ghostdagK m) (hm' : d'.Settled ghostdagK m')
    (hf : n.loadFruit h = some f) : m[h]? = m'[h]? := by
  obtain ⟨b, hb⟩ := exists_fruitBlock hn hf
  have hbd := (hd.blocks h b).2 ⟨f, hf, hb⟩
  exact BlockDAG.Settled.agree hd.wf hd'.wf hm hm' hbd (BlockDAG.SamePast.of_ext hd.wf (hd.ext hd' hg) hbd)

/-- The canonical order of stored fruits, read off any settled table. -/
theorem canonicalCoveredFruitOrder_eq (hn : FruitsOk n) (hc : CacheOk n) {covered : List Hash}
    (hcov : ∀ h ∈ covered, ∃ f, n.loadFruit h = some f) :
    ∃ d m, IsFruitDag n d ∧ d.Settled ghostdagK m ∧
      n.canonicalCoveredFruitOrder covered = raising (d.sortedByScore m covered.toFinset) := by
  obtain ⟨d, hdag, hd⟩ := fruitDag_ok hn hc
  obtain ⟨m, d', hm, hset, -⟩ := BlockDAG.ghostdagMetadata_settled hd.wf ghostdagK_nonneg
  refine ⟨d, m, hd, hset, ?_⟩
  unfold canonicalCoveredFruitOrder
  rw [hdag, Exn.ok_bind, raising_eq hm, Exn.ok_bind]
  dsimp only
  rw [Exn.ensure_of, Exn.ok_bind]
  intro h hh
  obtain ⟨f, hf⟩ := hcov h hh
  obtain ⟨b, hb⟩ := exists_fruitBlock hn hf
  obtain ⟨data, hdata, -⟩ := hset h b ((hd.blocks h b).2 ⟨f, hf, hb⟩)
  exact Std.ExtTreeMap.mem_iff_contains.1 (Table.mem_iff.2 ⟨data, hdata⟩)

theorem canonicalCoveredFruitOrder_returns (hn : FruitsOk n) (hc : CacheOk n) {covered : List Hash}
    (hcov : ∀ h ∈ covered, ∃ f, n.loadFruit h = some f) :
    ∃ l, n.canonicalCoveredFruitOrder covered = .ok l := by
  obtain ⟨d, m, hd, hset, heq⟩ := canonicalCoveredFruitOrder_eq hn hc hcov
  have hblock : ∀ x ∈ covered.toFinset, ∃ b, d.blocks[x]? = some b := by
    intro x hx
    obtain ⟨f, hf⟩ := hcov x (List.mem_toFinset.1 hx)
    obtain ⟨b, hb⟩ := exists_fruitBlock hn hf
    exact ⟨b, (hd.blocks x b).2 ⟨f, hf, hb⟩⟩
  obtain ⟨l, hl, -⟩ := (BlockDAG.sortedByScore_post (m := m) (fun x hx => by
    obtain ⟨b, hb⟩ := hblock x hx
    obtain ⟨data, hdata, -⟩ := hset x b hb
    exact ⟨data, hdata⟩) hblock).returns
  exact ⟨l, by rw [heq, raising_eq hl]⟩

/-- **Fruits accepted later do not change the order of earlier ones.** -/
theorem canonicalCoveredFruitOrder_stable (hn : FruitsOk n) (hc : CacheOk n) (hn' : FruitsOk n') (hc' : CacheOk n')
    (hg : Grows n n') {covered : List Hash} (hcov : ∀ h ∈ covered, ∃ f, n.loadFruit h = some f) :
    n'.canonicalCoveredFruitOrder covered = n.canonicalCoveredFruitOrder covered := by
  obtain ⟨d, m, hd, hset, heq⟩ := canonicalCoveredFruitOrder_eq hn hc hcov
  obtain ⟨d', m', hd', hset', heq'⟩ := canonicalCoveredFruitOrder_eq hn' hc' fun h hh => by
    obtain ⟨f, hf⟩ := hcov h hh
    exact ⟨f, hg.loadFruit hf⟩
  rw [heq, heq', BlockDAG.sortedByScore_congr]
  · intro x hx
    obtain ⟨f, hf⟩ := hcov x (List.mem_toFinset.1 hx)
    exact (hd.agree hd' hg hn hset hset' hf).symm
  · intro x hx
    obtain ⟨f, hf⟩ := hcov x (List.mem_toFinset.1 hx)
    obtain ⟨b, hb⟩ := exists_fruitBlock hn hf
    have hbd := (hd.blocks x b).2 ⟨f, hf, hb⟩
    rw [hbd, hd.ext hd' hg x b hbd]

end Node

end TensorPow
