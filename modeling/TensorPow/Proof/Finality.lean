import TensorPow.Spec.Finality
import TensorPow.Proof.AnchorMeta

/-!
# Finality queries are total and exact

* `claimed_chain`: replaying a chain claims exactly the fruits its anchors cover, each at
  the height of its anchor.
* `finality_exact`: in every state a node can be in, a finality query returns; the anchor
  depth counts from the anchor of the active chain that covers the fruit, and the blue
  depth is zero unless the fruit is blue for the best fruit tip.
-/

namespace TensorPow

open Wire Sorted

variable {C : Crypto}

/-! ## Depths -/

/-- What `anchor_depth` returns. -/
theorem anchorDepth_some {covering tip : ℕ} (h : covering ≤ tip) :
    anchorDepth (some covering) tip = .ok (tip - covering + 1) := by
  change (Exn.ensure (covering ≤ tip) _ >>= fun _ => pure (tip - covering + 1)) = _
  rw [Exn.ensure_of _ h]
  rfl

/-- **Blue depth is defined** on a well-formed DAG, and zero unless the fruit is blue for
the tip. -/
theorem blueDepth_ok {η : Type} [LinearOrder η] {d d' : BlockDAG η} {h tip : η} {k : ℤ}
    {m : Table η (GhostdagData η)} (hd : d.WF) (hm : d.ghostdagMetadata k = .ok (m, d')) (hset : d.Settled k m)
    (hh : h ∈ d.blocks) (htip : tip ∈ d.blocks) :
    ∃ tipData data, m[tip]? = some tipData ∧ m[h]? = some data ∧
      blueDepth d h tip k = .ok (if h ∈ tipData.blues then tipData.blueScore - data.blueScore else 0) := by
  obtain ⟨b, hb⟩ := Table.mem_iff.1 hh
  obtain ⟨tb, htb⟩ := Table.mem_iff.1 htip
  obtain ⟨data, hdata, -⟩ := hset h b hb
  obtain ⟨tipData, htipData, -, hgood, -⟩ := hset tip tb htb
  obtain ⟨above, habove, hmem⟩ := hd.ancestors_ok htb
  refine ⟨tipData, data, htipData, hdata, ?_⟩
  unfold blueDepth
  rw [Exn.ensure_of _ hh, Exn.ok_bind, habove, Exn.ok_bind]
  dsimp only
  by_cases hblue : h ∈ tipData.blues
  · -- a blue fruit is the tip or one of its ancestors
    have hpast : h ∈ insert tip above := by
      rw [Finset.mem_insert, hmem]
      exact hgood.blues_inPast hblue
    rw [if_neg (not_not.2 hpast), hm, Exn.ok_bind]
    dsimp only
    rw [item_ok.2 htipData, Exn.ok_bind, if_neg (not_not.2 hblue), item_ok.2 hdata, Exn.ok_bind, if_pos hblue]
    rfl
  · rw [if_neg hblue]
    split
    · rfl
    · rw [hm, Exn.ok_bind]
      dsimp only
      rw [item_ok.2 htipData, Exn.ok_bind, if_pos hblue]
      rfl

namespace Node

variable {n : Node C} {h : Hash} {a : Anchor C} {l : List (Hash × Anchor C)} {d : BlockDAG Hash}

/-- **There is a best fruit tip** as soon as there is a fruit, and it is a fruit. -/
theorem bestFruitTip_ok {m : Table Hash (GhostdagData Hash)} {d' : BlockDAG Hash}
    (hm : d.ghostdagMetadata ghostdagK = .ok (m, d')) (hset : d.Settled ghostdagK m)
    (hnone : ∀ h : Hash, d.blocks[h]? = none → m[h]? = none) (hh : h ∈ d.blocks) :
    ∃ tip, bestFruitTip d = .ok (some tip) ∧ tip ∈ d.blocks := by
  have hblock : ∀ x ∈ m.keys, ∃ data b, m[x]? = some data ∧ d.blocks[x]? = some b := by
    intro x hx
    obtain ⟨data, hdata⟩ := Table.mem_keys.1 hx
    cases hb : d.blocks[x]? with
    | none =>
      rw [hnone x hb] at hdata
      cases hdata
    | some b => exact ⟨data, b, hdata, rfl⟩
  have hkeyed : Exn.Post (m.keys.mapM fun h => do
      let data ← raising (item m h)
      let block ← raising (d.getBlock h)
      return ((-(data.blueScore : ℤ), -(block.timestampMs : ℤ), h) : ℤ × ℤ × Hash))
      (fun qs => ∀ q ∈ qs, q.2.2 ∈ d.blocks) fun _ => False := by
    refine Exn.Post.mapM fun x hx => ?_
    obtain ⟨data, b, hdata, hb⟩ := hblock x hx
    have hget : d.getBlock x = .ok b := by
      rw [BlockDAG.getBlock, hb, Exn.get_some]
    rw [raising_eq (item_ok.2 hdata), Exn.ok_bind, raising_eq hget, Exn.ok_bind]
    exact Exn.Post.pure (Table.mem_iff.2 ⟨b, hb⟩)
  obtain ⟨qs, hqs, hmem⟩ := hkeyed.returns
  have hsize : d.blocks.size ≠ 0 := by
    obtain ⟨b, hb⟩ := Table.mem_iff.1 hh
    have hle := Table.length_le_size d.blocks (List.nodup_singleton h) (by
      intro x hx
      rw [List.mem_singleton.1 hx]
      exact ⟨b, hb⟩)
    rw [List.length_singleton] at hle
    omega
  unfold bestFruitTip
  rw [if_neg hsize, raising_eq hm, Exn.ok_bind]
  dsimp only
  rw [hqs, Exn.ok_bind]
  split
  · rename_i hnil
    -- the queried fruit has metadata, so the list is not empty
    obtain ⟨b, hb⟩ := Table.mem_iff.1 hh
    obtain ⟨data, hdata, -⟩ := hset h b hb
    obtain ⟨q, hq, -⟩ := (Exn.mapM_ok_mem hqs).1 h (Table.mem_keys.2 ⟨data, hdata⟩)
    rw [← @mem_sortBy _ _ _ (fun q => (toLex (q.1, toLex (q.2.1, q.2.2)) : ℤ ×ₗ ℤ ×ₗ Hash)), hnil] at hq
    cases hq
  · rename_i q rest hcons
    refine ⟨q.2.2, rfl, hmem q ?_⟩
    rw [← @mem_sortBy _ _ _ (fun q => (toLex (q.1, toLex (q.2.1, q.2.2)) : ℤ ×ₗ ℤ ×ₗ Hash)), hcons]
    exact List.mem_cons_self

/-! ## Covering anchors -/

/-- An anchor can be applied only if none of its fruits was claimed before. -/
theorem covered_unclaimed {anchorHash : Hash} {height : ℕ} {target : Hash} {state : BranchState C} {r : Applied C}
    (hr : n.applyAnchor a anchorHash height target state = .ok r) :
    ∀ x ∈ a.coveredFruitHashes, state.claimedFruits[x]? = none := by
  intro x hx
  obtain ⟨-, -, -, hclaim, -⟩ := applyAnchor_ok hr
  have hne : a.coveredFruitHashes ≠ [] := List.ne_nil_of_mem hx
  obtain ⟨-, -, -, infos, assignments, maturity, s, -, -, -, -, hinfos, -, -, hloop, -⟩ :=
    claimAnchorRewards_ok hclaim hne
  obtain ⟨p, hp, hpx⟩ := (Exn.mapM_ok_mem hinfos).1 x hx
  obtain ⟨info, -, hpx⟩ := Exn.bind_ok.1 hpx
  have hfirst : p.1 = x := by rw [← Exn.pure_ok.1 hpx]
  -- every fruit the loop has gone through was unclaimed
  have hdone : ∀ q ∈ infos, state.claimedFruits[q.1]? = none := by
    refine Exn.foldlM_inv (fun (done : List (Hash × ℕ × Transaction)) _ =>
      ∀ q ∈ done, state.claimedFruits[q.1]? = none) ?_ (by simp) hloop
    intro done q todo s s' _ ih hstep y hy
    rcases List.mem_append.1 hy with hy | hy
    · exact ih y hy
    · rw [List.mem_singleton.1 hy]
      exact (claimFruit_ok hstep).1
  rw [← hfirst]
  exact hdone p hp

/-- What one replayed anchor adds to the claimed fruits. -/
theorem replayStep_claimed {state state' : BranchState C} {info : AnchorMeta} (ha : n.loadAnchor h = some a)
    (hinfo : n.store.anchorMeta[h]? = some info) (hstep : n.replayStep state h = .ok state') :
    state'.height = info.height ∧ (∀ x ∈ a.coveredFruitHashes, state.claimedFruits[x]? = none) ∧
      (∀ x ∈ a.coveredFruitHashes, state'.claimedFruits[x]? = some info.height) ∧
      ∀ x, x ∉ a.coveredFruitHashes → state'.claimedFruits[x]? = state.claimedFruits[x]? := by
  rw [replayStep_eq ha hinfo, rejectAsNone_ok] at hstep
  obtain ⟨r, hr, rfl⟩ := applyAnchorToBranch_ok.1 hstep
  obtain ⟨-, -, -, -, -, hheight, -, -, -, hclaimed, -⟩ := applyAnchor_ok hr
  refine ⟨hheight, covered_unclaimed hr, fun x hx => ?_, fun x hx => ?_⟩
  · rw [hclaimed]
    refine Table.get_putAll_of_mem _ ?_ (List.mem_map.2 ⟨x, hx, rfl⟩)
    rw [List.map_map]
    simpa [Function.comp_def] using nodup_covered a
  · rw [hclaimed]
    refine Table.get_putAll_of_notMem _ _ fun v hv => ?_
    obtain ⟨y, hy, heq⟩ := List.mem_map.1 hv
    cases heq
    exact hx hy

/-- **A replayed chain claims exactly the fruits it covers**, each at the height of the
anchor that covers it. -/
theorem claimed_chain (hn : AnchorsOk n) (hc : AnchorChain n h l) {state : BranchState C}
    (hstate : n.rebuildAnchorBranchState h = .ok state) (x : Hash) :
    (∀ p ∈ l, x ∈ p.2.coveredFruitHashes →
      ∃ info, n.store.anchorMeta[p.1]? = some info ∧ state.claimedFruits[x]? = some info.height) ∧
    ((∀ p ∈ l, x ∉ p.2.coveredFruitHashes) → state.claimedFruits[x]? = none) := by
  induction hc generalizing state with
  | nil =>
    rw [rebuild_genesis] at hstate
    cases hstate
    exact ⟨fun p hp => (by cases hp), fun _ => Table.get_empty x⟩
  | @cons h a l ha hl ih =>
    obtain ⟨info, hinfo, -⟩ := (hn h a ha).info
    rw [rebuild_cons hn ha] at hstate
    obtain ⟨before, hbefore, hstep⟩ := Exn.bind_ok.1 hstate
    obtain ⟨hcovered, huncovered⟩ := ih hbefore
    obtain ⟨-, hfree, hput, hkeep⟩ := replayStep_claimed ha hinfo hstep
    refine ⟨fun p hp hx => ?_, fun hnone => ?_⟩
    · rcases List.mem_cons.1 hp with rfl | hp
      · exact ⟨info, hinfo, hput x hx⟩
      · obtain ⟨pinfo, hpinfo, hclaimed⟩ := hcovered p hp hx
        -- the new anchor does not cover a fruit claimed below it
        have hnot : x ∉ a.coveredFruitHashes := by
          intro hxa
          rw [hfree x hxa] at hclaimed
          cases hclaimed
        exact ⟨pinfo, hpinfo, (hkeep x hnot).trans hclaimed⟩
    · rw [hkeep x (hnone _ List.mem_cons_self)]
      exact huncovered fun p hp => hnone p (List.mem_cons_of_mem _ hp)

/-- The heights of a chain: the tip is the highest. -/
theorem height_le (hn : AnchorsOk n) (hc : AnchorChain n h l) {info tipInfo : AnchorMeta}
    (htip : n.store.anchorMeta[h]? = some tipInfo) {p : Hash × Anchor C} (hp : p ∈ l)
    (hinfo : n.store.anchorMeta[p.1]? = some info) : info.height ≤ tipInfo.height := by
  obtain ⟨above, below, hl, hsuffix⟩ := hc.suffix hp
  obtain ⟨_, -, -, htop⟩ := derive_chain hn hc
  obtain ⟨_, -, -, hsub⟩ := derive_chain hn hsuffix
  have htopHeight := (htop tipInfo htip (List.ne_nil_of_mem hp)).1
  have hsubHeight := (hsub info hinfo (List.cons_ne_nil _ _)).1
  rw [hl, List.length_append, List.length_cons] at htopHeight
  rw [List.length_cons] at hsubHeight
  omega

/-- The active chain: its heights, and what is claimed on it. -/
theorem active_claimed (hn : Inv n) (x : Hash) :
    ∃ l, AnchorChain n n.activeTip l ∧
      (∀ p ∈ l, x ∈ p.2.coveredFruitHashes → ∃ info tipInfo, n.store.anchorMeta[p.1]? = some info ∧
        n.store.anchorMeta[n.activeTip]? = some tipInfo ∧ n.anchorHeight = tipInfo.height ∧
        info.height ≤ tipInfo.height ∧ n.store.coinbaseClaimed[x]? = some info.height) ∧
      ((∀ p ∈ l, x ∉ p.2.coveredFruitHashes) → n.store.coinbaseClaimed[x]? = none) := by
  obtain ⟨state, hstate, hholds⟩ := hn.active.replayed
  rw [hholds.claimed]
  rcases hn.active.stored with ⟨hzero, -⟩ | ⟨tipInfo, ⟨ta, hta⟩, htip⟩
  · -- no anchor yet
    rw [hzero] at hstate ⊢
    exact ⟨[], .nil, fun p hp => (by cases hp), (claimed_chain hn.anchors .nil hstate x).2⟩
  · dsimp only at hta htip
    obtain ⟨l, hl⟩ := exists_anchorChain hn.anchors hta
    obtain ⟨hcovered, huncovered⟩ := claimed_chain hn.anchors hl hstate x
    refine ⟨l, hl, fun p hp hx => ?_, huncovered⟩
    obtain ⟨info, hinfo, hclaimed⟩ := hcovered p hp hx
    have hheight : state.height = tipInfo.height := by
      rw [rebuild_cons hn.anchors hta] at hstate
      obtain ⟨before, -, hstep⟩ := Exn.bind_ok.1 hstate
      exact (replayStep_claimed hta htip hstep).1
    exact ⟨info, tipInfo, hinfo, htip, hholds.height.trans hheight, height_le hn.anchors hl htip hp hinfo, hclaimed⟩

/-! ## The query -/

/-- What the answer for a stored fruit says, in terms of the active chain and the fruit
DAG. -/
structure FinalityExact (n : Node C) (h : Hash) (r : Finality) : Prop where
  seen : r = finalityResult h true r.blueDepth r.anchorDepth
  anchor : ∃ l, AnchorChain n n.activeTip l ∧
    (∀ p ∈ l, h ∈ p.2.coveredFruitHashes → ∃ info tipInfo, n.store.anchorMeta[p.1]? = some info ∧
      n.store.anchorMeta[n.activeTip]? = some tipInfo ∧ info.height ≤ tipInfo.height ∧
      r.anchorDepth = tipInfo.height - info.height + 1) ∧
    ((∀ p ∈ l, h ∉ p.2.coveredFruitHashes) → r.anchorDepth = 0)
  blue : ∃ dag dag' metadata tip tipData data, n.fruitDag = .ok dag ∧
    dag.ghostdagMetadata ghostdagK = .ok (metadata, dag') ∧ bestFruitTip dag = .ok (some tip) ∧
    metadata[tip]? = some tipData ∧ metadata[h]? = some data ∧
    r.blueDepth = if h ∈ tipData.blues then tipData.blueScore - data.blueScore else 0

/-- **The answer for a stored fruit.** -/
theorem fruitFinality_ok (hn : Inv n) {f : Fruit C} (hf : n.loadFruit h = some f) :
    ∃ r, n.fruitFinality h = .ok r ∧ FinalityExact n h r := by
  obtain ⟨dag, hdag, hisDag⟩ := fruitDag_ok hn.fruits hn.cache
  obtain ⟨b, hb⟩ := exists_fruitBlock hn.fruits hf
  have hh : h ∈ dag.blocks := Table.mem_iff.2 ⟨b, (hisDag.blocks h b).2 ⟨f, hf, hb⟩⟩
  obtain ⟨metadata, dag', hm, hset, hnone⟩ := BlockDAG.ghostdagMetadata_settled hisDag.wf ghostdagK_nonneg
  obtain ⟨tip, htip, htipMem⟩ := bestFruitTip_ok hm hset hnone hh
  obtain ⟨tipData, data, htipData, hdata, hblue⟩ := blueDepth_ok hisDag.wf hm hset hh htipMem
  obtain ⟨l, hl, hcovered, huncovered⟩ := active_claimed hn h
  -- the anchor depth is that of the one anchor of the active chain that covers the fruit
  have hdepth : ∃ depth, anchorDepth n.store.coinbaseClaimed[h]? n.anchorHeight = .ok depth ∧
      (∀ p ∈ l, h ∈ p.2.coveredFruitHashes → ∃ info tipInfo, n.store.anchorMeta[p.1]? = some info ∧
        n.store.anchorMeta[n.activeTip]? = some tipInfo ∧ info.height ≤ tipInfo.height ∧
        depth = tipInfo.height - info.height + 1) ∧
      ((∀ p ∈ l, h ∉ p.2.coveredFruitHashes) → depth = 0) := by
    by_cases hany : ∃ p ∈ l, h ∈ p.2.coveredFruitHashes
    · obtain ⟨p, hp, hpx⟩ := hany
      obtain ⟨info, tipInfo, -, htipInfo, hheight, hle, hclaimed⟩ := hcovered p hp hpx
      refine ⟨tipInfo.height - info.height + 1, ?_, fun q hq hqx => ?_, fun hnone => absurd hpx (hnone p hp)⟩
      · rw [hclaimed, hheight]
        exact anchorDepth_some hle
      · -- a second covering anchor would have been claimed at the same height
        obtain ⟨qinfo, qtip, hqinfo, hqtip, -, hqle, hqclaimed⟩ := hcovered q hq hqx
        cases htipInfo.symm.trans hqtip
        have hsame : info.height = qinfo.height := Option.some.inj (hclaimed.symm.trans hqclaimed)
        exact ⟨qinfo, tipInfo, hqinfo, htipInfo, hqle, by rw [hsame]⟩
    · have hno : ∀ p ∈ l, h ∉ p.2.coveredFruitHashes := fun p hp hx => hany ⟨p, hp, hx⟩
      refine ⟨0, ?_, fun p hp hx => absurd hx (hno p hp), fun _ => rfl⟩
      rw [huncovered hno]
      rfl
  obtain ⟨depth, hdepth, hexact, hzero⟩ := hdepth
  refine ⟨finalityResult h true (if h ∈ tipData.blues then tipData.blueScore - data.blueScore else 0) depth, ?_, rfl, ⟨l, hl, hexact, hzero⟩,
    ⟨dag, dag', metadata, tip, tipData, data, hdag, hm, htip, htipData, hdata, rfl⟩⟩
  unfold fruitFinality
  rw [hdag]
  change (if h ∉ dag.blocks then _ else _) = _
  rw [if_neg (not_not.2 hh), htip, Exn.ok_bind]
  dsimp only
  rw [raising_eq hblue, Exn.ok_bind, raising_eq hdepth, Exn.ok_bind, Exn.pure_ok]
  congr

theorem inv_of_served {cfg : Config} (hz : n.NeverZero) (hs : Served cfg n) : Inv n := by
  induction hs with
  | start => exact inv_empty
  | @call n e _ ih =>
    have hstep := step_cases cfg n e
    exact (ih (hz.of_grows hstep.grows)).step hz hstep
  | @query n h _ ih =>
    unfold getFinality at hz ⊢
    split at hz
    · exact ih hz
    · exact (ih (hz.of_grows n.withFruitDag_same.grows)).withFruitDag

end Node

/-- **Finality queries are total and exact** in every state of a node, whatever blocks and
queries came before. -/
theorem finality_exact {cfg : Config} {n : Node C} (hzero : n.NeverZero) (hserved : Served cfg n) (h : Hash) :
    ∃ r, (n.getFinality h).1 = .ok r ∧
      (∀ f, n.loadFruit h = some f → Node.FinalityExact n h r) ∧
      (n.loadFruit h = none → r = finalityResult h false 0 0) := by
  have hinv := Node.inv_of_served hzero hserved
  unfold Node.getFinality
  cases hf : n.loadFruit h with
  | none => exact ⟨_, rfl, fun f hf => (by cases hf), fun _ => rfl⟩
  | some f =>
    obtain ⟨r, hr, hexact⟩ := Node.fruitFinality_ok hinv hf
    exact ⟨r, hr, fun _ _ => hexact, fun hnone => (by cases hnone)⟩

theorem finality_exact_sample :
    ∃ r, ((run sampleConfig [.anchor sampleGenesis 0 true, .fruit sampleFruit 30000 true,
        .anchor sampleNext 60000 true]).getFinality sampleFruit.blockHash).1 = .ok r ∧
      Node.FinalityExact (run sampleConfig [.anchor sampleGenesis 0 true, .fruit sampleFruit 30000 true,
        .anchor sampleNext 60000 true]) sampleFruit.blockHash r := by
  have hserved : Served sampleConfig (run sampleConfig [.anchor sampleGenesis 0 true, .fruit sampleFruit 30000 true,
      .anchor sampleNext 60000 true]) := .call _ (.call _ (.call _ .start))
  obtain ⟨r, hr, hexact, -⟩ := finality_exact (by decide +kernel) hserved sampleFruit.blockHash
  exact ⟨r, hr, hexact sampleFruit (by decide +kernel)⟩

end TensorPow
