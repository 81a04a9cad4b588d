import TensorPow.Proof.BlueScore
import TensorPow.Proof.Conflicts
import TensorPow.Proof.Convergence

/-!
# The order of the covered fruits

* `FruitAncestor`: a fruit reached through selected or bitmap parents.
* `canonicalCoveredFruitOrder_topological`: covered fruits come after their ancestors.
* `coveredOrder_run`: the order of an accepted anchor, in the state that accepted it and in
  every later one.
-/

namespace TensorPow

open Wire Sorted

variable {C : Crypto} {cfg : Config}

namespace Node

variable {n : Node C} {x y p h : Hash} {d : BlockDAG Hash}

/-- `p` is the selected parent of the stored fruit `h`, or one its bitmap names. -/
def FruitParent (n : Node C) (p h : Hash) : Prop :=
  ∃ f ps, n.loadFruit h = some f ∧ n.fruitParentsForDag f = .ok ps ∧ p ∈ ps

/-- `y` is a strict ancestor of `x` among the stored fruits. -/
def FruitAncestor (n : Node C) (y x : Hash) : Prop := Relation.TransGen n.FruitParent y x

theorem IsFruitDag.parent_iff (hn : FruitsOk n) (hd : IsFruitDag n d) : d.Parent p h ↔ n.FruitParent p h := by
  constructor
  · rintro ⟨b, hb, hp⟩
    obtain ⟨f, hf, -, hps, -⟩ := (hd.blocks h b).1 hb
    exact ⟨f, b.parents, hf, hps, hp⟩
  · rintro ⟨f, ps, hf, hps, hp⟩
    obtain ⟨b, hb⟩ := exists_fruitBlock hn hf
    refine ⟨b, (hd.blocks h b).2 ⟨f, hf, hb⟩, ?_⟩
    cases hps.symm.trans hb.2.1
    exact hp

theorem IsFruitDag.ancestor_iff (hn : FruitsOk n) (hd : IsFruitDag n d) : d.Ancestor y x ↔ n.FruitAncestor y x := by
  have heq : d.Parent = n.FruitParent := by
    funext p h
    exact propext (hd.parent_iff hn)
  rw [BlockDAG.Ancestor, FruitAncestor, heq]

theorem IsFruitDag.unit (hd : IsFruitDag n d) (x : Hash) (b : FruitBlock Hash) (hb : d.blocks[x]? = some b) :
    b.work = 1 := by
  obtain ⟨f, -, -, -, -, hwork⟩ := (hd.blocks x b).1 hb
  exact hwork

/-- The DAG has one block for each stored fruit. -/
theorem IsFruitDag.size_le (hd : IsFruitDag n d) : d.blocks.size ≤ n.storedFruitHashes.length := by
  rw [← Std.ExtTreeMap.length_keys]
  refine (List.subperm_of_subset d.blocks.nodup_keys fun h hh => ?_).length_le
  obtain ⟨b, hb⟩ := Table.mem_keys.1 hh
  obtain ⟨f, hf, -⟩ := (hd.blocks h b).1 hb
  exact mem_storedFruitHashes.2 ⟨f, hf⟩

/-- **Covered fruits come after their ancestors**, as long as the accumulated blue work does
not saturate: unit work makes the score grow along every edge. -/
theorem canonicalCoveredFruitOrder_topological (hn : FruitsOk n) (hc : CacheOk n) {covered l before after : List Hash}
    (hcov : ∀ h ∈ covered, ∃ f, n.loadFruit h = some f) (hsize : n.storedFruitHashes.length ≤ u64Max)
    (hl : n.canonicalCoveredFruitOrder covered = .ok l) (hsplit : l = before ++ x :: after) (hy : y ∈ l)
    (hanc : n.FruitAncestor y x) : y ∈ before := by
  obtain ⟨d, m, hd, hset, heq⟩ := canonicalCoveredFruitOrder_eq hn hc hcov
  rw [heq, raising_ok] at hl
  rw [BlockDAG.mem_before_iff (BlockDAG.sortedByScore_sorted hl) hsplit hy]
  -- the key grows along every edge of the path
  have hstep : ∀ {p c : Hash}, n.FruitParent p c → d.scoreKey m p < d.scoreKey m c := by
    intro p c hp
    have hparent := (hd.parent_iff hn).2 hp
    have hlt := BlockDAG.scoreIn_lt_of_parent hd.wf hset hd.unit (hd.size_le.trans hsize) hparent
    exact Prod.Lex.toLex_lt_toLex.2 (.inl hlt)
  have hpath : ∀ {c : Hash}, n.FruitAncestor y c → d.scoreKey m y < d.scoreKey m c := by
    intro c hc
    induction hc with
    | single hp => exact hstep hp
    | tail _ hp ih => exact ih.trans (hstep hp)
  exact hpath hanc

end Node

/-! ## Over a run -/

/-- **The order of the covered fruits.** In every state the fruit DAG can be built; and for
every anchor accepted so far the covered fruits have an order that lists each once and
ancestors first, and every later state gives the same order. -/
theorem coveredOrder_run (events : List (Event C)) (hz : (run cfg events).NeverZero) :
    (∃ d, (run cfg events).fruitDag = .ok d) ∧
    ∀ a : Anchor C, .anchor a ∈ acceptedBlocks cfg .empty events →
      ∃ l, (run cfg events).canonicalCoveredFruitOrder a.coveredFruitHashes = .ok l ∧
        l.Perm a.coveredFruitHashes ∧
        ((run cfg events).storedFruitHashes.length ≤ u64Max → ∀ before x after, l = before ++ x :: after →
          ∀ y ∈ l, (run cfg events).FruitAncestor y x → y ∈ before) ∧
        ∀ later, (run cfg (events ++ later)).NeverZero →
          (run cfg (events ++ later)).canonicalCoveredFruitOrder a.coveredFruitHashes = .ok l := by
  have hinv : (run cfg events).Inv := Node.inv_of_reachable hz ⟨events, rfl⟩
  obtain ⟨d, hdag, -⟩ := Node.fruitDag_ok hinv.fruits hinv.cache
  refine ⟨⟨d, hdag⟩, fun a ha => ?_⟩
  have hload := loadAnchor_accepted hz ha
  have hcov := (hinv.anchors _ a hload).covered
  obtain ⟨l, hl⟩ := Node.canonicalCoveredFruitOrder_returns hinv.fruits hinv.cache hcov
  refine ⟨l, hl, ?_, fun hsize before x after hsplit y hy hanc => ?_, fun later hlater => ?_⟩
  · exact (Node.canonicalCoveredFruitOrder_perm hl).trans (ascending_perm_of_toFinset (Node.nodup_covered a) (by ext; simp))
  · exact Node.canonicalCoveredFruitOrder_topological hinv.fruits hinv.cache hcov hsize hl hsplit hy hanc
  · have hinv' : (run cfg (events ++ later)).Inv := Node.inv_of_reachable hlater ⟨events ++ later, rfl⟩
    rw [Node.canonicalCoveredFruitOrder_stable hinv.fruits hinv.cache hinv'.fruits hinv'.cache
      (grows_run events later) hcov, hl]

/-- The calls that accept a paying anchor, a fruit, a child of it and the anchor over both. -/
def sampleCalls : List (Event sampleCrypto) :=
  [.anchor sampleGenesis 0 true, .fruit sampleFruit 30000 true, .anchor samplePaying 60000 true,
    .fruit sampleOnce 62000 true, .fruit sampleAgain 62000 true, .anchor sampleCovering 90000 true]

/-- The child comes second, also when more fruits have come. -/
theorem coveredOrder_run_pair :
    (run sampleConfig sampleCalls).FruitAncestor sampleOnce.blockHash sampleAgain.blockHash ∧
    ∃ l, (run sampleConfig sampleCalls).canonicalCoveredFruitOrder sampleCovering.coveredFruitHashes = .ok l ∧
      l.Perm [sampleOnce.blockHash, sampleAgain.blockHash] ∧
      (∀ before after, l = before ++ sampleAgain.blockHash :: after → sampleOnce.blockHash ∈ before) ∧
      (run sampleConfig (sampleCalls ++ [.fruit sampleLeft 90000 true])).canonicalCoveredFruitOrder
        sampleCovering.coveredFruitHashes = .ok l := by
  have hacc : acceptedBlocks sampleConfig .empty sampleCalls = [.anchor sampleGenesis, .fruit sampleFruit,
      .anchor samplePaying, .fruit sampleOnce, .fruit sampleAgain, .anchor sampleCovering] := by decide +kernel
  have hmem : (.anchor sampleCovering : Body sampleCrypto) ∈ acceptedBlocks sampleConfig .empty sampleCalls := by
    rw [hacc]
    simp
  have hcov : sampleCovering.coveredFruitHashes.Perm [sampleOnce.blockHash, sampleAgain.blockHash] := by decide +kernel
  have hload : (run sampleConfig sampleCalls).loadFruit sampleAgain.blockHash = some sampleAgain := by decide +kernel
  have hparents : (run sampleConfig sampleCalls).fruitParentsForDag sampleAgain = .ok [sampleOnce.blockHash] := by
    decide +kernel
  have hanc : (run sampleConfig sampleCalls).FruitAncestor sampleOnce.blockHash sampleAgain.blockHash :=
    .single ⟨sampleAgain, _, hload, hparents, List.mem_singleton_self _⟩
  obtain ⟨l, hl, hperm, htop, hlater⟩ :=
    (coveredOrder_run sampleCalls (by decide +kernel)).2 sampleCovering hmem
  refine ⟨hanc, l, hl, hperm.trans hcov, fun before after hsplit => ?_, hlater _ (by decide +kernel)⟩
  have honce : sampleOnce.blockHash ∈ l := (hperm.trans hcov).mem_iff.2 List.mem_cons_self
  exact htop (by decide +kernel) before _ after hsplit _ honce hanc

end TensorPow
