import TensorPow.Proof.Conflicts
import TensorPow.Proof.Mempool

/-!
# Chains of anchors, step by step

* `AnchorRun`: a chain of applied anchors with everything each application read and computed.
* `AnchorStep.Consumes`: a spend applied by an anchor takes an entry out of the set.
* `spend_matured`: locks and coinbase maturity hold wherever an entry is consumed.
-/

namespace TensorPow

open Wire Sorted

variable {C : Crypto}

/-! ## Chains -/

/-- One anchor applied to a branch state. -/
structure AnchorStep (C : Crypto) where
  node : Node C
  anchor : Anchor C
  anchorHash : Hash
  target : Hash
  before : BranchState C
  result : Node.Applied C

/-- The anchors applied one after another from the empty state, each by a node in some
reachable state; the anchor at position `i` has height `i`. -/
inductive AnchorRun (cfg : Config) : List (AnchorStep C) → BranchState C → Prop where
  | empty : AnchorRun cfg [] BranchState.empty
  | apply {steps : List (AnchorStep C)} {step : AnchorStep C} :
      AnchorRun cfg steps step.before → Reachable cfg step.node →
      step.node.applyAnchor step.anchor step.anchorHash steps.length step.target step.before = .ok step.result →
      AnchorRun cfg (steps ++ [step]) step.result.state

namespace AnchorRun

variable {cfg : Config} {steps : List (AnchorStep C)} {state : BranchState C}

theorem next (h : AnchorRun cfg steps state) {n : Node C} {anchor : Anchor C} {anchorHash target : Hash} {k : ℕ}
    {r : Node.Applied C} (hn : Reachable cfg n) (happly : n.applyAnchor anchor anchorHash k target state = .ok r)
    (hk : steps.length = k) :
    AnchorRun cfg (steps ++ [⟨n, anchor, anchorHash, target, state, r⟩]) r.state := by
  subst hk
  exact @AnchorRun.apply _ cfg steps ⟨n, anchor, anchorHash, target, state, r⟩ h hn happly

/-- The anchor at position `i` was applied at height `i`. -/
theorem get (h : AnchorRun cfg steps state) {i : ℕ} {step : AnchorStep C} (hi : steps[i]? = some step) :
    Reachable cfg step.node ∧
    step.node.applyAnchor step.anchor step.anchorHash i step.target step.before = .ok step.result := by
  induction h with
  | empty => simp at hi
  | @apply steps last hrun hn happly ih =>
    rcases Nat.lt_trichotomy i steps.length with hlt | heq | hgt
    · rw [List.getElem?_append_left hlt] at hi
      exact ih hi
    · subst heq
      rw [List.getElem?_concat_length] at hi
      cases hi
      exact ⟨hn, happly⟩
    · rw [List.getElem?_eq_none (by simp; omega)] at hi
      cases hi

end AnchorRun

namespace AnchorStep

/-- The reward outputs the covered coinbases created: all but the anchor's own, which come
last. -/
def coinbaseUtxos (step : AnchorStep C) : List UTXO :=
  step.result.rewardUtxos.take (step.result.rewardUtxos.length - step.anchor.anchorRewardOutputs.length)

/-- The anchor, at its height, applies the covered spend `p`, which consumes the entry `u`. -/
def Consumes (step : AnchorStep C) (height : ℕ) (p : Node.CoveredSpend C) (u : UTXO) : Prop :=
  ∃ spends before after run, step.node.coveredSpends step.anchor.coveredFruitHashes = .ok spends ∧
    spends = before ++ p :: after ∧
    before.foldlM (Node.applySpend step.before.shardTree step.before.feeFloors height)
      (.start step.before.utxoSet) = .ok run ∧
    ¬Node.Skipped run p.tx ∧ ∃ o ∈ p.tx.spent, run.staged.get o = some u

end AnchorStep

/-! ## Locks -/

/-- An entry that can be spent has matured. -/
theorem Spendable.matured {view : UTXOSet C} {tx : Transaction} {time height : ℕ} {p : Input × ℕ} {u : UTXO}
    (h : Spendable view tx time height p) (hu : view.get p.1.previousOutpoint = some u) :
    (u.locktimeMs = 0 ∨ u.locktimeMs ≤ time) ∧ (u.lockheight = 0 ∨ u.lockheight ≤ height) := by
  obtain ⟨utxo, message, hget, -, hverify⟩ := h
  cases hget.symm.trans hu
  simp only [verifyUtxoSpend, verifyTemplate, guarded_true, checkLocks_ok] at hverify
  exact ⟨hverify.2.2.2.1.2.2.2.2.1, hverify.2.2.2.1.2.2.2.2.2⟩

theorem SpendApplied.matured {view view' : UTXOSet C} {tx : Transaction} {tree : ShardTree}
    {shardId floor time height tip : ℕ} {o : Outpoint} {u : UTXO}
    (h : SpendApplied view tx tree shardId floor time height view' tip) (ho : o ∈ tx.spent)
    (hu : view.get o = some u) :
    (u.locktimeMs = 0 ∨ u.locktimeMs ≤ time) ∧ (u.lockheight = 0 ∨ u.lockheight ≤ height) := by
  obtain ⟨i, hi, rfl⟩ := List.mem_map.1 ho
  obtain ⟨k, hk⟩ := List.mem_iff_getElem?.1 hi
  exact (h.spendable (i, k) (List.mk_mem_zipIdx_iff_getElem?.2 hk)).matured hu

/-- What a covered coinbase creates is locked for `COINBASE_MATURITY_ANCHORS` more anchors. -/
theorem AnchorStep.locked_coinbase {step : AnchorStep C} {height : ℕ} {u : UTXO}
    (h : step.node.applyAnchor step.anchor step.anchorHash height step.target step.before = .ok step.result)
    (hu : u ∈ step.coinbaseUtxos) : height + coinbaseMaturityAnchors ≤ u.lockheight := by
  obtain ⟨-, -, -, hclaim, -⟩ := Node.applyAnchor_ok h
  by_cases hcovered : step.anchor.coveredFruitHashes = []
  · unfold Node.claimAnchorRewards at hclaim
    rw [if_pos hcovered] at hclaim
    have hnil := (Prod.mk.inj (Exn.pure_ok.1 hclaim)).1
    rw [coinbaseUtxos, ← hnil] at hu
    simp at hu
  obtain ⟨-, -, -, infos, assignments, maturity, s, l, -, -, -, -, -, hmaturity, hloop, hl, -, -, -, hrewards, -⟩ :=
    Node.claimAnchorRewards_ok hclaim hcovered
  have hlen : l.length = step.anchor.anchorRewardOutputs.length := by
    have := congrArg List.length hl
    simpa using this.symm
  have hmem : u ∈ s.rewardUtxos := by
    rw [coinbaseUtxos, hrewards, List.length_append, hlen, Nat.add_sub_cancel, List.take_left] at hu
    exact hu
  have hmaturity : maturity = height + coinbaseMaturityAnchors := by
    obtain ⟨-, -, hmaturity⟩ := Exn.bind_ok.1 hmaturity
    exact (Exn.pure_ok.1 hmaturity).symm
  rw [← hmaturity]
  -- every output the loop files is locked until the maturity height
  refine Exn.foldlM_inv (fun _ (s : Node.ClaimRun) => ∀ u ∈ s.rewardUtxos, maturity ≤ u.lockheight) ?_ (by simp) hloop u hmem
  rintro done ⟨fruitHash, claim, coinbase⟩ todo s s' - ih hstep v hv
  obtain ⟨-, -, l', -, -, hl', -, -, rfl⟩ := Node.claimFruit_ok hstep
  rcases List.mem_append.1 hv with hv | hv
  · exact ih v hv
  · exact (utxosOfTx_filed hl').locked v hv

/-- **Coinbase maturity.** Wherever an applied spend consumes an entry, its locks have expired
at the height of the anchor and the time of the fruit, and an entry that a coinbase created
is consumed only `COINBASE_MATURITY_ANCHORS` anchors later. -/
theorem spend_matured {cfg : Config} {steps : List (AnchorStep C)} {state : BranchState C}
    (hrun : AnchorRun cfg steps state) {h : ℕ} {step : AnchorStep C} (hstep : steps[h]? = some step)
    {p : Node.CoveredSpend C} {u : UTXO} (hconsumes : step.Consumes h p u) :
    (u.lockheight ≠ 0 → u.lockheight ≤ h) ∧
    (u.locktimeMs ≠ 0 → u.locktimeMs ≤ p.fruit.header.timestampMs) ∧
    ∀ i creator, steps[i]? = some creator → u ∈ creator.coinbaseUtxos → i + coinbaseMaturityAnchors ≤ h := by
  obtain ⟨spends, before, after, run, hspends, rfl, hbefore, hnot, o, ho, hu⟩ := hconsumes
  obtain ⟨hn, happly⟩ := hrun.get hstep
  obtain ⟨-, -, hfruits, -⟩ := Node.applyAnchor_ok happly
  obtain ⟨spends', hspends', hloop, -⟩ := Node.applyAnchorFruits_spends hfruits
  cases hspends.symm.trans hspends'
  -- the loop got past this spend, so the spend was applied in the state before it
  obtain ⟨run', hrun', hrest⟩ := Exn.foldlM_append_ok.1 hloop
  cases hbefore.symm.trans hrun'
  obtain ⟨next, hnext, -⟩ := Exn.foldlM_cons_ok.1 hrest
  rcases Node.applyFruitTx_ok hnext with ⟨hskip, -⟩ | ⟨-, view, tip, l, staged, happlied, -⟩
  · exact absurd hskip hnot
  obtain ⟨htime, hheight⟩ := happlied.matured ho hu
  refine ⟨hheight.resolve_left, htime.resolve_left, fun i creator hi hcreated => ?_⟩
  have hlocked := AnchorStep.locked_coinbase (hrun.get hi).2 hcreated
  have hpos : 0 < coinbaseMaturityAnchors := by decide
  omega

/-- The anchor at height two consumes the reward of the anchor at height one, which has no
locks. -/
theorem spend_matured_reward : ∃ steps : List (AnchorStep sampleCrypto), ∃ state step p u,
    AnchorRun sampleConfig steps state ∧ steps[2]? = some step ∧ step.Consumes 2 p u ∧ p.tx = sampleParent ∧
    (u.lockheight ≠ 0 → u.lockheight ≤ 2) ∧
    ∀ i creator, steps[i]? = some creator → u ∈ creator.coinbaseUtxos → i + coinbaseMaturityAnchors ≤ 2 := by
  have hrun : (do
      let r₀ ← Node.empty.applyAnchor sampleGenesis sampleGenesis.blockHash 0 anchorInitialTargetLe .empty
      let r₁ ← sampleNode.applyAnchor samplePaying samplePaying.blockHash 1 anchorInitialTargetLe r₀.state
      let r₂ ← samplePaid.applyAnchor sampleSingle sampleSingle.blockHash 2 anchorInitialTargetLe r₁.state
      let spends ← samplePaid.coveredSpends sampleSingle.coveredFruitHashes
      return (spends.map Node.CoveredSpend.tx, sampleParent.spent.map fun o => (r₁.state.utxoSet.get o).isSome)) =
      .ok ([sampleParent], [true]) := by
    decide +kernel
  obtain ⟨r₀, h₀, hrun⟩ := Exn.bind_ok.1 hrun
  obtain ⟨r₁, h₁, hrun⟩ := Exn.bind_ok.1 hrun
  obtain ⟨r₂, h₂, hrun⟩ := Exn.bind_ok.1 hrun
  obtain ⟨spends, hspends, hrun⟩ := Exn.bind_ok.1 hrun
  obtain ⟨htxs, hget⟩ := Prod.mk.inj (Exn.pure_ok.1 hrun)
  obtain ⟨p, rfl, hp⟩ := List.map_eq_singleton_iff.1 htxs
  obtain ⟨o, ho, hsome⟩ := List.map_eq_singleton_iff.1 hget
  obtain ⟨u, hu⟩ := Option.isSome_iff_exists.1 hsome
  have hempty : Reachable sampleConfig (Node.empty : Node sampleCrypto) := ⟨[], rfl⟩
  have hnode : Reachable sampleConfig sampleNode := ⟨_, rfl⟩
  have hpaid : Reachable sampleConfig samplePaid := ⟨_, rfl⟩
  have c₀ := AnchorRun.empty.next hempty h₀ rfl
  have c₁ := c₀.next hnode h₁ rfl
  have hchain := c₁.next hpaid h₂ rfl
  have hconsumes : AnchorStep.Consumes ⟨samplePaid, sampleSingle, sampleSingle.blockHash, anchorInitialTargetLe,
      r₁.state, r₂⟩ 2 p u := by
    unfold AnchorStep.Consumes
    dsimp only
    refine ⟨[p], [], [], _, hspends, rfl, rfl, ?_, o, ?_, hu⟩
    · rintro ⟨x, -, hx | hx⟩ <;> simp [Node.FruitsRun.start] at hx
    · rw [hp, ho]
      exact List.mem_singleton_self o
  obtain ⟨hheight, -, hcoinbase⟩ := spend_matured hchain rfl hconsumes
  exact ⟨_, _, _, p, u, hchain, rfl, hconsumes, hp, hheight, hcoinbase⟩

end TensorPow
