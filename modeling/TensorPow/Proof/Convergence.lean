import TensorPow.Proof.ActiveChain
import TensorPow.Proof.Atomic

/-!
# Whole runs

* `bodies_run`: a node has stored exactly the blocks its run accepted.
* `activeState_replay`: the active state is the replay of the active chain, and the
  replay of an accepted anchor never changes.
* `run_converges`: runs that accepted the same blocks end in the same active state.
-/

namespace TensorPow

open Wire Sorted

variable {C : Crypto} {cfg : Config} {n n' : Node C}

/-! ## Stored blocks are the accepted ones -/

/-- The hash a block is stored under. -/
def Body.hash : Body C → Hash
  | .fruit f => f.blockHash
  | .anchor a => a.blockHash

variable (cfg) in
/-- A call stores the block it accepts, under a hash that was free, and nothing else. -/
theorem step_bodies (hn : n.PoolOk) (e : Event C) :
    acceptedBlock cfg n e = none ∧ (step cfg n e).2.store.bodies = n.store.bodies ∨
    ∃ b, acceptedBlock cfg n e = some b ∧ n.store.bodies[b.hash]? = none ∧
      (step cfg n e).2.store.bodies = n.store.bodies.insert b.hash b := by
  have hfruit : ∀ f now writeOk,
      (n.processFruit cfg f now writeOk).1.isAccepted = false ∧
        (n.processFruit cfg f now writeOk).2.store.bodies = n.store.bodies ∨
      (n.processFruit cfg f now writeOk).1.isAccepted = true ∧ n.store.bodies[f.blockHash]? = none ∧
        (n.processFruit cfg f now writeOk).2.store.bodies = n.store.bodies.insert f.blockHash (.fruit f) := by
    intro f now writeOk
    rcases Node.processFruit_cases cfg now writeOk hn f with
      ⟨hrej, heq⟩ | ⟨plan, m, hplan, heq, -⟩
    · exact .inl ⟨hrej, by rw [heq]⟩
    · obtain ⟨coinbase, spends, hchk⟩ := Node.checkFruit_ok hplan
      rw [heq]
      exact .inr ⟨rfl, hchk.fresh, rfl⟩
  have hanchor : ∀ a now writeOk,
      (n.processAnchor cfg a now writeOk).1.isAccepted = false ∧
        (n.processAnchor cfg a now writeOk).2.store.bodies = n.store.bodies ∨
      (n.processAnchor cfg a now writeOk).1.isAccepted = true ∧ n.store.bodies[a.blockHash]? = none ∧
        (n.processAnchor cfg a now writeOk).2.store.bodies = n.store.bodies.insert a.blockHash (.anchor a) := by
    intro a now writeOk
    rcases Node.processAnchor_cases cfg now writeOk hn a with
      ⟨hrej, hsame⟩ | ⟨plan, hearly, hlate, hacc, hchain, -⟩
    · exact .inl ⟨hrej, by rw [hsame.store]⟩
    · refine .inr ⟨by rw [hacc]; rfl, (Node.checkAnchorEarly_ok hearly).fresh, ?_⟩
      rw [hchain.bodies, Node.bodies_afterAnchor, (Node.checkAnchorLate_ok hlate).hash, n.withFruitDag_same.bodies]
  -- bytes that decode are handled as the block, and others store nothing
  unfold acceptedBlock
  cases e with
  | rawTx data writeOk =>
    refine .inl ⟨by simp [Event.block], ?_⟩
    rcases Node.processRawTx_cases writeOk hn data with ⟨-, heq⟩ | ⟨tx, m, heq, -⟩
    · exact congrArg (fun k : Node C => k.store.bodies) heq
    · exact congrArg (fun r : Outcome × Node C => r.2.store.bodies) heq
  | fruit f now writeOk =>
    rcases hfruit f now writeOk with ⟨hrej, hsame⟩ | ⟨hacc, hfresh, hins⟩
    · exact .inl ⟨by rw [step, hrej]; rfl, hsame⟩
    · exact .inr ⟨.fruit f, by rw [step, hacc]; rfl, hfresh, hins⟩
  | fruitBytes data now writeOk =>
    cases hd : Fruit.deserialize (C := C) data with
    | error _ => simp [step, Node.processFruitBytes, Event.block, hd, Except.toOption]
    | ok f =>
      simp only [step, Node.processFruitBytes, Event.block, hd, Except.toOption, Option.map_some]
      rcases hfruit f now writeOk with ⟨hrej, hsame⟩ | ⟨hacc, hfresh, hins⟩
      · exact .inl ⟨by rw [hrej]; rfl, hsame⟩
      · exact .inr ⟨.fruit f, by rw [hacc]; rfl, hfresh, hins⟩
  | anchor a now writeOk =>
    rcases hanchor a now writeOk with ⟨hrej, hsame⟩ | ⟨hacc, hfresh, hins⟩
    · exact .inl ⟨by rw [step, hrej]; rfl, hsame⟩
    · exact .inr ⟨.anchor a, by rw [step, hacc]; rfl, hfresh, hins⟩
  | anchorBytes data now writeOk =>
    cases hd : Anchor.deserialize (C := C) data with
    | error _ => simp [step, Node.processAnchorBytes, Event.block, hd, Except.toOption]
    | ok a =>
      simp only [step, Node.processAnchorBytes, Event.block, hd, Except.toOption, Option.map_some]
      rcases hanchor a now writeOk with ⟨hrej, hsame⟩ | ⟨hacc, hfresh, hins⟩
      · exact .inl ⟨by rw [hrej]; rfl, hsame⟩
      · exact .inr ⟨.anchor a, by rw [hacc]; rfl, hfresh, hins⟩

/-- What calls after a reachable state store. -/
theorem bodies_calls (hn : n.PoolOk) (events : List (Event C)) (h : Hash) (b : Body C) :
    (events.foldl (fun n e => (step cfg n e).2) n).store.bodies[h]? = some b ↔
      n.store.bodies[h]? = some b ∨ b ∈ acceptedBlocks cfg n events ∧ b.hash = h := by
  induction events generalizing n with
  | nil => simp [acceptedBlocks]
  | cons e events ih =>
    have hnext : (step cfg n e).2.PoolOk := by
      rcases step_poolOk cfg hn e with ⟨-, hpool⟩ | ⟨-, hsame⟩
      · exact hpool
      · exact hn.unchanged hsame
    rw [List.foldl_cons, ih hnext, acceptedBlocks, List.mem_append]
    rcases step_bodies cfg hn e with ⟨hnone, hsame⟩ | ⟨c, hsome, hfresh, hins⟩
    · simp [hnone, hsame]
    · rw [hsome, hins, Table.get_insert]
      simp only [Option.toList_some, List.mem_singleton]
      by_cases hc : c.hash = h
      · subst hc
        rw [if_pos rfl, hfresh, Option.some.injEq]
        constructor
        · rintro (rfl | hmem)
          · exact .inr ⟨.inl rfl, rfl⟩
          · exact .inr ⟨.inr hmem.1, hmem.2⟩
        · rintro (hno | ⟨rfl | hmem, hh⟩)
          · cases hno
          · exact .inl rfl
          · exact .inr ⟨hmem, hh⟩
      · rw [if_neg hc]
        constructor
        · rintro (hold | ⟨hmem, hh⟩)
          · exact .inl hold
          · exact .inr ⟨.inr hmem, hh⟩
        · rintro (hold | ⟨rfl | hmem, hh⟩)
          · exact .inl hold
          · exact absurd hh hc
          · exact .inr ⟨hmem, hh⟩

/-- **A node has stored exactly the blocks its run accepted.** -/
theorem bodies_run (events : List (Event C)) (h : Hash) (b : Body C) :
    (run cfg events).store.bodies[h]? = some b ↔ b ∈ acceptedBlocks cfg .empty events ∧ b.hash = h := by
  unfold run
  rw [bodies_calls Node.poolOk_empty]
  change (∅ : Table Hash (Body C))[h]? = some b ∨ _ ↔ _
  simp

theorem grows_run (events later : List (Event C)) : (run cfg events).Grows (run cfg (events ++ later)) := by
  have hn : (run cfg events).PoolOk := Node.poolOk_of_reachable ⟨events, rfl⟩
  intro h b hb
  rw [run, List.foldl_append]
  exact (bodies_calls hn later h b).2 (.inl hb)

/-! ## The active state -/

/-- A hash that is never zero gives no stored block the zero hash. -/
theorem neverZero_run (hz : ∀ b, C.hashBytes b ≠ genesisParentHash) (events : List (Event C)) :
    (run cfg events).NeverZero := by
  refine Option.eq_none_iff_forall_ne_some.2 fun b hb => ?_
  have hzero := ((bodies_run events _ b).1 hb).2
  cases b with
  | fruit f => exact hz _ hzero
  | anchor a =>
    have hzero : a.blockHash = genesisParentHash := hzero
    unfold Anchor.blockHash at hzero
    split at hzero
    · exact hz _ hzero
    · exact hz _ hzero

theorem loadAnchor_accepted {events : List (Event C)} (hz : (run cfg events).NeverZero) {a : Anchor C}
    (ha : .anchor a ∈ acceptedBlocks cfg .empty events) : (run cfg events).loadAnchor a.blockHash = some a := by
  have hb := (bodies_run events a.blockHash (.anchor a)).2 ⟨ha, rfl⟩
  exact Node.loadAnchor_iff.2 ⟨hz.ne hb, hb⟩

/-- Replays agree between reachable states, one of which has stored all that the other has. -/
theorem rebuild_agree (hz : n'.NeverZero) (hn : Reachable cfg n) (hn' : Reachable cfg n') (hg : n.Grows n') {h : Hash}
    {a : Anchor C} (ha : n.loadAnchor h = some a) : n'.rebuildAnchorBranchState h = n.rebuildAnchorBranchState h := by
  have hi := Node.inv_of_reachable (hz.of_grows hg) hn
  have hi' := Node.inv_of_reachable hz hn'
  exact Node.rebuild_stable ⟨hi.fruits, hi.cache, hi'.fruits, hi'.cache, hg⟩ hi.anchors hi'.anchors ha

/-- **The active state is the replay of the active chain**, in every column and in memory.
Every anchor the run accepted, on whatever branch, can be replayed, and its replay gives
the same state whatever is accepted later. -/
theorem activeState_replay (events : List (Event C)) (hz : (run cfg events).NeverZero) :
    (∃ state, (run cfg events).rebuildAnchorBranchState (run cfg events).activeTip = .ok state ∧
      (run cfg events).Holds state) ∧
    ∀ a, .anchor a ∈ acceptedBlocks cfg .empty events → ∃ state, ∀ later, (run cfg (events ++ later)).NeverZero →
      (run cfg (events ++ later)).rebuildAnchorBranchState a.blockHash = .ok state := by
  have hi : (run cfg events).Inv := Node.inv_of_reachable hz ⟨events, rfl⟩
  refine ⟨hi.active.replayed, fun a ha => ?_⟩
  have hload := loadAnchor_accepted hz ha
  obtain ⟨state, hstate⟩ := hi.replay _ a hload
  refine ⟨state, fun later hlater => ?_⟩
  rw [rebuild_agree hlater ⟨events, rfl⟩ ⟨events ++ later, rfl⟩ (grows_run events later) hload, hstate]

/-- In the sample run the covering anchor is replayed, whatever follows. -/
theorem activeState_replay_sample : ∃ state, ∀ later, (run sampleConfig ([.anchor sampleGenesis 0 true,
    .fruit sampleFruit 30000 true, .anchor sampleNext 60000 true] ++ later)).rebuildAnchorBranchState
      sampleNext.blockHash = .ok state := by
  have hz : (run sampleConfig [.anchor sampleGenesis 0 true, .fruit sampleFruit 30000 true,
      .anchor sampleNext 60000 true]).NeverZero := by
    decide +kernel
  obtain ⟨state, hstate⟩ := (activeState_replay _ hz).2 sampleNext (by decide +kernel)
  exact ⟨state, fun later => hstate later (neverZero_run sampleCrypto_ne_zero _)⟩

/-! ## Convergence -/

/-- Two reachable states with the same blocks have the same active tip. -/
theorem activeTip_eq (hz : n.NeverZero) (hn : Reachable cfg n) (hn' : Reachable cfg n')
    (hbodies : n'.store.bodies = n.store.bodies) : n'.activeTip = n.activeTip := by
  have hz' : n'.NeverZero := by
    unfold Node.NeverZero
    rw [hbodies, hz]
  have hi := Node.inv_of_reachable hz hn
  have hi' := Node.inv_of_reachable hz' hn'
  have hg : n.Grows n' := by
    unfold Node.Grows
    rw [hbodies]
    exact Table.Ext.refl _
  have hload : ∀ x, n'.loadAnchor x = n.loadAnchor x := fun x => Node.loadAnchor_congr (by rw [hbodies])
  have hstored : ∀ p, n'.Stored p ↔ n.Stored p := by
    intro p
    unfold Node.Stored
    rw [hload]
    refine and_congr_right fun ⟨a, ha⟩ => ?_
    obtain ⟨l, hl⟩ := Node.exists_anchorChain hi.anchors ha
    obtain ⟨l', rfl, -⟩ := hl.head ha
    rw [Node.anchorMeta_agree hi.anchors hi'.anchors hg hl (p.1, a) List.mem_cons_self]
  rcases hi.active.stored with ⟨hzero, hnone⟩ | ⟨info, htip⟩
  · rcases hi'.active.stored with ⟨hzero', -⟩ | ⟨info', htip'⟩
    · rw [hzero, hzero']
    · obtain ⟨a, ha⟩ := ((hstored _).1 htip').1
      rw [hnone] at ha
      cases ha
  · rcases hi'.active.stored with ⟨-, hnone'⟩ | ⟨info', htip'⟩
    · obtain ⟨a, ha⟩ := ((hstored _).2 htip).1
      rw [hnone'] at ha
      cases ha
    · -- each tip is the greatest of the same stored anchors
      refine tipKey_fst (p := (_, info')) (q := (_, info)) (le_antisymm ?_ ?_)
      · exact hi.active.greatest info htip.2 _ ((hstored _).1 htip')
      · exact hi'.active.greatest info' htip'.2 _ ((hstored _).2 htip)

/-- **Convergence.** Two runs that accepted the same blocks, in whatever order and with
whatever rejections, raw transactions and reorganisations between, end in the same active
state. -/
theorem run_converges (events events' : List (Event C)) (hz : (run cfg events).NeverZero)
    (hsame : ∀ b, b ∈ acceptedBlocks cfg .empty events ↔ b ∈ acceptedBlocks cfg .empty events') :
    (run cfg events).activeTip = (run cfg events').activeTip ∧
    (run cfg events).anchorHeight = (run cfg events').anchorHeight ∧
    (run cfg events).mintedSupply = (run cfg events').mintedSupply ∧
    (run cfg events).shardTree = (run cfg events').shardTree ∧
    (run cfg events).store.feeFloors = (run cfg events').store.feeFloors ∧
    (run cfg events).utxoSet = (run cfg events').utxoSet ∧
    (run cfg events).store.utxo = (run cfg events').store.utxo ∧
    (run cfg events).store.coinbaseClaimed = (run cfg events').store.coinbaseClaimed := by
  have hn : Reachable cfg (run cfg events) := ⟨events, rfl⟩
  have hn' : Reachable cfg (run cfg events') := ⟨events', rfl⟩
  have hbodies : (run cfg events').store.bodies = (run cfg events).store.bodies := by
    refine Table.ext_get fun h => Option.ext fun b => ?_
    rw [bodies_run, bodies_run, hsame]
  have hz' : (run cfg events').NeverZero := by
    unfold Node.NeverZero
    rw [hbodies, hz]
  have htip := activeTip_eq hz hn hn' hbodies
  have hi := Node.inv_of_reachable hz hn
  obtain ⟨state, hstate, hholds⟩ := hi.active.replayed
  obtain ⟨state', hstate', hholds'⟩ := (Node.inv_of_reachable hz' hn').active.replayed
  -- both branches to the tip are replayed from the same blocks
  have heq : state' = state := by
    rw [htip] at hstate'
    rcases hi.active.stored with ⟨hzero, -⟩ | ⟨info, ⟨a, ha⟩, -⟩
    · rw [hzero, Node.rebuild_genesis] at hstate hstate'
      cases hstate
      cases hstate'
      rfl
    · have hg : (run cfg events).Grows (run cfg events') := by
        unfold Node.Grows
        rw [hbodies]
        exact Table.Ext.refl _
      rw [rebuild_agree hz' hn hn' hg ha, hstate] at hstate'
      cases hstate'
      rfl
  subst heq
  exact ⟨htip.symm, by rw [hholds.height, hholds'.height], by rw [hholds.minted, hholds'.minted],
    by rw [hholds.shardTree, hholds'.shardTree], by rw [hholds.feeFloors, hholds'.feeFloors],
    by rw [hholds.utxoSet, hholds'.utxoSet], by rw [hholds.utxoColumn, hholds'.utxoColumn],
    by rw [hholds.claimed, hholds'.claimed]⟩

/-- A fruit on top of the first one. -/
def sampleChild (time : ℕ)
    (h : (sampleFruitHeader sampleFruit.blockHash sampleGenesis.blockHash [sampleCoinbase.toBytes] time).postInit =
      .ok ()) : FruitFields :=
  ⟨⟨_, h⟩, [sampleCoinbase.toBytes]⟩

def sampleLeft : Fruit sampleCrypto := ⟨sampleChild 31000 (by decide +kernel), by decide +kernel⟩

def sampleRight : Fruit sampleCrypto := ⟨sampleChild 32000 (by decide +kernel), by decide +kernel⟩

/-- Two fruits in either order, with a rejected duplicate and a malformed transaction. -/
theorem run_converges_fork :
    (run sampleConfig [.anchor sampleGenesis 0 true, .fruit sampleFruit 30000 true, .anchor sampleNext 60000 true,
      .fruit sampleLeft 60000 true, .rawTx [] true, .fruit sampleRight 60000 true]).utxoSet =
    (run sampleConfig [.anchor sampleGenesis 0 true, .fruit sampleFruit 30000 true, .anchor sampleNext 60000 true,
      .fruit sampleRight 60000 true, .fruit sampleRight 60000 true, .fruit sampleLeft 60000 true]).utxoSet := by
  refine (run_converges _ _ (by decide +kernel) fun b => ?_).2.2.2.2.2.1
  have hleft : acceptedBlocks sampleConfig .empty [.anchor sampleGenesis 0 true, .fruit sampleFruit 30000 true,
      .anchor sampleNext 60000 true, .fruit sampleLeft 60000 true, .rawTx [] true, .fruit sampleRight 60000 true] =
      [.anchor sampleGenesis, .fruit sampleFruit, .anchor sampleNext, .fruit sampleLeft, .fruit sampleRight] := by
    decide +kernel
  have hright : acceptedBlocks sampleConfig .empty [.anchor sampleGenesis 0 true, .fruit sampleFruit 30000 true,
      .anchor sampleNext 60000 true, .fruit sampleRight 60000 true, .fruit sampleRight 60000 true,
      .fruit sampleLeft 60000 true] =
      [.anchor sampleGenesis, .fruit sampleFruit, .anchor sampleNext, .fruit sampleRight, .fruit sampleLeft] := by
    decide +kernel
  rw [hleft, hright]
  exact (((List.Perm.swap _ _ _).cons _).cons _).cons _ |>.mem_iff

end TensorPow
