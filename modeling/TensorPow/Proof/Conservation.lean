import TensorPow.Proof.Issuance
import TensorPow.Proof.Steps

/-!
# Conservation of value

Money enters the UTXO set through coinbase claims and anchor rewards only, and the
issuance of an anchor is at most the subsidy of its interval.

* `applyAnchorFruits_total`: the spends of an anchor pay their tips out of the set.
* `claimAnchorRewards_le`: the rewards are at most the issuance and the tips, the
  issuance at most the interval subsidy.
* `AnchorsApplied`: the states a chain of anchors leads to.
-/

namespace TensorPow

open Wire Sorted

variable {C : Crypto}

namespace Node

variable {cfg : Config} {n n' : Node C}

/-! ## The claims of stored fruits -/

/-- The metadata of a stored fruit holds what its coinbase claims. -/
def ClaimsOk (n : Node C) : Prop :=
  ∀ h claim coinbase, n.claimInfo h = .ok (claim, coinbase) → claim = coinbase.outputSum

theorem claimInfo_ok {h : Hash} {claim : ℕ} {coinbase : Transaction} :
    n.claimInfo h = .ok (claim, coinbase) ↔
      (∃ info, n.store.fruitMeta[h]? = some info ∧ info.coinbaseClaimMatoms = claim) ∧
      ∃ f raw, n.loadFruit h = some f ∧ f.transactions.head? = some raw ∧
        Transaction.fromBytes raw = .ok coinbase := by
  unfold claimInfo
  simp only [Exn.bind_ok, Exn.get_ok, rejecting_ok, Exn.pure_ok, Prod.mk.injEq]
  constructor
  · rintro ⟨info, hinfo, f, hf, raw, hraw, _, hcoinbase, hclaim, rfl⟩
    exact ⟨⟨info, hinfo, hclaim⟩, f, raw, hf, hraw, hcoinbase⟩
  · rintro ⟨⟨info, hinfo, hclaim⟩, f, raw, hf, hraw, hcoinbase⟩
    exact ⟨info, hinfo, f, hf, raw, hraw, _, hcoinbase, hclaim, rfl⟩

/-- The first transaction of a fruit is the first of its raw transactions. -/
theorem fruitTxs_head {f : Fruit C} {coinbase : Transaction} {spends : List Transaction} {raw : Bytes}
    (h : fruitTxs f = .ok (coinbase :: spends)) (hraw : f.transactions.head? = some raw) :
    Transaction.fromBytes raw = .ok coinbase := by
  unfold fruitTxs at h
  cases htx : f.transactions with
  | nil =>
    rw [htx] at hraw
    cases hraw
  | cons r rest =>
    rw [htx] at hraw h
    cases hraw
    obtain ⟨b, bs, hb, -, hcons⟩ := Exn.mapM_cons_ok.1 h
    cases hcons
    exact rejecting_ok.1 hb

theorem ClaimsOk.congr (h : ClaimsOk n) (hm : n'.store.fruitMeta = n.store.fruitMeta)
    (hb : ∀ h f, n'.loadFruit h = some f → n.loadFruit h = some f) : ClaimsOk n' := by
  intro x claim coinbase hx
  obtain ⟨hinfo, f, raw, hf, hraw⟩ := claimInfo_ok.1 hx
  exact h x claim coinbase (claimInfo_ok.2 ⟨hm ▸ hinfo, f, raw, hb x f hf, hraw⟩)

theorem ClaimsOk.step (h : ClaimsOk n) (hstep : n.ChainStep cfg n') : ClaimsOk n' := by
  cases hstep with
  | same hsame _ =>
    refine h.congr hsame.fruitMeta fun x f hf => ?_
    rwa [loadFruit_iff, hsame.bodies, ← loadFruit_iff] at hf
  | @fruit fruit _ plan hplan hsame _ =>
    obtain ⟨coinbase, spends, hchk⟩ := checkFruit_ok hplan
    have hb : n'.store.bodies = n.store.bodies.insert fruit.blockHash (.fruit fruit) := hsame.bodies
    have hm : n'.store.fruitMeta = n.store.fruitMeta.insert fruit.blockHash plan.info := hsame.fruitMeta
    intro x claim cb hx
    obtain ⟨⟨info, hinfo, rfl⟩, f, raw, hf, hraw, hcb⟩ := claimInfo_ok.1 hx
    rw [loadFruit_iff, hb, Table.get_insert] at hf
    rw [hm, Table.get_insert] at hinfo
    -- the new fruit was checked for its claim, the others were there
    by_cases heq : fruit.blockHash = x
    · rw [if_pos heq] at hf hinfo
      cases hf.2
      cases hinfo
      have := fruitTxs_head hchk.txs hraw
      rw [hcb] at this
      cases this
      exact hchk.claim
    · rw [if_neg heq] at hf hinfo
      exact h x _ cb (claimInfo_ok.2 ⟨⟨info, hinfo, rfl⟩, f, raw, loadFruit_iff.2 hf, hraw, hcb⟩)
  | @anchor anchor _ plan hearly hlate hsame _ =>
    have hb : n'.store.bodies = n.store.bodies.insert plan.anchorHash (.anchor anchor) := by
      rw [hsame.bodies, bodies_afterAnchor, n.withFruitDag_same.bodies]
    have hm : n'.store.fruitMeta = n.store.fruitMeta := by
      rw [hsame.fruitMeta, fruitMeta_afterAnchor, n.withFruitDag_same.fruitMeta]
    refine h.congr hm fun x f hf => ?_
    rw [loadFruit_iff, hb, Table.get_insert] at hf
    by_cases heq : plan.anchorHash = x
    · rw [if_pos heq] at hf
      cases hf.2
    · rw [if_neg heq] at hf
      exact loadFruit_iff.2 hf

theorem claimsOk (h : Reachable cfg n) : ClaimsOk n := by
  refine h.inv (P := ClaimsOk) ?_ fun n e hn => hn.step (step_cases cfg n e)
  intro x claim coinbase hx
  obtain ⟨⟨info, hinfo, -⟩, -⟩ := claimInfo_ok.1 hx
  rw [show (Node.empty : Node C).store.fruitMeta = ∅ from rfl, Table.get_empty] at hinfo
  cases hinfo

/-! ## The spends of an anchor -/

theorem total_addTip (t : Table Hash ℕ) (h : Hash) (v : ℕ) :
    Table.total id (t.insert h (t[h]?.getD 0 + v)) = Table.total id t + v := by
  cases hh : t[h]? with
  | none =>
    rw [Table.total_insert id t _ hh]
    simp [Nat.add_comm]
  | some w =>
    have herase : (t.erase h).insert h (w + v) = t.insert h (w + v) := by
      apply Table.ext_get
      intro a
      rw [Table.get_insert, Table.get_insert, Table.get_erase]
      split <;> rfl
    have hnone : (t.erase h)[h]? = none := by rw [Table.get_erase, if_pos rfl]
    have hw := Table.total_erase id t hh
    rw [Option.getD_some, ← herase, Table.total_insert id _ _ hnone]
    simp only [id] at hw ⊢
    omega

/-- The spends of an anchor pay their tips out of the set they start from. -/
theorem applyAnchorFruits_total {anchor : Anchor C} {staged : UTXOSet C} {shardTree : ShardTree}
    {feeFloors : Table ℕ ℕ} {height : ℕ} {run : FruitsRun C}
    (h : n.applyAnchorFruits anchor staged shardTree feeFloors height = .ok run) :
    run.staged.totalMatoms + Table.total id run.effectiveTips ≤ staged.totalMatoms := by
  refine applyAnchorFruits_inv (fun s => s.staged.totalMatoms + Table.total id s.effectiveTips ≤ staged.totalMatoms)
    (fun fruitHash fruit tx s s' _ _ hs hstep => ?_) ?_ h
  · rcases applyFruitTx_ok hstep with ⟨-, rfl⟩ | ⟨-, view, tip, l, staged', hspend, hl, hadd, rfl⟩
    · exact hs
    · have htotal := hspend.total
      have hadded := (UTXOSet.addAll_ok hadd).2.2.2.2
      have hsum := (utxosOfTx_filed hl).sum
      have htips := total_addTip s.effectiveTips fruitHash tip
      unfold Transaction.outputSum at htotal
      simp only [FruitsRun.apply]
      omega
  · simp

/-! ## The rewards of an anchor -/

/-- Claims whose outputs are covered by issuance and tips, with an issuance covered by the
assignments; `claim` is what the anchor itself claims. -/
structure ClaimRun.Covered (assignments tips : Table Hash ℕ) (claim : ℕ) (done : List Hash) (s : ClaimRun) :
    Prop where
  outputs : (s.rewardUtxos.map fun u => u.amountMatoms).sum + claim ≤
    s.mintedIncrement + (done.map fun h => tips[h]?.getD 0).sum
  issued : s.mintedIncrement ≤ claim + (done.map fun h => assignments[h]?.getD 0).sum

theorem ClaimRun.Covered.claimFruit {claimed assignments tips : Table Hash ℕ} {maturity claim : ℕ}
    {staged : UTXOSet C} {done : List Hash} {s s' : ClaimRun} {fruitHash : Hash} {fruitClaim : ℕ}
    {coinbase : Transaction} (hs : s.Covered assignments tips claim done)
    (hclaim : fruitClaim = coinbase.outputSum)
    (h : Node.claimFruit claimed assignments tips maturity staged s (fruitHash, fruitClaim, coinbase) = .ok s') :
    s'.Covered assignments tips claim (done ++ [fruitHash]) := by
  obtain ⟨-, assigned, l, hassigned, hle, hl, -, -, rfl⟩ := claimFruit_ok h
  have hsum := (utxosOfTx_filed hl).sum
  have houtputs := hs.outputs
  have hissued := hs.issued
  unfold Transaction.outputSum at hclaim
  constructor
  · simp only [ClaimRun.file, List.map_append, List.sum_append, List.map_cons, List.map_nil, List.sum_cons,
      List.sum_nil]
    omega
  · simp only [List.map_append, List.sum_append, List.map_cons, List.map_nil, List.sum_cons, List.sum_nil,
      hassigned, Option.getD_some]
    omega

/-- The reward keys of distinct fruits are as many as the fruits. -/
theorem length_rewardKeys {β : Type} {l : List (Hash × β)} (hl : (l.map Prod.fst).Nodup) (f : Hash × β → Hash) :
    (Table.putAll ∅ (l.map fun p => (p.1, f p))).toList.length = l.length := by
  have hnodup : ((l.map fun p => (p.1, f p)).map Prod.fst).Nodup := by
    rw [List.map_map]
    exact hl
  have := Table.total_putAll (fun _ => 1) ∅ (l.map fun p => (p.1, f p)) hnodup fun _ _ => Table.get_empty _
  simpa [Table.total, Function.comp_def] using this

theorem nodup_covered (anchor : Anchor C) : anchor.coveredFruitHashes.Nodup := by
  have := anchor.valid
  simp only [AnchorFields.postInit, Exn.bind_ok, Exn.ensure_ok] at this
  obtain ⟨-, hnodup, -⟩ := this
  exact hnodup

section Claims

variable {anchor : Anchor C} {target : Hash} {tips claimed assignments : Table Hash ℕ} {staged : UTXOSet C}
  {maturity subsidy fruitPool anchorPool claim : ℕ} {infos : List (Hash × ℕ × Transaction)} {s : ClaimRun}

/-- The claims of all covered fruits: their outputs are covered by issuance and tips, and
the issuance by the interval subsidy. -/
theorem claimFruits_le (hn : ClaimsOk n) (hne : anchor.coveredFruitHashes ≠ [])
    (hpools : rewardPools anchor.coveredFruitHashes.length subsidy target = .ok (fruitPool, anchorPool))
    (hclaim : claim ≤ anchorPool)
    (hinfos : (anchor.coveredFruitHashes.mapM fun h => do return (h, ← n.claimInfo h)) = .ok infos)
    (hassign : fruitSubsidyAssignments
      (Table.putAll ∅ (infos.map fun p => (p.1, coinbaseRewardKey (C := C) p.2.2))) subsidy target = .ok assignments)
    (hloop : infos.foldlM (claimFruit claimed assignments tips maturity staged) ⟨∅, [], claim⟩ = .ok s) :
    (s.rewardUtxos.map fun u => u.amountMatoms).sum + claim ≤ s.mintedIncrement + Table.total id tips ∧
      s.mintedIncrement ≤ subsidy := by
  have hcovered : infos.map Prod.fst = anchor.coveredFruitHashes := by
    refine Exn.map_mapM_ok (fun x p hp => ?_) hinfos
    obtain ⟨_, -, hp⟩ := Exn.bind_ok.1 hp
    rw [← Exn.pure_ok.1 hp]
  have hnodup := nodup_covered anchor
  have hmeta : ∀ p ∈ infos, p.2.1 = p.2.2.outputSum := by
    intro p hp
    obtain ⟨x, -, hx⟩ := (Exn.mapM_ok_mem hinfos).2 p hp
    obtain ⟨q, hq, hx⟩ := Exn.bind_ok.1 hx
    rw [← Exn.pure_ok.1 hx]
    exact hn x q.1 q.2 hq
  have hrun : s.Covered assignments tips claim (infos.map Prod.fst) := by
    refine Exn.foldlM_inv (fun done s => ClaimRun.Covered assignments tips claim (done.map Prod.fst) s)
      (fun done p todo t t' hl ht hstep => ?_) ⟨by simp, by simp⟩ hloop
    rw [List.map_append]
    exact ht.claimFruit (hmeta p (by simp [hl])) hstep
  have htips := Table.sum_getD_le_total tips hnodup
  have hassigned := Table.sum_getD_le_total assignments hnodup
  rw [hcovered] at hrun
  have houtputs := hrun.outputs
  have hissued := hrun.issued
  -- the assignments add up to the fruit pool of the same split
  have hlen : (Table.putAll ∅ (infos.map fun p => (p.1, coinbaseRewardKey (C := C) p.2.2))).toList.length =
      anchor.coveredFruitHashes.length := by
    have hfst : (infos.map Prod.fst).Nodup := hcovered ▸ hnodup
    rw [length_rewardKeys hfst fun p : Hash × ℕ × Transaction => coinbaseRewardKey (C := C) p.2.2,
      ← hcovered, List.length_map]
  obtain ⟨fruitPool', anchorPool', hpools', htotal⟩ := total_fruitSubsidyAssignments hassign (by
    intro e
    rw [e] at hlen
    exact hne (List.length_eq_zero_iff.1 hlen.symm))
  rw [hlen, hpools] at hpools'
  cases hpools'
  have hsplit := rewardPools_split hpools
  constructor <;> omega

end Claims

section Rewards

variable {anchor : Anchor C} {anchorHash target : Hash} {height minted : ℕ} {tips claimed : Table Hash ℕ}
  {staged : UTXOSet C}

/-- **Issuance.** The rewards of an anchor are at most its issuance and the tips of its
fruits, and its issuance is at most the subsidy of its interval. -/
theorem claimAnchorRewards_le {rewards : List UTXO} {increment : ℕ} (hn : ClaimsOk n)
    (h : n.claimAnchorRewards anchor anchorHash height target tips staged minted claimed = .ok (rewards, increment)) :
    (rewards.map fun u => u.amountMatoms).sum ≤ increment + Table.total id tips ∧
      (anchor.coveredFruitHashes = [] ∧ increment = 0 ∨
        ∃ subsidy, intervalSubsidyMatoms height minted = .ok subsidy ∧ increment ≤ subsidy) := by
  by_cases hne : anchor.coveredFruitHashes = []
  · unfold claimAnchorRewards at h
    rw [if_pos hne] at h
    cases h
    exact ⟨by simp, .inl ⟨hne, rfl⟩⟩
  obtain ⟨subsidy, fruitPool, anchorPool, infos, assignments, maturity, s, l, hsub, hpools, hpool, hinfos, hassign,
    -, hloop, hl, -, -, -, rfl, rfl⟩ := claimAnchorRewards_ok h hne
  have hown := (filed_of_ok hl).sum
  obtain ⟨houtputs, hissued⟩ := claimFruits_le hn hne hpools hpool hinfos hassign hloop
  refine ⟨?_, .inr ⟨subsidy, hsub, hissued⟩⟩
  rw [List.map_append, List.sum_append, hown]
  omega

/-- Not the rejection of the supply cap. -/
def NotCap (s : Stop) : Prop := s.Only (· ≠ .supplyCapExceeded)

/-- The supply cap is never what stops the claims: the issuance fits under it. -/
theorem claimAnchorRewards_notCap (hn : ClaimsOk n) :
    Exn.Post (n.claimAnchorRewards anchor anchorHash height target tips staged minted claimed) (fun _ => True)
      NotCap := by
  unfold claimAnchorRewards
  split
  · exact Exn.Post.pure trivial
  rename_i hne
  refine (raising_only _).bind fun subsidy _ hsub => ?_
  refine (raising_only _).bind fun pools _ hpools => ?_
  refine (rejecting_only (by decide) _).bind fun claim _ _ => ?_
  refine (rejectUnless_only (by decide)).bind fun _ _ hclaim => ?_
  refine Exn.Post.bind (P := fun _ => True) ?_ fun infos hinfos _ => ?_
  · refine (Exn.Post.mapM (Q := fun _ => True) fun h _ => ?_).mono (fun _ _ => trivial) fun _ he => he
    refine Exn.Post.bind (P := fun _ => True) ?_ fun _ _ _ => Exn.Post.pure trivial
    refine (get_only (by decide) _).bind fun _ _ _ => (get_only (by decide) _).bind fun _ _ _ => ?_
    refine (Exn.Post.get fun _ r hr => by cases hr).bind fun _ _ _ => ?_
    exact (rejecting_only (by decide) _).bind fun _ _ _ => Exn.Post.pure trivial
  refine (raising_only _).bind fun assignments _ hassign => (raising_only _).bind fun maturity _ _ => ?_
  refine Exn.Post.bind (P := fun _ => True) ?_ fun s hloop _ => ?_
  · refine Exn.Post.foldlM (fun _ _ => True) trivial fun _ p _ s _ _ => ?_
    refine (rejectUnless_only (by decide)).bind fun _ _ _ => (raising_only _).bind fun _ _ _ => ?_
    refine (rejectUnless_only (by decide)).bind fun _ _ _ => Exn.Post.foldlM (fun _ _ => True) trivial ?_
    intro _ u _ s _ _
    refine (raising_only _).bind fun _ _ _ => (rejectUnless_only (by decide)).bind fun _ _ _ => Exn.Post.pure trivial
  refine Exn.Post.bind (P := fun _ => True) ?_ fun s' hrewards _ => ?_
  · refine Exn.Post.foldlM (fun _ _ => True) trivial fun _ u _ s _ _ => ?_
    refine (raising_only _).bind fun _ _ _ => (rejectUnless_only (by decide)).bind fun _ _ _ => Exn.Post.pure trivial
  -- the last check: what was issued is at most the subsidy, which leaves room under the cap
  have hcap : minted + s'.mintedIncrement ≤ maxSupplyMatoms := by
    obtain ⟨l, hl⟩ := claimOutputs_all hrewards
    rw [hl, claimOutputs_ok] at hrewards
    obtain ⟨-, -, rfl⟩ := hrewards
    obtain ⟨-, hissued⟩ := claimFruits_le hn hne hpools hclaim hinfos hassign hloop
    obtain ⟨-, hmax, hs⟩ := intervalSubsidyMatoms_ok hsub
    have hroom : subsidy ≤ maxSupplyMatoms - minted := by rw [hs]; exact min_le_right _ _
    have : (s.file l).mintedIncrement = s.mintedIncrement := rfl
    omega
  rw [rejectUnless, Exn.ensure_of _ hcap, Exn.ok_bind]
  exact Exn.Post.pure trivial

/-- Reading the fruit DAG never rejects. -/
theorem fruitDag_only (R : Reject → Prop) : Exn.Post n.fruitDag (fun _ => True) (Stop.Only R) := by
  have hadd : ∀ depth s h, Exn.Post (n.addFruit depth s h) (fun _ => True) (Stop.Only R) := by
    intro depth
    induction depth with
    | zero => exact fun s h => stop_only _ fun r hr => by cases hr
    | succ depth ih =>
      intro s h
      unfold addFruit
      split
      · exact Exn.Post.ok trivial
      split
      · exact stop_only _ fun r hr => by cases hr
      refine (Exn.Post.get fun _ r hr => by cases hr).bind fun fruit _ _ => ?_
      refine Exn.Post.bind (P := fun _ => True) ?_ fun parents _ _ => ?_
      · refine (Exn.Post.get fun _ r hr => by cases hr).bind fun _ _ _ => ?_
        split
        · exact Exn.Post.pure trivial
        · exact stop_only _ fun r hr => by cases hr
      -- the parents are added first, one level down
      refine (Exn.Post.foldlM (fun _ _ => True) trivial fun _ p _ s _ _ => ih s p).bind fun s _ _ => ?_
      split
      · exact Exn.Post.pure trivial
      · exact stop_only _ fun r hr => by cases hr
  unfold fruitDag
  split
  · exact Exn.Post.ok trivial
  · unfold buildFruitDag
    refine (Exn.Post.foldlM (fun _ _ => True) trivial fun _ h _ s _ _ => hadd _ s h).bind fun s _ _ => ?_
    exact Exn.Post.pure trivial

theorem applySpendTx_notCap {view : UTXOSet C} {tx : Transaction} {shardTree : ShardTree}
    {shardId floor time height : ℕ} :
    Exn.Post (applySpendTx view tx shardTree shardId floor time height) (fun _ => True) NotCap := by
  unfold applySpendTx
  refine (raising_only _).bind fun _ _ _ => (rejectUnless_only (by decide)).bind fun _ _ _ => ?_
  refine (rejecting_only (by decide) _).bind fun _ _ _ => ?_
  refine Exn.Post.bind (P := fun _ => True) ?_ fun _ _ _ => ?_
  · refine Exn.Post.foldlM (fun _ _ => True) trivial fun _ p _ s _ _ => ?_
    refine (rejectUnless_only (by decide)).bind fun _ _ _ => ?_
    split
    · exact fun r hr => by cases hr; decide
    · refine (raising_only _).bind fun _ _ _ => (rejectUnless_only (by decide)).bind fun _ _ _ => ?_
      exact Exn.Post.pure trivial
  refine (rejectUnless_only (by decide)).bind fun _ _ _ => (rejectUnless_only (by decide)).bind fun _ _ _ => ?_
  exact (raising_only _).bind fun _ _ _ => Exn.Post.pure trivial

theorem applyFruitTx_notCap {shardTree : ShardTree} {floor height : ℕ} {fruitHash : Hash} {fruit : Fruit C}
    {s : FruitsRun C} {tx : Transaction} :
    Exn.Post (applyFruitTx shardTree floor height fruitHash fruit s tx) (fun _ => True) NotCap := by
  unfold applyFruitTx
  dsimp only
  split
  · exact Exn.Post.pure trivial
  refine applySpendTx_notCap.bind fun _ _ _ => ?_
  refine Exn.Post.bind (P := fun _ => True) ?_ fun _ _ _ => Exn.Post.pure trivial
  refine Exn.Post.foldlM (fun _ _ => True) trivial fun _ u _ acc _ _ => ?_
  split
  · exact Exn.Post.ok trivial
  · exact fun r hr => by cases hr; decide
  · exact fun r hr => by cases hr; decide
  · exact stop_only _ fun r hr => by cases hr

theorem applyAnchorFruits_notCap {shardTree : ShardTree} {feeFloors : Table ℕ ℕ} :
    Exn.Post (n.applyAnchorFruits anchor staged shardTree feeFloors height) (fun _ => True) NotCap := by
  unfold applyAnchorFruits
  refine Exn.Post.bind (P := fun _ => True) (noneAs_only (by decide) ?_) fun ordered _ _ => ?_
  · unfold canonicalCoveredFruitOrder
    refine (fruitDag_only _).bind fun _ _ _ => (raising_only _).bind fun _ _ _ => ?_
    refine (Exn.Post.ensure fun _ r hr => by cases hr).bind fun _ _ _ => ?_
    exact (raising_only _).mono (fun _ _ => trivial) fun _ he => he
  refine Exn.Post.foldlM (fun _ _ => True) trivial fun _ h _ s _ _ => ?_
  unfold applyFruit
  refine (get_only (by decide) _).bind fun _ _ _ => ?_
  refine Exn.Post.bind (P := fun _ => True) ?_ fun txs _ _ => ?_
  · refine (Exn.Post.mapM (Q := fun _ => True) fun raw _ => ?_).mono (fun _ _ => trivial) fun _ he => he
    exact (rejecting_only (by decide) _).mono (fun _ _ => trivial) fun _ he => he
  exact Exn.Post.foldlM (fun _ _ => True) trivial fun _ tx _ s _ _ => applyFruitTx_notCap

theorem applyAnchor_notCap {state : BranchState C} (hn : ClaimsOk n) :
    Exn.Post (n.applyAnchor anchor anchorHash height target state) (fun _ => True) NotCap := by
  unfold applyAnchor anchorTree
  refine Exn.Post.bind (P := fun _ => True) ?_ fun _ _ _ => ?_
  · refine (rejecting_only (by decide) _).bind fun _ _ _ => ?_
    exact (rejectUnless_only (by decide)).bind fun _ _ _ => Exn.Post.pure trivial
  refine (raising_only _).bind fun _ _ _ => applyAnchorFruits_notCap.bind fun run _ _ => ?_
  refine (claimAnchorRewards_notCap hn).bind fun _ _ _ => (raising_only _).bind fun _ _ _ => ?_
  exact Exn.Post.pure trivial

end Rewards

/-- One anchor keeps the UTXO set below the minted supply. -/
theorem applyAnchor_total {anchor : Anchor C} {anchorHash : Hash} {height : ℕ} {target : Hash}
    {state : BranchState C} {r : Applied C} (hn : ClaimsOk n)
    (h : n.applyAnchor anchor anchorHash height target state = .ok r)
    (hstate : state.utxoSet.totalMatoms ≤ state.mintedSupply) :
    r.state.utxoSet.totalMatoms ≤ r.state.mintedSupply := by
  obtain ⟨-, -, hrun, hclaim, hadd, -, -, -, hminted, -, -⟩ := applyAnchor_ok h
  have htotal := applyAnchorFruits_total hrun
  have hrewards := (claimAnchorRewards_le hn hclaim).1
  have hadded := (UTXOSet.addAll_ok hadd).2.2.2.2
  omega

theorem applyAnchor_issued {anchor : Anchor C} {anchorHash : Hash} {height : ℕ} {target : Hash}
    {state : BranchState C} {r : Applied C} (hn : ClaimsOk n)
    (h : n.applyAnchor anchor anchorHash height target state = .ok r) :
    anchor.coveredFruitHashes = [] ∧ r.mintedIncrement = 0 ∨
      ∃ subsidy, intervalSubsidyMatoms height state.mintedSupply = .ok subsidy ∧ r.mintedIncrement ≤ subsidy := by
  obtain ⟨-, -, -, hclaim, -⟩ := applyAnchor_ok h
  exact (claimAnchorRewards_le hn hclaim).2

end Node

/-! ## Chains of anchors -/

/-- The states that anchors applied one after another at heights 0, 1, 2, … lead to. Each
anchor is applied by a node in some reachable state. -/
inductive AnchorsApplied (cfg : Config) : ℕ → BranchState C → Prop where
  | empty : AnchorsApplied cfg 0 BranchState.empty
  | apply {k : ℕ} {state state' : BranchState C} {n : Node C} {anchor : Anchor C} {anchorHash target : Hash} :
      AnchorsApplied cfg k state → Reachable cfg n →
      n.applyAnchorToBranch anchor anchorHash k target state = .ok state' → AnchorsApplied cfg (k + 1) state'

namespace AnchorsApplied

variable {cfg : Config} {k : ℕ} {state : BranchState C}

/-- After `k` anchors the height is `k - 1`, and the supply is bounded by the schedule. -/
theorem supply (h : AnchorsApplied cfg k state) : state.height = k - 1 ∧
    state.utxoSet.totalMatoms ≤ state.mintedSupply ∧
    state.mintedSupply ≤ ∑ i ∈ Finset.Icc 1 (k - 1), scheduledSubsidy i := by
  induction h with
  | empty => exact ⟨rfl, by simp [BranchState.empty, UTXOSet.totalMatoms, UTXOSet.empty], Nat.zero_le _⟩
  | @apply k state state' n anchor anchorHash target _ hn happly ih =>
    obtain ⟨hheight, htotal, hminted⟩ := ih
    obtain ⟨r, hr, rfl⟩ := Node.applyAnchorToBranch_ok.1 happly
    have hok := Node.claimsOk hn
    obtain ⟨-, -, -, -, -, hheight', -, -, hminted', -, -⟩ := Node.applyAnchor_ok hr
    refine ⟨by rw [hheight', Nat.add_sub_cancel], Node.applyAnchor_total hok hr htotal, ?_⟩
    rw [hminted', Nat.add_sub_cancel]
    rcases Node.applyAnchor_issued hok hr with ⟨-, h0⟩ | ⟨subsidy, hsub, hle⟩
    · have : ∑ i ∈ Finset.Icc 1 (k - 1), scheduledSubsidy i ≤ ∑ i ∈ Finset.Icc 1 k, scheduledSubsidy i :=
        Finset.sum_le_sum_of_subset (Finset.Icc_subset_Icc_right (Nat.sub_le _ _))
      omega
    · obtain ⟨hpos, -, hs⟩ := intervalSubsidyMatoms_ok hsub
      obtain ⟨j, rfl⟩ : ∃ j, k = j + 1 := ⟨k - 1, by omega⟩
      rw [Nat.add_sub_cancel] at hminted
      rw [sum_scheduledSubsidy_succ]
      have : subsidy ≤ scheduledSubsidy (j + 1) := by rw [hs]; exact min_le_left _ _
      omega

end AnchorsApplied

/-- **Conservation.** Along every chain of anchors the UTXO set holds at most what was
minted, which is at most what the schedule issues up to the height, which is at most the
supply cap. The next anchor issues at most the subsidy of its interval and is never
rejected for the cap, and every spend splits its fee into the burned part and the tip. -/
theorem anchorsApplied_conserves {cfg : Config} {k : ℕ} {state : BranchState C}
    (h : AnchorsApplied cfg k state) :
    state.utxoSet.totalMatoms ≤ state.mintedSupply ∧
    state.mintedSupply ≤ ∑ i ∈ Finset.Icc 1 state.height, scheduledSubsidy i ∧
    ∑ i ∈ Finset.Icc 1 state.height, scheduledSubsidy i ≤ maxSupplyMatoms ∧
    (∀ (n : Node C) anchor anchorHash target, Reachable cfg n →
      n.applyAnchorToBranch anchor anchorHash k target state ≠ .error (.reject .supplyCapExceeded) ∧
      ∀ r, n.applyAnchor anchor anchorHash k target state = .ok r →
        anchor.coveredFruitHashes = [] ∧ r.mintedIncrement = 0 ∨
        ∃ subsidy, intervalSubsidyMatoms k state.mintedSupply = .ok subsidy ∧ r.mintedIncrement ≤ subsidy) ∧
    (∀ (view spent : UTXOSet C) tx shardTree shardId floor time height tip,
      applySpendTx view tx shardTree shardId floor time height = .ok (spent, tip) →
      tx.outputSum ≤ inputSum view tx ∧
      inputSum view tx - tx.outputSum = burnedFeeMatoms floor tx.toBytes.length + tip) := by
  obtain ⟨hheight, htotal, hminted⟩ := h.supply
  refine ⟨htotal, by rw [hheight]; exact hminted, sum_scheduledSubsidy_le _, ?_, ?_⟩
  · intro n anchor anchorHash target hn
    have hok := Node.claimsOk hn
    refine ⟨fun hcap => ?_, fun r hr => Node.applyAnchor_issued hok hr⟩
    have hpost : Exn.Post (n.applyAnchorToBranch anchor anchorHash k target state) (fun _ => True) Node.NotCap :=
      (Node.applyAnchor_notCap hok).bind fun _ _ _ => Exn.Post.pure trivial
    rw [hcap] at hpost
    exact hpost _ rfl rfl
  · intro view spent tx shardTree shardId floor time height tip hspend
    have := (applySpendTx_ok hspend).balance
    omega

/-! ## A small chain -/

/-- A polynomial checksum in place of BLAKE3, never zero. -/
def sampleHash (b : Bytes) : Hash :=
  FixedBytes.ofNat 32 (1 + b.foldl (fun acc x => (acc * 257 + x.val + 1) % (2 ^ 255 - 19)) 7)

/-- The checksum, and signatures that always verify. -/
def sampleCrypto : Crypto := ⟨sampleHash, fun _ _ _ => true⟩

/-- A root that is known to exist. -/
def rootOf (x : Except PyError Hash) : Hash :=
  match x with
  | .ok h => h
  | .error _ => genesisParentHash

/-- The zero fee floor of the root shard. -/
def zeroFloor : FeeFloorEntry := ⟨⟨0, 0⟩, by decide⟩

/-- The header of an anchor over one shard without a fee floor. -/
def sampleAnchorHeader (parent : Hash) (covered candidates : List Hash) (rewards : List Output) (time : ℕ) :
    AnchorHeaderFields where
  version := 0
  parentAnchor := parent
  fruitSetRoot := rootOf (orderedMerkleRoot sampleCrypto domainFruitSetRoot (covered.map FixedBytes.bytes) true)
  parentCandidateRoot :=
    rootOf (orderedMerkleRoot sampleCrypto domainParentCandidateRoot (candidates.map FixedBytes.bytes) true)
  shardTreeStateRoot := sampleCrypto.domainHash domainShardTree ShardTree.root.serialize
  feeFloorSetRoot := rootOf (orderedMerkleRoot sampleCrypto domainFeeFloor [zeroFloor.serialize] false)
  anchorRewardRoot :=
    rootOf (orderedMerkleRoot sampleCrypto domainAnchorRewardRoot (rewards.map Output.toBytes) false)
  timestampMs := time
  nonce := 0

/-- An anchor over one shard without a fee floor. -/
def sampleAnchor (parent : Hash) (covered candidates : List Hash) (rewards : List Output) (time : ℕ)
    (commitment : Hash)
    (h : (sampleAnchorHeader parent covered candidates rewards time).postInit = .ok ()) : AnchorFields where
  header := ⟨_, h⟩
  coveredFruitHashes := covered
  parentCandidateHashes := candidates
  shardTreeBytes := ShardTree.root.serialize
  feeFloorEntries := [zeroFloor]
  anchorRewardOutputs := rewards
  genesisCommitment := commitment

/-- The genesis anchor. -/
def sampleGenesis : Anchor sampleCrypto :=
  ⟨sampleAnchor genesisParentHash [] [] [] 0 (FixedBytes.ofNat 32 1) (by decide), by decide +kernel⟩

/-- Every proof of work is accepted. -/
def sampleConfig : Config := ⟨fun _ _ => true, some sampleGenesis.blockHash⟩

theorem sampleOutput_valid :
    (⟨1, .pkh, 0, 0, (FixedBytes.ofNat 32 5).bytes⟩ : OutputFields).postInit = .ok () := by decide +kernel

/-- A coinbase that claims one unit. -/
def sampleCoinbase : Transaction :=
  ⟨⟨0, 0, 0, 0, [], [⟨⟨1, .pkh, 0, 0, (FixedBytes.ofNat 32 5).bytes⟩, sampleOutput_valid⟩]⟩, by decide +kernel⟩

/-- The header of a fruit with an empty bitmap. -/
def sampleFruitHeader (parent latest : Hash) (transactions : List Bytes) (time : ℕ) : FruitHeaderFields where
  version := 0
  sigTypeSupported := 1
  parentSelected := parent
  parentBitmap := []
  latestAnchor := latest
  txMerkleRoot := rootOf (txMerkleRoot sampleCrypto transactions)
  timestampMs := time
  shardId := 0
  nonce := 0

/-- The first fruit. -/
def sampleFruit : Fruit sampleCrypto :=
  ⟨⟨⟨sampleFruitHeader genesisParentHash sampleGenesis.blockHash [sampleCoinbase.toBytes] 30000, by decide +kernel⟩,
    [sampleCoinbase.toBytes]⟩, by decide +kernel⟩

/-- The anchor that covers it. -/
def sampleNext : Anchor sampleCrypto :=
  ⟨sampleAnchor sampleGenesis.blockHash [sampleFruit.blockHash] [sampleFruit.blockHash] [] 60000 genesisParentHash
    (by decide +kernel), by decide +kernel⟩

/-- The node that has accepted the genesis anchor and the first fruit. -/
def sampleNode : Node sampleCrypto :=
  run sampleConfig [.anchor sampleGenesis 0 true, .fruit sampleFruit 30000 true]

/-- The chain of the two anchors mints one unit, within the schedule. -/
theorem anchorsApplied_conserves_two : ∃ state : BranchState sampleCrypto,
    AnchorsApplied sampleConfig 2 state ∧ state.mintedSupply = 1 ∧
    state.utxoSet.totalMatoms ≤ state.mintedSupply ∧
    state.mintedSupply ≤ ∑ i ∈ Finset.Icc 1 state.height, scheduledSubsidy i := by
  have hrun : (do
      let s ← Node.empty.applyAnchorToBranch sampleGenesis sampleGenesis.blockHash 0 anchorInitialTargetLe .empty
      let s ← sampleNode.applyAnchorToBranch sampleNext sampleNext.blockHash 1 anchorInitialTargetLe s
      return s.mintedSupply) = .ok 1 := by
    decide +kernel
  obtain ⟨s₁, h₁, hrun⟩ := Exn.bind_ok.1 hrun
  obtain ⟨s₂, h₂, hrun⟩ := Exn.bind_ok.1 hrun
  have happlied : AnchorsApplied sampleConfig 2 s₂ := .apply (.apply .empty ⟨[], rfl⟩ h₁) ⟨_, rfl⟩ h₂
  obtain ⟨htotal, hminted, -⟩ := anchorsApplied_conserves happlied
  exact ⟨s₂, happlied, Exn.pure_ok.1 hrun, htotal, hminted⟩

end TensorPow
