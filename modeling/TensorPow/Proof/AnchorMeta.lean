import TensorPow.Proof.ActiveChain

/-!
# Anchor metadata

The node stores height, target and work of an anchor when it accepts it, computed from
its parent and the last `ANCHOR_HISTORY_LOOKBACK` anchors; `_derive_anchor_meta` computes
them over the whole chain.

* `nextAnchorTarget_window`: the next target depends on that window alone.
* `derive_chain`: the derivation over a stored chain finds what is stored.
* `anchorMeta_consistent`: in every reachable state, for every stored anchor; work grows
  along parent links, so the active tip has no child.
-/

namespace TensorPow

open Wire Sorted

variable {C : Crypto}

/-! ## Targets and weights -/

/-- Only the last records count for the next target. -/
theorem nextAnchorTarget_window (history : List AnchorRecord) {k : ℕ} (hk : wtemaWindowAnchors + 1 ≤ k) :
    nextAnchorTarget (history.drop (history.length - k)) = nextAnchorTarget history := by
  have hnormal : normalizeHistory (history.drop (history.length - k)) = normalizeHistory history := by
    unfold normalizeHistory
    rw [List.drop_drop, List.length_drop]
    congr 1
    omega
  unfold nextAnchorTarget
  rw [hnormal]

theorem anchorWorkWeight_ok {target : Hash} {weight : ℕ} (h : anchorWorkWeight target = .ok weight) :
    requireTarget target = .ok () ∧ 1 ≤ weight ∧ weight ≤ u64Max := by
  unfold anchorWorkWeight targetToInt at h
  simp only [Exn.bind_ok, Exn.pure_ok] at h
  obtain ⟨t, ⟨⟨⟩, htarget, rfl⟩, rfl⟩ := h
  obtain ⟨hmin, hmax⟩ := Exn.ensure_ok.1 htarget
  have hpos : 0 < target.toNat := hmin
  have hquot : 1 ≤ anchorMaxTarget / target.toNat := (Nat.one_le_div_iff hpos).2 hmax
  refine ⟨htarget, ?_, min_le_right _ _⟩
  exact le_min hquot (by decide)

theorem AnchorHeader.timestamp_le (header : AnchorHeader) : header.timestampMs ≤ u64Max := by
  have hvalid := header.valid
  simp only [AnchorHeaderFields.postInit, requireUint, Exn.bind_ok, Exn.ensure_ok] at hvalid
  obtain ⟨-, -, -, htime, -⟩ := hvalid
  exact htime

namespace Node

variable {n : Node C} {h : Hash} {a : Anchor C} {l : List (Hash × Anchor C)}

/-! ## The derivation over a chain -/

/-- The record of a stored anchor under its stored target. -/
def storedRecord (n : Node C) (p : Hash × Anchor C) : AnchorRecord :=
  ⟨p.1, p.2.header.parentAnchor, p.2.header.timestampMs, (n.store.anchorMeta[p.1]?.map AnchorMeta.target).getD p.1⟩

theorem storedRecord_eq {p : Hash × Anchor C} {info : AnchorMeta} (hi : n.store.anchorMeta[p.1]? = some info) :
    n.storedRecord p = ⟨p.1, p.2.header.parentAnchor, p.2.header.timestampMs, info.target⟩ := by
  unfold storedRecord
  rw [hi]
  rfl

/-- A stored anchor has a record. -/
theorem anchorRecord_stored (hn : AnchorsOk n) {p : Hash × Anchor C} (hp : n.loadAnchor p.1 = some p.2) {info : AnchorMeta}
    (hi : n.store.anchorMeta[p.1]? = some info) : anchorRecord p.1 p.2 info.target = .ok (n.storedRecord p) := by
  obtain ⟨info', hinfo', parentWork, weight, -, hweight, -⟩ := (hn p.1 p.2 hp).info
  cases hi.symm.trans hinfo'
  rw [storedRecord_eq hi]
  refine anchorRecord_ok.2 ⟨rfl, ?_⟩
  unfold AnchorRecord.postInit
  rw [requireU64, Exn.ensure_of _ p.2.header.timestamp_le, Exn.ok_bind]
  exact (anchorWorkWeight_ok hweight).1

/-- The history of a stored anchor is the end of the whole chain. -/
theorem anchorHistory_stored (hn : AnchorsOk n) (ha : n.loadAnchor h = some a) (hc : AnchorChain n h l) :
    n.anchorHistory h = .ok ((l.take anchorHistoryLookback).reverse.map n.storedRecord) := by
  rw [anchorHistory_eq hc (loadAnchor_iff.1 ha).1]
  refine Exn.mapM_eq_map fun p hp => ?_
  have hp := hc.mem p (List.mem_of_mem_take (List.mem_reverse.1 hp))
  obtain ⟨info, hinfo, -⟩ := (hn p.1 p.2 hp).info
  unfold historyRecord
  rw [anchorMeta_eq hinfo, Exn.ok_bind]
  exact anchorRecord_stored hn hp hinfo

/-- The bounded history gives the target of the whole one. -/
theorem nextAnchorTarget_chain (l : List (Hash × Anchor C)) :
    nextAnchorTarget ((l.take anchorHistoryLookback).reverse.map n.storedRecord) =
      nextAnchorTarget (l.reverse.map n.storedRecord) := by
  have hdrop : (l.take anchorHistoryLookback).reverse.map n.storedRecord =
      (l.reverse.map n.storedRecord).drop ((l.reverse.map n.storedRecord).length - anchorHistoryLookback) := by
    rw [List.reverse_take, ← List.map_drop, List.length_map, List.length_reverse]
  rw [hdrop]
  exact nextAnchorTarget_window _ (by decide)

theorem deriveStep_eq {acc : List AnchorRecord × ℕ} {target : Hash} {record : AnchorRecord} {work : ℕ}
    (ha : n.loadAnchor h = some a)
    (htarget : (if a.isGenesis then .ok anchorInitialTargetLe else raising (nextAnchorTarget acc.1)) = .ok target)
    (hrecord : anchorRecord h a target = .ok record) (hwork : anchorWorkWeight record.target = .ok work) :
    n.deriveStep acc h = .ok (acc.1 ++ [record], acc.2 + work) := by
  unfold deriveStep
  rw [ha, Exn.get_some, Exn.ok_bind]
  by_cases hgen : a.isGenesis
  · rw [if_pos hgen] at htarget ⊢
    rw [htarget, Exn.ok_bind]
    dsimp only
    rw [hrecord, Exn.ok_bind, raising_eq hwork]
    rfl
  · rw [if_neg hgen] at htarget ⊢
    rw [htarget, Exn.ok_bind]
    dsimp only
    rw [hrecord, Exn.ok_bind, raising_eq hwork]
    rfl

/-- The position of an anchor, by the whole chain below it. -/
theorem position_chain (hn : AnchorsOk n) (ha : n.loadAnchor h = some a) (hl : AnchorChain n a.header.parentAnchor l)
    {work : ℕ} (hzero : l = [] → work = 0)
    (hparent : ∀ info, n.store.anchorMeta[a.header.parentAnchor]? = some info → l ≠ [] →
      info.height + 1 = l.length ∧ info.cumulativeWork = work)
    {height : ℕ} {target : Hash} {parentWork : ℕ} (hpos : n.anchorPosition a = .ok (height, target, parentWork)) :
    (if a.isGenesis then .ok anchorInitialTargetLe
      else raising (nextAnchorTarget (l.reverse.map n.storedRecord))) = .ok target ∧
    height = l.length ∧ parentWork = work := by
  unfold anchorPosition at hpos
  by_cases hgen : a.isGenesis
  · rw [if_pos hgen] at hpos ⊢
    simp only [Except.ok.injEq, Prod.mk.injEq] at hpos
    obtain ⟨rfl, rfl, rfl⟩ := hpos
    have hnil : l = [] := by
      rw [(genesis_fields hgen).1] at hl
      exact hl.unique .nil
    exact ⟨rfl, by rw [hnil]; rfl, (hzero hnil).symm⟩
  · rw [if_neg hgen] at hpos ⊢
    obtain ⟨pa, hpa, -⟩ := (hn h a ha).parent hgen
    obtain ⟨pinfo, hpinfo, -⟩ := (hn _ pa hpa).info
    rw [anchorMeta_eq hpinfo, Exn.ok_bind, anchorHistory_stored hn hpa hl, Exn.ok_bind, nextAnchorTarget_chain] at hpos
    obtain ⟨target', htarget, hpos⟩ := Exn.bind_ok.1 hpos
    simp only [Exn.pure_ok, Prod.mk.injEq] at hpos
    obtain ⟨rfl, rfl, rfl⟩ := hpos
    have hne : l ≠ [] := by
      obtain ⟨l', rfl, -⟩ := hl.head hpa
      exact List.cons_ne_nil _ _
    obtain ⟨hph, hpw⟩ := hparent pinfo hpinfo hne
    exact ⟨htarget, hph, hpw⟩

/-- **Deriving the metadata of a stored chain** goes through every stored record and ends
at the stored work; the height is the position. -/
theorem derive_chain (hn : AnchorsOk n) (hc : AnchorChain n h l) :
    ∃ work, (l.map Prod.fst).reverse.foldlM n.deriveStep ([], 0) = .ok (l.reverse.map n.storedRecord, work) ∧
      (l = [] → work = 0) ∧
      ∀ info, n.store.anchorMeta[h]? = some info → l ≠ [] → info.height + 1 = l.length ∧ info.cumulativeWork = work := by
  induction hc with
  | nil => exact ⟨0, rfl, fun _ => rfl, fun info _ hne => absurd rfl hne⟩
  | @cons h a l ha hl ih =>
    obtain ⟨work, hfold, hzero, hparent⟩ := ih
    obtain ⟨info, hinfo, parentWork, weight, hpos, hweight, hwork⟩ := (hn h a ha).info
    have hrecord : anchorRecord h a info.target = .ok (n.storedRecord (h, a)) :=
      anchorRecord_stored (p := (h, a)) hn ha hinfo
    obtain ⟨htarget, hheight, rfl⟩ := position_chain hn ha hl hzero hparent hpos
    have hwt : anchorWorkWeight (n.storedRecord (h, a)).target = .ok weight := by
      have heq : n.storedRecord (h, a) = ⟨h, a.header.parentAnchor, a.header.timestampMs, info.target⟩ :=
        storedRecord_eq hinfo
      rw [heq]
      exact hweight
    have hstep : n.deriveStep (l.reverse.map n.storedRecord, parentWork) h =
        .ok (l.reverse.map n.storedRecord ++ [n.storedRecord (h, a)], parentWork + weight) :=
      deriveStep_eq ha htarget hrecord hwt
    refine ⟨parentWork + weight, ?_, fun hnil => absurd hnil (List.cons_ne_nil _ _), fun info' hinfo' _ => ?_⟩
    · rw [List.map_cons, List.reverse_cons, List.reverse_cons, List.map_append]
      exact Exn.foldlM_append_ok.2 ⟨_, hfold, Exn.foldlM_cons_ok.2 ⟨_, hstep, rfl⟩⟩
    · cases hinfo.symm.trans hinfo'
      exact ⟨by rw [List.length_cons, hheight], hwork⟩

/-- The stored metadata is what `_derive_anchor_meta` computes. -/
theorem deriveAnchorMeta_eq (hn : AnchorsOk n) (ha : n.loadAnchor h = some a) {info : AnchorMeta}
    (hinfo : n.store.anchorMeta[h]? = some info) : n.deriveAnchorMeta h = .ok info := by
  obtain ⟨l, hl⟩ := exists_anchorChain hn ha
  obtain ⟨l', rfl, hl'⟩ := hl.head ha
  obtain ⟨work, hfold, -, hstored⟩ := derive_chain hn hl
  obtain ⟨hheight, hwork⟩ := hstored info hinfo (List.cons_ne_nil _ _)
  have hrecord : n.storedRecord (h, a) = ⟨h, a.header.parentAnchor, a.header.timestampMs, info.target⟩ :=
    storedRecord_eq hinfo
  unfold deriveAnchorMeta
  rw [anchorChainHashes_eq hl, Exn.ok_bind, Exn.ensure_of _ (by simp), Exn.ok_bind, hfold, Exn.ok_bind]
  dsimp only
  rw [List.reverse_cons, List.map_append, List.map_singleton, List.getLast?_concat, hrecord]
  dsimp only
  rw [List.length_append, List.length_map, List.length_reverse, List.length_singleton, ← hwork]
  rw [List.length_cons] at hheight
  have hlen : l'.length + 1 - 1 = info.height := by omega
  rw [hlen]
  rfl

/-! ## Work along parent links -/

/-- An anchor is one above its parent and has more work. -/
theorem meta_above (hn : AnchorsOk n) (ha : n.loadAnchor h = some a) {pa : Anchor C}
    (hpa : n.loadAnchor a.header.parentAnchor = some pa) :
    ∃ info pinfo, n.store.anchorMeta[h]? = some info ∧ n.store.anchorMeta[a.header.parentAnchor]? = some pinfo ∧
      info.height = pinfo.height + 1 ∧ pinfo.cumulativeWork < info.cumulativeWork ∧
      tipKey (a.header.parentAnchor, pinfo) < tipKey (h, info) := by
  obtain ⟨info, hinfo, parentWork, weight, hpos, hweight, hwork⟩ := (hn h a ha).info
  obtain ⟨pinfo, hpinfo, -⟩ := (hn _ pa hpa).info
  have hgen : ¬a.isGenesis := by
    intro hgen
    rw [(genesis_fields hgen).1] at hpa
    exact (loadAnchor_iff.1 hpa).1 rfl
  unfold anchorPosition at hpos
  rw [if_neg hgen, anchorMeta_eq hpinfo, Exn.ok_bind] at hpos
  obtain ⟨history, -, hpos⟩ := Exn.bind_ok.1 hpos
  obtain ⟨target, -, hpos⟩ := Exn.bind_ok.1 hpos
  simp only [Exn.pure_ok, Prod.mk.injEq] at hpos
  obtain ⟨hheight, -, rfl⟩ := hpos
  obtain ⟨-, hpositive, -⟩ := anchorWorkWeight_ok hweight
  have hlt : pinfo.cumulativeWork < info.cumulativeWork := by omega
  refine ⟨info, pinfo, hinfo, hpinfo, hheight.symm, hlt, ?_⟩
  exact Prod.Lex.toLex_lt_toLex.2 (.inl hlt)

end Node

/-- **Anchor metadata is consistent** in every reachable state: what is stored is what the
derivation over the whole chain computes; along parent links heights grow by one and work
grows, so an anchor is a better tip than its parent, and the active tip has no child. -/
theorem anchorMeta_consistent {cfg : Config} {n : Node C} (hzero : n.NeverZero) (hreach : Reachable cfg n) :
    (∀ h a, n.loadAnchor h = some a →
      ∃ info, n.store.anchorMeta[h]? = some info ∧ n.deriveAnchorMeta h = .ok info) ∧
    (∀ h a pa, n.loadAnchor h = some a → n.loadAnchor a.header.parentAnchor = some pa →
      ∃ info pinfo, n.store.anchorMeta[h]? = some info ∧ n.store.anchorMeta[a.header.parentAnchor]? = some pinfo ∧
        info.height = pinfo.height + 1 ∧ pinfo.cumulativeWork < info.cumulativeWork ∧
        isBetterAnchorTip h info (some (a.header.parentAnchor, pinfo)) = true) ∧
    (∀ h a, n.loadAnchor h = some a → ¬a.isGenesis → ∃ pa, n.loadAnchor a.header.parentAnchor = some pa) ∧
    ∀ tip, n.store.anchorTip = some tip → ∀ h a, n.loadAnchor h = some a → a.header.parentAnchor ≠ tip := by
  have hinv := Node.inv_of_reachable hzero hreach
  refine ⟨fun h a ha => ?_, fun h a pa ha hpa => ?_, fun h a ha hgen => ?_, fun tip htip h a ha hparent => ?_⟩
  · obtain ⟨info, hinfo, -⟩ := (hinv.anchors h a ha).info
    exact ⟨info, hinfo, Node.deriveAnchorMeta_eq hinv.anchors ha hinfo⟩
  · obtain ⟨info, pinfo, hinfo, hpinfo, hheight, hlt, hkey⟩ := Node.meta_above hinv.anchors ha hpa
    exact ⟨info, pinfo, hinfo, hpinfo, hheight, hlt, isBetterAnchorTip_iff.2 hkey⟩
  · obtain ⟨pa, hpa, -⟩ := (hinv.anchors h a ha).parent hgen
    exact ⟨pa, hpa⟩
  · have hactive : n.activeTip = tip := by
      unfold Node.activeTip
      rw [htip]
      rfl
    -- a child of the tip would be greater than the greatest stored anchor
    rcases hinv.active.stored with ⟨-, hnone⟩ | ⟨tipInfo, ⟨ta, hta⟩, -⟩
    · rw [hnone h] at ha
      cases ha
    · dsimp only at hta
      rw [hactive, ← hparent] at hta
      obtain ⟨info, pinfo, hinfo, hpinfo, -, -, hkey⟩ := Node.meta_above hinv.anchors ha hta
      rw [hparent, ← hactive] at hpinfo hkey
      have hle := hinv.active.greatest pinfo hpinfo (h, info) ⟨⟨a, ha⟩, hinfo⟩
      exact absurd hkey (not_lt.2 hle)

/-- The node that has accepted the genesis anchor, a fruit and the anchor over it. -/
def sampleChain : Node sampleCrypto :=
  run sampleConfig [.anchor sampleGenesis 0 true, .fruit sampleFruit 30000 true, .anchor sampleNext 60000 true]

theorem anchorMeta_consistent_chain :
    (∀ h ∈ [sampleGenesis.blockHash, sampleNext.blockHash],
      ∃ info, sampleChain.store.anchorMeta[h]? = some info ∧ sampleChain.deriveAnchorMeta h = .ok info) ∧
    (∃ info pinfo, sampleChain.store.anchorMeta[sampleNext.blockHash]? = some info ∧
      sampleChain.store.anchorMeta[sampleGenesis.blockHash]? = some pinfo ∧ info.height = pinfo.height + 1 ∧
      pinfo.cumulativeWork < info.cumulativeWork ∧
      isBetterAnchorTip sampleNext.blockHash info (some (sampleGenesis.blockHash, pinfo)) = true) ∧
    sampleChain.store.anchorTip = some sampleNext.blockHash ∧
    ∀ h a, sampleChain.loadAnchor h = some a → a.header.parentAnchor ≠ sampleNext.blockHash := by
  have hgenesis : sampleChain.loadAnchor sampleGenesis.blockHash = some sampleGenesis := by decide +kernel
  have hnext : sampleChain.loadAnchor sampleNext.blockHash = some sampleNext := by decide +kernel
  have htip : sampleChain.store.anchorTip = some sampleNext.blockHash := by decide +kernel
  have hreach : Reachable sampleConfig sampleChain := ⟨_, rfl⟩
  obtain ⟨hderived, hlinks, -, hchildless⟩ := anchorMeta_consistent (by decide +kernel) hreach
  have hparent : sampleNext.header.parentAnchor = sampleGenesis.blockHash := by decide +kernel
  have hlink := hlinks sampleNext.blockHash sampleNext sampleGenesis hnext (by rw [hparent, hgenesis])
  rw [hparent] at hlink
  refine ⟨fun h hh => ?_, hlink, htip, hchildless _ htip⟩
  rcases List.mem_pair.1 hh with rfl | rfl
  · exact hderived _ _ hgenesis
  · exact hderived _ _ hnext

end TensorPow
