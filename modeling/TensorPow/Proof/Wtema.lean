import TensorPow.Proof.AnchorMeta

/-!
# The target adjustment

* `wtemaRatioFp_mono`, `wtemaRatioFp_steady`: the ratio grows with the intervals, and is one
  when they are all as long as they should be.
* `adjustedTarget_bounds`, `adjustedTarget_mono`: the clamps keep the order.
* `nextAnchorTarget_eq`: the next target of a valid history as a function of its window.
* `nextAnchorTarget_adjusts`: the adjustment is total, bounded, local, steady and monotone.
-/

namespace TensorPow

open Wire

/-! ## The ratio -/

theorem clampInterval_mono {a b : ℕ} (h : a ≤ b) : clampInterval a ≤ clampInterval b :=
  min_le_min_right _ (max_le_max_right _ h)

/-- Longer intervals give a greater ratio, through every rounding. -/
theorem wtemaRatioFp_mono {l l' : List ℕ} (h : List.Forall₂ (· ≤ ·) l l') : wtemaRatioFp l ≤ wtemaRatioFp l' := by
  have hgo : ∀ {l l' : List ℕ}, List.Forall₂ (· ≤ ·) l l' → ∀ {r r' : ℕ}, r ≤ r' →
      l.foldl (fun ratioFp intervalMs => (7 * ratioFp + 1 * (intervalMs * fixedPointScale / anchorIntervalMs)) / 8) r ≤
      l'.foldl (fun ratioFp intervalMs => (7 * ratioFp + 1 * (intervalMs * fixedPointScale / anchorIntervalMs)) / 8) r' := by
    intro l l' h
    induction h with
    | nil =>
      intro r r' hr
      exact hr
    | cons hab _ ih =>
      intro r r' hr
      rw [List.foldl_cons, List.foldl_cons]
      apply ih
      have hsample := Nat.div_le_div_right (c := anchorIntervalMs) (Nat.mul_le_mul_right fixedPointScale hab)
      apply Nat.div_le_div_right
      omega
  exact hgo h le_rfl

/-- Intervals of the right length leave the ratio at one. -/
theorem wtemaRatioFp_steady {l : List ℕ} (h : ∀ d ∈ l, d = anchorIntervalMs) : wtemaRatioFp l = fixedPointScale := by
  unfold wtemaRatioFp
  induction l with
  | nil => rfl
  | cons d l ih =>
    rw [List.forall_mem_cons] at h
    have hsample : anchorIntervalMs * fixedPointScale / anchorIntervalMs = fixedPointScale :=
      Nat.mul_div_cancel_left _ (by decide)
    have hone : (7 * fixedPointScale + 1 * fixedPointScale) / 8 = fixedPointScale := by
      have height : 7 * fixedPointScale + 1 * fixedPointScale = 8 * fixedPointScale := by ring
      rw [height, Nat.mul_div_cancel_left _ (by decide)]
    rw [List.foldl_cons, h.1, hsample, hone]
    exact ih h.2

/-! ## The clamps -/

/-- The adjusted target is within the bounds and within a factor of four. -/
theorem adjustedTarget_bounds {previous : ℕ} (hmin : anchorMinTarget ≤ previous) (hmax : previous ≤ anchorMaxTarget)
    (ratio : ℕ) : anchorMinTarget ≤ adjustedTarget previous ratio ∧ adjustedTarget previous ratio ≤ anchorMaxTarget ∧
      (previous + 3) / 4 ≤ adjustedTarget previous ratio ∧ adjustedTarget previous ratio ≤ 4 * previous := by
  have hbounds : anchorMinTarget ≤ anchorMaxTarget := hmin.trans hmax
  have hone : anchorMinTarget = 1 := rfl
  unfold adjustedTarget
  have hfour : wtemaMaxAdjustmentFactor = 4 := rfl
  dsimp only
  rw [hfour]
  generalize max 1 (previous * ratio / fixedPointScale) = adjusted
  omega

theorem adjustedTarget_mono (previous : ℕ) {ratio ratio' : ℕ} (h : ratio ≤ ratio') :
    adjustedTarget previous ratio ≤ adjustedTarget previous ratio' := by
  have hscaled := Nat.div_le_div_right (c := fixedPointScale) (Nat.mul_le_mul_left previous h)
  unfold adjustedTarget
  dsimp only
  exact min_le_min_right _ (max_le_max_right _ (min_le_min_right _ (max_le_max_right _ (max_le_max_left _ hscaled))))

theorem adjustedTarget_steady {previous : ℕ} (hmin : anchorMinTarget ≤ previous) (hmax : previous ≤ anchorMaxTarget) :
    adjustedTarget previous fixedPointScale = previous := by
  have hone : anchorMinTarget = 1 := rfl
  have hfour : wtemaMaxAdjustmentFactor = 4 := rfl
  have hscaled : previous * fixedPointScale / fixedPointScale = previous := Nat.mul_div_cancel _ (by decide)
  unfold adjustedTarget
  dsimp only
  rw [hscaled, hfour]
  omega

/-! ## Histories -/

/-- The records pass their checks, follow the parent links and are strictly increasing in
time. -/
structure ValidHistory (history : List AnchorRecord) : Prop where
  records : ∀ r ∈ history, r.postInit = .ok ()
  linked : history.IsChain fun a b => b.parentAnchor = a.anchorHash
  increasing : history.IsChain fun a b => a.timestampMs < b.timestampMs

/-- The intervals between the last `WTEMA_TARGET_HISTORY_RECORDS` records. -/
def windowIntervals (history : List AnchorRecord) : List ℕ :=
  let records := history.drop (history.length - (wtemaWindowAnchors + 1))
  (records.zip records.tail).map fun p => p.2.timestampMs - p.1.timestampMs

theorem recentIntervals_eq (history : List AnchorRecord) :
    recentIntervals (normalizeHistory history) = (windowIntervals history).map clampInterval := by
  have hlen : (normalizeHistory history).length ≤ wtemaWindowAnchors + 1 := by
    unfold normalizeHistory
    rw [List.length_drop]
    omega
  have hnone : max 1 ((normalizeHistory history).length - wtemaWindowAnchors) - 1 = 0 := by omega
  unfold recentIntervals
  rw [hnone, List.drop_zero]
  unfold windowIntervals
  rw [List.map_map]
  rfl

/-- The checks of the loop, from any record on. -/
theorem validateParentChain_ok {records : List AnchorRecord} {seen : List Hash} {previous : Option AnchorRecord}
    (hdistinct : (records.map fun r => r.anchorHash).Nodup) (hnew : ∀ r ∈ records, r.anchorHash ∉ seen)
    (hlinked : (previous.toList ++ records).IsChain fun a b => b.parentAnchor = a.anchorHash)
    (hincreasing : (previous.toList ++ records).IsChain fun a b => a.timestampMs < b.timestampMs) :
    validateParentChain seen previous records = .ok () := by
  induction records generalizing seen previous with
  | nil => rfl
  | cons record records ih =>
    rw [List.map_cons, List.nodup_cons] at hdistinct
    rw [List.forall_mem_cons] at hnew
    have hrest : validateParentChain (record.anchorHash :: seen) (some record) records = .ok () := by
      refine ih hdistinct.2 ?_ ?_ ?_
      · intro r hr hmem
        rcases List.mem_cons.1 hmem with heq | hmem
        · exact hdistinct.1 (List.mem_map.2 ⟨r, hr, heq⟩)
        · exact hnew.2 r hr hmem
      · exact hlinked.suffix (List.suffix_append _ _)
      · exact hincreasing.suffix (List.suffix_append _ _)
    unfold validateParentChain
    rw [Exn.ensure_of _ hnew.1, Exn.ok_bind]
    cases previous with
    | none => exact hrest
    | some previous =>
      have hparent : record.parentAnchor = previous.anchorHash := (List.isChain_cons_cons.1 hlinked).1
      have htime : previous.timestampMs < record.timestampMs := (List.isChain_cons_cons.1 hincreasing).1
      dsimp only
      rw [Exn.ensure_of _ hparent, Exn.ok_bind, Exn.ensure_of _ htime, Exn.ok_bind]
      exact hrest

/-- **The next target of a valid history** is adjusted by the intervals of its window. -/
theorem nextAnchorTarget_eq {history : List AnchorRecord} (h : ValidHistory history)
    (hdistinct : ((normalizeHistory history).map fun r => r.anchorHash).Nodup) {last : AnchorRecord}
    (hlast : history.getLast? = some last) :
    nextAnchorTarget history = .ok (FixedBytes.ofNat 32
      (adjustedTarget last.target.toNat (wtemaRatioFp ((windowIntervals history).map clampInterval)))) := by
  have hpost := h.records last (List.mem_of_getLast? hlast)
  simp only [AnchorRecord.postInit, Exn.bind_ok] at hpost
  obtain ⟨-, -, htarget⟩ := hpost
  obtain ⟨hmin, hmax⟩ := Exn.ensure_ok.1 htarget
  have hsuffix : normalizeHistory history <:+ history := List.drop_suffix _ _
  -- the checks see the last records only
  have hvalidate : validateParentChain [] none (normalizeHistory history) = .ok () := by
    refine validateParentChain_ok hdistinct (fun r _ hmem => by cases hmem) ?_ ?_
    · exact h.linked.suffix hsuffix
    · exact h.increasing.suffix hsuffix
  have hnormal : (normalizeHistory history).getLast? = some last := by
    unfold normalizeHistory
    rw [List.getLast?_drop, if_neg, hlast]
    have hne : history ≠ [] := by
      rintro rfl
      cases hlast
    have hpos := List.length_pos_iff.2 hne
    omega
  obtain ⟨hamin, hamax, -, -⟩ := adjustedTarget_bounds hmin hmax
    (wtemaRatioFp ((windowIntervals history).map clampInterval))
  unfold nextAnchorTarget
  dsimp only
  rw [hnormal]
  dsimp only
  rw [hvalidate, Exn.ok_bind]
  split
  · -- a single record has no interval, and its target is the one adjusted by nothing
    rename_i hsingle
    have hnone : windowIntervals history = [] := by
      obtain ⟨r, hr⟩ := List.length_eq_one_iff.1 hsingle
      unfold normalizeHistory at hr
      unfold windowIntervals
      rw [hr]
      rfl
    have hone : wtemaRatioFp [] = fixedPointScale := rfl
    rw [hnone, List.map_nil, hone, adjustedTarget_steady hmin hmax, FixedBytes.ofNat_toNat]
    rfl
  · unfold targetToInt intToTarget
    rw [htarget, recentIntervals_eq]
    show (do Exn.ensure _ _; _) = _
    rw [Exn.ensure_of _ ⟨hamin, hamax⟩]
    rfl

/-- What the next target should be: within the bounds and within a factor of four of the last
target, fixed by the last records, equal to the last target when every interval of the window
has the right length, and no greater than that of a history with longer intervals. -/
structure Adjusts (history : List AnchorRecord) (target : Hash) : Prop where
  bounds : anchorMinTarget ≤ target.toNat ∧ target.toNat ≤ anchorMaxTarget
  factor : ∀ last, history.getLast? = some last →
    (last.target.toNat + 3) / 4 ≤ target.toNat ∧ target.toNat ≤ 4 * last.target.toNat
  window : ∀ older recent, history = older ++ recent → wtemaWindowAnchors + 1 ≤ recent.length →
    ∀ older', nextAnchorTarget (older' ++ recent) = .ok target
  steady : ∀ last, history.getLast? = some last → (∀ d ∈ windowIntervals history, d = anchorIntervalMs) →
    target = last.target
  monotone : ∀ history' target' last last', ValidHistory history' →
    ((normalizeHistory history').map fun r => r.anchorHash).Nodup →
    history.getLast? = some last → history'.getLast? = some last' → last.target = last'.target →
    List.Forall₂ (· ≤ ·) (windowIntervals history) (windowIntervals history') →
    nextAnchorTarget history' = .ok target' → target.toNat ≤ target'.toNat

theorem nextAnchorTarget_append (older older' recent : List AnchorRecord) (h : wtemaWindowAnchors + 1 ≤ recent.length) :
    nextAnchorTarget (older ++ recent) = nextAnchorTarget (older' ++ recent) := by
  have hrecent : ∀ older : List AnchorRecord, nextAnchorTarget (older ++ recent) = nextAnchorTarget recent := by
    intro older
    rw [← nextAnchorTarget_window (older ++ recent) h, List.length_append, Nat.add_sub_cancel, List.drop_left]
  rw [hrecent older, hrecent older']

theorem toNat_adjusted {previous : ℕ} (hmin : anchorMinTarget ≤ previous) (hmax : previous ≤ anchorMaxTarget)
    (ratio : ℕ) : (FixedBytes.ofNat 32 (adjustedTarget previous ratio)).toNat = adjustedTarget previous ratio := by
  have hle := (adjustedTarget_bounds hmin hmax ratio).2.1
  have hlt : anchorMaxTarget < 256 ^ 32 := by decide
  exact FixedBytes.toNat_ofNat (lt_of_le_of_lt hle hlt)

/-- **The target adjustment** of a valid history, whose last records do not repeat a hash. -/
theorem nextAnchorTarget_adjusts {history : List AnchorRecord} (h : ValidHistory history)
    (hdistinct : ((normalizeHistory history).map fun r => r.anchorHash).Nodup) :
    ∃ target, nextAnchorTarget history = .ok target ∧ Adjusts history target := by
  have hlastBounds : ∀ {history : List AnchorRecord} {last : AnchorRecord}, ValidHistory history →
      history.getLast? = some last → anchorMinTarget ≤ last.target.toNat ∧ last.target.toNat ≤ anchorMaxTarget := by
    intro history last h hlast
    have hpost := h.records last (List.mem_of_getLast? hlast)
    simp only [AnchorRecord.postInit, Exn.bind_ok] at hpost
    obtain ⟨-, -, htarget⟩ := hpost
    exact Exn.ensure_ok.1 htarget
  cases hlast : history.getLast? with
  | none =>
    -- the empty history has the initial target
    rw [List.getLast?_eq_none_iff] at hlast
    subst hlast
    have hinitial : anchorMinTarget ≤ anchorInitialTargetLe.toNat ∧ anchorInitialTargetLe.toNat ≤ anchorMaxTarget := by
      decide +kernel
    refine ⟨anchorInitialTargetLe, rfl, hinitial, ?_, ?_, ?_, ?_⟩
    · intro last hnone
      cases hnone
    · intro older recent hsplit hlong
      obtain ⟨-, rfl⟩ := List.append_eq_nil_iff.1 hsplit.symm
      exact absurd hlong (by decide)
    · intro last hnone
      cases hnone
    · intro history' target' last last' _ _ hnone
      cases hnone
  | some last =>
    obtain ⟨hmin, hmax⟩ := hlastBounds h hlast
    have heq := nextAnchorTarget_eq h hdistinct hlast
    have hnat := toNat_adjusted hmin hmax (wtemaRatioFp ((windowIntervals history).map clampInterval))
    obtain ⟨hamin, hamax, hlow, hhigh⟩ := adjustedTarget_bounds hmin hmax
      (wtemaRatioFp ((windowIntervals history).map clampInterval))
    refine ⟨_, heq, ⟨?_, ?_⟩, ?_, ?_, ?_, ?_⟩
    · rw [hnat]
      exact hamin
    · rw [hnat]
      exact hamax
    · intro last' hlast'
      rw [hlast, Option.some.injEq] at hlast'
      subst hlast'
      rw [hnat]
      exact ⟨hlow, hhigh⟩
    · intro older recent hsplit hlong older'
      rw [nextAnchorTarget_append older' older recent hlong, ← hsplit]
      exact heq
    · intro last' hlast' hsteady
      rw [hlast, Option.some.injEq] at hlast'
      subst hlast'
      have hclamped : ∀ d ∈ (windowIntervals history).map clampInterval, d = anchorIntervalMs := by
        intro d hd
        obtain ⟨d', hd', rfl⟩ := List.mem_map.1 hd
        rw [hsteady d' hd']
        rfl
      rw [wtemaRatioFp_steady hclamped, adjustedTarget_steady hmin hmax, FixedBytes.ofNat_toNat]
    · intro history' target' last₁ last' h' hdistinct' hlast₁ hlast' hsame hle htarget'
      rw [hlast, Option.some.injEq] at hlast₁
      subst hlast₁
      obtain ⟨hmin', hmax'⟩ := hlastBounds h' hlast'
      rw [nextAnchorTarget_eq h' hdistinct' hlast', Except.ok.injEq] at htarget'
      rw [← htarget', hnat, toNat_adjusted hmin' hmax', ← hsame]
      refine adjustedTarget_mono _ (wtemaRatioFp_mono ?_)
      exact List.forall₂_map_left_iff.2 (List.forall₂_map_right_iff.2 (hle.imp fun _ _ hab => clampInterval_mono hab))

/-- A record of a sample history. -/
def sampleRecord (hash parent time : ℕ) : AnchorRecord :=
  ⟨FixedBytes.ofNat 32 hash, FixedBytes.ofNat 32 parent, time, anchorInitialTargetLe⟩

/-- Records at intervals of half the right length, whose hashes come around after the last ones
that count. -/
def sampleHistory : List AnchorRecord :=
  (List.range 102).map fun i => sampleRecord (i % 101) ((i + 100) % 101) (30000 * i)

/-- A hash that is repeated further back does no harm. -/
theorem nextAnchorTarget_adjusts_repeat :
    ¬(sampleHistory.map fun r => r.anchorHash).Nodup ∧
    ∃ target, nextAnchorTarget sampleHistory = .ok target ∧ Adjusts sampleHistory target := by
  have hvalid : ValidHistory sampleHistory := by
    refine ⟨?_, ?_, ?_⟩
    · decide +kernel
    · decide +kernel
    · decide +kernel
  exact ⟨by decide +kernel, nextAnchorTarget_adjusts hvalid (by decide +kernel)⟩

/-- A history that follows the parent links back to a hash it has seen is refused. -/
theorem nextAnchorTarget_repeated :
    ValidHistory [sampleRecord 1 2 0, sampleRecord 2 1 60000, sampleRecord 1 2 120000] ∧
    nextAnchorTarget [sampleRecord 1 2 0, sampleRecord 2 1 60000, sampleRecord 1 2 120000] =
      .error (.valueError "anchor history must not contain duplicate hashes") := by
  refine ⟨⟨?_, ?_, ?_⟩, by decide +kernel⟩
  · decide +kernel
  · exact List.isChain_cons_cons.2 ⟨rfl, List.isChain_pair.2 rfl⟩
  · exact List.isChain_cons_cons.2 ⟨by decide, List.isChain_pair.2 (by decide)⟩

end TensorPow
