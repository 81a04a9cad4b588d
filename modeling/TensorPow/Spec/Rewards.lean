import TensorPow.Spec.Utxo

/-!
# Targets and rewards

`consensus/anchor_daa.py` (the WTEMA target adjustment) and `consensus/rewards.py`
(issuance and its split over the covered fruits).
-/

namespace TensorPow

open Wire Sorted

/-! ## Targets -/

/-- `FRUIT_TARGET_LE`. -/
def fruitTargetLe : Hash :=
  FixedBytes.ofNat 32 0x5ba03f80cf23190f76455c5b50637575fe8f983eab6727314d04c63e18195719

/-- `ANCHOR_INITIAL_TARGET_LE`. -/
def anchorInitialTargetLe : Hash :=
  FixedBytes.ofNat 32 0x1774ccac3d3816cca98a969e8b5d0ba353997f09e63f456ce0844b537ae7c4

/-- `_ANCHOR_MIN_TARGET_INT`. -/
def anchorMinTarget : ℕ := 1

/-- `_ANCHOR_MAX_TARGET_INT`, which is `_FRUIT_TARGET_INT`. -/
def anchorMaxTarget : ℕ := 0x5ba03f80cf23190f76455c5b50637575fe8f983eab6727314d04c63e18195719

/-- `_require_target`. -/
def requireTarget (target : Hash) : Except PyError Unit :=
  Exn.ensure (anchorMinTarget ≤ target.toNat ∧ target.toNat ≤ anchorMaxTarget)
    (.valueError "target outside anchor target bounds")

/-- `target_to_int`. -/
def targetToInt (target : Hash) : Except PyError ℕ := do
  requireTarget target
  return target.toNat

/-- `int_to_target`. -/
def intToTarget (value : ℕ) : Except PyError Hash := do
  Exn.ensure (anchorMinTarget ≤ value ∧ value ≤ anchorMaxTarget)
    (.valueError "value outside anchor target bounds")
  return FixedBytes.ofNat 32 value

/-- `anchor_work_weight`. -/
def anchorWorkWeight (activeTarget : Hash) : Except PyError ℕ := do
  let target ← targetToInt activeTarget
  return min (anchorMaxTarget / target) u64Max

/-- `AnchorRecord`. -/
structure AnchorRecord where
  anchorHash : Hash
  parentAnchor : Hash
  timestampMs : ℕ
  target : Hash
deriving DecidableEq

/-- `_require_u64`. -/
def requireU64 (name : String) (value : ℕ) : Except PyError Unit :=
  Exn.ensure (value ≤ u64Max) (.valueError (name ++ " outside uint64 range"))

/-- `AnchorRecord.__post_init__`. -/
def AnchorRecord.postInit (r : AnchorRecord) : Except PyError Unit := do
  requireU64 "timestamp_ms" r.timestampMs
  requireTarget r.target

/-- `ANCHOR_INTERVAL_MS`. -/
def anchorIntervalMs : ℕ := 60000

/-- `WTEMA_WINDOW_ANCHORS`. -/
def wtemaWindowAnchors : ℕ := 100

/-- `WTEMA_MAX_ADJUSTMENT_FACTOR`. -/
def wtemaMaxAdjustmentFactor : ℕ := 4

/-- `FIXED_POINT_SCALE`. -/
def fixedPointScale : ℕ := 2 ^ 64

/-- `_normalize_history`: the last `WTEMA_TARGET_HISTORY_RECORDS` records. -/
def normalizeHistory (history : List AnchorRecord) : List AnchorRecord :=
  history.drop (history.length - (wtemaWindowAnchors + 1))

/-- The loop of `_validate_parent_chain`, with the hashes seen and the previous record. -/
def validateParentChain (seen : List Hash) (previous : Option AnchorRecord) :
    List AnchorRecord → Except PyError Unit
  | [] => .ok ()
  | record :: records => do
    Exn.ensure (record.anchorHash ∉ seen) (.valueError "anchor history must not contain duplicate hashes")
    match previous with
    | some previous =>
      Exn.ensure (record.parentAnchor = previous.anchorHash)
        (.valueError "anchor history must follow parent_anchor links")
      Exn.ensure (previous.timestampMs < record.timestampMs)
        (.valueError "anchor timestamps must be strictly increasing")
    | none => pure ()
    validateParentChain (record.anchorHash :: seen) (some record) records

/-- `_clamp_interval`; a negative interval would clamp as zero does. -/
def clampInterval (intervalMs : ℕ) : ℕ :=
  min (max intervalMs (anchorIntervalMs / wtemaMaxAdjustmentFactor))
    (anchorIntervalMs * wtemaMaxAdjustmentFactor)

/-- `_recent_intervals`. -/
def recentIntervals (records : List AnchorRecord) : List ℕ :=
  let intervals := (records.zip records.tail).map fun p => clampInterval (p.2.timestampMs - p.1.timestampMs)
  intervals.drop (max 1 (records.length - wtemaWindowAnchors) - 1)

/-- `_wtema_ratio_fp`, with the weights 7/8 and 1/8. -/
def wtemaRatioFp (intervals : List ℕ) : ℕ :=
  intervals.foldl (fun ratioFp intervalMs =>
    (7 * ratioFp + 1 * (intervalMs * fixedPointScale / anchorIntervalMs)) / 8) fixedPointScale

/-- The adjusted target before encoding. -/
def adjustedTarget (previousTarget ratioFp : ℕ) : ℕ :=
  let adjusted := max 1 (previousTarget * ratioFp / fixedPointScale)
  let movementFloor := (previousTarget + wtemaMaxAdjustmentFactor - 1) / wtemaMaxAdjustmentFactor
  let movementCeiling := previousTarget * wtemaMaxAdjustmentFactor
  let adjusted := min (max adjusted movementFloor) movementCeiling
  min (max adjusted anchorMinTarget) anchorMaxTarget

/-- `next_anchor_target`. -/
def nextAnchorTarget (history : List AnchorRecord) : Except PyError Hash := do
  let records := normalizeHistory history
  match records.getLast? with
  | none => return anchorInitialTargetLe
  | some last =>
    validateParentChain [] none records
    if records.length = 1 then return last.target
    let previousTarget ← targetToInt last.target
    intToTarget (adjustedTarget previousTarget (wtemaRatioFp (recentIntervals records)))

/-! ## Issuance -/

/-- `HALVING_INTERVAL_ANCHORS`. -/
def halvingIntervalAnchors : ℕ := 4 * 365 * 24 * 60

/-- `INITIAL_EPOCH_SUBSIDY_MATOMS`. -/
def initialEpochSubsidyMatoms : ℕ := 10500000 * 100000000

/-- `COINBASE_MATURITY_ANCHORS`. -/
def coinbaseMaturityAnchors : ℕ := 100

/-- `_require_nonnegative_int`. -/
def requireNonnegative (name : String) (value : ℕ) : Except PyError Unit :=
  Exn.ensure (value ≤ u64Max) (.valueError (name ++ " outside uint64 range"))

/-- `_require_positive_int`. -/
def requirePositive (name : String) (value : ℕ) : Except PyError Unit := do
  requireNonnegative name value
  Exn.ensure (value ≠ 0) (.valueError (name ++ " must be positive"))

/-- The subsidy of the interval ending at a height, before the supply cap. -/
def scheduledSubsidy (anchorHeight : ℕ) : ℕ :=
  let intervalIndex := anchorHeight - 1
  let epochIndex := intervalIndex / halvingIntervalAnchors
  let anchorIndexInEpoch := intervalIndex % halvingIntervalAnchors
  let epochPool := initialEpochSubsidyMatoms >>> epochIndex
  if epochPool = 0 then 0
  else
    let base := epochPool / halvingIntervalAnchors
    let remainder := epochPool % halvingIntervalAnchors
    base + (if anchorIndexInEpoch < remainder then 1 else 0)

/-- `interval_subsidy_matoms`. -/
def intervalSubsidyMatoms (anchorHeight mintedSupplyMatoms : ℕ) : Except PyError ℕ := do
  requirePositive "anchor_height" anchorHeight
  requireNonnegative "minted_supply_matoms" mintedSupplyMatoms
  Exn.ensure (mintedSupplyMatoms ≤ maxSupplyMatoms)
    (.valueError "minted_supply_matoms exceeds MAX_SUPPLY_MATOMS")
  return min (scheduledSubsidy anchorHeight) (maxSupplyMatoms - mintedSupplyMatoms)

/-- `coinbase_maturity_height`. -/
def coinbaseMaturityHeight (anchorHeight : ℕ) : Except PyError ℕ := do
  requirePositive "anchor_height" anchorHeight
  return anchorHeight + coinbaseMaturityAnchors

/-- `reward_pools`: the fruit pool and the anchor pool of one interval. -/
def rewardPools (fruitCount intervalSubsidy : ℕ) (anchorTarget : Hash) : Except PyError (ℕ × ℕ) := do
  requireNonnegative "fruit_count" fruitCount
  requireNonnegative "interval_subsidy" intervalSubsidy
  if fruitCount = 0 ∨ intervalSubsidy = 0 then return (0, intervalSubsidy)
  let totalWeight := fruitCount + (← anchorWorkWeight anchorTarget)
  let fruitPool := intervalSubsidy * fruitCount / totalWeight
  return (fruitPool, intervalSubsidy - fruitPool)

/-- The order in which fruits are served: reward key, then fruit hash. -/
def rewardKey (p : Hash × Hash) : Hash ×ₗ Hash := toLex (p.2, p.1)

/-- `fruit_subsidy_assignments` on a mapping whose items come in some order: the first
`remainder` fruits get one unit more. -/
def fruitSubsidyAssignmentsOf (items : List (Hash × Hash)) (intervalSubsidy : ℕ) (anchorTarget : Hash) :
    Except PyError (List (Hash × ℕ)) := do
  requireNonnegative "interval_subsidy" intervalSubsidy
  if items = [] then return []
  let (fruitPool, _) ← rewardPools items.length intervalSubsidy anchorTarget
  let base := fruitPool / items.length
  let remainder := fruitPool % items.length
  let orderedHashes := (sortBy rewardKey items).map Prod.fst
  return orderedHashes.zipIdx.map fun p => (p.1, base + (if p.2 < remainder then 1 else 0))

/-- `fruit_subsidy_assignments` on a table of fruits, as the node calls it. -/
def fruitSubsidyAssignments (fruitRewardKeys : Table Hash Hash) (intervalSubsidy : ℕ) (anchorTarget : Hash) :
    Except PyError (Table Hash ℕ) := do
  return Table.putAll ∅ (← fruitSubsidyAssignmentsOf fruitRewardKeys.toList intervalSubsidy anchorTarget)

end TensorPow
