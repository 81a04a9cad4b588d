import TensorPow.Spec.Node

/-!
# Finality queries

* `blueDepth`, `anchorDepth`, `finalityTierFromDepths`, `satisfiedFinalityTiers` of
  `consensus/finality.py`.
* `Node.bestFruitTip`, `Node.getFinality`: the query of `node/node.py`.
* `Served`: the states of a node that also answers finality queries.
-/

namespace TensorPow

open Wire Sorted

/-- `FinalityTier`. -/
inductive FinalityTier where
  | none
  | seen
  | fast
  | economic
  | anchorSecured
  | settlement
deriving DecidableEq, Repr

/-- The value of a tier. -/
def FinalityTier.value : FinalityTier → String
  | .none => "None"
  | .seen => "Seen"
  | .fast => "Fast"
  | .economic => "Economic"
  | .anchorSecured => "AnchorSecured"
  | .settlement => "Settlement"

/-- `FINALITY_FAST_BLUE_DEPTH`. -/
def finalityFastBlueDepth : ℕ := 5

/-- `FINALITY_ECONOMIC_BLUE_DEPTH`. -/
def finalityEconomicBlueDepth : ℕ := 20

/-- `FINALITY_SETTLEMENT_BLUE_DEPTH`. -/
def finalitySettlementBlueDepth : ℕ := 100

/-- `FINALITY_ANCHOR_SECURED_DEPTH`. -/
def finalityAnchorSecuredDepth : ℕ := 1

/-- `FINALITY_SETTLEMENT_ANCHOR_DEPTH`. -/
def finalitySettlementAnchorDepth : ℕ := 6

/-- `blue_depth`: zero unless the fruit is blue for the tip. -/
def blueDepth {η : Type} [LinearOrder η] (d : BlockDAG η) (fruitHash tip : η) (k : ℤ) : Except PyError ℕ := do
  Exn.ensure (fruitHash ∈ d.blocks) (.keyError "fruit_hash is unknown")
  let reachable := insert tip (← d.ancestors tip)
  if fruitHash ∉ reachable then return 0
  let (metadata, _) ← d.ghostdagMetadata k
  let tipData ← item metadata tip
  if fruitHash ∉ tipData.blues then return 0
  let data ← item metadata fruitHash
  return tipData.blueScore - data.blueScore

/-- `anchor_depth`: inclusive depth from the anchor that covers a fruit. -/
def anchorDepth (coveringAnchorHeight : Option ℕ) (tipAnchorHeight : ℕ) : Except PyError ℕ :=
  match coveringAnchorHeight with
  | none => .ok 0
  | some covering => do
    Exn.ensure (covering ≤ tipAnchorHeight)
      (.valueError "tip_anchor_height must be at least covering_anchor_height")
    return tipAnchorHeight - covering + 1

/-- `finality_tier_from_depths`: the strongest tier. -/
def finalityTierFromDepths (blueDepth anchorDepth : ℕ) (seen : Bool) : FinalityTier :=
  if ¬seen then .none
  else if finalitySettlementBlueDepth ≤ blueDepth ∧ finalitySettlementAnchorDepth ≤ anchorDepth then .settlement
  else if finalityAnchorSecuredDepth ≤ anchorDepth then .anchorSecured
  else if finalityEconomicBlueDepth ≤ blueDepth then .economic
  else if finalityFastBlueDepth ≤ blueDepth then .fast
  else .seen

/-- `satisfied_finality_tiers`: every tier the depths satisfy. -/
def satisfiedFinalityTiers (blueDepth anchorDepth : ℕ) (seen : Bool) : List FinalityTier :=
  if ¬seen then [.none]
  else [.seen] ++ (if finalityFastBlueDepth ≤ blueDepth then [.fast] else []) ++
    (if finalityEconomicBlueDepth ≤ blueDepth then [.economic] else []) ++
    (if finalityAnchorSecuredDepth ≤ anchorDepth then [.anchorSecured] else []) ++
    (if finalitySettlementBlueDepth ≤ blueDepth ∧ finalitySettlementAnchorDepth ≤ anchorDepth then [.settlement]
      else [])

/-- What `get_finality` returns. -/
structure Finality where
  blockHash : Hash
  seen : Bool
  tier : FinalityTier
  satisfiedTiers : List FinalityTier
  blueDepth : ℕ
  anchorDepth : ℕ
deriving DecidableEq

/-- `_finality_result`; the tiers are sorted by their values. -/
def finalityResult (blockHash : Hash) (seen : Bool) (blueDepth anchorDepth : ℕ) : Finality :=
  { blockHash, seen, blueDepth, anchorDepth
    tier := finalityTierFromDepths blueDepth anchorDepth seen
    satisfiedTiers := sortBy FinalityTier.value (satisfiedFinalityTiers blueDepth anchorDepth seen) }

namespace Node

variable {C : Crypto}

section

variable (n : Node C)

/-- `_best_fruit_tip`: highest blue score first, then latest, then least hash. -/
def bestFruitTip (dag : BlockDAG Hash) : Except Stop (Option Hash) := do
  if dag.blocks.size = 0 then return none
  let (metadata, _) ← raising (dag.ghostdagMetadata ghostdagK)
  let keyed ← metadata.keys.mapM fun h => do
    let data ← raising (item metadata h)
    let block ← raising (dag.getBlock h)
    return ((-(data.blueScore : ℤ), -(block.timestampMs : ℤ), h) : ℤ × ℤ × Hash)
  match sortBy (fun q => (toLex (q.1, toLex (q.2.1, q.2.2)) : ℤ ×ₗ ℤ ×ₗ Hash)) keyed with
  | [] => .error (.raise (.indexError "list index out of range"))
  | q :: _ => return some q.2.2

/-- The part of `get_finality` for a stored fruit. -/
def fruitFinality (h : Hash) : Except Stop Finality := do
  match ← optional n.fruitDag with
  | none => return finalityResult h true 0 0
  | some dag =>
    if h ∉ dag.blocks then return finalityResult h true 0 0
    let blueDepthValue ← match ← bestFruitTip dag with
      | none => pure 0
      | some tip => raising (blueDepth dag h tip ghostdagK)
    let anchorDepthValue ← raising (anchorDepth n.store.coinbaseClaimed[h]? n.anchorHeight)
    return finalityResult h true blueDepthValue anchorDepthValue

/-- `get_finality`: the answer, and the node with its fruit DAG cached. -/
def getFinality (h : Hash) : Except Stop Finality × Node C :=
  match n.loadFruit h with
  | none => (.ok (finalityResult h false 0 0), n)
  | some _ => (n.fruitFinality h, n.withFruitDag)

end

end Node

/-- The states of a node that also answers finality queries. -/
inductive Served {C : Crypto} (cfg : Config) : Node C → Prop where
  | start : Served cfg Node.empty
  | call {n : Node C} (e : Event C) : Served cfg n → Served cfg (step cfg n e).2
  | query {n : Node C} (h : Hash) : Served cfg n → Served cfg (n.getFinality h).2

end TensorPow
