import TensorPow.Spec.Basic

/-!
# How a computation of the node stops

`Reject` is the reason of a rejection, `text` its string in the source. A computation
stops because it rejects its input, because it returns `None`, or because an exception
leaves it.
-/

namespace TensorPow

/-- The reason of a rejection. -/
inductive Reject where
  | malformedTx | coinbaseNotRelayable | malformed | badShard | wrongShard | duplicate
  | txLockUnmatured | duplicateInput | conflict | missingInput | scriptFailed | negativeFee
  | belowFeeFloor | missingUtxoView
  | malformedFruit | duplicateFruit | malformedFruitTx | missingCoinbase | extraCoinbase
  | fruitTimeTooNew | missingLatestAnchor | badParentBitmap | genesisFruitParentNotFirst
  | missingFruitParent | fruitTimeNotAfterParent | fruitTimeTooOld | fruitPowInvalid
  | coinbaseTooLarge
  | malformedAnchor | genesisNotFirst | duplicateAnchor | anchorTimeTooNew
  | missingExpectedGenesisHash | wrongGenesis | missingAnchorParent | anchorTimeNotIncreasing
  | anchorTimeTooOld | anchorPowInvalid | missingCoveredFruit | missingParentCandidate
  | badParentCandidateOrder | badShardTree | badFeeFloorEntries
  | badCoveredFruitOrder | duplicateTxOutpoint | anchorRewardTooLarge | missingFruitMetadata
  | fruitCoinbaseAlreadyClaimed | duplicateCoinbaseOutpoint | duplicateAnchorRewardOutpoint
  | supplyCapExceeded
deriving DecidableEq, Repr

/-- The reason as the source spells it. -/
def Reject.text : Reject → String
  | .malformedTx => "malformed_tx"
  | .coinbaseNotRelayable => "coinbase_not_relayable"
  | .malformed => "malformed"
  | .badShard => "bad_shard"
  | .wrongShard => "wrong_shard"
  | .duplicate => "duplicate"
  | .txLockUnmatured => "tx_lock_unmatured"
  | .duplicateInput => "duplicate_input"
  | .conflict => "conflict"
  | .missingInput => "missing_input"
  | .scriptFailed => "script_failed"
  | .negativeFee => "negative_fee"
  | .belowFeeFloor => "below_fee_floor"
  | .missingUtxoView => "missing_utxo_view"
  | .malformedFruit => "malformed_fruit"
  | .duplicateFruit => "duplicate_fruit"
  | .malformedFruitTx => "malformed_fruit_tx"
  | .missingCoinbase => "missing_coinbase"
  | .extraCoinbase => "extra_coinbase"
  | .fruitTimeTooNew => "fruit_time_too_new"
  | .missingLatestAnchor => "missing_latest_anchor"
  | .badParentBitmap => "bad_parent_bitmap"
  | .genesisFruitParentNotFirst => "genesis_fruit_parent_not_first"
  | .missingFruitParent => "missing_fruit_parent"
  | .fruitTimeNotAfterParent => "fruit_time_not_after_parent"
  | .fruitTimeTooOld => "fruit_time_too_old"
  | .fruitPowInvalid => "fruit_pow_invalid"
  | .coinbaseTooLarge => "coinbase_too_large"
  | .malformedAnchor => "malformed_anchor"
  | .genesisNotFirst => "genesis_not_first"
  | .duplicateAnchor => "duplicate_anchor"
  | .anchorTimeTooNew => "anchor_time_too_new"
  | .missingExpectedGenesisHash => "missing_expected_genesis_hash"
  | .wrongGenesis => "wrong_genesis"
  | .missingAnchorParent => "missing_anchor_parent"
  | .anchorTimeNotIncreasing => "anchor_time_not_increasing"
  | .anchorTimeTooOld => "anchor_time_too_old"
  | .anchorPowInvalid => "anchor_pow_invalid"
  | .missingCoveredFruit => "missing_covered_fruit"
  | .missingParentCandidate => "missing_parent_candidate"
  | .badParentCandidateOrder => "bad_parent_candidate_order"
  | .badShardTree => "bad_shard_tree"
  | .badFeeFloorEntries => "bad_fee_floor_entries"
  | .badCoveredFruitOrder => "bad_covered_fruit_order"
  | .duplicateTxOutpoint => "duplicate_tx_outpoint"
  | .anchorRewardTooLarge => "anchor_reward_too_large"
  | .missingFruitMetadata => "missing_fruit_metadata"
  | .fruitCoinbaseAlreadyClaimed => "fruit_coinbase_already_claimed"
  | .duplicateCoinbaseOutpoint => "duplicate_coinbase_outpoint"
  | .duplicateAnchorRewardOutpoint => "duplicate_anchor_reward_outpoint"
  | .supplyCapExceeded => "supply_cap_exceeded"

/-- Why a computation stopped. -/
inductive Stop where
  | none
  | reject (reason : Reject)
  | raise (error : PyError)
deriving DecidableEq, Repr

variable {α : Type}

/-- Reject unless the condition holds. -/
def rejectUnless (p : Prop) [Decidable p] (reason : Reject) : Except Stop Unit := Exn.ensure p (.reject reason)

/-- An exception leaves the computation. -/
def raising (x : Except PyError α) : Except Stop α :=
  match x with
  | .ok a => .ok a
  | .error e => .error (.raise e)

/-- `try: … except (TypeError, ValueError, …): return reason`. -/
def rejecting (reason : Reject) (x : Except PyError α) : Except Stop α :=
  match x with
  | .ok a => .ok a
  | .error (.valueError _) => .error (.reject reason)
  | .error (.typeError _) => .error (.reject reason)
  | .error e => .error (.raise e)

/-- `if result is None: return reason`. -/
def noneAs (reason : Reject) (x : Except Stop α) : Except Stop α :=
  match x with
  | .error .none => .error (.reject reason)
  | x => x

/-- `if reason is not None: return None`. -/
def rejectAsNone (x : Except Stop α) : Except Stop α :=
  match x with
  | .error (.reject _) => .error .none
  | x => x

/-- A result that may be `None`, as an option. -/
def optional (x : Except Stop α) : Except Stop (Option α) :=
  match x with
  | .ok a => .ok (some a)
  | .error .none => .ok none
  | .error s => .error s

@[simp] theorem raising_ok {x : Except PyError α} {a : α} : raising x = .ok a ↔ x = .ok a := by
  cases x <;> simp [raising]

@[simp] theorem rejecting_ok {r : Reject} {x : Except PyError α} {a : α} :
    rejecting r x = .ok a ↔ x = .ok a := by
  cases x with
  | ok b => simp [rejecting]
  | error e => cases e <;> simp [rejecting]

@[simp] theorem noneAs_ok {r : Reject} {x : Except Stop α} {a : α} : noneAs r x = .ok a ↔ x = .ok a := by
  unfold noneAs
  split <;> simp

@[simp] theorem rejectAsNone_ok {x : Except Stop α} {a : α} : rejectAsNone x = .ok a ↔ x = .ok a := by
  unfold rejectAsNone
  split <;> simp

@[simp] theorem rejectUnless_ok {p : Prop} [Decidable p] {r : Reject} {u : Unit} : rejectUnless p r = .ok u ↔ p :=
  Exn.ensure_ok

end TensorPow
