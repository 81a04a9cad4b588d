import TensorPow.Proof.Stop
import TensorPow.Proof.UtxoSet
import TensorPow.Spec.Branch

/-!
# Spending

* `Spendable`: one input can be spent; `spendInputs_ok`: the input loop succeeds exactly
  on distinct spendable inputs.
* `applySpendTx_ok`: what a spend that is applied does to the UTXO set and how its fee
  splits; `applySpendTx_returns`: when it is applied.
-/

namespace TensorPow

open Wire

variable {C : Crypto} {view view' : UTXOSet C} {tx : Transaction} {time height : ℕ}

/-- The outpoints a transaction spends. -/
def Transaction.spent (tx : Transaction) : List Outpoint := tx.inputs.map fun i => i.previousOutpoint

/-- Input `p.2` is unspent in the view and its witness satisfies the output's condition. -/
def Spendable (view : UTXOSet C) (tx : Transaction) (time height : ℕ) (p : Input × ℕ) : Prop :=
  ∃ utxo message, view.get p.1.previousOutpoint = some utxo ∧ tx.sighash C p.2 = .ok message ∧
    verifyUtxoSpend C utxo p.1.witness message tx.sigType time height = true

/-- The amount an outpoint holds. -/
def UTXOSet.amountAt (view : UTXOSet C) (o : Outpoint) : ℕ := ((view.get o).map fun u => u.amountMatoms).getD 0

/-- The amounts the inputs of a transaction hold together. -/
def inputSum (view : UTXOSet C) (tx : Transaction) : ℕ := (tx.spent.map view.amountAt).sum

/-! ## The input loop -/

theorem spendInput_ok {acc r : Finset Outpoint × ℕ} {p : Input × ℕ} :
    spendInput view tx time height acc p = .ok r ↔ p.1.previousOutpoint ∉ acc.1 ∧
      Spendable view tx time height p ∧
      r = (insert p.1.previousOutpoint acc.1, acc.2 + view.amountAt p.1.previousOutpoint) := by
  unfold spendInput Spendable UTXOSet.amountAt
  simp only [Exn.bind_ok, rejectUnless_ok]
  cases hget : view.get p.1.previousOutpoint with
  | none => simp
  | some utxo =>
    simp only [Exn.bind_ok, rejectUnless_ok, raising_ok, Exn.pure_ok, Option.some.injEq, Option.map_some,
      Option.getD_some]
    constructor
    · rintro ⟨-, hnot, message, hm, -, hv, rfl⟩
      exact ⟨hnot, ⟨utxo, message, rfl, hm, hv⟩, rfl⟩
    · rintro ⟨hnot, ⟨_, message, rfl, hm, hv⟩, rfl⟩
      exact ⟨(), hnot, message, hm, (), hv, rfl⟩

theorem spendLoop_ok {l : List (Input × ℕ)} {acc r : Finset Outpoint × ℕ} :
    l.foldlM (spendInput view tx time height) acc = .ok r ↔
      (l.map fun p => p.1.previousOutpoint).Nodup ∧ (∀ p ∈ l, p.1.previousOutpoint ∉ acc.1) ∧
      (∀ p ∈ l, Spendable view tx time height p) ∧
      r = (acc.1 ∪ (l.map fun p => p.1.previousOutpoint).toFinset,
        acc.2 + (l.map fun p => view.amountAt p.1.previousOutpoint).sum) := by
  induction l generalizing acc with
  | nil =>
    rw [Exn.foldlM_nil, Except.ok.injEq]
    simp [eq_comm]
  | cons p l ih =>
    simp only [Exn.foldlM_cons_ok, spendInput_ok, ih, List.map_cons, List.nodup_cons, List.forall_mem_cons,
      List.toFinset_cons, List.sum_cons]
    constructor
    · rintro ⟨_, ⟨hnot, hp, rfl⟩, hnodup, hfresh, hl, rfl⟩
      simp only [Finset.mem_insert, not_or] at hfresh
      -- the set of seen outpoints carries that they are distinct
      have hnotMem : p.1.previousOutpoint ∉ l.map fun p => p.1.previousOutpoint := by
        rw [List.mem_map]
        rintro ⟨q, hq, e⟩
        exact (hfresh q hq).1 e
      refine ⟨⟨hnotMem, hnodup⟩, ⟨hnot, fun q hq => (hfresh q hq).2⟩, ⟨hp, hl⟩, ?_⟩
      rw [Finset.insert_union, Finset.union_insert, Nat.add_assoc]
    · rintro ⟨⟨hnotMem, hnodup⟩, ⟨hnot, hfresh⟩, ⟨hp, hl⟩, rfl⟩
      refine ⟨_, ⟨hnot, hp, rfl⟩, hnodup, ?_, hl, ?_⟩
      · intro q hq
        rw [Finset.mem_insert, not_or]
        refine ⟨fun e => hnotMem (List.mem_map.2 ⟨q, hq, e⟩), hfresh q hq⟩
      · rw [Finset.insert_union, Finset.union_insert, Nat.add_assoc]

/-- The input loop succeeds exactly on distinct spendable inputs. -/
theorem spendInputs_ok {r : Finset Outpoint × ℕ} :
    tx.inputs.zipIdx.foldlM (spendInput view tx time height) (∅, 0) = .ok r ↔
      tx.spent.Nodup ∧ (∀ p ∈ tx.inputs.zipIdx, Spendable view tx time height p) ∧
      r = (tx.spent.toFinset, inputSum view tx) := by
  have hmap : ∀ {β : Type} (f : Input → β), (tx.inputs.zipIdx.map fun p => f p.1) = tx.inputs.map f := by
    intro β f
    conv_rhs => rw [← List.zipIdx_map_fst 0 tx.inputs, List.map_map]
    rfl
  rw [spendLoop_ok, hmap fun i => i.previousOutpoint, hmap fun i => view.amountAt i.previousOutpoint]
  simp [Transaction.spent, inputSum, Function.comp_def]

/-- The index of an input is in range, so its signature hash exists. -/
theorem sighash_returns {p : Input × ℕ} (hp : p ∈ tx.inputs.zipIdx) : ∃ m, tx.sighash C p.2 = .ok m := by
  have hlt : p.2 < tx.inputs.length := by
    obtain ⟨-, h, -⟩ := List.mem_zipIdx hp
    simpa using h
  have hcount : tx.inputs.length ≤ u16Max := by
    have := tx.valid
    simp only [TransactionFields.postInit, Exn.bind_ok, requireUint, Exn.ensure_ok] at this
    obtain ⟨-, -, -, -, -, -, -, -, -, h, -⟩ := this
    exact h
  have hle : p.2 ≤ u32Max := by
    unfold u16Max at hcount
    unfold u32Max
    omega
  unfold Transaction.sighash requireUint
  rw [Exn.ensure_of _ hle, Exn.ensure_of _ hlt]
  exact ⟨_, rfl⟩

/-- The inputs that can be spent are there. -/
theorem spendable_present (h : ∀ p ∈ tx.inputs.zipIdx, Spendable view tx time height p) {o : Outpoint} (ho : o ∈ tx.spent) :
    ∃ u, view.get o = some u := by
  obtain ⟨i, hi, rfl⟩ := List.mem_map.1 ho
  obtain ⟨k, hk⟩ := List.mem_iff_getElem?.1 hi
  obtain ⟨u, -, hu, -⟩ := h (i, k) (List.mk_mem_zipIdx_iff_getElem?.2 hk)
  exact ⟨u, hu⟩

/-! ## One spend -/

/-- The burned part of a fee that reaches the floor is at most the fee. -/
theorem burnedFeeMatoms_le {floor fee size : ℕ} (h : floor ≤ fee * bytesPerKb / size) :
    burnedFeeMatoms floor size ≤ fee := by
  unfold burnedFeeMatoms
  apply Nat.div_le_of_le_mul
  rcases Nat.eq_zero_or_pos size with rfl | hpos
  · simp
  · have := (Nat.le_div_iff_mul_le hpos).1 h
    linarith [Nat.mul_comm fee bytesPerKb]

/-- What an applied spend does: its inputs were there and are gone, its fee is exactly the
burned part and the tip. -/
structure SpendApplied (view : UTXOSet C) (tx : Transaction) (shardTree : ShardTree)
    (shardId floor time height : ℕ) (view' : UTXOSet C) (tip : ℕ) : Prop where
  routed : shardTree.routeTx (tx.txId C) = .ok shardId
  locks : checkLocks tx.locktimeMs tx.lockheight time height = .ok ()
  spendable : ∀ p ∈ tx.inputs.zipIdx, Spendable view tx time height p
  removed : tx.spent.foldlM UTXOSet.remove view = .ok view'
  balance : inputSum view tx = tx.outputSum + (burnedFeeMatoms floor tx.toBytes.length + tip)

variable {shardTree : ShardTree} {shardId floor tip : ℕ}

theorem applySpendTx_ok (h : applySpendTx view tx shardTree shardId floor time height = .ok (view', tip)) :
    SpendApplied view tx shardTree shardId floor time height view' tip := by
  simp only [applySpendTx, Exn.bind_ok, raising_ok, rejectUnless_ok, rejecting_ok] at h
  obtain ⟨routed, hrouted, -, rfl, ⟨⟩, hlocks, r, hloop, -, hneg, -, hrate, spent, hspent, h⟩ := h
  obtain ⟨-, hspendable, rfl⟩ := spendInputs_ok.1 hloop
  cases h
  refine ⟨hrouted, hlocks, hspendable, ?_, ?_⟩
  · rw [Transaction.spent, List.foldlM_map]
    exact hspent
  · have hburned := burnedFeeMatoms_le hrate
    simp only at hneg hburned ⊢
    omega

/-- Every transaction pays something out. -/
theorem outputSum_pos (tx : Transaction) : 0 < tx.outputSum := by
  have hvalid := tx.valid
  simp only [TransactionFields.postInit, Exn.bind_ok, Exn.ensure_ok] at hvalid
  obtain ⟨-, -, -, -, -, -, -, -, -, -, -, hne, -⟩ := hvalid
  obtain ⟨o, rest, houtputs⟩ := List.exists_cons_of_ne_nil hne
  have ho := o.valid
  simp only [OutputFields.postInit, Exn.bind_ok, Exn.ensure_ok] at ho
  obtain ⟨-, -, -, hamount, -⟩ := ho
  unfold Transaction.outputSum
  rw [houtputs, List.map_cons, List.sum_cons]
  omega

namespace SpendApplied

variable (h : SpendApplied view tx shardTree shardId floor time height view' tip)

include h

theorem nodup : tx.spent.Nodup := (UTXOSet.removeAll_ok h.removed).1

theorem present {o : Outpoint} (ho : o ∈ tx.spent) : ∃ u, view.get o = some u :=
  (UTXOSet.removeAll_ok h.removed).2.1 o ho

/-- A transaction that is applied has inputs: its outputs have to be paid for. -/
theorem spent_ne_nil : tx.spent ≠ [] := by
  intro hnil
  have hbalance := h.balance
  have hpos := outputSum_pos tx
  unfold inputSum at hbalance
  rw [hnil, List.map_nil, List.sum_nil] at hbalance
  omega

/-- The inputs pay for the outputs, the burned fee and the tip. -/
theorem total : view'.totalMatoms + tx.outputSum + burnedFeeMatoms floor tx.toBytes.length + tip =
    view.totalMatoms := by
  have htotal := (UTXOSet.removeAll_ok h.removed).2.2.2.2
  have hbalance := h.balance
  unfold inputSum UTXOSet.amountAt at hbalance
  omega

end SpendApplied

theorem checkLocks_caught (locktime lockheight : ℕ) :
    Exn.Post (checkLocks locktime lockheight time height) (fun _ => True) PyError.IsCaught := by
  refine (ensure_caught _).bind fun _ _ _ => (ensure_caught _).bind fun _ _ _ => ?_
  refine (ensure_caught _).bind fun _ _ _ => (ensure_caught _).bind fun _ _ _ => ?_
  exact (ensure_caught _).bind fun _ _ _ => (ensure_caught _).mono (fun _ _ => trivial) fun _ h => h

/-- A spend that passes every check is applied. -/
theorem applySpendTx_returns {fee : ℕ} (hrouted : shardTree.routeTx (tx.txId C) = .ok shardId)
    (hlocks : checkLocks tx.locktimeMs tx.lockheight time height = .ok ()) (hnodup : tx.spent.Nodup)
    (hspendable : ∀ p ∈ tx.inputs.zipIdx, Spendable view tx time height p)
    (hfee : inputSum view tx = tx.outputSum + fee) (hrate : floor ≤ fee * bytesPerKb / tx.toBytes.length) :
    ∃ r, applySpendTx view tx shardTree shardId floor time height = .ok r := by
  have hpresent : ∀ o ∈ tx.spent, ∃ u, view.get o = some u := fun o ho => spendable_present hspendable ho
  obtain ⟨view', hview'⟩ := UTXOSet.removeAll_returns hnodup hpresent
  rw [Transaction.spent, List.foldlM_map] at hview'
  have hloop := spendInputs_ok.2 ⟨hnodup, hspendable, rfl⟩
  have hpaid : inputSum view tx - tx.outputSum = fee := by omega
  refine ⟨(view', fee - burnedFeeMatoms floor tx.toBytes.length), ?_⟩
  simp only [applySpendTx, Exn.bind_ok, raising_ok, rejectUnless_ok, rejecting_ok]
  refine ⟨shardId, hrouted, (), rfl, (), hlocks, _, hloop, (), by dsimp only; omega, (), ?_, view', hview', ?_⟩
  · dsimp only
    rwa [hpaid]
  · dsimp only
    rw [hpaid]
    rfl

end TensorPow
