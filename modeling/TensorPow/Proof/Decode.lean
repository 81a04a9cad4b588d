import TensorPow.Proof.Stop
import TensorPow.Spec.Headers
import TensorPow.Spec.Transaction

/-!
# Decoders raise nothing unexpected

Whatever bytes a peer sends, decoding a transaction returns a value or raises an exception
that the node turns into a rejection. Every transaction and every
unspent output is read back from its own bytes (`fromBytes_toBytes`).
-/

namespace TensorPow

open Wire

variable {α β : Type}

/-- The computation raises only exceptions the node catches. -/
def Caught (x : Except PyError α) : Prop := ∀ e, x = .error e → e.IsCaught

namespace Caught

theorem post {x : Except PyError α} (h : Caught x) : Exn.Post x (fun _ => True) PyError.IsCaught := by
  cases x with
  | ok a => exact Exn.Post.ok trivial
  | error e => exact h e rfl

theorem ok (a : α) : Caught (.ok a : Except PyError α) := fun e h => by cases h

theorem pure (a : α) : Caught (Pure.pure a : Except PyError α) := fun e h => by cases h

theorem ensure {p : Prop} [Decidable p] (msg : String) : Caught (Exn.ensure p (PyError.valueError msg)) := by
  intro e h
  unfold Exn.ensure at h
  split at h
  · cases h
  · cases h
    trivial

theorem bind {x : Except PyError α} {f : α → Except PyError β} (hx : Caught x) (hf : ∀ a, Caught (f a)) :
    Caught (x >>= f) := by
  intro e h
  cases x with
  | ok a => exact hf a e h
  | error e' =>
    cases h
    exact hx e rfl

end Caught

/-! ## Constructors -/

theorem Input.make_ok {f : InputFields} {i : Input} : Input.make f = .ok i ↔ i.toInputFields = f := by
  unfold Input.make
  split
  · rw [Except.ok.injEq]
    exact ⟨fun h => h ▸ rfl, fun h => by cases h; rfl⟩
  · rename_i e he
    refine ⟨fun h => (by cases h), fun h => ?_⟩
    rw [← h, i.valid] at he
    cases he

theorem Output.make_ok {f : OutputFields} {o : Output} : Output.make f = .ok o ↔ o.toOutputFields = f := by
  unfold Output.make
  split
  · rw [Except.ok.injEq]
    exact ⟨fun h => h ▸ rfl, fun h => by cases h; rfl⟩
  · rename_i e he
    refine ⟨fun h => (by cases h), fun h => ?_⟩
    rw [← h, o.valid] at he
    cases he

theorem Transaction.make_ok {f : TransactionFields} {tx : Transaction} :
    Transaction.make f = .ok tx ↔ tx.toTransactionFields = f := by
  unfold Transaction.make
  split
  · rw [Except.ok.injEq]
    exact ⟨fun h => h ▸ rfl, fun h => by cases h; rfl⟩
  · rename_i e he
    refine ⟨fun h => (by cases h), fun h => ?_⟩
    rw [← h, tx.valid] at he
    cases he

/-! ## Transactions -/

theorem caught_requireMultisigPayload (payload : Bytes) : Caught (requireMultisigPayload payload) := by
  unfold requireMultisigPayload
  split
  · exact (Caught.ensure _).bind fun _ => (Caught.ensure _).bind fun _ => (Caught.ensure _).bind fun _ => Caught.ensure _
  · intro e h
    cases h
    trivial

theorem caught_requireTemplatePayload (t : Template) (payload : Bytes) : Caught (requireTemplatePayload t payload) := by
  cases t with
  | pkh => exact Caught.ensure _
  | multisig => exact caught_requireMultisigPayload payload
  | hashlock =>
    refine (Caught.ensure _).bind fun _ => ?_
    unfold requireInnerTemplatePayload
    split
    · exact Caught.ok ()
    · exact caught_requireMultisigPayload _

theorem caught_input (f : InputFields) : Caught (Input.make f) := by
  have hpost : Caught f.postInit := (Caught.ensure _).bind fun _ => (Caught.ensure _).bind fun _ => Caught.ensure _
  intro e h
  unfold Input.make at h
  split at h
  · cases h
  · rename_i e' he'
    cases h
    exact hpost e he'

theorem caught_output (f : OutputFields) : Caught (Output.make f) := by
  have hpost : Caught f.postInit := by
    refine (Caught.ensure _).bind fun _ => (Caught.ensure _).bind fun _ => (Caught.ensure _).bind fun _ => ?_
    refine (Caught.ensure _).bind fun _ => (Caught.ensure _).bind fun _ => (Caught.ensure _).bind fun _ => ?_
    exact caught_requireTemplatePayload _ _
  intro e h
  unfold Output.make at h
  split at h
  · cases h
  · rename_i e' he'
    cases h
    exact hpost e he'

theorem caught_transaction (f : TransactionFields) : Caught (Transaction.make f) := by
  have hpost : Caught f.postInit := by
    refine ((Caught.ensure _).bind fun _ => Caught.ensure _).bind fun _ => ?_
    refine ((Caught.ensure _).bind fun _ => Caught.ensure _).bind fun _ => ?_
    refine (Caught.ensure _).bind fun _ => (Caught.ensure _).bind fun _ => (Caught.ensure _).bind fun _ => ?_
    exact (Caught.ensure _).bind fun _ => (Caught.ensure _).bind fun _ => Caught.ensure _
  intro e h
  unfold Transaction.make at h
  split at h
  · cases h
  · rename_i e' he'
    cases h
    exact hpost e he'

theorem failsIn_readInput : FailsIn PyError.IsCaught Transaction.readInput := by
  have houtpoint : FailsIn PyError.IsCaught Transaction.readOutpoint := by
    refine (FailsIn.fixed trivial 32).bind fun txId => (FailsIn.uint trivial 4).bind fun index => FailsIn.lift ?_
    intro e h
    unfold Outpoint.make at h
    split at h
    · cases h
    · cases h
      trivial
  refine houtpoint.bind fun _ => (FailsIn.uint trivial 4).bind fun _ => (FailsIn.uint trivial 2).bind fun _ => ?_
  exact (FailsIn.take trivial _).bind fun _ => FailsIn.lift (caught_input _)

theorem failsIn_readOutput : FailsIn PyError.IsCaught Transaction.readOutput := by
  refine (FailsIn.uint trivial 8).bind fun _ => (FailsIn.uint trivial 2).bind fun id => ?_
  refine (FailsIn.uint trivial 8).bind fun _ => (FailsIn.uint trivial 8).bind fun _ => ?_
  refine (FailsIn.uint trivial 2).bind fun _ => (FailsIn.take trivial _).bind fun _ => ?_
  have htemplate : Caught (Template.ofId id) := by
    intro e h
    unfold Template.ofId at h
    split at h
    · cases h
    · cases h
    · cases h
    · cases h
      trivial
  have hamount : ∀ n, Caught (Transaction.requireAmountMatoms n) := fun n =>
    (Caught.ensure _).bind fun _ => (Caught.ensure _).bind fun _ => Caught.ensure _
  exact (FailsIn.lift ((hamount _).bind fun _ => htemplate)).bind fun _ => FailsIn.lift (caught_output _)

/-- **Decoding a transaction** raises only exceptions the node catches. -/
theorem caught_fromBytes (data : Bytes) : Caught (Transaction.fromBytes data) := by
  have hread : FailsIn PyError.IsCaught Transaction.readFields := by
    refine (FailsIn.uint trivial 2).bind fun _ => (FailsIn.uint trivial 1).bind fun _ => ?_
    refine (FailsIn.uint trivial 8).bind fun _ => (FailsIn.uint trivial 8).bind fun _ => ?_
    refine (FailsIn.uint trivial 2).bind fun _ => (failsIn_readInput.replicate _).bind fun _ => ?_
    exact (FailsIn.uint trivial 2).bind fun _ => (failsIn_readOutput.replicate _).bind fun _ => FailsIn.pure _
  refine (Caught.ensure _).bind fun _ => Caught.bind (fun e h => ?_) fun _ => (caught_transaction _).bind fun _ =>
    (Caught.ensure _).bind fun _ => Caught.pure _
  exact FailsIn.parse (hread.bind fun _ => (FailsIn.finish trivial).bind fun _ => FailsIn.pure _) h

/-! ## Round trip -/

theorem lt_of_le_u16 {x : ℕ} (h : x ≤ u16Max) : x < 256 ^ 2 := by
  unfold u16Max at h
  omega

theorem lt_of_le_u32 {x : ℕ} (h : x ≤ u32Max) : x < 256 ^ 4 := by
  unfold u32Max at h
  omega

theorem lt_of_le_u64 {x : ℕ} (h : x ≤ u64Max) : x < 256 ^ 8 := by
  unfold u64Max at h
  omega

theorem reads_input (i : Input) : Reads Transaction.readInput i i.toBytes := by
  have hvalid := i.valid
  simp only [InputFields.postInit, requireUint, requireMaxLen, Exn.bind_ok, Exn.ensure_ok] at hvalid
  obtain ⟨-, hseq, -, -, hwitness⟩ := hvalid
  have hlen : i.witness.length ≤ u16Max := by
    unfold txWitnessMaxBytes at hwitness
    unfold u16Max
    omega
  have hmake : Input.make i.toInputFields = .ok i := Input.make_ok.2 rfl
  have houtpoint : Reads Transaction.readOutpoint i.previousOutpoint i.previousOutpoint.toBytes := by
    have hmakeOutpoint : Outpoint.make i.previousOutpoint.txId i.previousOutpoint.outputIndex = .ok i.previousOutpoint :=
      dif_pos i.previousOutpoint.index_le
    unfold Outpoint.toBytes
    rw [← List.append_nil (le 4 _)]
    refine (Reads.fixed _ i.previousOutpoint.txId).bind ?_
    exact (Reads.uint _ (lt_of_le_u32 i.previousOutpoint.index_le)).bind (Reads.lift hmakeOutpoint)
  have hend := (Reads.take Transaction.truncated (b := i.witness) rfl).bind
    (f := fun witness => Reader.lift (Input.make ⟨i.previousOutpoint, i.sequence, witness⟩)) (Reads.lift hmake)
  rw [List.append_nil] at hend
  unfold Input.toBytes
  simp only [List.append_assoc]
  refine houtpoint.bind ((Reads.uint _ (lt_of_le_u32 hseq)).bind ?_)
  exact (Reads.uint _ (lt_of_le_u16 hlen)).bind hend

theorem reads_output (o : Output) : Reads Transaction.readOutput o o.toBytes := by
  have hvalid := o.valid
  simp only [OutputFields.postInit, requireUint, requireMaxLen, Exn.bind_ok, Exn.ensure_ok] at hvalid
  obtain ⟨-, hamount, -, hne, -, hmax, -, hlocktime, -, hlockheight, -, hpayload, -⟩ := hvalid
  have hlen : o.payload.length ≤ u16Max := by
    unfold txOutputPayloadMaxBytes at hpayload
    unfold u16Max
    omega
  have hid : o.template.id < 256 ^ 2 := by cases o.template <;> decide
  have htemplate : (do
      Transaction.requireAmountMatoms o.amountMatoms
      Template.ofId o.template.id) = .ok o.template := by
    unfold Transaction.requireAmountMatoms requireUint
    rw [Exn.ensure_of _ hamount, Exn.ensure_of _ hne, Exn.ensure_of _ hmax]
    cases o.template <;> rfl
  have hmake : Output.make o.toOutputFields = .ok o := Output.make_ok.2 rfl
  unfold Output.toBytes
  simp only [List.append_assoc]
  refine (Reads.uint _ (lt_of_le_u64 hamount)).bind ((Reads.uint _ hid).bind ?_)
  refine (Reads.uint _ (lt_of_le_u64 hlocktime)).bind ((Reads.uint _ (lt_of_le_u64 hlockheight)).bind ?_)
  refine (Reads.uint _ (lt_of_le_u16 hlen)).bind ?_
  have hend := (Reads.take Transaction.truncated (b := o.payload) rfl).bind (f := fun payload => do
    let template ← Reader.lift (do
      Transaction.requireAmountMatoms o.amountMatoms
      Template.ofId o.template.id)
    Reader.lift (Output.make ⟨o.amountMatoms, template, o.locktimeMs, o.lockheight, payload⟩))
    ((Reads.lift htemplate).bind (Reads.lift hmake))
  rw [List.append_nil, List.append_nil] at hend
  exact hend

/-- **Round trip.** Every transaction the constructor admits survives its own encoding. -/
theorem fromBytes_toBytes (tx : Transaction) : Transaction.fromBytes tx.toBytes = .ok tx := by
  have hvalid := tx.valid
  simp only [TransactionFields.postInit, requireFormatEpoch, requireSigType, requireUint, Exn.bind_ok,
    Exn.ensure_ok] at hvalid
  obtain ⟨-, ⟨-, hversion, -⟩, -, ⟨-, hsig, -⟩, -, hlocktime, -, hlockheight, -, hinputs, -, -, -, houtputs, hsize⟩ := hvalid
  have hmake : Transaction.make tx.toTransactionFields = .ok tx := Transaction.make_ok.2 rfl
  have hread : Reads Transaction.readFields tx.toTransactionFields tx.toBytes := by
    unfold TransactionFields.toBytes TransactionFields.layout
    simp only [List.append_assoc]
    refine (Reads.uint _ (lt_of_le_u16 hversion)).bind ((Reads.uint _ (by omega)).bind ?_)
    refine (Reads.uint _ (lt_of_le_u64 hlocktime)).bind ((Reads.uint _ (lt_of_le_u64 hlockheight)).bind ?_)
    refine (Reads.uint _ (lt_of_le_u16 hinputs)).bind ((Reads.replicate fun i _ => reads_input i).bind ?_)
    refine (Reads.uint _ (lt_of_le_u16 houtputs)).bind ?_
    rw [← List.append_nil (tx.outputs.flatMap _)]
    exact (Reads.replicate fun o _ => reads_output o).bind (Reads.pure _)
  unfold Transaction.fromBytes requireMaxLen
  rw [Exn.ensure_of _ hsize, Exn.ok_bind, hread.parse, Exn.ok_bind, hmake, Exn.ok_bind]
  rw [Exn.ensure_of _ rfl]
  rfl

/-! ## Unspent outputs -/

theorem UTXO.reads_fields (u : UTXO) : Reads UTXO.readFields
    ⟨u.outpoint.txId, u.outpoint.outputIndex, u.amountMatoms, u.template.id, u.ownerPubkeyHash, u.locktimeMs,
      u.lockheight, u.payload.length⟩
    (u.outpoint.toBytes ++ le 8 u.amountMatoms ++ le 2 u.template.id ++ u.ownerPubkeyHash.bytes ++
      le 8 u.locktimeMs ++ le 8 u.lockheight ++ le 2 u.payload.length) := by
  have hvalid := u.valid
  simp only [UTXOFields.postInit, requireUint, Exn.bind_ok, Exn.ensure_ok] at hvalid
  obtain ⟨-, hamount, -, -, -, -, -, hlocktime, -, hlockheight, hpayload⟩ := hvalid
  have hlen : u.payload.length ≤ u16Max := by
    unfold txOutputPayloadMaxBytes at hpayload
    unfold u16Max
    omega
  have hid : u.template.id < 256 ^ 2 := by cases u.template <;> decide
  unfold Outpoint.toBytes
  simp only [List.append_assoc]
  refine (Reads.fixed _ _).bind ((Reads.uint _ (lt_of_le_u32 u.outpoint.index_le)).bind ?_)
  refine (Reads.uint _ (lt_of_le_u64 hamount)).bind ((Reads.uint _ hid).bind ((Reads.fixed _ _).bind ?_))
  refine (Reads.uint _ (lt_of_le_u64 hlocktime)).bind ((Reads.uint _ (lt_of_le_u64 hlockheight)).bind ?_)
  rw [← List.append_nil (le 2 _)]
  exact (Reads.uint _ (lt_of_le_u16 hlen)).bind (Reads.pure _)

/-- **Round trip.** Every unspent output survives its own encoding. -/
theorem UTXO.fromBytes_toBytes {C : Crypto} (u : UTXO) :
    UTXO.fromBytes C u.toBytes (u.outpoint.key C) = .ok u := by
  have htemplate : Template.ofId u.template.id = .ok u.template := by cases u.template <;> rfl
  have hmakeOutpoint : Outpoint.make u.outpoint.txId u.outpoint.outputIndex = .ok u.outpoint :=
    dif_pos u.outpoint.index_le
  have hmake : UTXO.make u.toUTXOFields = .ok u := by
    unfold UTXO.make
    split
    · rfl
    · rename_i e he
      rw [u.valid] at he
      cases he
  have hlength : u.toBytes.length = UTXO.fixedBytes + u.payload.length := by
    simp [UTXO.toBytes, Outpoint.toBytes, UTXO.fixedBytes]
    omega
  have hparse : Reader.parse (do
      let e ← UTXO.readFields
      let payload ← Reader.rest
      return (e, payload)) u.toBytes = .ok _ := u.reads_fields.parse_rest
  unfold UTXO.fromBytes
  rw [Exn.ensure_of _ (by omega), Exn.ok_bind, hparse, Exn.ok_bind]
  dsimp only
  rw [hmakeOutpoint, Exn.ok_bind, Exn.ensure_of _ hlength, Exn.ok_bind, htemplate, Exn.ok_bind, hmake, Exn.ok_bind,
    Exn.ensure_of _ rfl]
  rfl

theorem UTXO.toBytes_injective : Function.Injective UTXO.toBytes := by
  intro u v h
  have hread := u.reads_fields u.payload
  have hread' := v.reads_fields v.payload
  change UTXO.readFields u.toBytes = _ at hread
  change UTXO.readFields v.toBytes = _ at hread'
  rw [h, hread'] at hread
  obtain ⟨⟨⟨txId, index, hindex⟩, amount, template, owner, locktime, lockheight, payload⟩, hvalid⟩ := u
  obtain ⟨⟨⟨txId', index', hindex'⟩, amount', template', owner', locktime', lockheight', payload'⟩, hvalid'⟩ := v
  simp only [Except.ok.injEq, Prod.mk.injEq, UTXO.Encoded.mk.injEq] at hread
  obtain ⟨⟨rfl, rfl, rfl, htemplate, rfl, rfl, rfl, -⟩, rfl⟩ := hread
  have : template' = template := by
    revert htemplate
    cases template' <;> cases template <;> decide
  subst this
  rfl

end TensorPow
