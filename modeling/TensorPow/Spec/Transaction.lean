import TensorPow.Spec.Utxo
import TensorPow.Wire.Reader

/-!
# Transactions

`tx/transaction.py`: inputs, outputs and transactions with the checks of their
constructors, the canonical byte layout and its decoder, transaction ids and
signature hashes.
-/

namespace TensorPow

open Wire

/-- `MAX_TX_BYTES`. -/
def maxTxBytes : ℕ := 8192

/-- `TX_SEQUENCE_FINAL`. -/
def txSequenceFinal : ℕ := 0xFFFFFFFF

/-- `TX_WITNESS_MAX_BYTES`. -/
def txWitnessMaxBytes : ℕ := 2048

/-- `MULTISIG_MAX_KEYS`. -/
def multisigMaxKeys : ℕ := 15

/-- `ED25519_PUBLIC_KEY_BYTES`. -/
def ed25519PublicKeyBytes : ℕ := 32

/-- `SIG_TYPE_ED25519`. -/
def sigTypeEd25519 : ℕ := 0

/-! ## Template payloads -/

/-- `_require_multisig_payload`. -/
def requireMultisigPayload : Bytes → Except PyError Unit
  | threshold :: pubkeyCount :: keys => do
    Exn.ensure (1 ≤ pubkeyCount.val ∧ pubkeyCount.val ≤ multisigMaxKeys)
      (.valueError "multisig template pubkey_count outside range")
    Exn.ensure (1 ≤ threshold.val ∧ threshold.val ≤ pubkeyCount.val)
      (.valueError "multisig template threshold outside range")
    Exn.ensure (keys.length = pubkeyCount.val * ed25519PublicKeyBytes)
      (.valueError "multisig template payload length mismatch")
    Exn.ensure (slices ed25519PublicKeyBytes keys).Nodup
      (.valueError "multisig template public keys must be distinct")
  | _ => .error (.valueError "multisig template payload is truncated")

/-- `_require_inner_template_payload`. -/
def requireInnerTemplatePayload (payload : Bytes) : Except PyError Unit :=
  if payload.length = hashLenBytes then .ok () else requireMultisigPayload payload

/-- `_require_template_payload`. -/
def requireTemplatePayload : Template → Bytes → Except PyError Unit
  | .pkh, payload =>
    Exn.ensure (payload.length = hashLenBytes) (.valueError "PKH template payload must be 32 bytes")
  | .multisig, payload => requireMultisigPayload payload
  | .hashlock, payload => do
    Exn.ensure (hashLenBytes < payload.length)
      (.valueError "hashlock template payload must include hash plus inner payload")
    requireInnerTemplatePayload (payload.drop hashLenBytes)

/-- `_require_template_payload`, for a template id. -/
def requireTemplatePayloadId (templateId : ℕ) (payload : Bytes) : Except PyError Unit := do
  let template ← Template.ofId templateId
  requireTemplatePayload template payload

/-! ## Inputs and outputs -/

/-- The fields of an input. -/
structure InputFields where
  previousOutpoint : Outpoint
  sequence : ℕ
  witness : Bytes
deriving DecidableEq

/-- `Input.__post_init__`. -/
def InputFields.postInit (i : InputFields) : Except PyError Unit := do
  requireUint "sequence" i.sequence u32Max
  Exn.ensure (i.sequence = txSequenceFinal) (.valueError "sequence must equal TX_SEQUENCE_FINAL")
  requireMaxLen "witness" i.witness txWitnessMaxBytes

/-- `Input`: a transaction input spending one previous outpoint. -/
structure Input extends InputFields where
  valid : toInputFields.postInit = .ok ()
deriving DecidableEq

/-- The constructor: the fields, if they pass the checks. -/
def Input.make (f : InputFields) : Except PyError Input :=
  match h : f.postInit with
  | .ok () => .ok ⟨f, h⟩
  | .error e => .error e

/-- `Input.to_bytes`. -/
def Input.toBytes (i : Input) : Bytes :=
  i.previousOutpoint.toBytes ++ le 4 i.sequence ++ le 2 i.witness.length ++ i.witness

/-- The fields of an output. -/
structure OutputFields where
  amountMatoms : ℕ
  template : Template
  locktimeMs : ℕ
  lockheight : ℕ
  payload : Bytes
deriving DecidableEq

/-- `Output.__post_init__`. -/
def OutputFields.postInit (o : OutputFields) : Except PyError Unit := do
  requireUint "amount_matoms" o.amountMatoms u64Max
  Exn.ensure (o.amountMatoms ≠ 0) (.valueError "amount_matoms must be nonzero")
  Exn.ensure (o.amountMatoms ≤ maxSupplyMatoms) (.valueError "amount_matoms exceeds MAX_SUPPLY_MATOMS")
  requireUint "locktime_ms" o.locktimeMs u64Max
  requireUint "lockheight" o.lockheight u64Max
  requireMaxLen "payload" o.payload txOutputPayloadMaxBytes
  requireTemplatePayload o.template o.payload

/-- `Output`: a transaction output with a template-specific payload. -/
structure Output extends OutputFields where
  valid : toOutputFields.postInit = .ok ()
deriving DecidableEq

/-- The constructor: the fields, if they pass the checks. -/
def Output.make (f : OutputFields) : Except PyError Output :=
  match h : f.postInit with
  | .ok () => .ok ⟨f, h⟩
  | .error e => .error e

/-- `Output.to_bytes`. -/
def Output.toBytes (o : Output) : Bytes :=
  le 8 o.amountMatoms ++ le 2 o.template.id ++ le 8 o.locktimeMs ++ le 8 o.lockheight ++
    le 2 o.payload.length ++ o.payload

/-! ## Transactions -/

/-- The fields of a transaction. -/
structure TransactionFields where
  version : ℕ
  sigType : ℕ
  locktimeMs : ℕ
  lockheight : ℕ
  inputs : List Input
  outputs : List Output
deriving DecidableEq

/-- The layout of a transaction, with the given encoding of its inputs. -/
def TransactionFields.layout (t : TransactionFields) (encodeInput : Input → Bytes) : Bytes :=
  le 2 t.version ++ le 1 t.sigType ++ le 8 t.locktimeMs ++ le 8 t.lockheight ++
    le 2 t.inputs.length ++ t.inputs.flatMap encodeInput ++
    le 2 t.outputs.length ++ t.outputs.flatMap Output.toBytes

/-- `Transaction.to_bytes`. -/
def TransactionFields.toBytes (t : TransactionFields) : Bytes := t.layout Input.toBytes

/-- `_require_sig_type`. -/
def requireSigType (value : ℕ) : Except PyError Unit := do
  requireUint "sig_type" value 0xFF
  Exn.ensure (value = sigTypeEd25519) (.valueError "sig_type must be an active signature type")

/-- `Transaction.__post_init__`. -/
def TransactionFields.postInit (t : TransactionFields) : Except PyError Unit := do
  requireFormatEpoch t.version
  requireSigType t.sigType
  requireUint "locktime_ms" t.locktimeMs u64Max
  requireUint "lockheight" t.lockheight u64Max
  requireUint "input_count" t.inputs.length u16Max
  Exn.ensure (t.outputs ≠ []) (.valueError "output_count must be nonzero")
  requireUint "output_count" t.outputs.length u16Max
  Exn.ensure (t.toBytes.length ≤ maxTxBytes) (.valueError "transaction exceeds 8192 bytes")

/-- `Transaction`. -/
structure Transaction extends TransactionFields where
  valid : toTransactionFields.postInit = .ok ()
deriving DecidableEq

namespace Transaction

/-- The constructor: the fields, if they pass the checks. -/
def make (f : TransactionFields) : Except PyError Transaction :=
  match h : f.postInit with
  | .ok () => .ok ⟨f, h⟩
  | .error e => .error e

/-- The error of a reader that runs out of transaction bytes. -/
def truncated : PyError := .valueError "truncated transaction"

/-- `Outpoint.from_bytes` on the next 36 bytes. -/
def readOutpoint : Reader PyError Outpoint := do
  let txId ← Reader.fixed truncated 32
  let outputIndex ← Reader.uint truncated 4
  Reader.lift (Outpoint.make txId outputIndex)

/-- `_read_input`. -/
def readInput : Reader PyError Input := do
  let previousOutpoint ← readOutpoint
  let sequence ← Reader.uint truncated 4
  let witness ← Reader.take truncated (← Reader.uint truncated 2)
  Reader.lift (Input.make { previousOutpoint, sequence, witness })

/-- The checks of `Output.__post_init__` that come before the one of the template id. -/
def requireAmountMatoms (amountMatoms : ℕ) : Except PyError Unit := do
  requireUint "amount_matoms" amountMatoms u64Max
  Exn.ensure (amountMatoms ≠ 0) (.valueError "amount_matoms must be nonzero")
  Exn.ensure (amountMatoms ≤ maxSupplyMatoms) (.valueError "amount_matoms exceeds MAX_SUPPLY_MATOMS")

/-- `_read_output`. -/
def readOutput : Reader PyError Output := do
  let amountMatoms ← Reader.uint truncated 8
  let templateId ← Reader.uint truncated 2
  let locktimeMs ← Reader.uint truncated 8
  let lockheight ← Reader.uint truncated 8
  let payload ← Reader.take truncated (← Reader.uint truncated 2)
  let template ← Reader.lift (do
    requireAmountMatoms amountMatoms
    Template.ofId templateId)
  Reader.lift (Output.make { amountMatoms, template, locktimeMs, lockheight, payload })

/-- The reads of `Transaction.from_bytes`, in order. -/
def readFields : Reader PyError TransactionFields := do
  let version ← Reader.uint truncated 2
  let sigType ← Reader.uint truncated 1
  let locktimeMs ← Reader.uint truncated 8
  let lockheight ← Reader.uint truncated 8
  let inputs ← Reader.replicate readInput (← Reader.uint truncated 2)
  let outputs ← Reader.replicate readOutput (← Reader.uint truncated 2)
  return { version, sigType, locktimeMs, lockheight, inputs, outputs }

/-- `Transaction.from_bytes`. -/
def fromBytes (data : Bytes) : Except PyError Transaction := do
  requireMaxLen "data" data maxTxBytes
  let fields ← Reader.parse (do
    let f ← readFields
    Reader.finish (.valueError "trailing transaction bytes")
    return f) data
  let tx ← make fields
  Exn.ensure (tx.toBytes = data) (.valueError "transaction bytes are non-canonical")
  return tx

/-- `Transaction.tx_id`. -/
def txId (C : Crypto) (tx : Transaction) : Hash := C.domainHash domainTxId tx.toBytes

/-- An input with its witness emptied, as `_to_bytes(empty_witnesses=True)` writes it. -/
def emptyWitness (i : Input) : Bytes := i.previousOutpoint.toBytes ++ le 4 i.sequence ++ le 2 0

/-- `Transaction.sighash`. -/
def sighash (C : Crypto) (tx : Transaction) (inputIndex : ℕ) : Except PyError Hash := do
  requireUint "input_index" inputIndex u32Max
  Exn.ensure (inputIndex < tx.inputs.length) (.indexError "input_index outside transaction inputs")
  return C.domainHash domainTxSighash (tx.layout emptyWitness ++ le 4 inputIndex)

/-- The sum of the output amounts. -/
def outputSum (tx : Transaction) : ℕ := (tx.outputs.map fun o => o.amountMatoms).sum

end Transaction

end TensorPow
