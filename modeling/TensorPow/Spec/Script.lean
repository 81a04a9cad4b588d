import TensorPow.Spec.Transaction

/-!
# Spending conditions

The part of `tx/script.py` the node uses: absolute locks and the verification of a
witness against a standard output template.
-/

namespace TensorPow

open Wire

/-- `ED25519_SIGNATURE_BYTES`. -/
def ed25519SignatureBytes : ℕ := 64

/-- `SCRIPT_MAX_ELEMENT_BYTES`. -/
def scriptMaxElementBytes : ℕ := 520

variable (C : Crypto)

/-- `pubkey_hash`. -/
def pubkeyHash (publicKey : Bytes) : Except PyError Hash := do
  Exn.ensure (publicKey.length = ed25519PublicKeyBytes) (.valueError "public_key must be 32 bytes")
  return C.domainHash domainAddress publicKey

/-- `check_locks`. -/
def checkLocks (locktimeMs lockheight currentTimeMs currentHeight : ℕ) : Except PyError Unit := do
  requireUint "locktime_ms" locktimeMs u64Max
  requireUint "lockheight" lockheight u64Max
  requireUint "current_time_ms" currentTimeMs u64Max
  requireUint "current_height" currentHeight u64Max
  Exn.ensure (locktimeMs = 0 ∨ locktimeMs ≤ currentTimeMs) (.valueError "locktime is not mature")
  Exn.ensure (lockheight = 0 ∨ lockheight ≤ currentHeight) (.valueError "lockheight is not mature")

/-- `_parse_multisig_payload`: the threshold and the public keys. -/
def parseMultisigPayload : Bytes → Except PyError (ℕ × List Bytes)
  | threshold :: pubkeyCount :: keys => do
    Exn.ensure (1 ≤ pubkeyCount.val ∧ pubkeyCount.val ≤ multisigMaxKeys)
      (.valueError "pubkey_count outside multisig range")
    Exn.ensure (1 ≤ threshold.val ∧ threshold.val ≤ pubkeyCount.val)
      (.valueError "threshold outside multisig range")
    Exn.ensure (keys.length = pubkeyCount.val * ed25519PublicKeyBytes)
      (.valueError "multisig payload length mismatch")
    Exn.ensure (slices ed25519PublicKeyBytes keys).Nodup
      (.valueError "multisig public keys must be distinct")
    return (threshold.val, slices ed25519PublicKeyBytes keys)
  | _ => .error (.valueError "multisig payload is truncated")

/-- The two templates a hashlock may wrap. -/
inductive InnerTemplate where
  | pkh
  | multisig
deriving DecidableEq

/-- `_infer_inner_template_id`. -/
def inferInnerTemplate (payload : Bytes) : Except PyError InnerTemplate :=
  if payload.length = hashLenBytes then .ok .pkh
  else do
    let _ ← parseMultisigPayload payload
    return .multisig

/-- `validate_template_payload` for an inner template. -/
def validateInnerPayload : InnerTemplate → Bytes → Except PyError Unit
  | .pkh, payload => Exn.ensure (payload.length = hashLenBytes) (.valueError "PKH payload must be 32 bytes")
  | .multisig, payload => do
    let _ ← parseMultisigPayload payload

/-- `validate_template_payload`. -/
def validateTemplatePayload : Template → Bytes → Except PyError Unit
  | .pkh, payload => validateInnerPayload .pkh payload
  | .multisig, payload => validateInnerPayload .multisig payload
  | .hashlock, payload => do
    Exn.ensure (hashLenBytes < payload.length)
      (.valueError "hashlock payload must include hash plus inner template payload")
    let inner ← inferInnerTemplate (payload.drop hashLenBytes)
    validateInnerPayload inner (payload.drop hashLenBytes)

/-- `validate_template_payload`, for a template id. -/
def validateTemplatePayloadId (templateId : ℕ) (payload : Bytes) : Except PyError Unit := do
  requireUint "template_id" templateId u16Max
  let template ← Template.ofId templateId
  validateTemplatePayload template payload

/-- `_verify_signature_bytes`; a signature type other than Ed25519 verifies nothing. -/
def verifySignatureBytes (sigType : ℕ) (message signature publicKey : Bytes) : Bool :=
  decide (signature.length = ed25519SignatureBytes) && decide (publicKey.length = ed25519PublicKeyBytes) &&
    decide (sigType = sigTypeEd25519) && C.verify publicKey message signature

/-- The inner loop of `_verify_ordered_multisig`: the keys after the first that verifies. -/
def keysAfterMatch (sigType : ℕ) (message signature : Bytes) : List Bytes → Option (List Bytes)
  | [] => none
  | key :: keys =>
    if verifySignatureBytes C sigType message signature key then some keys
    else keysAfterMatch sigType message signature keys

/-- `_verify_ordered_multisig`. -/
def verifyOrderedMultisig (sigType : ℕ) (message : Bytes) : List Bytes → List Bytes → Bool
  | [], _ => true
  | signature :: signatures, keys =>
    match keysAfterMatch C sigType message signature keys with
    | none => false
    | some rest => verifyOrderedMultisig sigType message signatures rest

/-- `_verify_pkh`. -/
def verifyPkh (payload witness message : Bytes) (sigType : ℕ) : Except PyError Bool := do
  if witness.length ≠ ed25519SignatureBytes + ed25519PublicKeyBytes then return false
  let signature := witness.take ed25519SignatureBytes
  let publicKey := witness.drop ed25519SignatureBytes
  let owner ← pubkeyHash C publicKey
  return decide (owner.bytes = payload) && verifySignatureBytes C sigType message signature publicKey

/-- `_verify_multisig_template`. -/
def verifyMultisigTemplate (payload witness message : Bytes) (sigType : ℕ) : Except PyError Bool := do
  let (threshold, publicKeys) ← parseMultisigPayload payload
  if witness.length ≠ threshold * ed25519SignatureBytes then return false
  return verifyOrderedMultisig C sigType message (slices ed25519SignatureBytes witness) publicKeys

/-- The checks `verify_template` makes before it looks at the witness, and the dispatch.
A `ValueError` anywhere means the witness does not verify. -/
def guarded (check : Except PyError Unit) (witness : Bytes) (sigType locktimeMs lockheight currentTimeMs
    currentHeight : ℕ) (body : Except PyError Bool) : Bool :=
  let result := do
    check
    requireMaxLen "witness" witness txWitnessMaxBytes
    requireSigType sigType
    checkLocks locktimeMs lockheight currentTimeMs currentHeight
    body
  match result with
  | .ok b => b
  | .error _ => false

/-- `verify_template` on a template a hashlock may wrap, with no locks. -/
def verifyInnerTemplate (inner : InnerTemplate) (payload witness message : Bytes) (sigType : ℕ) : Bool :=
  guarded (validateInnerPayload inner payload) witness sigType 0 0 0 0 <|
    match inner with
    | .pkh => verifyPkh C payload witness message sigType
    | .multisig => verifyMultisigTemplate C payload witness message sigType

/-- `_verify_hashlock`. -/
def verifyHashlock (payload witness message : Bytes) (sigType : ℕ) : Except PyError Bool := do
  if witness.length < 2 then return false
  let preimageLen := ofLe (witness.take 2)
  if scriptMaxElementBytes < preimageLen then return false
  if witness.length < 2 + preimageLen then return false
  let preimage := (witness.drop 2).take preimageLen
  if (C.hashBytes preimage).bytes ≠ payload.take hashLenBytes then return false
  let inner ← inferInnerTemplate (payload.drop hashLenBytes)
  return verifyInnerTemplate C inner (payload.drop hashLenBytes) (witness.drop (2 + preimageLen)) message sigType

/-- `verify_template`. -/
def verifyTemplate (template : Template) (payload witness message : Bytes)
    (sigType locktimeMs lockheight currentTimeMs currentHeight : ℕ) : Bool :=
  guarded (validateTemplatePayload template payload) witness sigType locktimeMs lockheight currentTimeMs
    currentHeight <|
    match template with
    | .pkh => verifyPkh C payload witness message sigType
    | .multisig => verifyMultisigTemplate C payload witness message sigType
    | .hashlock => verifyHashlock C payload witness message sigType

/-- `verify_utxo_spend`. -/
def verifyUtxoSpend (utxo : UTXO) (witness : Bytes) (message : Hash) (sigType currentTimeMs currentHeight : ℕ) :
    Bool :=
  let payload := if utxo.template = .pkh then utxo.ownerPubkeyHash.bytes else utxo.payload
  verifyTemplate C utxo.template payload witness message.bytes sigType utxo.locktimeMs utxo.lockheight
    currentTimeMs currentHeight

end TensorPow
