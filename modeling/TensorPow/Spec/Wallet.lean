import TensorPow.Spec.Address
import TensorPow.Spec.Script

/-!
# Wallets

`wallet/wallet.py`: the outputs a wallet owns, coin selection, and signing. The Ed25519 key
derivation and signing are a parameter; the keystore is not modelled.
-/

namespace TensorPow

open Wire

/-- `Transaction.without_witnesses`. -/
def Transaction.withoutWitnesses (tx : Transaction) : Except PyError Transaction := do
  let inputs ← tx.inputs.mapM fun i =>
    Input.make { previousOutpoint := i.previousOutpoint, sequence := i.sequence, witness := [] }
  Transaction.make { tx.toTransactionFields with inputs }

/-- The functions of the Ed25519 library a wallet calls. -/
structure Signer where
  /-- The raw public key of a private seed. -/
  publicKeyFromSeed : Bytes → Bytes
  /-- The raw signature of a message. -/
  sign : (message privateKey : Bytes) → Bytes

/-- `ED25519_PRIVATE_KEY_BYTES`. -/
def ed25519PrivateKeyBytes : ℕ := 32

/-- The fields of a wallet. -/
structure WalletFields where
  privateKey : Bytes
  publicKey : Bytes

/-- `Wallet.__post_init__`. -/
def WalletFields.postInit (S : Signer) (w : WalletFields) : Except PyError Unit := do
  Exn.ensure (w.privateKey.length = ed25519PrivateKeyBytes) (.valueError "private_key must be 32 bytes")
  Exn.ensure (w.publicKey.length = 32) (.valueError "public_key must be 32 bytes")
  Exn.ensure (S.publicKeyFromSeed w.privateKey = w.publicKey)
    (.valueError "public key does not match private seed")

/-- `Wallet`: a single Ed25519 key. -/
structure Wallet (S : Signer) extends WalletFields where
  valid : toWalletFields.postInit S = .ok ()

namespace Wallet

variable {S : Signer} (C : Crypto)

/-- `Wallet.owner_pubkey_hash`. -/
def ownerPubkeyHash (w : Wallet S) : Except PyError Hash := pubkeyHash C w.publicKey

/-- The body of the loop of `sign_transaction`: the input at an index, signed. -/
def signInput (w : Wallet S) (base : Transaction) (p : Input × ℕ) : Except PyError Input := do
  let sighash ← base.sighash C p.2
  let signature := S.sign sighash.bytes w.privateKey
  let witness := signature ++ w.publicKey
  let owner ← w.ownerPubkeyHash C
  Exn.ensure (verifyTemplate C .pkh owner.bytes witness sighash.bytes base.sigType 0 0 0 0)
    (.valueError "wallet signature failed verification")
  Input.make { previousOutpoint := p.1.previousOutpoint, sequence := p.1.sequence, witness }

/-- The `except ValueError` clause around the signed transaction. -/
def wrapSigned : Except PyError Transaction → Except PyError Transaction
  | .error (.valueError msg) => .error (.valueError ("failed to sign wallet transaction: " ++ msg))
  | result => result

/-- `Wallet.sign_transaction`. -/
def signTransaction (w : Wallet S) (unsigned : Transaction) : Except PyError Transaction := do
  Exn.ensure (unsigned.inputs ≠ []) (.valueError "transaction has no inputs to sign")
  let base ← unsigned.withoutWitnesses
  let inputs ← base.inputs.zipIdx.mapM (w.signInput C base)
  wrapSigned (Transaction.make { base.toTransactionFields with inputs })

/-! ## Payments -/

/-- `_require_u64`. -/
def requireU64 (name : String) (value : ℕ) : Except PyError Unit :=
  Exn.ensure (value ≤ u64Max) (.valueError (name ++ " outside uint64 range"))

/-- `_require_positive_u64`. -/
def requirePositiveU64 (name : String) (value : ℕ) : Except PyError Unit := do
  requireU64 name value
  Exn.ensure (value ≠ 0) (.valueError (name ++ " must be nonzero"))

/-- `_utxo_is_mature`. -/
def utxoIsMature (utxo : UTXO) (currentTimeMs currentHeight : ℕ) : Prop :=
  (utxo.locktimeMs = 0 ∨ utxo.locktimeMs ≤ currentTimeMs) ∧ (utxo.lockheight = 0 ∨ utxo.lockheight ≤ currentHeight)

instance instDecidableUtxoIsMature (utxo : UTXO) (currentTimeMs currentHeight : ℕ) :
    Decidable (utxoIsMature utxo currentTimeMs currentHeight) :=
  inferInstanceAs (Decidable (_ ∧ _))

/-- `Wallet.owned_utxos`. -/
def ownedUtxos (w : Wallet S) (utxos : List UTXO) (currentTimeMs currentHeight : ℕ) : Except PyError (List UTXO) := do
  requireU64 "current_time_ms" currentTimeMs
  requireU64 "current_height" currentHeight
  let owner ← w.ownerPubkeyHash C
  return Sorted.sortBy (fun u => u.outpoint.toBytes) (utxos.filter fun u =>
    u.template = .pkh ∧ u.ownerPubkeyHash = owner ∧ utxoIsMature u currentTimeMs currentHeight)

/-- The sum of the amounts of some unspent outputs. -/
def amountOf (utxos : List UTXO) : ℕ := (utxos.map fun u => u.amountMatoms).sum

/-- `Wallet.balance_matoms`. -/
def balanceMatoms (w : Wallet S) (utxos : List UTXO) (currentTimeMs currentHeight : ℕ) : Except PyError ℕ := do
  return amountOf (← w.ownedUtxos C utxos currentTimeMs currentHeight)

/-- The selection loop of `create_signed_transaction`: the outputs taken so far, and their
amount. -/
def selectCoins (required : ℕ) : List UTXO → List UTXO → ℕ → List UTXO × ℕ
  | [], selected, selectedAmount => (selected, selectedAmount)
  | utxo :: rest, selected, selectedAmount =>
    if required ≤ selectedAmount + utxo.amountMatoms then (selected ++ [utxo], selectedAmount + utxo.amountMatoms)
    else selectCoins required rest (selected ++ [utxo]) (selectedAmount + utxo.amountMatoms)

/-- The keyword arguments of `create_signed_transaction`, but for the unspent outputs. -/
structure Payment where
  recipientAddress : List Char
  amountMatoms : ℕ
  feeMatoms : ℕ
  changeAddress : Option (List Char)
  locktimeMs : ℕ
  lockheight : ℕ
  currentTimeMs : ℕ
  currentHeight : ℕ

/-- The fields of `Output(amount, TEMPLATE_PKH, payload=owner)`. -/
def pkhOutput (amountMatoms : ℕ) (owner : Hash) : OutputFields where
  amountMatoms := amountMatoms
  template := .pkh
  locktimeMs := 0
  lockheight := 0
  payload := owner.bytes

/-- The outputs of a payment. -/
def paymentOutputs (p : Payment) (recipientHash changeHash : Hash) (changeMatoms : ℕ) : List OutputFields :=
  pkhOutput p.amountMatoms recipientHash :: if changeMatoms ≠ 0 then [pkhOutput changeMatoms changeHash] else []

/-- The transaction to sign. -/
def unsignedTransaction (p : Payment) (recipientHash changeHash : Hash) (selected : List UTXO) (changeMatoms : ℕ) :
    Except PyError Transaction := do
  let outputs ← (paymentOutputs p recipientHash changeHash changeMatoms).mapM Output.make
  let inputs ← selected.mapM fun utxo =>
    Input.make { previousOutpoint := utxo.outpoint, sequence := txSequenceFinal, witness := [] }
  Transaction.make
    { version := formatEpoch, sigType := sigTypeEd25519, locktimeMs := p.locktimeMs, lockheight := p.lockheight,
      inputs, outputs }

/-- The `except ValueError` clause of `create_signed_transaction`. -/
def wrapBuilt : Except PyError Transaction → Except PyError Transaction
  | .error (.valueError msg) => .error (.valueError ("failed to build wallet transaction: " ++ msg))
  | result => result

section Payments

variable (unicodeLower : List Char → List Char)

/-- The exception a caller of the address functions sees. -/
def fromAddress {α : Type} : Except Address.Failure α → Except PyError α
  | .ok a => .ok a
  | .error (.decode message _) => .error (.valueError message)
  | .error (.other e) => .error e

/-- `Wallet.address`. -/
def address (w : Wallet S) : Except PyError (List Char) :=
  fromAddress (Address.pubkeyToAddress unicodeLower C w.publicKey)

/-- `_address_hash`. -/
def addressHash (name : String) (address : List Char) : Except PyError Hash :=
  match fromAddress (Address.addressToPubkeyHash unicodeLower address) with
  | .ok pubkeyHash => .ok pubkeyHash
  | .error (.typeError _) => .error (.valueError (name ++ " is invalid"))
  | .error (.valueError _) => .error (.valueError (name ++ " is invalid"))
  | .error e => .error e

/-- `change_address or self.address`. -/
def changeAddress (w : Wallet S) (p : Payment) : Except PyError (List Char) :=
  match p.changeAddress with
  | some (c :: cs) => .ok (c :: cs)
  | _ => w.address C unicodeLower

/-- `Wallet.create_signed_transaction`. The errors of `sign_transaction` are of the class that
the `except` clauses let through. -/
def createSignedTransaction (w : Wallet S) (utxos : List UTXO) (p : Payment) : Except PyError Transaction := do
  requirePositiveU64 "amount_matoms" p.amountMatoms
  requireU64 "fee_matoms" p.feeMatoms
  requireU64 "locktime_ms" p.locktimeMs
  requireU64 "lockheight" p.lockheight
  requireU64 "current_time_ms" p.currentTimeMs
  requireU64 "current_height" p.currentHeight
  Exn.ensure (p.amountMatoms ≤ maxSupplyMatoms) (.valueError "amount_matoms exceeds MAX_SUPPLY_MATOMS")
  let recipientHash ← addressHash unicodeLower "recipient_address" p.recipientAddress
  let changeHash ← addressHash unicodeLower "change_address" (← w.changeAddress C unicodeLower p)
  let required := p.amountMatoms + p.feeMatoms
  Exn.ensure (required ≤ u64Max) (.valueError "amount plus fee outside uint64 range")
  let owned ← w.ownedUtxos C utxos p.currentTimeMs p.currentHeight
  let selection := selectCoins required owned [] 0
  Exn.ensure (required ≤ selection.2) (.valueError "insufficient spendable balance")
  let unsigned ← wrapBuilt (unsignedTransaction p recipientHash changeHash selection.1 (selection.2 - required))
  w.signTransaction C unsigned

end Payments

end Wallet

end TensorPow
