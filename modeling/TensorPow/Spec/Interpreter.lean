import TensorPow.Spec.Script

/-!
# The script interpreter

`execute_script` of `tx/script.py`: a stack machine with nine opcodes. A stack is a list with
its top first.

* `pop`, `push`, `readPush`, `executeCheckmultisig`: what the opcodes are made of.
* `execute`, `step`, `run`: one opcode, one round of the loop, the loop.
* `executeScript`, `verifyScript`: the two entry points.
-/

namespace TensorPow.Script

open Wire

/-- `SCRIPT_MAX_BYTES`. -/
def scriptMaxBytes : ℕ := 1024

/-- `SCRIPT_MAX_OPS`. -/
def scriptMaxOps : ℕ := 256

/-- `SCRIPT_MAX_STACK_ITEMS`. -/
def scriptMaxStackItems : ℕ := 1024

/-- How the execution of a script fails. A loop that does not end within its fuel `diverges`. -/
inductive ScriptFailure where
  | scriptError (msg : String)
  | indexError (msg : String)
  | diverges
deriving DecidableEq, Repr

/-- The opcodes that have no operand in the script: `OP_VERIFY`, `OP_DUP`, …. -/
inductive StackOp where
  | verify | dup | hash256 | checksig | checkmultisig | hashlock | checklocktime | checklockheight
deriving DecidableEq, Repr

/-- An opcode: `OP_PUSH`, or one of the others. -/
inductive Opcode where
  | push
  | op (o : StackOp)
deriving DecidableEq, Repr

/-- The opcode of a byte. -/
def Opcode.ofByte (b : Byte) : Option Opcode :=
  match b.val with
  | 0x01 => some .push
  | 0x69 => some (.op .verify)
  | 0x76 => some (.op .dup)
  | 0xAA => some (.op .hash256)
  | 0xAC => some (.op .checksig)
  | 0xAE => some (.op .checkmultisig)
  | 0xB1 => some (.op .hashlock)
  | 0xB2 => some (.op .checklocktime)
  | 0xB3 => some (.op .checklockheight)
  | _ => none

/-- A digit in lower-case hexadecimal. -/
def hexDigit (n : ℕ) : String := String.singleton ("0123456789abcdef".toList.getD n '0')

/-- The message for a byte that is no opcode. -/
def unknownOpcode (b : Byte) : String := "unknown opcode 0x" ++ hexDigit (b.val / 16) ++ hexDigit (b.val % 16)

/-- `ScriptContext.__post_init__` on the fields of a context. -/
def requireScriptContext (sigType currentTimeMs currentHeight : ℕ) : Except PyError Unit := do
  requireSigType sigType
  requireUint "current_time_ms" currentTimeMs u64Max
  requireUint "current_height" currentHeight u64Max

/-- `ScriptContext`. -/
structure ScriptContext where
  message : Bytes
  sigType : ℕ
  currentTimeMs : ℕ
  currentHeight : ℕ
  valid : requireScriptContext sigType currentTimeMs currentHeight = .ok ()

/-! ## Bytes and items -/

/-- `data[index]`. -/
def byteAt (data : Bytes) (index : ℕ) : Except ScriptFailure Byte :=
  Exn.get data[index]? (.indexError "index out of range")

/-- `stack.pop()`. -/
def listPop : List Bytes → Except ScriptFailure (Bytes × List Bytes)
  | [] => .error (.indexError "pop from empty list")
  | item :: stack => .ok (item, stack)

/-- `_pop`. -/
def pop (stack : List Bytes) (opcodeName : String) : Except ScriptFailure (Bytes × List Bytes) := do
  Exn.ensure (stack ≠ []) (.scriptError (opcodeName ++ " stack underflow"))
  listPop stack

/-- As many calls of `_pop`; the items in the order in which they come off. -/
def popMany (opcodeName : String) : ℕ → List Bytes → Except ScriptFailure (List Bytes × List Bytes)
  | 0, stack => .ok ([], stack)
  | n + 1, stack => do
    let (item, stack) ← pop stack opcodeName
    let (items, stack) ← popMany opcodeName n stack
    return (item :: items, stack)

/-- `_require_stack_item`. -/
def requireStackItem (name : String) (item : Bytes) : Except ScriptFailure Unit :=
  Exn.ensure (item.length ≤ scriptMaxElementBytes) (.scriptError (name ++ " exceeds max element size"))

/-- `_push`. -/
def push (stack : List Bytes) (item : Bytes) : Except ScriptFailure (List Bytes) := do
  requireStackItem "stack item" item
  Exn.ensure (stack.length < scriptMaxStackItems) (.scriptError "stack exceeds max item count")
  return item :: stack

/-- The bytes of a boolean. -/
def boolItem (value : Bool) : Bytes := if value then [1] else []

/-- `_push_bool`. -/
def pushBool (stack : List Bytes) (value : Bool) : Except ScriptFailure (List Bytes) := push stack (boolItem value)

/-- `_truthy`. -/
def truthy (item : Bytes) : Except ScriptFailure Bool :=
  if item = [] then .ok false
  else if item = [1] then .ok true
  else .error (.scriptError "boolean value must be canonical")

/-- `_decode_small_int`. -/
def decodeSmallInt (item : Bytes) (name : String) : Except ScriptFailure ℕ := do
  Exn.ensure (item.length = 1) (.scriptError (name ++ " must be one byte"))
  let b ← byteAt item 0
  return b.val

/-- `_decode_lock`. -/
def decodeLock (item : Bytes) (name : String) : Except ScriptFailure ℕ := do
  Exn.ensure (item.length = 8) (.scriptError (name ++ " must be uint64 little-endian bytes"))
  return ofLe item

/-- `_read_push`: the item and the offset after it. -/
def readPush (script : Bytes) (offset : ℕ) : Except ScriptFailure (Bytes × ℕ) := do
  Exn.ensure (offset + 2 ≤ script.length) (.scriptError "truncated push length")
  let length := ofLe ((script.drop offset).take 2)
  Exn.ensure (length ≤ scriptMaxElementBytes) (.scriptError "push exceeds max element size")
  Exn.ensure (offset + 2 + length ≤ script.length) (.scriptError "truncated push data")
  return ((script.drop (offset + 2)).take length, offset + 2 + length)

/-! ## The opcodes -/

section Opcodes

variable (C : Crypto) (context : ScriptContext)

/-- `_execute_checkmultisig`: the result and the stack below what it takes. -/
def executeCheckmultisig (stack : List Bytes) : Except ScriptFailure (Bool × List Bytes) := do
  let (count, stack) ← pop stack "OP_CHECKMULTISIG"
  let pubkeyCount ← decodeSmallInt count "pubkey_count"
  Exn.ensure (1 ≤ pubkeyCount ∧ pubkeyCount ≤ multisigMaxKeys) (.scriptError "pubkey_count outside multisig range")
  let (popped, stack) ← popMany "OP_CHECKMULTISIG" pubkeyCount stack
  let publicKeys := popped.reverse
  Exn.ensure (∀ key ∈ publicKeys, key.length = ed25519PublicKeyBytes)
    (.scriptError "multisig public key must be 32 bytes")
  Exn.ensure publicKeys.Nodup (.scriptError "multisig public keys must be distinct")
  let (item, stack) ← pop stack "OP_CHECKMULTISIG"
  let threshold ← decodeSmallInt item "threshold"
  Exn.ensure (1 ≤ threshold ∧ threshold ≤ pubkeyCount) (.scriptError "threshold outside multisig range")
  let (popped, stack) ← popMany "OP_CHECKMULTISIG" threshold stack
  let signatures := popped.reverse
  Exn.ensure (∀ signature ∈ signatures, signature.length = ed25519SignatureBytes)
    (.scriptError "multisig signature must be 64 bytes")
  return (verifyOrderedMultisig C context.sigType context.message signatures publicKeys, stack)

/-- What an opcode without operand does to the stack. -/
def executeOp (opcode : StackOp) (stack : List Bytes) : Except ScriptFailure (List Bytes) :=
  match opcode with
  | .dup => do
    Exn.ensure (stack ≠ []) (.scriptError "OP_DUP stack underflow")
    let (item, _) ← listPop stack
    push stack item
  | .hash256 => do
    let (item, stack) ← pop stack "OP_HASH256"
    push stack (C.hashBytes item).bytes
  | .checksig => do
    let (publicKey, stack) ← pop stack "OP_CHECKSIG"
    let (signature, stack) ← pop stack "OP_CHECKSIG"
    pushBool stack (verifySignatureBytes C context.sigType context.message signature publicKey)
  | .checkmultisig => do
    let (result, stack) ← executeCheckmultisig C context stack
    pushBool stack result
  | .hashlock => do
    let (expectedHash, stack) ← pop stack "OP_HASHLOCK"
    let (preimage, stack) ← pop stack "OP_HASHLOCK"
    Exn.ensure (expectedHash.length = hashLenBytes) (.scriptError "hashlock expected hash must be 32 bytes")
    pushBool stack (decide ((C.hashBytes preimage).bytes = expectedHash))
  | .checklocktime => do
    let (item, stack) ← pop stack "OP_CHECKLOCKTIME"
    let required ← decodeLock item "locktime_ms"
    pushBool stack (decide (required = 0 ∨ required ≤ context.currentTimeMs))
  | .checklockheight => do
    let (item, stack) ← pop stack "OP_CHECKLOCKHEIGHT"
    let required ← decodeLock item "lockheight"
    pushBool stack (decide (required = 0 ∨ required ≤ context.currentHeight))
  | .verify => do
    let (item, stack) ← pop stack "OP_VERIFY"
    let result ← truthy item
    Exn.ensure result (.scriptError "OP_VERIFY failed")
    return stack

/-- One opcode, with the offset after its byte: the next offset and the stack. -/
def execute (script : Bytes) (b : Byte) (offset : ℕ) (stack : List Bytes) : Except ScriptFailure (ℕ × List Bytes) :=
  match Opcode.ofByte b with
  | none => .error (.scriptError (unknownOpcode b))
  | some .push => do
    let (item, offset) ← readPush script offset
    let stack ← push stack item
    return (offset, stack)
  | some (.op opcode) => do
    let stack ← executeOp C context opcode stack
    return (offset, stack)

/-! ## The loop -/

/-- The state of the loop. -/
structure Machine where
  offset : ℕ
  opCount : ℕ
  stack : List Bytes
deriving DecidableEq

/-- One round of the loop. -/
def step (script : Bytes) (m : Machine) : Except ScriptFailure Machine := do
  Exn.ensure (m.opCount + 1 ≤ scriptMaxOps) (.scriptError "script exceeds max op count")
  let b ← byteAt script m.offset
  let (offset, stack) ← execute C context script b (m.offset + 1) m.stack
  return ⟨offset, m.opCount + 1, stack⟩

/-- `while offset < len(script)`. -/
def run (script : Bytes) : ℕ → Machine → Except ScriptFailure Machine
  | 0, m => if m.offset < script.length then .error .diverges else .ok m
  | fuel + 1, m =>
    if m.offset < script.length then do
      let m ← step C context script m
      run script fuel m
    else .ok m

end Opcodes

/-- The loop of `_initial_stack`; the last item of the tuple is the top. -/
def initialStack (items : List Bytes) : Except ScriptFailure (List Bytes) :=
  items.foldlM (fun stack item => do
    Exn.ensure (stack.length < scriptMaxStackItems) (.scriptError "stack exceeds max item count")
    requireStackItem "stack item" item
    return item :: stack) []

/-- `execute_script`: the final stack, its top last. -/
def executeScript (C : Crypto) (script : Bytes) (context : ScriptContext) (items : List Bytes) :
    Except ScriptFailure (List Bytes) := do
  Exn.ensure (script.length ≤ scriptMaxBytes) (.scriptError "script exceeds max size")
  let stack ← initialStack items
  let m ← run C context script (scriptMaxOps + 1) ⟨0, 0, stack⟩
  return m.stack.reverse

/-- `verify_script`. -/
def verifyScript (C : Crypto) (script : Bytes) (context : ScriptContext) (items : List Bytes) : Bool :=
  match executeScript C script context items with
  | .error _ => false
  | .ok stack =>
    match stack.getLast? with
    | none => false
    | some item =>
      match truthy item with
      | .error _ => false
      | .ok result => result

end TensorPow.Script
