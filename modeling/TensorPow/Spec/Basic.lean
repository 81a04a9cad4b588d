import TensorPow.Wire.Bytes
import TensorPow.Table.Basic
import TensorPow.Exn.Basic
import TensorPow.Sorted.Basic

/-!
# Basic types

* `Hash`: a 32-byte BLAKE3 digest (also a proof-of-work target).
* `PyError`: the exceptions the code raises, with their texts.
* `Crypto`: the two cryptographic primitives taken from libraries, BLAKE3 and
  Ed25519 verification, as parameters.
-/

namespace TensorPow

open Wire

/-- `HASH_LEN_BYTES`. -/
def hashLenBytes : ℕ := 32

/-- A 32-byte digest. -/
abbrev Hash := FixedBytes 32

instance hashTransCmp : Std.TransCmp (compare : Hash → Hash → Ordering) := inferInstance

instance hashLawfulBEq : LawfulBEq Hash := inferInstance

/-- `U16_MAX`. -/
def u16Max : ℕ := 0xFFFF

/-- `U32_MAX`. -/
def u32Max : ℕ := 0xFFFFFFFF

/-- `U64_MAX`. -/
def u64Max : ℕ := 0xFFFFFFFFFFFFFFFF

/-- `U256_MAX`. -/
def u256Max : ℕ := 2 ^ 256 - 1

/-- A raised exception. `recursionError` stands for a loop or recursion that would
not end. -/
inductive PyError where
  | valueError (msg : String)
  | keyError (msg : String)
  | typeError (msg : String)
  | indexError (msg : String)
  | overflowError (msg : String)
  | zeroDivisionError (msg : String)
  | assertionError (msg : String)
  | storageError (msg : String)
  | runtimeError (msg : String)
  | recursionError
deriving DecidableEq, Repr

/-- `table[key]` of a Python `dict`. -/
def item {K V : Type} [LinearOrder K] (t : Table K V) (k : K) : Except PyError V :=
  Exn.get t[k]? (.keyError "missing key")

@[simp] theorem item_ok {K V : Type} [LinearOrder K] {t : Table K V} {k : K} {v : V} :
    item t k = .ok v ↔ t[k]? = some v := Exn.get_ok

theorem item_post {K V : Type} [LinearOrder K] {t : Table K V} {k : K} {v : V} (h : t[k]? = some v)
    {E : PyError → Prop} : Exn.Post (item t k) (fun w => w = v) E := by
  rw [item, h]
  exact Exn.Post.ok rfl

/-! ## Range checks -/

/-- `_require_uint`. -/
def requireUint (name : String) (value maxValue : ℕ) : Except PyError Unit :=
  Exn.ensure (value ≤ maxValue) (.valueError (name ++ " outside uint range"))

/-- `_require_bytes` with a `max_len`. -/
def requireMaxLen (name : String) (value : Bytes) (maxLen : ℕ) : Except PyError Unit :=
  Exn.ensure (value.length ≤ maxLen) (.valueError (name ++ " exceeds max length"))

/-- `FORMAT_EPOCH`. -/
def formatEpoch : ℕ := 0

/-- `_require_format_epoch`. -/
def requireFormatEpoch (version : ℕ) : Except PyError Unit := do
  requireUint "version" version u16Max
  Exn.ensure (version = formatEpoch) (.valueError "version must equal FORMAT_EPOCH")

/-! ## Hashing -/

/-- The cryptographic primitives the code takes from `blake3` and `pynacl`. -/
structure Crypto where
  /-- BLAKE3 of a byte string. -/
  hashBytes : Bytes → Hash
  /-- Ed25519: does `signature` sign `message` under `public_key`? -/
  verify : (publicKey message signature : Bytes) → Bool

/-- `domain_hash`: BLAKE3 of a domain byte and the data. -/
def Crypto.domainHash (C : Crypto) (domain : Byte) (data : Bytes) : Hash := C.hashBytes (domain :: data)

/-- `GENESIS_PARENT_HASH`. -/
def genesisParentHash : Hash := FixedBytes.zero 32

def domainPowChallengeFruit : Byte := 0x00
def domainPowChallengeAnchor : Byte := 0x01
def domainFruitHeader : Byte := 0x10
def domainAnchorHeader : Byte := 0x11
def domainTxMerkleRoot : Byte := 0x12
def domainFruitSetRoot : Byte := 0x13
def domainParentCandidateRoot : Byte := 0x14
def domainAnchorRewardRoot : Byte := 0x15
def domainTxId : Byte := 0x20
def domainTxSighash : Byte := 0x21
def domainOutpoint : Byte := 0x22
def domainUtxo : Byte := 0x23
def domainMerkleLeaf : Byte := 0x30
def domainMerkleNode : Byte := 0x31
def domainMerkleEmpty : Byte := 0x32
def domainAddress : Byte := 0x40
def domainShardTree : Byte := 0x60
def domainFeeFloor : Byte := 0x61

/-! ## Shard ids -/

/-- `SHARD_MAX_DEPTH`. -/
def shardMaxDepth : ℕ := 16

/-- The depth of an encoded shard id: its bits from `SHARD_ID_DEPTH_SHIFT` on. -/
def shardDepth (shardId : ℕ) : ℕ := shardId / 2 ^ 16

/-- The path of an encoded shard id: its bits below `SHARD_ID_DEPTH_SHIFT`. -/
def shardPath (shardId : ℕ) : ℕ := shardId % 2 ^ 16

/-- `require_shard_id`: the depth is bounded and the path fits the depth. -/
def requireShardId (shardId : ℕ) : Except PyError Unit := do
  requireUint "shard_id" shardId u32Max
  Exn.ensure (shardDepth shardId ≤ shardMaxDepth) (.valueError "shard_id depth exceeds SHARD_MAX_DEPTH")
  Exn.ensure (shardPath shardId < 2 ^ shardDepth shardId)
    (.valueError "shard_id path is outside depth")

end TensorPow
