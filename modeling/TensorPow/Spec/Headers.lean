import TensorPow.Spec.Basic
import TensorPow.Wire.Reader

/-!
# Fruit and anchor headers

`chain/headers.py` and the preimages of `pow/challenge.py`. A header structure carries
the proof that its fields pass the checks of `__post_init__` (`postInit`), so every
value is one the constructor admits; `make` runs the checks.

* `FruitHeader.effectiveParentHashes`: the selected parent and the candidates whose
  bit is set.
* `fruitPowPreimage`: the byte string the proof of work is about.
-/

namespace TensorPow

open Wire

/-- `PARENT_BITMAP_MAX_BYTES`. -/
def parentBitmapMaxBytes : ℕ := 1250

/-- `SIG_TYPE_ED25519_BIT`. -/
def sigTypeEd25519Bit : ℕ := 1

/-- `_require_sig_mask`. -/
def requireSigMask (value : ℕ) : Except PyError Unit := do
  requireUint "sig_type_supported" value u16Max
  Exn.ensure (value = sigTypeEd25519Bit)
    (.valueError "sig_type_supported must contain only the active Ed25519 bit")

/-- The fields of a fruit header. -/
structure FruitHeaderFields where
  version : ℕ
  sigTypeSupported : ℕ
  parentSelected : Hash
  parentBitmap : Bytes
  latestAnchor : Hash
  txMerkleRoot : Hash
  timestampMs : ℕ
  shardId : ℕ
  nonce : ℕ
deriving DecidableEq

/-- `FruitHeader.__post_init__`. -/
def FruitHeaderFields.postInit (h : FruitHeaderFields) : Except PyError Unit := do
  requireFormatEpoch h.version
  requireSigMask h.sigTypeSupported
  requireMaxLen "parent_bitmap" h.parentBitmap parentBitmapMaxBytes
  requireUint "timestamp_ms" h.timestampMs u64Max
  requireShardId h.shardId
  requireUint "nonce" h.nonce u64Max

/-- `FruitHeader`. -/
structure FruitHeader extends FruitHeaderFields where
  valid : toFruitHeaderFields.postInit = .ok ()
deriving DecidableEq

namespace FruitHeader

/-- The constructor: the fields, if they pass the checks. -/
def make (f : FruitHeaderFields) : Except PyError FruitHeader :=
  match h : f.postInit with
  | .ok () => .ok ⟨f, h⟩
  | .error e => .error e

/-- `FruitHeader.serialize`. -/
def serialize (h : FruitHeader) : Bytes :=
  le 2 h.version ++ le 2 h.sigTypeSupported ++ h.parentSelected.bytes ++ le 2 h.parentBitmap.length ++
    h.parentBitmap ++ h.latestAnchor.bytes ++ h.txMerkleRoot.bytes ++ le 8 h.timestampMs ++
    le 4 h.shardId ++ le 8 h.nonce

/-- The error of a reader that runs out of header bytes. -/
def truncated : PyError := .valueError "truncated header"

/-- The reads of `FruitHeader.deserialize`, in order. -/
def readFields : Reader PyError FruitHeaderFields := do
  let version ← Reader.uint truncated 2
  let sigTypeSupported ← Reader.uint truncated 2
  let parentSelected ← Reader.fixed truncated 32
  let parentBitmap ← Reader.take truncated (← Reader.uint truncated 2)
  let latestAnchor ← Reader.fixed truncated 32
  let txMerkleRoot ← Reader.fixed truncated 32
  let timestampMs ← Reader.uint truncated 8
  let shardId ← Reader.uint truncated 4
  let nonce ← Reader.uint truncated 8
  return { version, sigTypeSupported, parentSelected, parentBitmap, latestAnchor, txMerkleRoot,
           timestampMs, shardId, nonce }

/-- `FruitHeader.deserialize`. -/
def deserialize (data : Bytes) : Except PyError FruitHeader := do
  let fields ← Reader.parse (do
    let f ← readFields
    Reader.finish (.valueError "trailing header bytes")
    return f) data
  make fields

/-- `FruitHeader.header_hash`. -/
def headerHash (C : Crypto) (h : FruitHeader) : Hash := C.domainHash domainFruitHeader h.serialize

end FruitHeader

/-! ## Effective parents -/

/-- Bit `i` of a bitmap, least significant bit of each byte first. -/
def bitAt (bitmap : Bytes) (i : ℕ) : Bool :=
  match bitmap[i / 8]? with
  | some b => b.val.testBit (i % 8)
  | none => false

/-- `_has_bits_beyond`. -/
def hasBitsBeyond (bitmap : Bytes) (candidateCount : ℕ) : Bool :=
  (List.range' candidateCount (bitmap.length * 8 - candidateCount)).any (bitAt bitmap)

/-- The candidates whose bit is set, the first candidate having bit `i`. -/
def selectedCandidates (bitmap : Bytes) : ℕ → List Hash → List Hash
  | _, [] => []
  | i, c :: cs =>
    if bitAt bitmap i then c :: selectedCandidates bitmap (i + 1) cs
    else selectedCandidates bitmap (i + 1) cs

/-- `FruitHeader.effective_parent_hashes`. -/
def FruitHeader.effectiveParentHashes (h : FruitHeader) (parentCandidates : List Hash) :
    Except PyError (List Hash) := do
  let selected := h.parentSelected :: selectedCandidates h.parentBitmap 0 parentCandidates
  Exn.ensure (hasBitsBeyond h.parentBitmap parentCandidates.length = false)
    (.valueError "parent_bitmap has bits beyond parent candidate list")
  Exn.ensure selected.Nodup (.valueError "effective parent set contains duplicates")
  return selected

/-! ## Proof-of-work headers -/

/-- The fields of a fruit proof-of-work header. -/
structure FruitPowHeader where
  version : ℕ
  sigTypeSupported : ℕ
  effectiveParentHashes : List Hash
  latestAnchor : Hash
  txMerkleRoot : Hash
  timestampMs : ℕ
  shardId : ℕ
  nonce : ℕ
deriving DecidableEq

/-- `FruitPowHeader.__post_init__`. -/
def FruitPowHeader.postInit (h : FruitPowHeader) : Except PyError Unit := do
  requireUint "version" h.version u16Max
  requireUint "sig_type_supported" h.sigTypeSupported u16Max
  Exn.ensure (h.sigTypeSupported % 2 = 1)
    (.valueError "sig_type_supported must include SIG_TYPE_ED25519_BIT")
  Exn.ensure (h.effectiveParentHashes.length ≤ u16Max)
    (.valueError "effective_parent_hashes must fit in uint16 count")
  Exn.ensure h.effectiveParentHashes.Nodup
    (.valueError "effective_parent_hashes must not contain duplicates")
  requireUint "timestamp_ms" h.timestampMs u64Max
  requireUint "shard_id" h.shardId u32Max
  requireUint "nonce" h.nonce u64Max

/-- `FruitHeader.to_pow_header`. -/
def FruitHeader.toPowHeader (h : FruitHeader) (parentCandidates : List Hash) :
    Except PyError FruitPowHeader := do
  let effectiveParentHashes ← h.effectiveParentHashes parentCandidates
  let p : FruitPowHeader :=
    { version := h.version, sigTypeSupported := h.sigTypeSupported, effectiveParentHashes,
      latestAnchor := h.latestAnchor, txMerkleRoot := h.txMerkleRoot, timestampMs := h.timestampMs,
      shardId := h.shardId, nonce := h.nonce }
  p.postInit
  return p

/-- `fruit_pow_preimage`. -/
def fruitPowPreimage (h : FruitPowHeader) : Bytes :=
  domainPowChallengeFruit :: (le 2 h.version ++ le 2 h.sigTypeSupported ++
    le 2 h.effectiveParentHashes.length ++ h.effectiveParentHashes.flatMap FixedBytes.bytes ++
    h.latestAnchor.bytes ++ h.txMerkleRoot.bytes ++ le 8 h.timestampMs ++ le 4 h.shardId ++ le 8 h.nonce)

/-! ## Anchor headers -/

/-- The fields of an anchor header. -/
structure AnchorHeaderFields where
  version : ℕ
  parentAnchor : Hash
  fruitSetRoot : Hash
  parentCandidateRoot : Hash
  shardTreeStateRoot : Hash
  feeFloorSetRoot : Hash
  anchorRewardRoot : Hash
  timestampMs : ℕ
  nonce : ℕ
deriving DecidableEq

/-- `AnchorHeader.__post_init__`. -/
def AnchorHeaderFields.postInit (h : AnchorHeaderFields) : Except PyError Unit := do
  requireFormatEpoch h.version
  requireUint "timestamp_ms" h.timestampMs u64Max
  requireUint "nonce" h.nonce u64Max

/-- `AnchorHeader`. Its proof-of-work header has the same fields under weaker checks, so
the header itself is what the proof-of-work check receives. -/
structure AnchorHeader extends AnchorHeaderFields where
  valid : toAnchorHeaderFields.postInit = .ok ()
deriving DecidableEq

namespace AnchorHeader

/-- The constructor: the fields, if they pass the checks. -/
def make (f : AnchorHeaderFields) : Except PyError AnchorHeader :=
  match h : f.postInit with
  | .ok () => .ok ⟨f, h⟩
  | .error e => .error e

/-- `AnchorHeader.serialize`. -/
def serialize (h : AnchorHeader) : Bytes :=
  le 2 h.version ++ h.parentAnchor.bytes ++ h.fruitSetRoot.bytes ++ h.parentCandidateRoot.bytes ++
    h.shardTreeStateRoot.bytes ++ h.feeFloorSetRoot.bytes ++ h.anchorRewardRoot.bytes ++
    le 8 h.timestampMs ++ le 8 h.nonce

/-- The reads of `AnchorHeader.deserialize`, in order. -/
def readFields : Reader PyError AnchorHeaderFields := do
  let version ← Reader.uint FruitHeader.truncated 2
  let parentAnchor ← Reader.fixed FruitHeader.truncated 32
  let fruitSetRoot ← Reader.fixed FruitHeader.truncated 32
  let parentCandidateRoot ← Reader.fixed FruitHeader.truncated 32
  let shardTreeStateRoot ← Reader.fixed FruitHeader.truncated 32
  let feeFloorSetRoot ← Reader.fixed FruitHeader.truncated 32
  let anchorRewardRoot ← Reader.fixed FruitHeader.truncated 32
  let timestampMs ← Reader.uint FruitHeader.truncated 8
  let nonce ← Reader.uint FruitHeader.truncated 8
  return { version, parentAnchor, fruitSetRoot, parentCandidateRoot, shardTreeStateRoot,
           feeFloorSetRoot, anchorRewardRoot, timestampMs, nonce }

/-- `AnchorHeader.deserialize`. -/
def deserialize (data : Bytes) : Except PyError AnchorHeader := do
  let fields ← Reader.parse (do
    let f ← readFields
    Reader.finish (.valueError "trailing header bytes")
    return f) data
  make fields

/-- `AnchorHeader.header_hash`. -/
def headerHash (C : Crypto) (h : AnchorHeader) : Hash := C.domainHash domainAnchorHeader h.serialize

end AnchorHeader

end TensorPow
