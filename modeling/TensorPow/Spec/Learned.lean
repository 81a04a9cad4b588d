import TensorPow.Spec.Template
import TensorPow.Wire.Varint

/-!
# The learned residual codec

`codec/learned.py`: a template object is stored as the bytes in which it differs from what
frozen weights predict.

* `LearnedCodecWeights`, `predictTemplateBytes`: the weights and the prediction. The tensor
  library is taken to copy and add 32-bit integers exactly; `Torch` says what devices it has.
* `compressTemplateObject`, `decompressTemplateObject`: the residuals with the gaps between
  their positions.
-/

namespace TensorPow

open Wire

namespace LearnedCodec

/-- What the codec raises. -/
inductive Failure where
  /-- `LearnedCodecError` -/
  | codec (msg : String)
  /-- an exception of another class -/
  | other (e : PyError)
deriving DecidableEq, Repr

variable {α : Type}

/-- A computation that does not raise `LearnedCodecError`. -/
def lift (x : Except PyError α) : Except Failure α := x.mapError .other

/-- `raise LearnedCodecError` unless the condition holds. -/
def require (p : Prop) [Decidable p] (msg : String) : Except Failure Unit := Exn.ensure p (.codec msg)

/-- `LEARNED_CODEC_MAGIC`. -/
def learnedCodecMagic : Bytes := [84, 80, 76, 67]

/-- `MAX_LEARNED_COMPRESSED_BYTES`. -/
def maxLearnedCompressedBytes : ℕ :=
  TemplateCodec.compressedObjectHeaderBytes + learnedCodecMagic.length + hashLenBytes +
    TemplateCodec.maxTemplateCompressedBytes * 3 + 20

/-! ## Weights -/

/-- `_require_int8`. -/
def requireInt8 (name : String) (value : ℤ) : Except PyError Unit :=
  Exn.ensure (-128 ≤ value ∧ value ≤ 127) (.valueError (name ++ " outside int8 range"))

/-- The fields of the weights. -/
structure WeightsFields where
  positionPrior : List ℤ
  fallbackPrior : ℤ
  weightsHash : Bytes

/-- `LearnedCodecWeights.__post_init__`. -/
def WeightsFields.postInit (w : WeightsFields) : Except PyError Unit := do
  Exn.ensure (w.positionPrior ≠ []) (.valueError "position_prior must not be empty")
  Exn.ensure (w.positionPrior.length ≤ TemplateCodec.maxTemplateCompressedBytes)
    (.valueError "position_prior exceeds max template compressed length")
  w.positionPrior.forM (requireInt8 "position_prior value")
  requireInt8 "fallback_prior" w.fallbackPrior
  Exn.ensure (w.weightsHash.length = hashLenBytes) (.valueError "weights_hash must be 32 bytes")

/-- `LearnedCodecWeights`: frozen INT8 byte-prior weights. -/
structure LearnedCodecWeights extends WeightsFields where
  valid : toWeightsFields.postInit = .ok ()

/-! ## Prediction -/

/-- The devices that the tensor library has besides the processor. -/
structure Torch where
  cudaAvailable : Bool
  mpsAvailable : Bool

/-- A device. -/
inductive Device where
  | cpu
  | cuda
  | mps
deriving DecidableEq

/-- `LearnedBackend`. -/
inductive LearnedBackend where
  | auto
  | device (d : Device)
deriving DecidableEq

/-- `_resolve_backend`. -/
def resolveBackend (T : Torch) : LearnedBackend → Except Failure Device
  | .auto => .ok (if T.cudaAvailable then .cuda else if T.mpsAvailable then .mps else .cpu)
  | .device .cuda => do
    require (T.cudaAvailable = true) "CUDA backend requested but CUDA is unavailable"
    return .cuda
  | .device .mps => do
    require (T.mpsAvailable = true) "MPS backend requested but MPS is unavailable"
    return .mps
  | .device .cpu => .ok .cpu

/-- `_require_byte_value`. -/
def requireByteValue (name : String) (value : ℤ) : Except Failure Byte := do
  require (0 ≤ value ∧ value < 256) (name ++ " outside byte range")
  return Fin.ofNat 256 value.toNat

/-- `predict_template_bytes`. -/
def predictTemplateBytes (T : Torch) (length : ℕ) (weights : LearnedCodecWeights) (backend : LearnedBackend) :
    Except Failure Bytes := do
  lift (requireUint "length" length TemplateCodec.maxTemplateCompressedBytes)
  let _ ← resolveBackend T backend
  if length = 0 then return []
  let learnedLen := min length weights.positionPrior.length
  -- the first places of the tensor are overwritten by the prior
  let predicted := weights.positionPrior.take learnedLen ++
    (List.replicate length weights.fallbackPrior).drop learnedLen
  predicted.mapM fun value => requireByteValue "predicted byte" (value + 128)

/-! ## Template objects -/

/-- `_require_template_object`. -/
def requireTemplateObject (value : Bytes) : Except Failure Unit := do
  lift (requireMaxLen "template_object" value TemplateCodec.maxTemplateCompressedBytes)
  require (TemplateCodec.compressedObjectHeaderBytes ≤ value.length) "template object header is truncated"
  require (ofLe (value.take 2) = TemplateCodec.codecTemplateRange)
    "learned codec requires a template-range transaction object"

/-- `_uvarint`. -/
def uvarint (value : ℕ) : Except Failure Bytes := do
  lift (requireUint "value" value u64Max)
  return varintBytes 10 value

/-- `zip(.., strict=True)`. -/
def zipStrict (xs ys : Bytes) : Except Failure (List (Byte × Byte)) := do
  lift (Exn.ensure (¬ys.length < xs.length) (.valueError "zip() argument 2 is shorter than argument 1"))
  lift (Exn.ensure (¬xs.length < ys.length) (.valueError "zip() argument 2 is longer than argument 1"))
  return xs.zip ys

/-- The list of residuals: the positions and bytes in which the object differs. -/
def residuals (pairs : List (Byte × Byte)) : List (ℕ × Byte) :=
  pairs.zipIdx.filterMap fun p => if p.1.1 ≠ p.1.2 then some (p.2, p.1.1) else none

/-- One round of the loop over the residuals: the body so far, and `previous_index + 1`. -/
def writeResidual (acc : Bytes × ℕ) (residual : ℕ × Byte) : Except Failure (Bytes × ℕ) := do
  let skip ← uvarint (residual.1 - acc.2)
  return (acc.1 ++ skip ++ [residual.2], residual.1 + 1)

section Objects

variable (C : Crypto) (T : Torch)

/-- `_compress_template_object`. -/
def compressTemplateObject (templateObject : Bytes) (weights : LearnedCodecWeights) (backend : LearnedBackend) :
    Except Failure Bytes := do
  requireTemplateObject templateObject
  let predicted ← predictTemplateBytes T templateObject.length weights backend
  let pairs ← zipStrict templateObject predicted
  let residuals := residuals pairs
  let objectLen ← uvarint templateObject.length
  let residualCount ← uvarint residuals.length
  let body := learnedCodecMagic ++ (C.hashBytes templateObject).bytes ++ objectLen ++ residualCount
  let written ← residuals.foldlM writeResidual (body, 0)
  return written.1

/-- The errors of `_Reader`. -/
def readErrors : VarintErrors Failure where
  truncated := .codec "learned codec bytes are truncated"
  nonCanonical := .codec "non-canonical varint"
  exceeds := .codec "varint exceeds maximum"
  tooLong := .codec "varint is too long"

/-- `_Reader.uvarint`. -/
def readUvarint (maxValue : ℕ) : Reader Failure ℕ := Reader.varint readErrors maxValue

/-- The loop over the residuals; `next` is `position + 1`. -/
def readResiduals (templateLen : ℕ) : ℕ → ℕ → Bytes → Reader Failure Bytes
  | 0, _, templateObject => return templateObject
  | left + 1, next, templateObject => do
    let skip ← readUvarint templateLen
    let position := next + skip
    Reader.lift (require (position < templateLen) "residual position exceeds template object length")
    let byte ← Reader.uint readErrors.truncated 1
    readResiduals templateLen left (position + 1) (templateObject.set position (Fin.ofNat 256 byte))

/-- The reads of `_decompress_template_object`: the hash, and the object. -/
def readTemplateObject (weights : LearnedCodecWeights) (backend : LearnedBackend) : Reader Failure (Bytes × Bytes) := do
  let magic ← Reader.take readErrors.truncated learnedCodecMagic.length
  Reader.lift (require (magic = learnedCodecMagic) "learned codec magic is invalid")
  let expectedHash ← Reader.take readErrors.truncated hashLenBytes
  let templateLen ← readUvarint TemplateCodec.maxTemplateCompressedBytes
  Reader.lift (require (TemplateCodec.compressedObjectHeaderBytes ≤ templateLen) "template object length is too short")
  let residualCount ← readUvarint templateLen
  let predicted ← Reader.lift (predictTemplateBytes T templateLen weights backend)
  let templateObject ← readResiduals templateLen residualCount 0 predicted
  return (expectedHash, templateObject)

/-- `_decompress_template_object`. -/
def decompressTemplateObject (body : Bytes) (weights : LearnedCodecWeights) (backend : LearnedBackend) :
    Except Failure Bytes := do
  lift (requireMaxLen "body" body maxLearnedCompressedBytes)
  let decoded ← Reader.parse (do
    let decoded ← readTemplateObject T weights backend
    Reader.finish (.codec "trailing learned codec bytes")
    return decoded) body
  require ((C.hashBytes decoded.2).bytes = decoded.1) "learned residual hash mismatch"
  requireTemplateObject decoded.2
  return decoded.2

end Objects

end LearnedCodec

end TensorPow
