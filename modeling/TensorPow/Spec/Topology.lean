import TensorPow.Spec.Blocks

/-!
# The topology codec

`codec/topology.py`: the compressed object of an anchor's parent candidates. Candidates whose
bytes are affine in the row are stored as a first row and a slope.
-/

namespace TensorPow.Topology

open Wire

/-- `CODEC_RAW`. -/
def codecRaw : ℕ := 0x0000

/-- `CODEC_TOPOLOGY`. -/
def codecTopology : ℕ := 0x0005

/-- `COMPRESSED_OBJECT_HEADER_BYTES`. -/
def compressedObjectHeaderBytes : ℕ := 2 + 2 * 4

/-- `TOPOLOGY_CODEC_MAGIC`. -/
def topologyCodecMagic : Bytes := [84, 80, 84, 70]

/-- `TOPOLOGY_AFFINE_INT8`. -/
def topologyAffineInt8 : ℕ := 0x01

/-- `MAX_TOPOLOGY_COMMITMENTS`. -/
def maxTopologyCommitments : ℕ := parentCandidateMaxCount

/-- `MAX_TOPOLOGY_RAW_BYTES`. -/
def maxTopologyRawBytes : ℕ := 4 + maxTopologyCommitments * hashLenBytes

/-- `TOPOLOGY_FACTOR_BODY_BYTES`. -/
def topologyFactorBodyBytes : ℕ := topologyCodecMagic.length + 1 + 4 + hashLenBytes + hashLenBytes + hashLenBytes

/-- `MAX_TOPOLOGY_COMPRESSED_BYTES`. -/
def maxTopologyCompressedBytes : ℕ := compressedObjectHeaderBytes + maxTopologyRawBytes

/-- The error of a reader that runs out of bytes. -/
def truncated : PyError := .valueError "topology codec bytes are truncated"

/-- `_Reader.finish`. -/
def finish : Reader PyError Unit := Reader.finish (.valueError "trailing topology codec bytes")

/-- `_require_commitments`. -/
def requireCommitments (commitments : List Hash) : Except PyError (List Hash) := do
  Exn.ensure (commitments.length ≤ maxTopologyCommitments) (.valueError "too many topology commitments")
  Exn.ensure commitments.Nodup (.valueError "duplicate topology commitments")
  return commitments

/-- `_serialize_commitments`. There are few enough commitments for four bytes. -/
def serializeCommitments (commitments : List Hash) : Bytes :=
  le 4 commitments.length ++ commitments.flatMap FixedBytes.bytes

/-! ## Affine rows -/

/-- `value & 0xFF`, of a Python integer. -/
def lowByte (value : ℤ) : Byte := Fin.ofNat 256 (value % 256).toNat

/-- `_int8_value`. -/
def int8Value (value : Byte) : ℤ := if value.val < 0x80 then value.val else (value.val : ℤ) - 0x100

/-- The rows of two hashes, combined byte by byte. -/
def zipBytes (f : Byte → Byte → Byte) (a b : Hash) : Hash :=
  ⟨List.zipWith f a.bytes b.bytes, by rw [List.length_zipWith, a.len, b.len, min_self]⟩

/-- `_affine_row`. -/
def affineRow (base slope : Hash) (rowIndex : ℕ) : Hash :=
  zipBytes (fun b s => lowByte (int8Value b + rowIndex * int8Value s)) base slope

/-- `_int8_factor_bytes`. -/
def int8FactorBytes (values : Hash) : Bytes := values.bytes.map fun value => Fin.ofNat 256 (value.val &&& 0xFF)

section Codec

variable (C : Crypto)

/-- `_factor_affine_int8`. -/
def factorAffineInt8 (commitments : List Hash) (raw : Bytes) : Option Bytes :=
  match commitments with
  | base :: second :: _ =>
    let slope := zipBytes (fun c b => lowByte ((c.val : ℤ) - b.val)) second base
    if commitments.zipIdx.all fun p => p.1 = affineRow base slope p.2 then
      some (topologyCodecMagic ++ [Fin.ofNat 256 topologyAffineInt8] ++ le 4 commitments.length ++
        (C.hashBytes raw).bytes ++ int8FactorBytes base ++ int8FactorBytes slope)
    else none
  | _ => none

/-- `_compressed_object`. -/
def compressedObject (codecId : ℕ) (raw compressed : Bytes) : Except PyError Bytes := do
  requireUint "codec_id" codecId u16Max
  Exn.ensure (raw.length ≤ maxTopologyRawBytes) (.valueError "uncompressed topology length exceeds maximum")
  Exn.ensure (compressed.length ≤ u32Max) (.valueError "compressed topology length exceeds maximum")
  return le 2 codecId ++ le 4 raw.length ++ le 4 compressed.length ++ compressed

/-- `compress_anchor_topology`. -/
def compressAnchorTopology (parentCandidateHashes : List Hash) : Except PyError Bytes := do
  let commitments ← requireCommitments parentCandidateHashes
  let raw := serializeCommitments commitments
  match factorAffineInt8 C commitments raw with
  | none => compressedObject codecRaw raw raw
  | some factorBody =>
    let rawObjectLen := compressedObjectHeaderBytes + raw.length
    let factorObjectLen := compressedObjectHeaderBytes + factorBody.length
    if rawObjectLen ≤ factorObjectLen then compressedObject codecRaw raw raw
    else compressedObject codecTopology raw factorBody

/-- The reads of `_decode_affine_int8_body`, with the checks between them: the number of rows,
the digest, the first row and the slope. -/
def readFactor (uncompressedLen : ℕ) : Reader PyError (ℕ × Hash × Hash × Hash) := do
  let magic ← Reader.take truncated topologyCodecMagic.length
  Reader.lift (Exn.ensure (magic = topologyCodecMagic) (.valueError "topology factor magic is invalid"))
  let factorKind ← Reader.uint truncated 1
  Reader.lift (Exn.ensure (factorKind = topologyAffineInt8) (.valueError "topology factor kind is invalid"))
  let count ← Reader.uint truncated 4
  Reader.lift (do
    Exn.ensure (count ≤ maxTopologyCommitments) (.valueError "topology commitment count exceeds maximum")
    Exn.ensure (2 ≤ count) (.valueError "topology affine factor requires at least two commitments")
    Exn.ensure (4 + count * hashLenBytes = uncompressedLen) (.valueError "uncompressed topology length mismatch"))
  let rawHash ← Reader.fixed truncated 32
  let base ← Reader.fixed truncated 32
  let slope ← Reader.fixed truncated 32
  finish
  return (count, rawHash, base, slope)

/-- `_decode_affine_int8_body`. -/
def decodeAffineInt8Body (body : Bytes) (uncompressedLen : ℕ) : Except PyError Bytes := do
  Exn.ensure (body.length = topologyFactorBodyBytes) (.valueError "topology factor body length is invalid")
  let (count, rawHash, base, slope) ← Reader.parse (readFactor uncompressedLen) body
  let raw := serializeCommitments ((List.range count).map (affineRow base slope))
  Exn.ensure (C.hashBytes raw = rawHash) (.valueError "topology factor digest mismatch")
  return raw

/-- The reads of `_deserialize_commitments`, with the checks between them. -/
def readCommitments (rawLen : ℕ) : Reader PyError (List Hash) := do
  let count ← Reader.uint truncated 4
  Reader.lift (do
    Exn.ensure (count ≤ maxTopologyCommitments) (.valueError "topology commitment count exceeds maximum")
    Exn.ensure (rawLen = 4 + count * hashLenBytes) (.valueError "topology raw length is invalid"))
  let commitments ← Reader.replicate (Reader.fixed truncated 32) count
  finish
  return commitments

/-- `_deserialize_commitments`. -/
def deserializeCommitments (raw : Bytes) : Except PyError (List Hash) := do
  requireMaxLen "raw" raw maxTopologyRawBytes
  let commitments ← Reader.parse (readCommitments raw.length) raw
  requireCommitments commitments

/-- The reads of `decompress_anchor_topology`: the codec id, the two lengths and the body. -/
def readObject : Reader PyError (ℕ × ℕ × ℕ × Bytes) := do
  let codecId ← Reader.uint truncated 2
  let uncompressedLen ← Reader.uint truncated 4
  let compressedLen ← Reader.uint truncated 4
  let compressed ← Reader.take truncated compressedLen
  finish
  return (codecId, uncompressedLen, compressedLen, compressed)

/-- The raw bytes of an object, by its codec. -/
def rawOf (codecId uncompressedLen compressedLen : ℕ) (compressed : Bytes) : Except PyError Bytes :=
  if codecId = codecRaw then do
    Exn.ensure (compressedLen = uncompressedLen) (.valueError "raw topology length mismatch")
    return compressed
  else if codecId = codecTopology then do
    let raw ← decodeAffineInt8Body C compressed uncompressedLen
    Exn.ensure (raw.length = uncompressedLen) (.valueError "uncompressed topology length mismatch")
    return raw
  else .error (.valueError "unsupported topology codec_id")

/-- `decompress_anchor_topology`. -/
def decompressAnchorTopology (data : Bytes) : Except PyError (List Hash) := do
  requireMaxLen "data" data maxTopologyCompressedBytes
  Exn.ensure (compressedObjectHeaderBytes ≤ data.length) (.valueError "compressed object header is truncated")
  let (codecId, uncompressedLen, compressedLen, compressed) ← Reader.parse readObject data
  Exn.ensure (uncompressedLen ≤ maxTopologyRawBytes)
    (.valueError "uncompressed topology length exceeds maximum")
  let raw ← rawOf C codecId uncompressedLen compressedLen compressed
  let commitments ← deserializeCommitments raw
  let canonical ← compressAnchorTopology C commitments
  Exn.ensure (canonical = data) (.valueError "topology codec bytes are non-canonical")
  return commitments

end Codec

end TensorPow.Topology
