import TensorPow.Spec.Script

/-!
# The template codec

`codec/template.py`: a transaction is reduced to a template payload, and the payload is
compressed by an adaptive range coder with 32-bit registers.

* `compressTemplatePayload`, `decompressTemplatePayload`: the fields that are not implied.
* `RangeModel`, `rangeEncode`, `rangeDecode`: the coder, with its bit writer and reader.
* `compressTx`, `decompressTx`: the compressed object around both.
-/

namespace TensorPow

open Wire

namespace TemplateCodec

/-- What the codec raises. -/
inductive Failure where
  /-- `TemplateCodecError` -/
  | codec (msg : String)
  /-- an exception of another class -/
  | other (e : PyError)
deriving DecidableEq, Repr

variable {α : Type}

/-- A computation that does not raise `TemplateCodecError`. -/
def lift (x : Except PyError α) : Except Failure α := x.mapError .other

/-- `raise TemplateCodecError` unless the condition holds. -/
def require (p : Prop) [Decidable p] (msg : String) : Except Failure Unit := Exn.ensure p (.codec msg)

/-- `COMPRESSED_OBJECT_HEADER_BYTES`. -/
def compressedObjectHeaderBytes : ℕ := 2 + 2 * 4

/-- `MAX_TEMPLATE_COMPRESSED_BYTES`. -/
def maxTemplateCompressedBytes : ℕ := maxTxBytes + compressedObjectHeaderBytes

/-- `CODEC_TEMPLATE_RANGE`. -/
def codecTemplateRange : ℕ := 0x0001

/-- `TEMPLATE_CODEC_MAGIC`. -/
def templateCodecMagic : Bytes := [84, 80, 84, 67]

/-- `TEMPLATE_RANGE_CODER_ADAPTIVE`. -/
def templateRangeCoderAdaptive : Byte := 0x01

/-! ## Reading -/

/-- The error of `_Reader.bytes`. -/
def truncated : Failure := .codec "template codec bytes are truncated"

/-- `_Reader.u8`. -/
def u8 : Reader Failure ℕ := Reader.uint truncated 1

/-- `_Reader.u64`. -/
def u64 : Reader Failure ℕ := Reader.uint truncated 8

/-- `_Reader.finish`. -/
def finish : Reader Failure Unit := Reader.finish (.codec "trailing template codec bytes")

/-- The loop of `_Reader.uvarint`; `left` of its ten rounds are still to come. -/
def uvarintLoop (maxValue : ℕ) : ℕ → ℕ → ℕ → Reader Failure ℕ
  | 0, _, _ => Reader.lift (.error (.codec "varint is too long"))
  | left + 1, index, value => do
    let byte ← u8
    let value := value ||| ((byte &&& 0x7F) <<< (7 * index))
    if byte < 0x80 then
      Reader.lift (do
        require (¬(0 < index ∧ value < 1 <<< (7 * index))) "non-canonical varint"
        require (value ≤ maxValue) "varint exceeds maximum"
        return value)
    else uvarintLoop maxValue left (index + 1) value

/-- `_Reader.uvarint`. -/
def readUvarint (maxValue : ℕ) : Reader Failure ℕ := uvarintLoop maxValue 10 0 0

/-! ## Writing integers -/

/-- The loop of `_uvarint`; ten rounds are enough for 64 bits. -/
def uvarintBytes : ℕ → ℕ → Bytes
  | 0, _ => []
  | left + 1, remaining =>
    let byte := remaining &&& 0x7F
    let remaining := remaining >>> 7
    if remaining ≠ 0 then Fin.ofNat 256 (byte ||| 0x80) :: uvarintBytes left remaining else [Fin.ofNat 256 byte]

/-- `_uvarint`. -/
def uvarint (value : ℕ) : Except Failure Bytes := do
  lift (requireUint "value" value u64Max)
  return uvarintBytes 10 value

/-- The flags of two optional locks. -/
def lockFlags (locktimeMs lockheight : ℕ) : ℕ :=
  (if locktimeMs ≠ 0 then 0x01 else 0) ||| (if lockheight ≠ 0 then 0x02 else 0)

/-- The locks that are set. -/
def lockBytes (locktimeMs lockheight : ℕ) : Bytes :=
  (if locktimeMs ≠ 0 then le 8 locktimeMs else []) ++ (if lockheight ≠ 0 then le 8 lockheight else [])

/-! ## Template payloads -/

section Payload

variable (C : Crypto)

/-- `_is_standard_ed25519_witness`. -/
def isStandardEd25519Witness (witness : Bytes) : Prop :=
  witness.length = ed25519SignatureBytes + ed25519PublicKeyBytes

instance (witness : Bytes) : Decidable (isStandardEd25519Witness witness) :=
  inferInstanceAs (Decidable (_ = _))

/-- One round of the loop over the inputs: the payload and the signer hashes so far. -/
def compressInput (acc : Bytes × List Bytes) (input : Input) : Except Failure (Bytes × List Bytes) := do
  let payload := acc.1 ++ input.previousOutpoint.toBytes
  if isStandardEd25519Witness input.witness then
    let signature := input.witness.take ed25519SignatureBytes
    let publicKey := input.witness.drop ed25519SignatureBytes
    let signer ← lift (pubkeyHash C publicKey)
    return (payload ++ [0x01] ++ signature ++ publicKey, acc.2 ++ [signer.bytes])
  else
    let length ← uvarint input.witness.length
    return (payload ++ [0x00] ++ length ++ input.witness, acc.2)

/-- `_encode_hashlock_inner_payload`. -/
def encodeHashlockInnerPayload (payload : Bytes) : Except Failure Bytes :=
  if payload.length = hashLenBytes then .ok (0x00 :: payload)
  else
    match payload with
    | threshold :: pubkeyCount :: _ =>
      if 1 ≤ pubkeyCount.val ∧ pubkeyCount.val ≤ multisigMaxKeys ∧ 1 ≤ threshold.val ∧
          threshold.val ≤ pubkeyCount.val ∧ payload.length = 2 + pubkeyCount.val * ed25519PublicKeyBytes then
        .ok (0x02 :: payload)
      else .error (.codec "unsupported hashlock inner template")
    | _ => .error (.codec "unsupported hashlock inner template")

/-- `_encode_output_payload`. -/
def encodeOutputPayload (output : Output) (signerHashes : List Bytes) : Except Failure Bytes :=
  match output.template with
  | .pkh =>
    match signerHashes.findIdx? (· = output.payload) with
    | none => .ok (0x00 :: output.payload)
    | some signerIndex => do
      let reference ← uvarint signerIndex
      return 0x01 :: reference
  | .multisig => .ok (0x02 :: output.payload)
  | .hashlock => do
    let inner ← encodeHashlockInnerPayload (output.payload.drop hashLenBytes)
    return 0x03 :: (output.payload.take hashLenBytes ++ inner)

/-- One round of the loop over the outputs. -/
def compressOutput (signerHashes : List Bytes) (payload : Bytes) (output : Output) : Except Failure Bytes := do
  let amount ← uvarint output.amountMatoms
  let encoded ← encodeOutputPayload output signerHashes
  return payload ++ amount ++ encoded ++ [Fin.ofNat 256 (lockFlags output.locktimeMs output.lockheight)] ++
    lockBytes output.locktimeMs output.lockheight

/-- `_compress_template_payload`. -/
def compressTemplatePayload (tx : Transaction) : Except Failure Bytes := do
  let head := Fin.ofNat 256 (lockFlags tx.locktimeMs tx.lockheight) :: lockBytes tx.locktimeMs tx.lockheight
  let inputCount ← uvarint tx.inputs.length
  let outputCount ← uvarint tx.outputs.length
  let (payload, signerHashes) ← tx.inputs.foldlM (compressInput C) (head ++ inputCount ++ outputCount, [])
  let payload ← tx.outputs.foldlM (compressOutput signerHashes) payload
  require (payload.length ≤ maxTemplateCompressedBytes) "compressed transaction exceeds maximum size"
  return payload

/-- The locks that the flags announce. -/
def readLocks (flags : ℕ) : Reader Failure (ℕ × ℕ) := do
  let locktimeMs ← if flags &&& 0x01 ≠ 0 then u64 else pure 0
  let lockheight ← if flags &&& 0x02 ≠ 0 then u64 else pure 0
  return (locktimeMs, lockheight)

/-- The flags of the locks; no other bit may be set. -/
def readLockFlags (unknown : String) : Reader Failure ℕ := do
  let flags ← u8
  Reader.lift (require (flags &&& 0xFC = 0) unknown)
  return flags

/-- `Input.from_bytes`. -/
def inputFromBytes (data : Bytes) : Except Failure Input :=
  lift (Reader.parse (do
    let input ← Transaction.readInput
    Reader.finish (.valueError "trailing transaction bytes")
    return input) data)

/-- The witness of an input, and its signer's hash if it is a standard one. -/
def readWitness (witnessKind : ℕ) : Reader Failure (Bytes × List Bytes) :=
  if witnessKind = 0x01 then do
    let signature ← Reader.take truncated ed25519SignatureBytes
    let publicKey ← Reader.take truncated ed25519PublicKeyBytes
    let signer ← Reader.lift (lift (pubkeyHash C publicKey))
    return (signature ++ publicKey, [signer.bytes])
  else if witnessKind = 0x00 then do
    let witnessLen ← readUvarint txWitnessMaxBytes
    let witness ← Reader.take truncated witnessLen
    return (witness, [])
  else Reader.lift (.error (.codec "unknown witness kind"))

/-- One round of the loop over the inputs. -/
def readInput : Reader Failure (Input × List Bytes) := do
  let previousOutpoint ← Reader.take truncated 36
  let witnessKind ← u8
  let (witness, signer) ← readWitness C witnessKind
  let input ← Reader.lift (inputFromBytes (previousOutpoint ++ le 4 txSequenceFinal ++ le 2 witness.length ++ witness))
  return (input, signer)

/-- A threshold, a number of keys and the keys. -/
def readMultisig (countRange thresholdRange : String) : Reader Failure Bytes := do
  let threshold ← u8
  let pubkeyCount ← u8
  Reader.lift (do
    require (1 ≤ pubkeyCount ∧ pubkeyCount ≤ multisigMaxKeys) countRange
    require (1 ≤ threshold ∧ threshold ≤ pubkeyCount) thresholdRange)
  let keys ← Reader.take truncated (pubkeyCount * ed25519PublicKeyBytes)
  return Fin.ofNat 256 threshold :: Fin.ofNat 256 pubkeyCount :: keys

/-- `_decode_hashlock_inner_payload`. -/
def decodeHashlockInnerPayload : Reader Failure Bytes := do
  let innerKind ← u8
  if innerKind = 0x00 then Reader.take truncated hashLenBytes
  else if innerKind = 0x02 then
    readMultisig "hashlock multisig pubkey_count outside range" "hashlock multisig threshold outside range"
  else Reader.lift (.error (.codec "unknown hashlock inner template"))

/-- `_decode_output_payload`. -/
def decodeOutputPayload (signerHashes : List Bytes) : Reader Failure (Template × Bytes) := do
  let outputKind ← u8
  if outputKind = 0x00 then
    let payload ← Reader.take truncated hashLenBytes
    return (.pkh, payload)
  else if outputKind = 0x01 then
    let signerIndex ← readUvarint u16Max
    let payload ← Reader.lift (Exn.get signerHashes[signerIndex]? (.codec "PKH signer reference is out of range"))
    return (.pkh, payload)
  else if outputKind = 0x02 then
    let payload ← readMultisig "multisig pubkey_count outside range" "multisig threshold outside range"
    return (.multisig, payload)
  else if outputKind = 0x03 then
    let lockHash ← Reader.take truncated hashLenBytes
    let inner ← decodeHashlockInnerPayload
    return (.hashlock, lockHash ++ inner)
  else Reader.lift (.error (.codec "unknown output kind"))

/-- One round of the loop over the outputs. -/
def readOutput (signerHashes : List Bytes) : Reader Failure Output := do
  let amountMatoms ← readUvarint u64Max
  let (template, payload) ← decodeOutputPayload signerHashes
  let flags ← readLockFlags "unknown output flags"
  let (locktimeMs, lockheight) ← readLocks flags
  Reader.lift (lift (Output.make { amountMatoms, template, locktimeMs, lockheight, payload }))

/-- The reads of `_decompress_template_payload`, in order. -/
def readFields : Reader Failure TransactionFields := do
  let flags ← readLockFlags "unknown transaction flags"
  let (locktimeMs, lockheight) ← readLocks flags
  let inputCount ← readUvarint u16Max
  let outputCount ← readUvarint u16Max
  Reader.lift (require (outputCount ≠ 0) "output_count must be nonzero")
  let inputs ← Reader.replicate (readInput C) inputCount
  let outputs ← Reader.replicate (readOutput (inputs.flatMap Prod.snd)) outputCount
  return { version := formatEpoch, sigType := sigTypeEd25519, locktimeMs, lockheight,
           inputs := inputs.map Prod.fst, outputs }

/-- `_decompress_template_payload`. -/
def decompressTemplatePayload (templatePayload : Bytes) : Except Failure Transaction := do
  lift (requireMaxLen "template_payload" templatePayload maxTemplateCompressedBytes)
  let fields ← Reader.parse (do
    let f ← readFields C
    finish
    return f) templatePayload
  lift (Transaction.make fields)

end Payload

/-! ## The range coder -/

/-- `RANGE_CODE_FULL`. -/
def rangeCodeFull : ℕ := 1 <<< 32

/-- `RANGE_CODE_HALF`. -/
def rangeCodeHalf : ℕ := rangeCodeFull >>> 1

/-- `RANGE_CODE_QUARTER`. -/
def rangeCodeQuarter : ℕ := rangeCodeHalf >>> 1

/-- `RANGE_CODE_THREE_QUARTER`. -/
def rangeCodeThreeQuarter : ℕ := rangeCodeQuarter * 3

/-- `RANGE_MODEL_SYMBOLS`. -/
def rangeModelSymbols : ℕ := 256

/-- `RANGE_MODEL_MAX_TOTAL`. -/
def rangeModelMaxTotal : ℕ := 1 <<< 15

/-- `_RangeModel`. -/
structure RangeModel where
  frequencies : List ℕ
  total : ℕ

namespace RangeModel

/-- `_RangeModel.__init__`. -/
def init : RangeModel := ⟨List.replicate rangeModelSymbols 1, rangeModelSymbols⟩

/-- `_RangeModel.interval`, without the total. -/
def interval (m : RangeModel) (symbol : Byte) : ℕ × ℕ :=
  let cumulativeLow := (m.frequencies.take symbol).sum
  (cumulativeLow, cumulativeLow + m.frequencies.getD symbol 0)

/-- The loop of `_RangeModel.symbol_for_scaled` over the symbols from `symbol` on. -/
def symbolLoop (scaled : ℕ) : List ℕ → ℕ → ℕ → Except PyError (Byte × ℕ × ℕ)
  | [], _, _ => .error (.valueError "range scaled value outside model")
  | frequency :: rest, symbol, cumulative =>
    if scaled < cumulative + frequency then .ok (Fin.ofNat 256 symbol, cumulative, cumulative + frequency)
    else symbolLoop scaled rest (symbol + 1) (cumulative + frequency)

/-- `_RangeModel.symbol_for_scaled`. -/
def symbolForScaled (m : RangeModel) (scaled : ℕ) : Except PyError (Byte × ℕ × ℕ) := do
  requireUint "scaled" scaled (m.total - 1)
  symbolLoop scaled m.frequencies 0 0

/-- `_RangeModel.update`. -/
def update (m : RangeModel) (symbol : Byte) : RangeModel :=
  let frequencies := m.frequencies.modify symbol (· + 1)
  let total := m.total + 1
  if rangeModelMaxTotal ≤ total then
    let frequencies := frequencies.map fun frequency => max 1 ((frequency + 1) / 2)
    ⟨frequencies, frequencies.sum⟩
  else ⟨frequencies, total⟩

end RangeModel

/-- `_BitWriter`. -/
structure BitWriter where
  data : Bytes
  current : ℕ
  bits : ℕ

namespace BitWriter

/-- `_BitWriter.__init__`. -/
def init : BitWriter := ⟨[], 0, 0⟩

/-- `_BitWriter.write`. -/
def write (w : BitWriter) (bit : Bool) : BitWriter :=
  let current := (w.current <<< 1) ||| bit.toNat
  let bits := w.bits + 1
  if bits = 8 then ⟨w.data ++ [Fin.ofNat 256 current], 0, 0⟩ else ⟨w.data, current, bits⟩

/-- `_BitWriter.finish`. -/
def finish (w : BitWriter) : Bytes :=
  if w.bits ≠ 0 then w.data ++ [Fin.ofNat 256 (w.current <<< (8 - w.bits))] else w.data

end BitWriter

/-- `_BitReader.read` at a bit offset. -/
def readBit (data : Bytes) (bitOffset : ℕ) : ℕ :=
  if data.length ≤ bitOffset / 8 then 0 else ((data.getD (bitOffset / 8) 0).val >>> (7 - bitOffset % 8)) &&& 1

/-- The variables of `_range_encode`. -/
structure RangeEncoder where
  low : ℕ
  high : ℕ
  pendingBits : ℕ
  output : BitWriter

/-- `write_bit_plus_follow`. -/
def RangeEncoder.writeBitPlusFollow (e : RangeEncoder) (bit : Bool) : RangeEncoder :=
  { e with pendingBits := 0, output := (List.replicate e.pendingBits !bit).foldl BitWriter.write (e.output.write bit) }

/-- The end of a round of the inner loop. -/
def RangeEncoder.double (e : RangeEncoder) : RangeEncoder := { e with low := e.low <<< 1, high := (e.high <<< 1) ||| 1 }

/-- The inner loop of `_range_encode`. Every round doubles `high - low + 1`, so there are at
most `RANGE_CODE_BITS`. -/
def RangeEncoder.renormalize : ℕ → RangeEncoder → RangeEncoder
  | 0, e => e
  | left + 1, e =>
    if e.high < rangeCodeHalf then renormalize left (e.writeBitPlusFollow false).double
    else if rangeCodeHalf ≤ e.low then
      let e := e.writeBitPlusFollow true
      renormalize left { e with low := e.low - rangeCodeHalf, high := e.high - rangeCodeHalf }.double
    else if rangeCodeQuarter ≤ e.low ∧ e.high < rangeCodeThreeQuarter then
      renormalize left { e with pendingBits := e.pendingBits + 1, low := e.low - rangeCodeQuarter,
                                high := e.high - rangeCodeQuarter }.double
    else e

/-- The interval of a symbol within the registers. -/
def narrow (low high cumulativeLow cumulativeHigh total : ℕ) : ℕ × ℕ :=
  let span := high - low + 1
  (low + span * cumulativeLow / total, low + span * cumulativeHigh / total - 1)

/-- One round of the loop over the data. -/
def RangeEncoder.encode (s : RangeEncoder × RangeModel) (symbol : Byte) : RangeEncoder × RangeModel :=
  let (e, model) := s
  let (cumulativeLow, cumulativeHigh) := model.interval symbol
  let (low, high) := narrow e.low e.high cumulativeLow cumulativeHigh model.total
  (renormalize 32 { e with low, high }, model.update symbol)

/-- The state before the first symbol. -/
def RangeEncoder.init : RangeEncoder := ⟨0, rangeCodeFull - 1, 0, .init⟩

/-- The bits that end the code. -/
def RangeEncoder.close (e : RangeEncoder) : RangeEncoder :=
  let e := { e with pendingBits := e.pendingBits + 1 }
  e.writeBitPlusFollow (decide (¬e.low < rangeCodeQuarter))

/-- `_range_encode`. -/
def rangeEncode (data : Bytes) : Except PyError Bytes := do
  requireMaxLen "data" data maxTemplateCompressedBytes
  return (data.foldl RangeEncoder.encode (.init, .init)).1.close.output.finish

/-- The variables of `_range_decode`. The code is never below `low`. -/
structure RangeDecoder where
  low : ℕ
  high : ℕ
  code : ℕ
  bitOffset : ℕ

/-- The end of a round of the inner loop. -/
def RangeDecoder.double (data : Bytes) (d : RangeDecoder) : RangeDecoder :=
  ⟨d.low <<< 1, (d.high <<< 1) ||| 1, (d.code <<< 1) ||| readBit data d.bitOffset, d.bitOffset + 1⟩

/-- The inner loop of `_range_decode`. -/
def RangeDecoder.renormalize (data : Bytes) : ℕ → RangeDecoder → RangeDecoder
  | 0, d => d
  | left + 1, d =>
    if d.high < rangeCodeHalf then renormalize data left (d.double data)
    else if rangeCodeHalf ≤ d.low then
      renormalize data left (RangeDecoder.double data { d with code := d.code - rangeCodeHalf,
                                                               low := d.low - rangeCodeHalf,
                                                               high := d.high - rangeCodeHalf })
    else if rangeCodeQuarter ≤ d.low ∧ d.high < rangeCodeThreeQuarter then
      renormalize data left (RangeDecoder.double data { d with code := d.code - rangeCodeQuarter,
                                                               low := d.low - rangeCodeQuarter,
                                                               high := d.high - rangeCodeQuarter })
    else d

/-- The loop of `_range_decode`. -/
def RangeDecoder.decode (data : Bytes) : ℕ → RangeDecoder → RangeModel → Except PyError Bytes
  | 0, _, _ => .ok []
  | left + 1, d, model => do
    let span := d.high - d.low + 1
    let scaled := ((d.code - d.low + 1) * model.total - 1) / span
    let (symbol, cumulativeLow, cumulativeHigh) ← model.symbolForScaled scaled
    let (low, high) := narrow d.low d.high cumulativeLow cumulativeHigh model.total
    let rest ← decode data left (renormalize data 32 { d with low, high }) (model.update symbol)
    return symbol :: rest

/-- The state before the first symbol: the code is the first `RANGE_CODE_BITS` bits. -/
def RangeDecoder.init (data : Bytes) : RangeDecoder :=
  ⟨0, rangeCodeFull - 1, (List.range 32).foldl (fun code i => (code <<< 1) ||| readBit data i) 0, 32⟩

/-- `_range_decode`. -/
def rangeDecode (data : Bytes) (outputLen : ℕ) : Except PyError Bytes := do
  requireMaxLen "data" data maxTemplateCompressedBytes
  requireUint "output_len" outputLen maxTemplateCompressedBytes
  if outputLen = 0 then return []
  Exn.ensure (data ≠ []) (.valueError "range-coded data must not be empty")
  RangeDecoder.decode data outputLen (.init data) .init

/-! ## Compressed objects -/

section Objects

variable (C : Crypto)

/-- `compress_tx`. -/
def compressTx (tx : Transaction) : Except Failure Bytes := do
  require (tx.version = formatEpoch ∧ tx.sigType = sigTypeEd25519)
    "template codec supports only active default transaction fields"
  require (tx.toBytes.length ≤ maxTxBytes) "transaction exceeds MAX_TX_BYTES"
  let templatePayload ← compressTemplatePayload C tx
  let rangeCoded ← lift (rangeEncode templatePayload)
  let compressed := templateCodecMagic ++ [templateRangeCoderAdaptive] ++ le 4 templatePayload.length ++ rangeCoded
  return le 2 codecTemplateRange ++ le 4 tx.toBytes.length ++ le 4 compressed.length ++ compressed

/-- The `except` clauses of `_decompress_body`. -/
def Failure.ofBody : Failure → Failure
  | .other (.typeError _) => .codec "template range payload is malformed"
  | .other (.valueError _) => .codec "template range payload is malformed"
  | e => e

/-- The reads of `_decompress_body`: the length of the payload and its code. -/
def readBody : Reader Failure (ℕ × Bytes) := do
  let magic ← Reader.take truncated templateCodecMagic.length
  Reader.lift (require (magic = templateCodecMagic) "template codec magic is invalid")
  let coderId ← u8
  Reader.lift (require (coderId = templateRangeCoderAdaptive.val) "unsupported template range coder")
  let templatePayloadLen ← Reader.uint truncated 4
  Reader.lift (require (templatePayloadLen ≤ maxTemplateCompressedBytes) "template payload length exceeds maximum")
  let rangeBytes ← Reader.rest
  return (templatePayloadLen, rangeBytes)

/-- `_decompress_body`. -/
def decompressBody (compressed : Bytes) : Except Failure Transaction := do
  lift (requireMaxLen "compressed" compressed maxTemplateCompressedBytes)
  let (templatePayloadLen, rangeBytes) ← Reader.parse readBody compressed
  (do
    let templatePayload ← lift (rangeDecode rangeBytes templatePayloadLen)
    decompressTemplatePayload C templatePayload).mapError Failure.ofBody

/-- The reads of `decompress_tx`: the uncompressed length and the body. -/
def readObject : Reader Failure (ℕ × Bytes) := do
  let codecId ← Reader.uint truncated 2
  Reader.lift (require (codecId = codecTemplateRange) "unsupported transaction codec_id")
  let uncompressedLen ← Reader.uint truncated 4
  let compressedLen ← Reader.uint truncated 4
  Reader.lift (require (uncompressedLen ≤ maxTxBytes) "uncompressed transaction length exceeds MAX_TX_BYTES")
  let compressed ← Reader.take truncated compressedLen
  return (uncompressedLen, compressed)

/-- `decompress_tx`. -/
def decompressTx (data : Bytes) : Except Failure Transaction := do
  lift (requireMaxLen "data" data maxTemplateCompressedBytes)
  require (compressedObjectHeaderBytes ≤ data.length) "compressed object header is truncated"
  let (uncompressedLen, compressed) ← Reader.parse (do
    let object ← readObject
    finish
    return object) data
  let tx ← decompressBody C compressed
  require (tx.toBytes.length = uncompressedLen) "uncompressed transaction length mismatch"
  let again ← compressTx C tx
  require (again = data) "template codec bytes are non-canonical"
  return tx

end Objects

end TemplateCodec

end TensorPow
