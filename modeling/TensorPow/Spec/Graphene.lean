import TensorPow.Spec.Blocks
import TensorPow.Spec.Iblt
import TensorPow.Spec.Mempool

/-!
# Compact relay of fruits

`net/graphene.py`. A sender announces a fruit by a sketch: the header, a Bloom filter and an
IBLT of the transaction ids, and short ids in the order of the fruit. A receiver looks for
the transactions in its mempool.

* `announceFruit`, `decodeSketch`, `reconstructFruit`.
-/

namespace TensorPow

open Wire

namespace Graphene

/-- `CODEC_GRAPHENE`. -/
def codecGraphene : ℕ := 2

/-- `GRAPHENE_RECEIVER_MEMPOOL_PCT`. -/
def receiverMempoolPct : ℕ := 99

/-- `GRAPHENE_SKETCH_MAGIC`. -/
def sketchMagic : Bytes := [84, 80, 71, 82]

/-- `GRAPHENE_BLOOM_BITS_PER_TX`. -/
def bloomBitsPerTx : ℕ := 2

/-- `GRAPHENE_BLOOM_HASH_COUNT`. -/
def bloomHashCount : ℕ := 3

/-- `GRAPHENE_MIN_BLOOM_BITS`. -/
def minBloomBits : ℕ := 8

/-- `GRAPHENE_IBLT_OVERHEAD_NUM`, over a denominator of one. -/
def ibltOverheadNum : ℕ := 3

/-- `_SHORT_ID_BYTES_OPTIONS`. -/
def shortIdBytesOptions : List ℕ := [2, 3, 4, 6, 8, 16, hashLenBytes]

/-- `_BLOOM_HASH_DOMAIN`. -/
def bloomHashDomain : Bytes :=
  [84, 101, 110, 115, 111, 114, 80, 111, 87, 32, 71, 114, 97, 112, 104, 101, 110, 101, 32, 98, 108, 111, 111, 109]

/-- `_SHORT_ID_DOMAIN`. -/
def shortIdDomain : Bytes :=
  [84, 101, 110, 115, 111, 114, 80, 111, 87, 32, 71, 114, 97, 112, 104, 101, 110, 101, 32, 115, 104, 111, 114, 116,
    45, 105, 100]

/-- `_IBLT_POSITION_DOMAIN` and `_IBLT_CHECKSUM_DOMAIN`, with the errors. -/
def ibltParams : IBLTParams where
  positionDomain :=
    [84, 101, 110, 115, 111, 114, 80, 111, 87, 32, 71, 114, 97, 112, 104, 101, 110, 101, 32, 73, 66, 76, 84, 32, 112,
      111, 115, 105, 116, 105, 111, 110]
  checksumDomain :=
    [84, 101, 110, 115, 111, 114, 80, 111, 87, 32, 71, 114, 97, 112, 104, 101, 110, 101, 32, 73, 66, 76, 84, 32, 99,
      104, 101, 99, 107, 115, 117, 109]
  badCellCount := .valueError "IBLT cell count is outside supported range"
  noPositions := .runtimeError "unable to derive unique IBLT positions"

/-- `_u8`, `_u16` and `_u32`. -/
def encodeFitting (w : ℕ) (value : ℕ) : Except PyError Bytes := do
  Exn.ensure (value < 256 ^ w) (.valueError ("value outside uint" ++ toString (8 * w) ++ " range"))
  return le w value

/-- `_ceil_div`, for a positive denominator. -/
def ceilDiv (numerator denominator : ℕ) : ℕ := (numerator + denominator - 1) / denominator

/-- `_byte_len`. -/
def byteLen (bitCount : ℕ) : ℕ := (bitCount + 7) / 8

section Ids

variable (C : Crypto)

/-- `tx_id`. -/
def txIdOf (raw : Bytes) : Hash := C.domainHash domainTxId raw

/-- `_short_id`. -/
def shortId (width salt : ℕ) (txId : Hash) : Bytes :=
  digestPrefix C width (shortIdDomain ++ le 1 salt ++ txId.bytes)

/-- `_canonical_short_id_params`: the first width and salt under which the ids differ. -/
def canonicalShortIdParams (txIds : List Hash) : Except PyError (ℕ × ℕ) :=
  let options := shortIdBytesOptions.flatMap fun width => (List.range 256).map fun salt => (width, salt)
  Exn.get (options.find? fun p => (txIds.map (shortId C p.1 p.2)).Nodup)
    (.valueError "unable to choose unique short-id width")

/-! ## Bloom filters -/

/-- `_canonical_bloom_bits`. -/
def canonicalBloomBits (txCount : ℕ) : ℕ := max minBloomBits (txCount * bloomBitsPerTx)

/-- `_bloom_positions`. -/
def bloomPositions (txId : Hash) (bloomBits : ℕ) : List ℕ :=
  (slices 4 (digestPrefix C (bloomHashCount * 4) (bloomHashDomain ++ txId.bytes))).map fun b => ofLe b % bloomBits

/-- `bloom[i // 8] |= 1 << (i % 8)`. -/
def setBit (bloom : Bytes) (i : ℕ) : Bytes := bloom.modify (i / 8) fun b => Fin.ofNat 256 (b.val ||| 2 ^ (i % 8))

/-- `_build_bloom`. -/
def buildBloom (txIds : List Hash) (bloomBits : ℕ) : Bytes :=
  (txIds.flatMap fun txId => bloomPositions C txId bloomBits).foldl setBit (List.replicate (byteLen bloomBits) 0)

/-- `_bloom_contains`. -/
def bloomContains (txId : Hash) (bloom : Bytes) (bloomBits : ℕ) : Bool :=
  (bloomPositions C txId bloomBits).all fun i => (bloom.getD (i / 8) 0).val.testBit (i % 8)

/-- `_has_nonzero_tail_bits`. -/
def hasNonzeroTailBits (bloom : Bytes) (bloomBits : ℕ) : Bool :=
  bloomBits % 8 ≠ 0 ∧ (bloom.getLastD 0).val / 2 ^ (bloomBits % 8) ≠ 0

/-- `_bloom_population`. -/
def bloomPopulation (bloom : Bytes) : ℕ :=
  (bloom.map fun b => ((List.range 8).filter fun i => b.val.testBit i).length).sum

/-! ## IBLTs -/

/-- `_canonical_iblt_cell_count`. -/
def canonicalIbltCellCount (txCount : ℕ) : ℕ :=
  let expectedDifference := max 1 (ceilDiv (txCount * (100 - receiverMempoolPct)) 100)
  max ibltHashCount (expectedDifference * ibltOverheadNum)

/-- `_iblt_key`. -/
def ibltKey (txId : Hash) : IBLTKey := ⟨txId.bytes.take 8, by simp⟩

/-- `_build_iblt`. -/
def buildIblt (txIds : List Hash) (cellCount : ℕ) : Except PyError (List IBLTCell) := do
  requireIbltCellCount ibltParams cellCount
  Exn.ensure (txIds.map ibltKey).Nodup (.valueError "duplicate Graphene IBLT keys")
  applyIbltKeys C ibltParams (emptyIblt cellCount) (txIds.map ibltKey)

/-- `_subtract_iblt`. -/
def subtractIblt (left right : List IBLTCell) : Except PyError (List IBLTCell) := do
  Exn.ensure (left.length = right.length) (.valueError "IBLT cell count mismatch")
  return List.zipWith (fun l r => ⟨l.count - r.count, xorKeys l.sum r.sum⟩) left right

/-- `_is_pure_iblt_cell`. -/
def isPureIbltCell (cell : IBLTCell) : Bool :=
  (cell.count = 1 ∨ cell.count = -1) ∧ cell.sum.2 = ibltChecksum C ibltParams cell.sum.1

/-- The arguments `_peel_iblt` passes to `peel_iblt_cells`. -/
def peeler : Iblt.Peeler PyError IBLTKey IBLTCell where
  isPure := isPureIbltCell C
  isEmpty := isEmptyIbltCell
  cellKey cell := cell.sum.1
  peelDelta cell := if cell.count = 1 then -1 else 1
  applyKey := applyIbltKey C ibltParams

/-- `_peel_iblt`: the keys only the sender has, and those only the receiver has. -/
def peelIblt (cells : List IBLTCell) : Except PyError (Option (List IBLTKey × List IBLTKey)) := do
  let peeled ← Iblt.peelLoop (peeler C) cells.length cells []
  return peeled.map fun l => (Sorted.sortBy id ((l.filter fun p => p.2 = -1).map Prod.fst),
    Sorted.sortBy id ((l.filter fun p => p.2 = 1).map Prod.fst))

end Ids

/-! ## Announcing -/

section Relay

variable {C : Crypto}

/-- `announce_fruit`. -/
def announceFruit (fruit : Fruit C) : Except PyError Bytes := do
  Exn.ensure (fruit.transactions.length ≤ u16Max) (.valueError "fruit transaction count exceeds uint16")
  let headerBytes := fruit.header.serialize
  let txIds := fruit.transactions.map (txIdOf C)
  Exn.ensure txIds.Nodup (.valueError "fruit transactions must have unique tx_ids")
  let (shortIdBytes, shortIdSalt) ← canonicalShortIdParams C txIds
  let bloomBits := canonicalBloomBits txIds.length
  let bloom := buildBloom C txIds bloomBits
  let ibltCellCount := canonicalIbltCellCount txIds.length
  let ibltCells ← buildIblt C txIds ibltCellCount
  let orderedShortIds := txIds.map (shortId C shortIdBytes shortIdSalt)
  let headerLen ← encodeFitting 2 headerBytes.length
  let txCount ← encodeFitting 2 txIds.length
  let bloomSize ← encodeFitting 2 bloomBits
  let hashCount ← encodeFitting 1 bloomHashCount
  let width ← encodeFitting 1 shortIdBytes
  let salt ← encodeFitting 1 shortIdSalt
  let cellCount ← encodeFitting 2 ibltCellCount
  let ibltHashes ← encodeFitting 1 ibltHashCount
  let cells ← ibltCells.mapM (encodeIbltCell (.valueError "serialized IBLT cell count outside uint16 range")
    (.valueError "value outside uint32 range"))
  let body := sketchMagic ++ headerLen ++ headerBytes ++ txCount ++ bloomSize ++ hashCount ++ width ++ salt ++
    cellCount ++ ibltHashes ++ bloom ++ cells.flatten ++ orderedShortIds.flatten
  let fullFruitLen := fruit.serialize.length
  Exn.ensure (fullFruitLen ≤ u32Max ∧ body.length ≤ u32Max) (.valueError "graphene sketch length exceeds uint32")
  return le 2 codecGraphene ++ le 4 fullFruitLen ++ le 4 body.length ++ body

/-! ## Reconstruction -/

/-- `_GrapheneSketch`. -/
structure Sketch where
  uncompressedLen : ℕ
  header : FruitHeader
  txCount : ℕ
  bloomBits : ℕ
  shortIdBytes : ℕ
  shortIdSalt : ℕ
  ibltCellCount : ℕ
  bloom : Bytes
  ibltCells : List IBLTCell
  orderedShortIds : List Bytes

/-- The error of a reader that runs out of bytes. -/
def truncated : PyError := .valueError "truncated graphene sketch"

/-- `_minimum_fruit_len`. -/
def minimumFruitLen (headerLen txCount : ℕ) : ℕ := 2 + headerLen + 2 + 2 * txCount

/-- The reads of `_decode_sketch` inside the body. -/
def readBody (uncompressedLen : ℕ) : Reader PyError Sketch := do
  let require (p : Prop) [Decidable p] (msg : String) : Reader PyError Unit := Reader.lift (Exn.ensure p (.valueError msg))
  let magic ← Reader.take truncated sketchMagic.length
  require (magic = sketchMagic) "bad graphene magic"
  let headerLen ← Reader.uint truncated 2
  let headerBytes ← Reader.take truncated headerLen
  let header ← Reader.lift (FruitHeader.deserialize headerBytes)
  require (header.serialize = headerBytes) "non-canonical header"
  let txCount ← Reader.uint truncated 2
  require (txCount ≠ 0) "empty graphene tx list"
  let bloomBits ← Reader.uint truncated 2
  require (bloomBits = canonicalBloomBits txCount) "non-canonical bloom size"
  let hashCount ← Reader.uint truncated 1
  require (hashCount = bloomHashCount) "non-canonical bloom hash count"
  let shortIdBytes ← Reader.uint truncated 1
  require (shortIdBytes ∈ shortIdBytesOptions) "bad short-id width"
  let shortIdSalt ← Reader.uint truncated 1
  let ibltCellCount ← Reader.uint truncated 2
  require (ibltCellCount = canonicalIbltCellCount txCount) "non-canonical IBLT cell count"
  let ibltHashes ← Reader.uint truncated 1
  require (ibltHashes = ibltHashCount) "non-canonical IBLT hash count"
  let bloom ← Reader.take truncated (byteLen bloomBits)
  require (hasNonzeroTailBits bloom bloomBits = false) "non-canonical bloom tail bits"
  require (bloomPopulation bloom ≤ min bloomBits (txCount * bloomHashCount)) "non-canonical bloom population"
  let ibltCells ← Reader.replicate (readIbltCell truncated) ibltCellCount
  let orderedShortIds ← Reader.replicate (Reader.take truncated shortIdBytes) txCount
  Reader.finish (.valueError "trailing graphene sketch bytes")
  require orderedShortIds.Nodup "duplicate short ids"
  require (minimumFruitLen headerLen txCount ≤ uncompressedLen) "bad uncompressed length"
  return { uncompressedLen, header, txCount, bloomBits, shortIdBytes, shortIdSalt, ibltCellCount, bloom, ibltCells,
           orderedShortIds }

/-- `_decode_sketch`. -/
def decodeSketch (sketch : Bytes) : Except PyError Sketch := do
  let (uncompressedLen, body) ← Reader.parse (do
    let codecId ← Reader.uint truncated 2
    Reader.lift (Exn.ensure (codecId = codecGraphene) (.valueError "wrong codec"))
    let uncompressedLen ← Reader.uint truncated 4
    let body ← Reader.take truncated (← Reader.uint truncated 4)
    Reader.finish (.valueError "trailing graphene sketch bytes")
    return (uncompressedLen, body)) sketch
  Reader.parse (readBody uncompressedLen) body

/-- `_CandidateTx`. -/
structure CandidateTx where
  txId : Hash
  rawTx : Bytes
deriving DecidableEq

/-- `_candidate_from_entry`. -/
def candidateFromEntry (C : Crypto) (entry : MempoolEntry) : Option CandidateTx :=
  let rawTx := entry.tx.toBytes
  if txIdOf C rawTx ≠ entry.txId then none else some ⟨entry.txId, rawTx⟩

/-- The candidates by short id, in the order in which they came. -/
abbrev Candidates := List (Bytes × CandidateTx)

/-- `candidates[short_id] = candidate`. -/
def Candidates.put (candidates : Candidates) (id : Bytes) (candidate : CandidateTx) : Candidates :=
  match candidates.lookup id with
  | none => candidates ++ [(id, candidate)]
  | some _ => candidates.map fun p => if p.1 = id then (id, candidate) else p

/-- The loop body of `_matching_mempool_candidates`. -/
def addCandidate (C : Crypto) (sketch : Sketch) (candidates : Candidates) (entry : MempoolEntry) :
    Option Candidates := do
  let candidate ← candidateFromEntry C entry
  if bloomContains C candidate.txId sketch.bloom sketch.bloomBits = false then some candidates
  else
    let id := shortId C sketch.shortIdBytes sketch.shortIdSalt candidate.txId
    if ((candidates.lookup id).all fun existing => existing.txId = candidate.txId) = false then none
    else
      let candidates := candidates.put id candidate
      if sketch.txCount + sketch.ibltCellCount < candidates.length then none else some candidates

/-- `_matching_mempool_candidates`. -/
def matchingMempoolCandidates (C : Crypto) (sketch : Sketch) (mempool : Mempool) : Option Candidates :=
  (mempool.entries.toList.map Prod.snd).foldlM (addCandidate C sketch) []

/-- `_decode_iblt_difference`. -/
def decodeIbltDifference (C : Crypto) (sketch : Sketch) (candidates : List CandidateTx) :
    Except PyError (Option (List IBLTKey × List IBLTKey)) := do
  let receiverIblt ← buildIblt C (candidates.map CandidateTx.txId) sketch.ibltCellCount
  let difference ← subtractIblt sketch.ibltCells receiverIblt
  peelIblt C difference

/-- The loop body over `ordered_short_ids`: the transactions found, and their ids. -/
def pickCandidate (candidates : Candidates) (acc : List Bytes × Finset Hash) (id : Bytes) :
    Option (List Bytes × Finset Hash) := do
  let candidate ← candidates.lookup id
  if candidate.txId ∈ acc.2 then none
  else some (acc.1 ++ [candidate.rawTx], insert candidate.txId acc.2)

/-- `except (TypeError, ValueError): return None`. -/
def orNone {α : Type} (x : Except PyError α) : Except PyError (Option α) :=
  match x with
  | .ok a => .ok (some a)
  | .error (.valueError _) => .ok none
  | .error (.typeError _) => .ok none
  | .error e => .error e

/-- `reconstruct_fruit`. -/
def reconstructFruit (sketch : Bytes) (mempool : Mempool) : Except PyError (Option (Fruit C)) := do
  let some decoded ← orNone (decodeSketch sketch) | return none
  let some candidates := matchingMempoolCandidates C decoded mempool | return none
  let some (senderOnly, _) ← decodeIbltDifference C decoded (candidates.map Prod.snd) | return none
  if senderOnly ≠ [] then return none
  let some (transactions, _) := decoded.orderedShortIds.foldlM (pickCandidate candidates) ([], ∅) | return none
  let some fruit ← orNone (Fruit.make (C := C) { header := decoded.header, transactions }) | return none
  if fruit.serialize.length ≠ decoded.uncompressedLen then return none
  if (← announceFruit fruit) ≠ sketch then return none
  return some fruit

end Relay

end Graphene

end TensorPow
