import TensorPow.Sorted.Basic
import TensorPow.Spec.Erlay

/-!
# Erlay sketches and sessions

The sketches of `net/erlay.py`, their decoding, and the state of a session with one peer. The
sums of the powers of a set of short ids are a sketch; exclusive or gives the sketch of what
is in only one of two sets.

* `berlekampMassey`, `splitLinearRoots`, `decodeSyndromes`: the decoder.
* `ErlaySketch`: a checked sketch, its bytes, `difference` and `decodeShortIds`.
* `ErlayPeerState`: short ids, `reconcile`, `resolveShortIds` and the times of the rounds.
-/

namespace TensorPow

namespace Erlay

open Wire

/-! ## Constants -/

/-- `CODEC_ERLAY`. -/
def codecErlay : ℕ := 0x0003

/-- `ERLAY_INTERVAL_MS`. -/
def intervalMs : ℕ := 8000

/-- `ERLAY_FIELD_BYTES`. -/
def fieldBytes : ℕ := fieldBits / 8

/-- `ERLAY_MAX_CAPACITY`. -/
def maxCapacity : ℕ := 1024

/-- `ERLAY_MAX_DECODE_CAPACITY`. -/
def maxDecodeCapacity : ℕ := 32

/-- `ERLAY_MAX_PEER_ID_BYTES`. -/
def maxPeerIdBytes : ℕ := 512

/-- `ERLAY_SKETCH_MAGIC`. -/
def sketchMagic : Bytes := [84, 80, 69, 82, 76, 65, 89]

/-- `ERLAY_SKETCH_HEADER_BYTES`. -/
def sketchHeaderBytes : ℕ := sketchMagic.length + 2 + 2 + 4 + 2 + 2

/-- `ERLAY_SPLIT_SEED_STEP`. -/
def splitSeedStep : ℕ := 0x9E3779B97F4A7C15

/-- `ERLAY_MAX_SPLIT_ATTEMPTS`. -/
def maxSplitAttempts : ℕ := 512

/-- `ERLAY_SESSION_PREFIX`. -/
def sessionPrefix : Bytes :=
  [84, 101, 110, 115, 111, 114, 80, 111, 87, 58, 69, 114, 108, 97, 121, 58, 112, 101, 101, 114, 45, 115, 101, 115, 115,
    105, 111, 110, 58]

/-- `ERLAY_SHORT_ID_PREFIX`. -/
def shortIdPrefix : Bytes :=
  [84, 101, 110, 115, 111, 114, 80, 111, 87, 58, 69, 114, 108, 97, 121, 58, 115, 104, 111, 114, 116, 45, 105, 100, 58]

/-! ## Checks -/

/-- `_require_capacity`. -/
def requireCapacity (value : ℕ) : Except PyError Unit := do
  Exn.ensure (value ≠ 0) (.valueError "capacity must be positive")
  Exn.ensure (value ≤ maxCapacity) (.valueError "capacity exceeds ERLAY_MAX_CAPACITY")
  Exn.ensure (2 * value ≤ u16Max) (.valueError "capacity syndrome count exceeds uint16")

/-- `_require_decode_capacity`. -/
def requireDecodeCapacity (capacity limit : ℕ) : Except PyError Unit := do
  requireCapacity capacity
  requireCapacity limit
  Exn.ensure (capacity ≤ limit) (.valueError "Erlay sketch capacity exceeds decode limit")

/-- `_syndrome_count`. -/
def syndromeCount (capacity : ℕ) : Except PyError ℕ := do
  requireCapacity capacity
  return 2 * capacity

/-- `_require_field_element` with `allow_zero=False`. -/
def requireNonzeroElement (name : String) (value : ℕ) : Except PyError FieldElement :=
  if h : value < 2 ^ 64 then
    if value = 0 then .error (.valueError (name ++ " must be nonzero")) else .ok ⟨value, h⟩
  else .error (.valueError (name ++ " outside Erlay field range"))

/-- `_canonical_short_ids`. -/
def canonicalShortIds (shortIds : List ℕ) : Except PyError (List FieldElement) := do
  let values ← shortIds.mapM (requireNonzeroElement "short_id")
  let ordered := Sorted.sortBy FieldElement.val values
  Exn.ensure ordered.Nodup (.valueError "Erlay short id set contains duplicates")
  return ordered

/-- `_canonical_tx_ids`. -/
def canonicalTxIds (txIds : List Hash) : Except PyError (List Hash) := do
  let ordered := Sorted.sortBy FixedBytes.bytes txIds
  Exn.ensure ordered.Nodup (.valueError "Erlay tx_id set contains duplicates")
  return ordered

/-! ## Power sums -/

/-- The inner loop of `_syndromes_for_short_ids`, from a power of the short id on. -/
def addPowers (shortId : FieldElement) : List FieldElement → FieldElement → List FieldElement
  | [], _ => []
  | syndrome :: syndromes, power => (syndrome ^^^ power) :: addPowers shortId syndromes (fieldMul power shortId)

/-- The loops of `_syndromes_for_short_ids`. -/
def powerSums (shortIds : List FieldElement) (count : ℕ) : List FieldElement :=
  shortIds.foldl (fun syndromes shortId => addPowers shortId syndromes shortId) (List.replicate count 0)

/-- `_syndromes_for_short_ids`. -/
def syndromesForShortIds (shortIds : List FieldElement) (capacity : ℕ) : Except PyError (List FieldElement) := do
  let count ← syndromeCount capacity
  return powerSums shortIds count

/-! ## Decoding -/

/-- What `_berlekamp_massey` changes from term to term. -/
structure Register where
  connection : List FieldElement
  previous : List FieldElement
  degree : ℕ
  gap : ℕ
  lastDiscrepancy : FieldElement
deriving DecidableEq

/-- The discrepancy of a term. The degree is at most the index of the term, so that no index
of the sequence is negative. -/
def discrepancy (sequence : List FieldElement) (r : Register) (index : ℕ) : FieldElement :=
  (List.range r.degree).foldl
    (fun sum i => sum ^^^ fieldMul (r.connection.getD (i + 1) 0) (sequence.getD (index - (i + 1)) 0))
    (sequence.getD index 0)

/-- `connection[coefficient_index + gap] ^= _field_mul(scale, coefficient)`, for every
coefficient. -/
def addShifted (connection : List FieldElement) (gap : ℕ) (scale : FieldElement) (previous : List FieldElement) :
    List FieldElement :=
  previous.zipIdx.foldl (fun values entry => values.modify (entry.2 + gap) (· ^^^ fieldMul scale entry.1)) connection

/-- The loop of `_berlekamp_massey`, for one term. -/
def Register.step (sequence : List FieldElement) (r : Register) (index : ℕ) : Except PyError Register := do
  let d := discrepancy sequence r index
  if d = 0 then return { r with gap := r.gap + 1 }
  let scale ← fieldDiv d r.lastDiscrepancy
  let connection := addShifted r.connection r.gap scale (r.previous.take (sequence.length + 1 - r.gap))
  if 2 * r.degree ≤ index then
    return ⟨connection, r.connection, index + 1 - r.degree, 1, d⟩
  else return { r with connection := connection, gap := r.gap + 1 }

/-- The register before the first term. -/
def Register.init (count : ℕ) : Register :=
  ⟨(List.replicate (count + 1) 0).set 0 1, (List.replicate (count + 1) 0).set 0 1, 0, 1, 1⟩

/-- `_berlekamp_massey`. -/
def berlekampMassey (sequence : List FieldElement) : Except PyError (List FieldElement) := do
  let r ← (List.range sequence.length).foldlM (Register.step sequence) (Register.init sequence.length)
  return r.connection.take (r.degree + 1)

/-- `_item_polynomial_from_locator`. -/
def itemPolynomialFromLocator (locator : List FieldElement) : List FieldElement :=
  let degree := locator.length - 1
  if degree = 0 then [0]
  else polyTrim ((List.range degree).map (fun index => locator.getD (degree - index) 0) ++ [1])

/-- `_poly_derivative`: the even coefficients go, as the characteristic is two. -/
def polyDerivative (polynomial : List FieldElement) : List FieldElement :=
  if polynomial.length ≤ 1 then [0]
  else polyTrim ((List.range (polynomial.length - 1)).map fun i => if (i + 1) % 2 = 1 then polynomial.getD (i + 1) 0 else 0)

/-- The loop of `_poly_trace_mod`. -/
def polyTraceLoop (modulus : List FieldElement) : ℕ → List FieldElement → List FieldElement → Except PyError (List FieldElement)
  | 0, result, _ => .ok result
  | rounds + 1, result, value => do
    let next ← polyMulMod value value modulus
    polyTraceLoop modulus rounds (polyAdd result value) next

/-- `_poly_trace_mod`. -/
def polyTraceMod (base modulus : List FieldElement) : Except PyError (List FieldElement) := do
  let value ← polyMod base modulus
  polyTraceLoop modulus fieldBits [0] value

/-- `(attempt * _SPLIT_SEED_STEP) & _FIELD_MASK`. -/
def splitSeed (attempt : ℕ) : FieldElement := ⟨(attempt * splitSeedStep) &&& fieldMask, and_fieldMask_lt _⟩

/-- The loop of `_split_linear_roots`: the first attempt that gives a proper factor. -/
def findFactor (polynomial : List FieldElement) : List ℕ → Except PyError (Option (List FieldElement))
  | [] => .ok none
  | attempt :: rest => do
    if splitSeed attempt = 0 then findFactor polynomial rest
    else do
      let trace ← polyTraceMod [0, splitSeed attempt] polynomial
      let factor ← polyGcd polynomial trace
      if 0 < polyDegree factor ∧ polyDegree factor < polyDegree polynomial then return some factor
      else findFactor polynomial rest

/-- `_split_linear_roots`; `fuel` bounds the depth of the recursion. -/
def splitLinearRoots : ℕ → List FieldElement → Except PyError (List FieldElement)
  | 0, _ => .error .recursionError
  | fuel + 1, polynomial => do
    let polynomial ← polyMakeMonic polynomial
    if polyDegree polynomial = 0 then return []
    else if polyDegree polynomial = 1 then do
      let root ← fieldDiv (polynomial.getD 0 0) (polynomial.getD 1 0)
      return [root]
    else do
      match ← findFactor polynomial (List.range' 1 maxSplitAttempts) with
      | none => .error (.valueError "Erlay sketch polynomial did not split")
      | some factor =>
        let result ← polyDivmod polynomial factor
        Exn.ensure (result.2 = [0]) (.valueError "Erlay polynomial factorization failed")
        let left ← splitLinearRoots fuel factor
        let right ← splitLinearRoots fuel result.1
        return left ++ right

/-- `_decode_syndromes`. -/
def decodeSyndromes (syndromes : List FieldElement) (capacity : ℕ) : Except PyError (List FieldElement) := do
  if ∀ s ∈ syndromes, s = 0 then return []
  else do
    let locator ← berlekampMassey syndromes
    let degree := locator.length - 1
    Exn.ensure (¬(degree = 0 ∨ capacity < degree)) (.valueError "Erlay sketch exceeds reconciliation capacity")
    let itemPolynomial := itemPolynomialFromLocator locator
    let common ← polyGcd itemPolynomial (polyDerivative itemPolynomial)
    Exn.ensure (common = [1]) (.valueError "Erlay sketch decodes to duplicate short ids")
    let found ← splitLinearRoots (itemPolynomial.length + 1) itemPolynomial
    let roots := Sorted.sortBy FieldElement.val found
    Exn.ensure (roots.length = degree) (.valueError "Erlay sketch does not split into field elements")
    Exn.ensure (∀ root ∈ roots, root ≠ 0) (.valueError "decoded short id must be nonzero")
    return roots

/-! ## Sketches -/

/-- `ErlaySketch`, with the checks of `__post_init__` as fields. -/
structure ErlaySketch where
  shardId : ℕ
  capacity : ℕ
  syndromes : List FieldElement
  shardId_ok : requireShardId shardId = .ok ()
  capacity_ok : requireCapacity capacity = .ok ()
  length_ok : syndromes.length = 2 * capacity

namespace ErlaySketch

/-- The constructor. -/
def make (shardId capacity : ℕ) (syndromes : List FieldElement) : Except PyError ErlaySketch :=
  match hs : requireShardId shardId with
  | .error e => .error e
  | .ok () =>
    match hc : requireCapacity capacity with
    | .error e => .error e
    | .ok () =>
      if hl : syndromes.length = 2 * capacity then .ok ⟨shardId, capacity, syndromes, hs, hc, hl⟩
      else .error (.valueError "Erlay sketch syndrome count is invalid")

/-- `from_short_ids`. -/
def fromShortIds (shardId : ℕ) (shortIds : List ℕ) (capacity : ℕ) : Except PyError ErlaySketch := do
  requireShardId shardId
  requireCapacity capacity
  let canonical ← canonicalShortIds shortIds
  let syndromes ← syndromesForShortIds canonical capacity
  make shardId capacity syndromes

/-- `to_bytes`. -/
def toBytes (s : ErlaySketch) : Bytes :=
  sketchMagic ++ le 2 codecErlay ++ le 2 fieldBits ++ le 4 s.shardId ++ le 2 s.capacity ++ le 2 s.syndromes.length ++
    s.syndromes.flatMap fun syndrome => le 8 syndrome.val

/-- `_read_u16`, `_read_u32` and `_read_u64`. -/
def readUint (width : ℕ) (data : Bytes) (offset : ℕ) : ℕ := ofLe ((data.drop offset).take width)

/-- A field element that `_read_u64` returns. -/
def readSyndrome (data : Bytes) (offset : ℕ) : FieldElement :=
  ⟨readUint 8 data offset, by
    have hlt := ofLe_lt ((data.drop offset).take 8)
    have hlen : ((data.drop offset).take 8).length ≤ 8 := List.length_take_le _ _
    exact lt_of_lt_of_le hlt (Nat.pow_le_pow_right (by decide) hlen)⟩

/-- `from_bytes`. -/
def fromBytes (data : Bytes) (limit : ℕ) : Except PyError ErlaySketch := do
  Exn.ensure (sketchHeaderBytes ≤ data.length) (.valueError "Erlay sketch is truncated")
  Exn.ensure (data.take sketchMagic.length = sketchMagic) (.valueError "Erlay sketch magic is invalid")
  Exn.ensure (readUint 2 data 7 = codecErlay) (.valueError "Erlay sketch codec id is invalid")
  Exn.ensure (readUint 2 data 9 = fieldBits) (.valueError "Erlay sketch field encoding is invalid")
  let shardId := readUint 4 data 11
  Exn.ensure (requireShardId shardId = .ok ()) (.valueError "Erlay sketch shard id is invalid")
  let capacity := readUint 2 data 15
  Exn.ensure (requireCapacity capacity = .ok ()) (.valueError "Erlay sketch capacity is invalid")
  requireDecodeCapacity capacity limit
  let count := readUint 2 data 17
  Exn.ensure (count = 2 * capacity) (.valueError "Erlay sketch syndrome count is invalid")
  Exn.ensure (data.length = sketchHeaderBytes + count * fieldBytes) (.valueError "Erlay sketch length is invalid")
  make shardId capacity ((List.range count).map fun index => readSyndrome data (sketchHeaderBytes + index * fieldBytes))

/-- `difference`. -/
def difference (s other : ErlaySketch) : Except PyError ErlaySketch := do
  Exn.ensure (s.shardId = other.shardId) (.valueError "Erlay sketches must use the same shard")
  Exn.ensure (s.capacity = other.capacity) (.valueError "Erlay sketches must use the same capacity")
  make s.shardId s.capacity (List.zipWith (fun left right => left ^^^ right) s.syndromes other.syndromes)

/-- `decode_short_ids`. -/
def decodeShortIds (s : ErlaySketch) (limit : ℕ) : Except PyError (List FieldElement) := do
  requireDecodeCapacity s.capacity limit
  let shortIds ← decodeSyndromes s.syndromes s.capacity
  let syndromes ← syndromesForShortIds shortIds s.capacity
  Exn.ensure (syndromes = s.syndromes) (.valueError "Erlay sketch does not decode canonically")
  return shortIds

end ErlaySketch

/-- A remote sketch, decoded or in bytes. -/
inductive RemoteSketch where
  | decoded (s : ErlaySketch)
  | encoded (data : Bytes)

/-- The sketch, decoded if it comes in bytes. -/
def RemoteSketch.sketch : RemoteSketch → Except PyError ErlaySketch
  | .decoded s => .ok s
  | .encoded data => ErlaySketch.fromBytes data maxDecodeCapacity

/-! ## Sessions -/

/-- `_require_peer_id`. -/
def requirePeerId (name : String) (value : Bytes) : Except PyError Unit := do
  Exn.ensure (value ≠ []) (.valueError (name ++ " must not be empty"))
  Exn.ensure (value.length ≤ maxPeerIdBytes) (.valueError (name ++ " exceeds maximum length"))

/-- `ErlayPeerState`, with the checks of `__post_init__` as fields. -/
structure ErlayPeerState where
  localPeerId : Bytes
  remotePeerId : Bytes
  intervalMs : ℕ
  lastReconciledMsByShard : Table ℕ ℕ
  local_ok : requirePeerId "local_peer_id" localPeerId = .ok ()
  remote_ok : requirePeerId "remote_peer_id" remotePeerId = .ok ()
  distinct : localPeerId ≠ remotePeerId
  interval_pos : 0 < intervalMs

/-- `ErlaySetDifference`, with the checks of `__post_init__` as fields. -/
structure ErlaySetDifference where
  localOnlyTxIds : List Hash
  remoteOnlyShortIds : List FieldElement
  local_sorted : Sorted.sortBy FixedBytes.bytes localOnlyTxIds = localOnlyTxIds
  local_nodup : localOnlyTxIds.Nodup
  remote_sorted : Sorted.sortBy FieldElement.val remoteOnlyShortIds = remoteOnlyShortIds
  remote_nodup : remoteOnlyShortIds.Nodup
  remote_nonzero : ∀ shortId ∈ remoteOnlyShortIds, shortId ≠ 0

namespace ErlaySetDifference

/-- The constructor. -/
def make (localOnlyTxIds : List Hash) (remoteOnlyShortIds : List FieldElement) : Except PyError ErlaySetDifference :=
  if hl : Sorted.sortBy FixedBytes.bytes localOnlyTxIds = localOnlyTxIds ∧ localOnlyTxIds.Nodup then
    if hr : Sorted.sortBy FieldElement.val remoteOnlyShortIds = remoteOnlyShortIds ∧ remoteOnlyShortIds.Nodup then
      if hz : ∀ shortId ∈ remoteOnlyShortIds, shortId ≠ 0 then
        .ok ⟨localOnlyTxIds, remoteOnlyShortIds, hl.1, hl.2, hr.1, hr.2, hz⟩
      else .error (.valueError "remote_only_short_ids must be nonzero")
    else .error (.valueError "remote_only_short_ids must be canonical")
  else .error (.valueError "local_only_tx_ids must be canonical")

end ErlaySetDifference

namespace ErlayPeerState

variable (C : Crypto)

/-- `session_id`: the same for both peers. -/
def sessionId (p : ErlayPeerState) : Hash :=
  let first := if p.localPeerId ≤ p.remotePeerId then p.localPeerId else p.remotePeerId
  let second := if p.localPeerId ≤ p.remotePeerId then p.remotePeerId else p.localPeerId
  C.hashBytes (sessionPrefix ++ le 2 first.length ++ first ++ le 2 second.length ++ second)

/-- The short id one round of `short_id` tries. -/
def shortIdAt (session : Hash) (shardId : ℕ) (txId : Hash) (counter : ℕ) : FieldElement :=
  ErlaySketch.readSyndrome (C.hashBytes (shortIdPrefix ++ session.bytes ++ le 4 shardId ++ txId.bytes ++ le 2 counter)).bytes 0

/-- The loop of `short_id`; the last `left` of the counters `0 … U16_MAX` are still to be tried. -/
def shortIdLoop (session : Hash) (shardId : ℕ) (txId : Hash) : ℕ → Except PyError FieldElement
  | 0 => .error (.valueError "unable to derive nonzero Erlay short id")
  | left + 1 =>
    let shortId := shortIdAt C session shardId txId (u16Max - left)
    if shortId = 0 then shortIdLoop session shardId txId left else .ok shortId

/-- `short_id`. -/
def shortId (p : ErlayPeerState) (shardId : ℕ) (txId : Hash) : Except PyError FieldElement := do
  requireShardId shardId
  shortIdLoop C (p.sessionId C) shardId txId (u16Max + 1)

/-- `build_sketch`, which is `ErlaySketch.from_tx_ids`. -/
def buildSketch (p : ErlayPeerState) (shardId : ℕ) (txIds : List Hash) (capacity : ℕ) : Except PyError ErlaySketch := do
  let ordered ← canonicalTxIds txIds
  let shortIds ← ordered.mapM (p.shortId C shardId)
  ErlaySketch.fromShortIds shardId (shortIds.map FieldElement.val) capacity

/-- A round of `index_tx_ids_by_short_id`. -/
def indexTxId (p : ErlayPeerState) (shardId : ℕ) (index : Table ℕ Hash) (txId : Hash) : Except PyError (Table ℕ Hash) := do
  let id ← p.shortId C shardId txId
  Exn.ensure (∀ existing, index[id.val]? = some existing → existing = txId)
    (.valueError "Erlay short id collision in local tx set")
  return index.insert id.val txId

/-- `index_tx_ids_by_short_id`. -/
def indexTxIdsByShortId (p : ErlayPeerState) (shardId : ℕ) (txIds : List Hash) : Except PyError (Table ℕ Hash) := do
  requireShardId shardId
  let ordered ← canonicalTxIds txIds
  ordered.foldlM (p.indexTxId C shardId) ∅

/-- `partition_difference`. -/
def partitionDifference (p : ErlayPeerState) (shardId : ℕ) (localTxIds : List Hash) (differenceShortIds : List ℕ) :
    Except PyError ErlaySetDifference := do
  let shortIds ← canonicalShortIds differenceShortIds
  let localByShortId ← p.indexTxIdsByShortId C shardId localTxIds
  let localOnly := shortIds.filterMap fun id => localByShortId[id.val]?
  let remoteOnly := shortIds.filter fun id => localByShortId[id.val]?.isNone
  ErlaySetDifference.make (Sorted.sortBy FixedBytes.bytes localOnly) remoteOnly

/-- `decode_difference`. -/
def decodeDifference (localSketch : ErlaySketch) (remote : RemoteSketch) : Except PyError (List FieldElement) := do
  let remoteSketch ← remote.sketch
  let difference ← localSketch.difference remoteSketch
  difference.decodeShortIds maxDecodeCapacity

/-- `reconcile`. -/
def reconcile (p : ErlayPeerState) (shardId : ℕ) (localTxIds : List Hash) (localSketch : ErlaySketch)
    (remote : RemoteSketch) : Except PyError ErlaySetDifference := do
  requireShardId shardId
  Exn.ensure (localSketch.shardId = shardId) (.valueError "local sketch shard does not match requested shard")
  let differenceShortIds ← decodeDifference localSketch remote
  p.partitionDifference C shardId localTxIds (differenceShortIds.map FieldElement.val)

/-- `resolve_short_ids`. -/
def resolveShortIds (p : ErlayPeerState) (shardId : ℕ) (localTxIds : List Hash) (requestedShortIds : List ℕ) :
    Except PyError (List Hash) := do
  let shortIds ← canonicalShortIds requestedShortIds
  let localByShortId ← p.indexTxIdsByShortId C shardId localTxIds
  shortIds.mapM fun id =>
    Exn.get localByShortId[id.val]? (.valueError "requested Erlay short id is not in the local set")

/-- `should_reconcile`. -/
def shouldReconcile (p : ErlayPeerState) (shardId nowMs : ℕ) : Except PyError Bool := do
  requireShardId shardId
  match p.lastReconciledMsByShard[shardId]? with
  | none => return true
  | some lastMs => return decide ((p.intervalMs : ℤ) ≤ (nowMs : ℤ) - lastMs)

/-- `mark_reconciled`. -/
def markReconciled (p : ErlayPeerState) (shardId nowMs : ℕ) : Except PyError ErlayPeerState := do
  requireShardId shardId
  Exn.ensure (∀ previous, p.lastReconciledMsByShard[shardId]? = some previous → previous ≤ nowMs)
    (.valueError "now_ms must not move backwards for a shard")
  return { p with lastReconciledMsByShard := p.lastReconciledMsByShard.insert shardId nowMs }

/-- `next_reconcile_at_ms`. -/
def nextReconcileAtMs (p : ErlayPeerState) (shardId : ℕ) : Except PyError ℕ := do
  requireShardId shardId
  match p.lastReconciledMsByShard[shardId]? with
  | none => return 0
  | some lastMs => return lastMs + p.intervalMs

end ErlayPeerState

end Erlay

end TensorPow
