import TensorPow.Accum.Tree
import TensorPow.Spec.Headers
import TensorPow.Wire.Hex

/-!
# Proof of work

The modules of `pow/`: the challenge of a header, the product of two int8 matrices, the digest
of the product, and the search for a nonce. The order in which a backend adds up a product is
its own; what the code relies on is that it adds int32 numbers exactly.

* `Header`: what the work is done on.
* `Backend`: one way to compute a product; `resolveBackend`: which one a name stands for.
* `powDigestForHeader`, `verifyPow`: the digest of a header and its check, on a backend;
  `powDigestForHeaderOn`, `verifyPowOn`: by its name.
* `mine`: the search.
-/

namespace TensorPow

namespace Pow

open Wire

/-- `POW_MATRIX_DIM`. -/
def matrixDim : ℕ := 1024

/-- `POW_ACCUM_BYTES`. -/
def accumBytes : ℕ := 4

def domainPowOutput : Byte := 0x02
def domainPowMatrixA : Byte := 0x03
def domainPowMatrixB : Byte := 0x04

/-! ## Headers -/

/-- A proof-of-work header. An `AnchorPowHeader` has the fields of an anchor header. -/
inductive Header where
  | fruit (h : FruitPowHeader)
  | anchor (h : AnchorHeaderFields)
deriving DecidableEq

/-- `AnchorPowHeader.__post_init__`. -/
def anchorPostInit (h : AnchorHeaderFields) : Except PyError Unit := do
  requireUint "version" h.version u16Max
  requireUint "timestamp_ms" h.timestampMs u64Max
  requireUint "nonce" h.nonce u64Max

/-- `anchor_pow_preimage`. -/
def anchorPowPreimage (h : AnchorHeaderFields) : Bytes :=
  domainPowChallengeAnchor :: (le 2 h.version ++ h.parentAnchor.bytes ++ h.fruitSetRoot.bytes ++
    h.parentCandidateRoot.bytes ++ h.shardTreeStateRoot.bytes ++ h.feeFloorSetRoot.bytes ++ h.anchorRewardRoot.bytes ++
    le 8 h.timestampMs ++ le 8 h.nonce)

namespace Header

/-- `__post_init__`. -/
def postInit : Header → Except PyError Unit
  | fruit h => h.postInit
  | anchor h => anchorPostInit h

/-- `pow_preimage`. -/
def powPreimage : Header → Bytes
  | fruit h => fruitPowPreimage h
  | anchor h => anchorPowPreimage h

/-- The header with another nonce, unchecked. -/
def setNonce (nonce : ℕ) : Header → Header
  | fruit h => fruit { h with nonce }
  | anchor h => anchor { h with nonce }

/-- `with_nonce`: `replace` runs the checks again. -/
def withNonce (h : Header) (nonce : ℕ) : Except PyError Header := do
  requireUint "nonce" nonce u64Max
  (h.setNonce nonce).postInit
  return h.setNonce nonce

end Header

/-! ## The product -/

/-- The extendable output of BLAKE3, `blake3(data).digest(length=n)`. -/
abbrev Xof := Bytes → (n : ℕ) → FixedBytes n

/-- A square int8 tensor. -/
structure Int8Matrix (n : ℕ) where
  entry : Fin n → Fin n → ℤ
  range : ∀ i j, -128 ≤ entry i j ∧ entry i j ≤ 127

/-- A byte as a signed number. -/
def signed (b : Byte) : ℤ := if 128 ≤ b.val then (b.val : ℤ) - 256 else b.val

theorem signed_range (b : Byte) : -128 ≤ signed b ∧ signed b ≤ 127 := by
  unfold signed
  have hlt := b.isLt
  split
  · omega
  · omega

/-- `_matrix_from_xof`. -/
def matrixFromXof (X : Xof) (domain : Byte) (preimage : Bytes) (n : ℕ) : Int8Matrix n :=
  ⟨fun i j => signed ((X (domain :: preimage) (n * n)).bytes.getD (i.val * n + j.val) 0), fun _ _ => signed_range _⟩

/-- `build_challenge_matrices`. -/
def buildChallengeMatrices (X : Xof) (header : Header) (n : ℕ) : Int8Matrix n × Int8Matrix n :=
  (matrixFromXof X domainPowMatrixA header.powPreimage n, matrixFromXof X domainPowMatrixB header.powPreimage n)

/-- One of the ways in which `torch` multiplies (`torch._int_mm` on a CPU or a GPU, or `@` on int32
tensors). It adds the products of an entry in an order of its own, and its accumulator holds
every int32 number. -/
structure Backend (n : ℕ) where
  order : Fin n → Fin n → Accum.Tree (Fin n)
  fit : ℤ → ℤ
  order_all : ∀ i j, (order i j).leaves.Perm (List.finRange n)
  fit_int32 : ∀ z, -2 ^ 31 ≤ z → z < 2 ^ 31 → fit z = z

/-- `matmul_int8`. -/
def matmulInt8 {n : ℕ} (B : Backend n) (left right : Int8Matrix n) (i j : Fin n) : ℤ :=
  (B.order i j).eval B.fit fun k => left.entry i k * right.entry k j

/-- `canonical_output_bytes`: the entries row by row, each in two's complement, low byte first. -/
def canonicalOutputBytes {n : ℕ} (output : Fin n → Fin n → ℤ) : Bytes :=
  (List.finRange n).flatMap fun i => (List.finRange n).flatMap fun j => le accumBytes (output i j % 2 ^ 32).toNat

/-- `pow_digest`. -/
def powDigest (C : Crypto) {n : ℕ} (output : Fin n → Fin n → ℤ) : Hash :=
  C.domainHash domainPowOutput (canonicalOutputBytes output)

/-- `target_allows_digest`. -/
def targetAllowsDigest (digest target : Hash) : Bool := decide (digest.toNat ≤ target.toNat)

/-! ## The backends of a machine -/

/-- A device that computes products. -/
inductive Device where
  | cpu
  | cuda
  | mps
deriving DecidableEq

/-- The name of a device. -/
def Device.name : Device → String
  | cpu => "cpu"
  | cuda => "cuda"
  | mps => "mps"

/-- What `torch` has on a machine: `torch.cuda.is_available()`, whether `torch._int_mm` can be called,
what the probe of `_mps_int32_mm_available` found, and the product of each device. -/
structure Machine where
  cudaAvailable : Bool
  intMm : Bool
  mpsInt32MmAvailable : Bool
  product : Device → Backend matrixDim

/-- `_VALID_BACKENDS`. -/
def validBackends : List String := ["auto", "cpu", "cuda", "mps"]

/-- A character between quotes, as `repr` writes it. -/
def quoteChar (quote c : Char) : Text :=
  if c = quote ∨ c.toNat = 92 then [Char.ofNat 92, c]
  else if c.toNat = 9 then [Char.ofNat 92, 't']
  else if c.toNat = 10 then [Char.ofNat 92, 'n']
  else if c.toNat = 13 then [Char.ofNat 92, 'r']
  else if c.toNat < 32 ∨ c.toNat = 127 then Char.ofNat 92 :: 'x' :: toHex [Fin.ofNat 256 c.toNat]
  else [c]

/-- `repr` of a string, in which characters beyond ASCII are taken to be printable. -/
def reprText (s : String) : String :=
  let single := Char.ofNat 39
  let double := Char.ofNat 34
  let quote := if single ∈ s.toList ∧ double ∉ s.toList then double else single
  String.ofList (quote :: s.toList.flatMap (quoteChar quote) ++ [quote])

/-- `resolve_backend`. -/
def resolveBackend (M : Machine) (backend : String) : Except PyError Device := do
  Exn.ensure (backend ∈ validBackends) (.valueError ("unknown PoW backend " ++ reprText backend))
  if backend = "auto" then
    return if M.cudaAvailable ∧ M.intMm then .cuda else if M.mpsInt32MmAvailable then .mps else .cpu
  else if backend = "cuda" then do
    Exn.ensure (M.cudaAvailable = true) (.runtimeError "CUDA backend requested but CUDA is unavailable")
    Exn.ensure (M.intMm = true) (.runtimeError "CUDA backend requires torch._int_mm")
    return .cuda
  else if backend = "mps" then do
    Exn.ensure (M.mpsInt32MmAvailable = true)
      (.runtimeError "MPS backend requested but deterministic MPS int32 matmul is unavailable")
    return .mps
  else return .cpu

/-! ## Verifying and mining -/

section Digest

variable (C : Crypto) (X : Xof) (B : Backend matrixDim)

/-- `pow_digest_for_header` on a backend. -/
def powDigestForHeader (header : Header) : Hash :=
  let challenge := buildChallengeMatrices X header matrixDim
  powDigest C (matmulInt8 B challenge.1 challenge.2)

/-- `verify_pow` on a backend. -/
def verifyPow (header : Header) (target : Hash) : Bool := targetAllowsDigest (powDigestForHeader C X B header) target

end Digest

variable (C : Crypto) (X : Xof) (M : Machine)

/-- `pow_digest_for_header`: the product resolves the name of its backend. -/
def powDigestForHeaderOn (backend : String) (header : Header) : Except PyError Hash := do
  let device ← resolveBackend M backend
  return powDigestForHeader C X (M.product device) header

/-- `verify_pow`. -/
def verifyPowOn (backend : String) (header : Header) (target : Hash) : Except PyError Bool := do
  return targetAllowsDigest (← powDigestForHeaderOn C X M backend header) target

/-- `FoundNonce`, less the time. -/
structure FoundNonce where
  header : Header
  nonce : ℕ
  digest : Hash
  attempts : ℕ
  backend : String

/-- The loop of `mine`, in which at most `fuel` nonces are tried. `stop` says what the event answers
each time it is asked, and `asked` how often it was asked, which the loop returns as well. -/
def mineLoop (stop : ℕ → Bool) (template : Header) (target : Hash) (maxNonce : Option ℕ) (resolvedBackend : String) :
    (fuel nonce attempts asked : ℕ) → Except PyError (Option FoundNonce × ℕ)
  | 0, _, _, _ => .error .recursionError
  | fuel + 1, nonce, attempts, asked =>
    if ∀ last ∈ maxNonce, nonce ≤ last then
      if stop asked then return (none, asked + 1)
      else do
        let header ← template.withNonce nonce
        let digest ← powDigestForHeaderOn C X M resolvedBackend header
        if targetAllowsDigest digest target then
          return (some ⟨header, nonce, digest, attempts + 1, resolvedBackend⟩, asked + 1)
        else if stop (asked + 1) then return (none, asked + 2)
        else if nonce = u64Max then return (none, asked + 2)
        else mineLoop stop template target maxNonce resolvedBackend fuel (nonce + 1) (attempts + 1) (asked + 2)
    else return (none, asked)

/-- `mine`: what it returns, and how often it asked the event. -/
def mine (stop : ℕ → Bool) (template : Header) (target : Hash) (backend : String) (startNonce : ℕ)
    (maxNonce : Option ℕ) : Except PyError (Option FoundNonce × ℕ) := do
  Exn.ensure (startNonce ≤ u64Max) (.valueError "start_nonce outside uint64 range")
  Exn.ensure (∀ last ∈ maxNonce, startNonce ≤ last ∧ last ≤ u64Max)
    (.valueError "max_nonce outside uint64 range or before start_nonce")
  let resolvedBackend ← resolveBackend M backend
  mineLoop C X M stop template target maxNonce resolvedBackend.name (u64Max + 1 - startNonce) startNonce 0 0

end Pow

end TensorPow
