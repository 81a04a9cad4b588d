import TensorPow.Spec.Basic

/-!
# Addresses

`crypto/address.py`: Bech32m addresses of public-key hashes. A string is a list of
characters. What `str.lower` does to a string that is not ASCII is a parameter: such a string
is refused in any case, and only the message depends on it.
-/

namespace TensorPow.Address

open Wire

/-- `HRP`. -/
def hrpText : List Char := ['t', 's', 'c']

/-- `BECH32M_CONST`. -/
def bech32mConst : ℕ := 0x2BC830A3

/-- `CHARSET`. -/
def charset : List Char :=
  ['q', 'p', 'z', 'r', 'y', '9', 'x', '8', 'g', 'f', '2', 't', 'v', 'd', 'w', '0',
   's', '3', 'j', 'n', '5', '4', 'k', 'h', 'c', 'e', '6', 'm', 'u', 'a', '7', 'l']

/-- `CHARSET_INDEX`. -/
def charsetIndex (c : Char) : Option ℕ := charset.idxOf? c

/-- `CHECKSUM_LENGTH`. -/
def checksumLength : ℕ := 6

/-- `MAX_BECH32_LENGTH`. -/
def maxBech32Length : ℕ := 90

/-- What the functions of the module raise. -/
inductive Failure where
  /-- `AddressDecodeError`, with the position of the typo. -/
  | decode (message : String) (errorPosition : Option ℕ)
  /-- any other exception -/
  | other (e : PyError)
deriving DecidableEq, Repr

/-- Stop with `AddressDecodeError` unless the condition holds. -/
def require (p : Prop) [Decidable p] (message : String) : Except Failure Unit := Exn.ensure p (.decode message none)

/-! ## The checksum -/

/-- The generators of `_polymod`. -/
def generators : List ℕ := [0x3B6A57B2, 0x26508E6D, 0x1EA119FA, 0x3D4233DD, 0x2A1462B3]

/-- The inner loop of `_polymod`: the generators that the top bits select. -/
def mixGenerators (top checksum : ℕ) : ℕ :=
  generators.zipIdx.foldl (fun checksum p => if (top >>> p.2) &&& 1 ≠ 0 then checksum ^^^ p.1 else checksum) checksum

/-- One round of the loop of `_polymod`. -/
def polymodStep (checksum value : ℕ) : ℕ :=
  mixGenerators (checksum >>> 25) (((checksum &&& 0x1FFFFFF) <<< 5) ^^^ value)

/-- `_polymod`. -/
def polymod (values : List ℕ) : ℕ := values.foldl polymodStep 1

/-- `_hrp_expand`. -/
def hrpExpand (hrp : List Char) : List ℕ :=
  hrp.map (fun c => c.toNat >>> 5) ++ [0] ++ hrp.map fun c => c.toNat &&& 31

/-- `_create_checksum`. -/
def createChecksum (hrp : List Char) (data : List ℕ) : List ℕ :=
  let p := polymod (hrpExpand hrp ++ data ++ List.replicate checksumLength 0) ^^^ bech32mConst
  (List.range checksumLength).map fun index => (p >>> (5 * (checksumLength - 1 - index))) &&& 31

/-- `_verify_checksum`. -/
def verifyChecksum (hrp : List Char) (data : List ℕ) : Bool := polymod (hrpExpand hrp ++ data) = bech32mConst

/-! ## Regrouping bits -/

/-- The inner loop of `_convertbits`: the groups that are complete, and the bits left.
`fuel` bounds its rounds. -/
def emitGroups (accumulator toBits : ℕ) : ℕ → ℕ → List ℕ × ℕ
  | 0, bits => ([], bits)
  | fuel + 1, bits =>
    if toBits ≤ bits then
      let rest := emitGroups accumulator toBits fuel (bits - toBits)
      (((accumulator >>> (bits - toBits)) &&& ((1 <<< toBits) - 1)) :: rest.1, rest.2)
    else ([], bits)

/-- The state of `_convertbits`. -/
structure BitState where
  accumulator : ℕ
  bits : ℕ
  output : List ℕ

/-- One round of the loop of `_convertbits`. -/
def convertStep (fromBits toBits : ℕ) (s : BitState) (value : ℕ) : Except Failure BitState := do
  require (value >>> fromBits = 0) "address payload has invalid bit group"
  let accumulator := ((s.accumulator <<< fromBits) ||| value) &&& ((1 <<< (fromBits + toBits - 1)) - 1)
  let (groups, bits) := emitGroups accumulator toBits (s.bits + fromBits) (s.bits + fromBits)
  return { accumulator, bits, output := s.output ++ groups }

/-- `_convertbits`. -/
def convertbits (data : List ℕ) (fromBits toBits : ℕ) (pad : Bool) : Except Failure (List ℕ) := do
  let s ← data.foldlM (convertStep fromBits toBits) ⟨0, 0, []⟩
  let last := (s.accumulator <<< (toBits - s.bits)) &&& ((1 <<< toBits) - 1)
  if pad then return if s.bits ≠ 0 then s.output ++ [last] else s.output
  else do
    require (¬(fromBits ≤ s.bits ∨ last ≠ 0)) "address payload padding is non-canonical"
    return s.output

/-! ## Strings -/

section Strings

variable (unicodeLower : List Char → List Char)

/-- `str.lower`. -/
def lower (s : List Char) : List Char :=
  if s.all fun c => c.toNat < 128 then s.map Char.toLower else unicodeLower s

/-- `str.rfind("1")`; `none` is `-1`. -/
def rfindOne (s : List Char) : Option ℕ := (s.reverse.idxOf? '1').map fun i => s.length - 1 - i

/-- The check for printable ASCII. -/
def hasInvalid (s : List Char) : Bool := s.any fun c => c.toNat < 33 || 126 < c.toNat

/-- `_validate_hrp`. -/
def validateHrp (hrp : List Char) : Except Failure Unit := do
  require (hrp ≠ []) "HRP must not be empty"
  require (hrp = lower unicodeLower hrp) "HRP must be lowercase"
  require (hasInvalid hrp = false) "HRP contains invalid characters"

/-- `_bech32m_encode`. -/
def bech32mEncode (hrp : List Char) (data : List ℕ) : Except Failure (List Char) := do
  validateHrp unicodeLower hrp
  let combined := data ++ createChecksum hrp data
  let chars ← combined.mapM fun value => Exn.get charset[value]? (.other (.indexError "string index out of range"))
  return hrp ++ ['1'] ++ chars

/-- `_bech32m_decode_without_location`: does it return? -/
def decodesWithoutLocation (address : List Char) : Bool :=
  match rfindOne address with
  | none => false
  | some separator =>
    let dataPart := address.drop (separator + 1)
    match dataPart.mapM charsetIndex with
    | none => false
    | some data =>
      decide (1 ≤ separator ∧ separator + checksumLength < address.length ∧ address = lower unicodeLower address) &&
        verifyChecksum (address.take separator) data

/-- The letters `_locate_single_error` tries in front of the separator. -/
def letters : List Char :=
  ['a', 'b', 'c', 'd', 'e', 'f', 'g', 'h', 'i', 'j', 'k', 'l', 'm',
   'n', 'o', 'p', 'q', 'r', 's', 't', 'u', 'v', 'w', 'x', 'y', 'z']

/-- `_locate_single_error`. -/
def locateSingleError (address : List Char) : Option ℕ :=
  (List.range address.length).find? fun position =>
    let afterOne := ((rfindOne address).map fun separator => decide (separator < position)).getD true
    let replacements := if afterOne then charset else letters
    replacements.any fun replacement =>
      decide (address[position]? ≠ some replacement) &&
        decodesWithoutLocation unicodeLower (address.set position replacement)

/-- `_bech32m_decode`. -/
def bech32mDecode (address : List Char) : Except Failure (List Char × List ℕ) := do
  require (address.length ≤ maxBech32Length) "address is too long"
  require (address = lower unicodeLower address) "address must be lowercase"
  require (hasInvalid address = false) "address contains invalid characters"
  let separator := (rfindOne address).getD 0
  require (1 ≤ separator) "address is missing separator"
  require (separator + checksumLength < address.length) "address checksum is missing"
  let hrp := address.take separator
  validateHrp unicodeLower hrp
  let dataPart := address.drop (separator + 1)
  let position := (dataPart.findIdx? fun c => charsetIndex c = none).map fun i => separator + 1 + i
  let data ← Exn.get (dataPart.mapM charsetIndex) (.decode "address contains invalid data character" position)
  Exn.ensure (verifyChecksum hrp data)
    (.decode "address checksum is invalid" (locateSingleError unicodeLower address))
  return (hrp, data.take (data.length - checksumLength))

/-- `address_to_pubkey_hash`. -/
def addressToPubkeyHash (address : List Char) : Except Failure Hash := do
  let (hrp, data) ← bech32mDecode unicodeLower address
  require (hrp = hrpText) "address HRP must be 'tsc'"
  let payload ← convertbits data 5 8 false
  if h : payload.length = hashLenBytes then .ok ⟨payload.map (Fin.ofNat 256), by rw [List.length_map]; exact h⟩
  else .error (.decode "address payload must be 32 bytes" none)

/-- The address of a public-key hash. -/
def encodeHash (pubkeyHash : Hash) : Except Failure (List Char) := do
  bech32mEncode unicodeLower hrpText (← convertbits (pubkeyHash.bytes.map fun b => b.val) 8 5 true)

/-- `pubkey_to_address`. -/
def pubkeyToAddress (C : Crypto) (pubkey : Bytes) : Except Failure (List Char) := do
  Exn.ensure (pubkey.length = 32) (.other (.valueError "pubkey must be 32 bytes"))
  encodeHash unicodeLower (C.domainHash domainAddress pubkey)

/-- `validate_address`. -/
def validateAddress (address : List Char) : Bool := (addressToPubkeyHash unicodeLower address).isOk

end Strings

end TensorPow.Address
