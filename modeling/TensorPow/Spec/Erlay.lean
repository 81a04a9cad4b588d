import TensorPow.Spec.Basic

/-!
# The arithmetic of Erlay sketches

The field and the polynomials of `net/erlay.py`. `_require_field_element` admits the integers
below `2 ^ 64`: a `FieldElement` is one of them. A polynomial is the list of its coefficients,
the constant first; what `_poly_trim` returns is never empty and has no zeros at the end,
except in `[0]`.

* `fieldMul`, `fieldPow`, `fieldInv`, `fieldDiv`: the field.
* `polyTrim`, `polyAdd`, `polyMul`, `polyDivmod`, `polyGcd`, …: polynomials. The rounds of a
  `while` loop are bounded by a `fuel`, and a loop that uses it up does not return.
-/

namespace TensorPow

namespace Erlay

/-! ## The field -/

/-- `ERLAY_FIELD_BITS`. -/
def fieldBits : ℕ := 64

/-- `ERLAY_FIELD_POLY_LOW`. -/
def fieldPolyLow : ℕ := 0x1B

/-- `ERLAY_FIELD_MASK`. -/
def fieldMask : ℕ := u64Max

/-- An integer that `_require_field_element` admits. -/
structure FieldElement where
  val : ℕ
  isLt : val < 2 ^ 64
deriving DecidableEq

namespace FieldElement

@[ext] theorem ext {a b : FieldElement} (h : a.val = b.val) : a = b := by
  cases a
  cases b
  cases h
  rfl

instance instZero : Zero FieldElement := ⟨0, by decide⟩

instance instOne : One FieldElement := ⟨1, by decide⟩

instance instXorOp : XorOp FieldElement := ⟨fun a b => ⟨a.val ^^^ b.val, Nat.xor_lt_two_pow a.isLt b.isLt⟩⟩

@[simp] theorem val_zero : (0 : FieldElement).val = 0 := rfl

@[simp] theorem val_one : (1 : FieldElement).val = 1 := rfl

@[simp] theorem val_xor (a b : FieldElement) : (a ^^^ b).val = a.val ^^^ b.val := rfl

end FieldElement

/-- The loop of `_field_mul`. A `multiplier` of `n` bits takes `n` rounds. -/
def fieldMulLoop : ℕ → ℕ → ℕ → ℕ → ℕ
  | 0, result, _, _ => result
  | fuel + 1, result, addend, multiplier =>
    if multiplier = 0 then result
    else
      let doubled := addend <<< 1
      fieldMulLoop fuel (if multiplier &&& 1 = 1 then result ^^^ addend else result)
        (if doubled >>> fieldBits = 0 then doubled else (doubled ^^^ fieldPolyLow) &&& fieldMask) (multiplier >>> 1)

theorem and_fieldMask_lt (n : ℕ) : n &&& fieldMask < 2 ^ 64 :=
  Nat.lt_of_le_of_lt Nat.and_le_right (by decide)

/-- `_field_mul`. -/
def fieldMul (left right : FieldElement) : FieldElement :=
  ⟨fieldMulLoop fieldBits 0 left.val right.val &&& fieldMask, and_fieldMask_lt _⟩

/-- The loop of `_field_pow`. -/
def fieldPowLoop : ℕ → FieldElement → FieldElement → ℕ → FieldElement
  | 0, result, _, _ => result
  | fuel + 1, result, base, remaining =>
    if remaining = 0 then result
    else
      fieldPowLoop fuel (if remaining &&& 1 = 1 then fieldMul result base else result)
        (if remaining >>> 1 = 0 then base else fieldMul base base) (remaining >>> 1)

/-- `_field_pow`. -/
def fieldPow (value : FieldElement) (exponent : ℕ) : FieldElement := fieldPowLoop (exponent.log2 + 1) 1 value exponent

/-- `_field_inv`. -/
def fieldInv (value : FieldElement) : Except PyError FieldElement := do
  Exn.ensure (value ≠ 0) (.valueError "value must be nonzero")
  return fieldPow value ((1 <<< fieldBits) - 2)

/-- `_field_div`. -/
def fieldDiv (left right : FieldElement) : Except PyError FieldElement := do
  let inverse ← fieldInv right
  return fieldMul left inverse

/-! ## Polynomials -/

/-- The loop of `_poly_trim`, on the values from the last one on. -/
def popZeros : List FieldElement → List FieldElement
  | [] => []
  | [value] => [value]
  | value :: next :: rest => if value = 0 then popZeros (next :: rest) else value :: next :: rest

/-- `_poly_trim`. -/
def polyTrim (polynomial : List FieldElement) : List FieldElement :=
  let values := (popZeros polynomial.reverse).reverse
  if values = [] then [0] else values

/-- `_poly_degree`. -/
def polyDegree (polynomial : List FieldElement) : ℕ := (polyTrim polynomial).length - 1

/-- `_poly_add`. -/
def polyAdd (left right : List FieldElement) : List FieldElement :=
  polyTrim ((List.range (max left.length right.length)).map fun index => left.getD index 0 ^^^ right.getD index 0)

/-- The inner loop of `_poly_mul` and the loop over the divisor of `_poly_divmod`: add a scaled
and shifted polynomial in place. -/
def xorScaled (values : List FieldElement) (shift : ℕ) (scale : FieldElement) (polynomial : List FieldElement) :
    List FieldElement :=
  polynomial.zipIdx.foldl
    (fun values entry => if entry.1 = 0 then values else values.modify (entry.2 + shift) (· ^^^ fieldMul scale entry.1))
    values

/-- The outer loop of `_poly_mul`. -/
def polyMulLoop (left right result : List FieldElement) : List FieldElement :=
  left.zipIdx.foldl (fun result entry => if entry.1 = 0 then result else xorScaled result entry.2 entry.1 right) result

/-- `_poly_mul`. -/
def polyMul (left right : List FieldElement) : List FieldElement :=
  if left = [0] ∨ right = [0] then [0]
  else polyTrim (polyMulLoop left right (List.replicate (left.length + right.length - 1) 0))

/-- The loop of `_poly_divmod`, from a quotient and a remainder on. -/
def polyDivmodLoop (divisor : List FieldElement) (inverseLead : FieldElement) :
    ℕ → List FieldElement → List FieldElement → Except PyError (List FieldElement × List FieldElement)
  | 0, _, _ => .error .recursionError
  | fuel + 1, quotient, remainder =>
    if divisor.length ≤ remainder.length ∧ remainder ≠ [0] then
      let shift := remainder.length - divisor.length
      let scale := fieldMul (remainder.getLastD 0) inverseLead
      let reduced := if scale = 0 then remainder else xorScaled remainder shift scale divisor
      polyDivmodLoop divisor inverseLead fuel (quotient.set shift scale) (polyTrim reduced)
    else .ok (quotient, remainder)

/-- `_poly_divmod` with its arguments trimmed. -/
def polyDivmodTrimmed (dividend divisor : List FieldElement) :
    Except PyError (List FieldElement × List FieldElement) := do
  Exn.ensure (divisor ≠ [0]) (.zeroDivisionError "polynomial division by zero")
  if polyDegree dividend < polyDegree divisor then return ([0], dividend)
  let inverseLead ← fieldInv (divisor.getLastD 0)
  let result ← polyDivmodLoop divisor inverseLead (dividend.length + 1)
    (List.replicate (polyDegree dividend - polyDegree divisor + 1) 0) dividend
  return (polyTrim result.1, polyTrim result.2)

/-- `_poly_divmod`. -/
def polyDivmod (dividend divisor : List FieldElement) : Except PyError (List FieldElement × List FieldElement) :=
  polyDivmodTrimmed (polyTrim dividend) (polyTrim divisor)

/-- `_poly_mod`. -/
def polyMod (value modulus : List FieldElement) : Except PyError (List FieldElement) := do
  let result ← polyDivmod value modulus
  return result.2

/-- `_poly_mul_mod`. -/
def polyMulMod (left right modulus : List FieldElement) : Except PyError (List FieldElement) :=
  polyMod (polyMul left right) modulus

/-- The loop of `_poly_gcd`. -/
def polyGcdLoop : ℕ → List FieldElement → List FieldElement → Except PyError (List FieldElement)
  | 0, _, _ => .error .recursionError
  | fuel + 1, left, right =>
    if right = [0] then .ok left
    else do
      let remainder ← polyMod left right
      polyGcdLoop fuel right remainder

/-- `_poly_make_monic`. -/
def polyMakeMonic (polynomial : List FieldElement) : Except PyError (List FieldElement) := do
  let polynomial := polyTrim polynomial
  if polynomial = [0] ∨ polynomial.getLastD 0 = 1 then return polynomial
  let inverseLead ← fieldInv (polynomial.getLastD 0)
  return polyTrim (polynomial.map fun coefficient => fieldMul coefficient inverseLead)

/-- `_poly_gcd`: the degree of the right polynomial falls in every round. -/
def polyGcd (left right : List FieldElement) : Except PyError (List FieldElement) := do
  let last ← polyGcdLoop ((polyTrim right).length + 1) (polyTrim left) (polyTrim right)
  polyMakeMonic last

end Erlay

end TensorPow
