import TensorPow.Wire.Reader
import Mathlib.Tactic.Ring

/-!
# Variable-length integers

Seven bits a byte, the least significant first, with a bit that says whether more follow.

* `varintBytes`, `Reader.varint`: writing an integer, and reading it in its shortest form.
* `Reads.varint`: an integer is read back.
* `length_varintBytes_le`: how many bytes it takes.
-/

namespace Wire

/-- The bytes of an integer, `left` of them at most. -/
def varintBytes : ℕ → ℕ → Bytes
  | 0, _ => []
  | left + 1, remaining =>
    let byte := remaining &&& 0x7F
    let remaining := remaining >>> 7
    if remaining ≠ 0 then Fin.ofNat 256 (byte ||| 0x80) :: varintBytes left remaining else [Fin.ofNat 256 byte]

/-- The errors of a reader of integers. -/
structure VarintErrors (ε : Type) where
  truncated : ε
  nonCanonical : ε
  exceeds : ε
  tooLong : ε

variable {ε : Type}

/-- The loop of the reader; `left` of its rounds are still to come. -/
def Reader.varintLoop (e : VarintErrors ε) (maxValue : ℕ) : ℕ → ℕ → ℕ → Reader ε ℕ
  | 0, _, _ => Reader.lift (.error e.tooLong)
  | left + 1, index, value => do
    let byte ← Reader.uint e.truncated 1
    let value := value ||| ((byte &&& 0x7F) <<< (7 * index))
    if byte < 0x80 then
      Reader.lift (do
        Exn.ensure (¬(0 < index ∧ value < 1 <<< (7 * index))) e.nonCanonical
        Exn.ensure (value ≤ maxValue) e.exceeds
        return value)
    else varintLoop e maxValue left (index + 1) value

/-- An integer of at most ten bytes. -/
def Reader.varint (e : VarintErrors ε) (maxValue : ℕ) : Reader ε ℕ := Reader.varintLoop e maxValue 10 0 0

theorem and_127 (n : ℕ) : n &&& 0x7F = n % 128 := Nat.and_two_pow_sub_one_eq_mod n 7

theorem or_128 {n : ℕ} (h : n < 128) : n ||| 0x80 = n + 128 := by
  have hor := Nat.two_pow_add_eq_or_of_lt (i := 7) h 1
  rw [Nat.mul_one] at hor
  rw [Nat.or_comm, Nat.add_comm]
  exact hor.symm

theorem or_shiftLeft {n k x : ℕ} (h : n < 2 ^ k) : n ||| (x <<< k) = n + x * 2 ^ k := by
  rw [Nat.or_comm, ← Nat.shiftLeft_add_eq_or_of_lt h, Nat.shiftLeft_eq, Nat.add_comm]

theorem Reads.byte (e : ε) {n : ℕ} (h : n < 256) : Reads (Reader.uint e 1) n [Fin.ofNat 256 n] :=
  Reads.uint e (w := 1) (by omega)

theorem ofNat_val (a : Byte) : Fin.ofNat 256 a.val = a := Fin.ext (Nat.mod_eq_of_lt a.isLt)

theorem Reads.byte_val (e : ε) (a : Byte) : Reads (Reader.uint e 1) a.val [a] := by
  have hread := Reads.byte e a.isLt
  rw [ofNat_val] at hread
  exact hread

/-- A byte in front of what is read next. -/
theorem Reads.tag (e : ε) (n : ℕ) (h : n < 256) {β : Type} {f : ℕ → Reader ε β} {y : β} {c : Bytes}
    (hf : Reads (f n) y c) : Reads (Reader.uint e 1 >>= f) y (Fin.ofNat 256 n :: c) := (Reads.byte e h).bind hf

/-- An integer is read back from where the loop stands. -/
theorem Reads.varintLoop (e : VarintErrors ε) {maxValue : ℕ} : ∀ {left index value r : ℕ}, value < 2 ^ (7 * index) →
    r < 128 ^ left → 0 < left → (0 < index → 0 < r) → value + r * 2 ^ (7 * index) ≤ maxValue →
    Reads (Reader.varintLoop e maxValue left index value) (value + r * 2 ^ (7 * index)) (varintBytes left r)
  | 0, _, _, _, _, _, h, _, _ => by omega
  | left + 1, index, value, r, hvalue, hr, _, hcanonical, hmax => by
    have hpow : 2 ^ (7 * (index + 1)) = 128 * 2 ^ (7 * index) := by
      rw [Nat.mul_add, pow_add]
      ring
    have hsplit : r % 128 + 128 * (r / 128) = r := Nat.mod_add_div r 128
    have hbyte : r % 128 < 128 := Nat.mod_lt _ (by omega)
    have hshift : r >>> 7 = r / 128 := Nat.shiftRight_eq_div_pow r 7
    unfold Reader.varintLoop varintBytes
    rw [hshift, and_127]
    by_cases hmore : r / 128 ≠ 0
    · -- a byte with the continuation bit
      rw [if_pos hmore, or_128 hbyte]
      refine Reads.tag _ _ (by omega) ?_
      dsimp only
      rw [if_neg (by omega), and_127, Nat.add_mod_right, Nat.mod_mod, or_shiftLeft hvalue]
      have hlow : value + r % 128 * 2 ^ (7 * index) < 2 ^ (7 * (index + 1)) := by
        have hle : r % 128 * 2 ^ (7 * index) ≤ 127 * 2 ^ (7 * index) := Nat.mul_le_mul_right _ (by omega)
        rw [hpow]
        omega
      have htotal : value + r % 128 * 2 ^ (7 * index) + r / 128 * 2 ^ (7 * (index + 1)) =
          value + r * 2 ^ (7 * index) := by
        rw [hpow]
        conv_rhs => rw [← hsplit]
        ring
      have hrest : r / 128 < 128 ^ left := by
        rw [Nat.div_lt_iff_lt_mul (by omega), ← pow_succ]
        exact hr
      have hleft : 0 < left := by
        by_contra hzero
        rw [show left = 0 by omega, pow_zero] at hrest
        omega
      rw [← htotal]
      refine Reads.varintLoop e hlow hrest hleft (fun _ => by omega) ?_
      rw [htotal]
      exact hmax
    · -- the last byte
      rw [not_not] at hmore
      have hsmall : r % 128 = r := by omega
      rw [if_neg (not_not.2 hmore), hsmall]
      refine Reads.tag _ _ (by omega) ?_
      dsimp only
      rw [if_pos (by omega), and_127, hsmall, or_shiftLeft hvalue]
      apply Reads.lift
      -- the last byte is not zero unless it is the only one
      have hcanon : ¬(0 < index ∧ value + r * 2 ^ (7 * index) < 1 <<< (7 * index)) := by
        rintro ⟨hindex, hlt⟩
        rw [Nat.shiftLeft_eq, Nat.one_mul] at hlt
        have hle := Nat.le_mul_of_pos_left (2 ^ (7 * index)) (hcanonical hindex)
        omega
      rw [Exn.ensure_of _ hcanon, Exn.ok_bind, Exn.ensure_of _ hmax]
      rfl

/-- **An integer of 64 bits is read back.** -/
theorem Reads.varint (e : VarintErrors ε) {maxValue n : ℕ} (hle : n ≤ maxValue) (hmax : n < 2 ^ 64) :
    Reads (Reader.varint e maxValue) n (varintBytes 10 n) := by
  have hread : Reads (Reader.varintLoop e maxValue 10 0 0) (0 + n * 2 ^ (7 * 0)) (varintBytes 10 n) :=
    Reads.varintLoop e (by omega) (by omega) (by omega) (by omega) (by omega)
  rw [Nat.mul_zero, pow_zero, Nat.mul_one, Nat.zero_add] at hread
  exact hread

/-- A value below `128 ^ k` takes at most `k` bytes. -/
theorem length_varintBytes_le : ∀ {left k n : ℕ}, n < 128 ^ k → 0 < k → (varintBytes left n).length ≤ k
  | 0, k, n, _, hk => Nat.zero_le _
  | left + 1, k, n, hn, hk => by
    have hshift : n >>> 7 = n / 128 := Nat.shiftRight_eq_div_pow n 7
    unfold varintBytes
    rw [hshift]
    by_cases hmore : n / 128 ≠ 0
    · rw [if_pos hmore, List.length_cons]
      obtain ⟨k, rfl⟩ : ∃ k', k = k' + 1 := ⟨k - 1, by omega⟩
      have hrest : n / 128 < 128 ^ k := by
        rw [Nat.div_lt_iff_lt_mul (by omega), ← pow_succ]
        exact hn
      have hk' : 0 < k := by
        by_contra hzero
        rw [show k = 0 by omega, pow_zero] at hrest
        omega
      have hlen : (varintBytes left (n / 128)).length ≤ k := length_varintBytes_le hrest hk'
      omega
    · rw [if_neg hmore, List.length_singleton]
      exact hk

end Wire
