import TensorPow.Wire.Bytes

/-!
# Bytewise exclusive or

`FixedBytes.xor` is the exclusive or of two strings of one length. It is a commutative sum
in which every string is its own inverse: `xor_comm`, `xor_assoc`, `zero_xor`, `xor_self`.
-/

namespace Wire

/-- The exclusive or of two byte strings, as long as the shorter one. -/
def xorBytes (a b : Bytes) : Bytes := List.zipWith (· ^^^ ·) a b

theorem xorBytes_assoc (a b c : Bytes) : xorBytes (xorBytes a b) c = xorBytes a (xorBytes b c) := by
  induction a generalizing b c with
  | nil => rfl
  | cons x xs ih =>
    cases b with
    | nil => rfl
    | cons y ys =>
      cases c with
      | nil => rfl
      | cons z zs =>
        have hhead : (x ^^^ y) ^^^ z = x ^^^ (y ^^^ z) := Fin.xor_assoc (n := 8) rfl x y z
        exact congrArg₂ List.cons hhead (ih ys zs)

theorem zero_xorBytes (a : Bytes) : xorBytes (List.replicate a.length 0) a = a := by
  induction a with
  | nil => rfl
  | cons x xs ih =>
    have hhead : (0 : Byte) ^^^ x = x := by rw [Fin.xor_comm]; exact Fin.xor_zero x
    exact congrArg₂ List.cons hhead ih

namespace FixedBytes

variable {n : ℕ}

/-- The exclusive or of two strings of one length. -/
def xor (a b : FixedBytes n) : FixedBytes n := ⟨xorBytes a.bytes b.bytes, by simp [xorBytes]⟩

theorem xor_comm (a b : FixedBytes n) : a.xor b = b.xor a :=
  bytes_inj.1 (List.zipWith_comm_of_comm Fin.xor_comm)

theorem xor_assoc (a b c : FixedBytes n) : (a.xor b).xor c = a.xor (b.xor c) :=
  bytes_inj.1 (xorBytes_assoc a.bytes b.bytes c.bytes)

theorem zero_xor (a : FixedBytes n) : (zero n).xor a = a := by
  have h := zero_xorBytes a.bytes
  rw [a.len] at h
  exact bytes_inj.1 h

theorem xor_self (a : FixedBytes n) : a.xor a = zero n := by
  apply bytes_inj.1
  show xorBytes a.bytes a.bytes = List.replicate n 0
  rw [xorBytes, List.zipWith_self]
  simp only [Fin.xor_self]
  rw [List.map_const', a.len]

end FixedBytes

end Wire
