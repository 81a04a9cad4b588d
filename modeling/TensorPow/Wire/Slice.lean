import TensorPow.Wire.Bytes

/-!
# Slices of a byte string

The `w` bytes from `i` on, as a reader at fixed offsets takes them: found again between two strings
(`slice_append`), put before what follows them (`slice_append_drop`), and written again after they
were read as an integer (`le_ofLe_slice`).
-/

namespace Wire

theorem slice_append (front middle rest : Bytes) {i w : ℕ} (hi : front.length = i) (hw : middle.length = w) :
    ((front ++ middle ++ rest).drop i).take w = middle := by
  subst hi hw
  rw [List.append_assoc, List.drop_left, List.take_left]

theorem slice_append_drop (data : Bytes) (i w : ℕ) : (data.drop i).take w ++ data.drop (i + w) = data.drop i := by
  rw [← List.drop_drop, List.take_append_drop]

theorem le_ofLe_slice {data : Bytes} {i w : ℕ} (h : i + w ≤ data.length) :
    le w (ofLe ((data.drop i).take w)) = (data.drop i).take w := by
  have hlen : ((data.drop i).take w).length = w := by
    rw [List.length_take, List.length_drop]
    omega
  have hback := le_ofLe ((data.drop i).take w)
  rw [hlen] at hback
  exact hback

end Wire
