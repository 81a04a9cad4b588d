import Mathlib

/-!
# Lists cut into slices

A list read through `List.getD` with a fill value, in slices of one size: `flatMap_slices` puts
the slices together again, `map_range_getD` writes a slice out, and `flatMap_range_mul`,
`getD_grid` do the same for a grid that is stored row by row.
-/

namespace Coder

variable {α : Type}

theorem flatMap_slices (x : List α) (size count : ℕ) :
    ((List.range count).flatMap fun i => (x.drop (i * size)).take size) = x.take (count * size) := by
  induction count with
  | zero => simp
  | succ count ih =>
    rw [List.range_succ, List.flatMap_append, ih, List.flatMap_singleton, Nat.succ_mul, ← List.take_add]

/-- A slice of blocks of one size is a block. -/
theorem slice_flatMap {β : Type} (f : β → List α) {size : ℕ} (hsize : ∀ b, (f b).length = size) (l : List β) :
    ∀ {i : ℕ} (hi : i < l.length), ((l.flatMap f).drop (i * size)).take size = f l[i] := by
  induction l with
  | nil =>
    intro i hi
    exact absurd hi (Nat.not_lt_zero i)
  | cons b l ih =>
    intro i hi
    rw [List.flatMap_cons]
    cases i with
    | zero => rw [Nat.zero_mul, List.drop_zero, List.getElem_cons_zero, List.take_left' (hsize b)]
    | succ i =>
      have hstart : (i + 1) * size = (f b).length + i * size := by rw [hsize, Nat.succ_mul, Nat.add_comm]
      rw [hstart, List.drop_length_add_append, List.getElem_cons_succ]
      exact ih (Nat.lt_of_succ_lt_succ hi)

theorem getD_slice (x : List α) {size offset : ℕ} (start : ℕ) (fill : α) (h : offset < size) :
    ((x.drop start).take size).getD offset fill = x.getD (start + offset) fill := by
  rw [List.getD_eq_getElem?_getD, List.getD_eq_getElem?_getD, List.getElem?_take_of_lt h, List.getElem?_drop]

theorem map_range_getD (x : List α) {start size : ℕ} (fill : α) (h : start + size ≤ x.length) :
    ((List.range size).map fun i => x.getD (start + i) fill) = (x.drop start).take size := by
  apply List.ext_getElem
  · simp only [List.length_map, List.length_range, List.length_take, List.length_drop]
    omega
  · intro i hi _
    have hlt : i < size := by simpa using hi
    have hin : start + i < x.length := by omega
    simp [List.getElem?_eq_getElem hin]

/-- A whole list, written out. -/
theorem map_range_getD_self (x : List α) (fill : α) : ((List.range x.length).map fun i => x.getD i fill) = x := by
  have hwhole : ((List.range x.length).map fun i => x.getD (0 + i) fill) = (x.drop 0).take x.length :=
    map_range_getD x fill (by omega)
  simpa using hwhole

theorem getD_map_range (f : ℕ → α) {n i : ℕ} (fill : α) (h : i < n) : ((List.range n).map f).getD i fill = f i := by
  simp [h]

/-- The places of a grid, row by row. -/
theorem flatMap_range_mul (f : ℕ → α) (m n : ℕ) :
    ((List.range m).flatMap fun i => (List.range n).map fun j => f (i * n + j)) = (List.range (m * n)).map f := by
  induction m with
  | zero => simp
  | succ m ih =>
    rw [List.range_succ, List.flatMap_append, ih, List.flatMap_singleton, Nat.succ_mul, List.range_add, List.map_append,
      List.map_map]
    rfl

theorem length_grid (f : ℕ → ℕ → α) (m n : ℕ) :
    ((List.range m).flatMap fun i => (List.range n).map (f i)).length = m * n := by
  induction m with
  | zero => simp
  | succ m ih => rw [List.range_succ, List.flatMap_append, List.length_append, ih, Nat.succ_mul]; simp

theorem getD_grid (f : ℕ → ℕ → α) {m n i j : ℕ} (fill : α) (hi : i < m) (hj : j < n) :
    ((List.range m).flatMap fun i => (List.range n).map (f i)).getD (i * n + j) fill = f i j := by
  induction m with
  | zero => omega
  | succ m ih =>
    have hlength := length_grid f m n
    rw [List.range_succ, List.flatMap_append, List.flatMap_singleton]
    by_cases hlast : i < m
    · have hbefore : i * n + j < m * n := by
        have hrow : (i + 1) * n ≤ m * n := Nat.mul_le_mul_right n hlast
        rw [Nat.succ_mul] at hrow
        omega
      rw [List.getD_append _ _ _ _ (by rw [hlength]; exact hbefore)]
      exact ih hlast
    · obtain rfl : i = m := by omega
      rw [List.getD_append_right _ _ _ _ (by rw [hlength]; omega), hlength, Nat.add_sub_cancel_left]
      exact getD_map_range (f i) fill hj

end Coder
