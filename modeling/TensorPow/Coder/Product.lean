import TensorPow.Coder.Slices

/-!
# Product codes

A square of symbols is extended by a linear code along its rows, and the result along its
columns. The rows that only the columns have written are codewords too: both ways round an
entry is the same double sum.

* `product_comm`: the two extensions commute.
* `LinearEncoder`: an encoder of lists that is linear after a change of alphabet.
* `LinearEncoder.row_codeword`: every row of the extended square is a codeword.
-/

namespace Coder

section Linear

variable {F ι κ : Type} [CommSemiring F] [Fintype ι] [DecidableEq ι]

theorem linear_apply (φ : (ι → F) →ₗ[F] (κ → F)) (v : ι → F) (i : κ) :
    φ v i = ∑ a, v a * φ (fun b => if a = b then 1 else 0) i := by
  conv_lhs => rw [LinearMap.pi_apply_eq_sum_univ φ v]
  simp

/-- **Extending the rows and then the columns is extending the columns and then the rows.** -/
theorem product_comm (φ : (ι → F) →ₗ[F] (κ → F)) (D : ι → ι → F) (i j : κ) :
    φ (fun a => φ (D a) j) i = φ (fun b => φ (fun a => D a b) i) j := by
  set c : ι → κ → F := fun a => φ fun b => if a = b then 1 else 0 with hc
  have happly : ∀ (v : ι → F) (k : κ), φ v k = ∑ a, v a * c a k := linear_apply φ
  calc φ (fun a => φ (D a) j) i
      = ∑ a, (∑ b, D a b * c b j) * c a i := by simp only [happly]
    _ = ∑ a, ∑ b, D a b * c b j * c a i := by simp only [Finset.sum_mul]
    _ = ∑ b, ∑ a, D a b * c b j * c a i := Finset.sum_comm
    _ = ∑ b, ∑ a, D a b * c a i * c b j := by simp only [mul_right_comm]
    _ = ∑ b, (∑ a, D a b * c a i) * c b j := by simp only [Finset.sum_mul]
    _ = φ (fun b => φ (fun a => D a b) i) j := by simp only [happly]

end Linear

/-- An encoder of `k` symbols as `n`, linear over `F` when symbols are read through `sym`. -/
structure LinearEncoder {α : Type} (F : Type) [CommSemiring F] (sym : α ≃ F) (fill : α) (k n : ℕ)
    (enc : List α → List α) : Prop where
  length_enc : ∀ s : List α, s.length = k → (enc s).length = n
  linear : ∃ φ : (Fin k → F) →ₗ[F] (Fin n → F), ∀ s : List α, s.length = k →
    ∀ i : Fin n, sym ((enc s).getD i fill) = φ (fun a => sym (s.getD a fill)) i

/-- **Rows written by columns are codewords.** -/
theorem LinearEncoder.row_codeword {α F : Type} [CommSemiring F] {sym : α ≃ F} {fill : α} {k n : ℕ}
    {enc : List α → List α} (h : LinearEncoder F sym fill k n enc) {rows : ℕ → List α} (hrows : ∀ a < k, (rows a).length = k)
    {i : ℕ} (hi : i < n) :
    ∃ s : List α, s.length = k ∧
      ((List.range n).map fun j => (enc ((List.range k).map fun a => (enc (rows a)).getD j fill)).getD i fill) = enc s := by
  obtain ⟨φ, hφ⟩ := h.linear
  -- the data of the row: the symbols of the columns of the square, extended to this row
  set s : List α := (List.range k).map fun b => (enc ((List.range k).map fun a => (rows a).getD b fill)).getD i fill with hs
  have hlength : s.length = k := by simp [hs]
  refine ⟨s, hlength, ?_⟩
  apply List.ext_getElem
  · rw [List.length_map, List.length_range, h.length_enc s hlength]
  · intro j hj hj'
    have hjn : j < n := by simpa using hj
    have hentry : ∀ {f : ℕ → α} {a : ℕ}, a < k → ((List.range k).map f).getD a fill = f a :=
      fun ha => getD_map_range _ fill ha
    rw [← List.getD_eq_getElem (enc s) fill hj', List.getElem_map, List.getElem_range]
    apply sym.injective
    rw [hφ _ (by simp) ⟨i, hi⟩, hφ s hlength ⟨j, hjn⟩]
    have hleft : (fun a : Fin k => sym (((List.range k).map fun a => (enc (rows a)).getD j fill).getD a fill)) =
        fun a : Fin k => φ (fun b : Fin k => sym ((rows a).getD b fill)) ⟨j, hjn⟩ := by
      funext a
      rw [hentry a.isLt]
      exact hφ _ (hrows a a.isLt) ⟨j, hjn⟩
    have hright : (fun b : Fin k => sym (s.getD b fill)) =
        fun b : Fin k => φ (fun a : Fin k => sym ((rows a).getD b fill)) ⟨i, hi⟩ := by
      funext b
      rw [hs, hentry b.isLt, hφ _ (by simp) ⟨i, hi⟩]
      refine congrArg (fun v => φ v ⟨i, hi⟩) (funext fun a => ?_)
      rw [hentry a.isLt]
    rw [hleft, hright]
    exact product_comm φ (fun a b : Fin k => sym ((rows a).getD b fill)) ⟨i, hi⟩ ⟨j, hjn⟩

end Coder
