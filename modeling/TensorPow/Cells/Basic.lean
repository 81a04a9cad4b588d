import Mathlib

/-!
# Cells that tile a space

A finite set of cells tiles a space if every point lies in exactly one of them.

* `Tiles.swap`: cells may be replaced by other cells that cover the same points once.
* `swap_swap`: replacing them back gives the first tiling again.
* `swap_after`, `not_subset_after`: after some replacements, other cells can still be replaced
  exactly if none of them is gone.
-/

namespace Cells

variable {P I : Type} {m : P → I → Prop} {S A B : Finset I}

/-- Every point lies in exactly one cell. -/
def Tiles (m : P → I → Prop) (S : Finset I) : Prop := ∀ p, ∃! i, i ∈ S ∧ m p i

theorem Tiles.eq (h : Tiles m S) {p : P} {i j : I} (hi : i ∈ S) (hpi : m p i) (hj : j ∈ S) (hpj : m p j) : i = j :=
  (h p).unique ⟨hi, hpi⟩ ⟨hj, hpj⟩

/-- The cells `B` cover what the cells `A` cover, each point once. -/
structure Refits (m : P → I → Prop) (A B : Finset I) : Prop where
  covers : ∀ p, (∃ a ∈ A, m p a) ↔ ∃ b ∈ B, m p b
  once : ∀ p, ∀ b ∈ B, ∀ b' ∈ B, m p b → m p b' → b = b'

variable [DecidableEq I]

/-- **Cells can be replaced** by cells that cover the same points. -/
theorem Tiles.swap (h : Tiles m S) (hA : A ⊆ S) (hB : Refits m A B) : Tiles m ((S \ A) ∪ B) := by
  intro p
  obtain ⟨i, ⟨hi, hpi⟩, -⟩ := h p
  by_cases hiA : i ∈ A
  · -- the point was in a cell that is replaced
    obtain ⟨b, hb, hpb⟩ := (hB.covers p).1 ⟨i, hiA, hpi⟩
    refine ⟨b, ⟨Finset.mem_union_right _ hb, hpb⟩, fun j ⟨hj, hpj⟩ => ?_⟩
    rcases Finset.mem_union.1 hj with hj | hj
    · obtain ⟨hjS, hjA⟩ := Finset.mem_sdiff.1 hj
      rw [h.eq hjS hpj hi hpi] at hjA
      exact absurd hiA hjA
    · exact hB.once p j hj b hb hpj hpb
  · refine ⟨i, ⟨Finset.mem_union_left _ (Finset.mem_sdiff.2 ⟨hi, hiA⟩), hpi⟩, fun j ⟨hj, hpj⟩ => ?_⟩
    rcases Finset.mem_union.1 hj with hj | hj
    · exact h.eq (Finset.mem_sdiff.1 hj).1 hpj hi hpi
    · obtain ⟨a, ha, hpa⟩ := (hB.covers p).2 ⟨j, hj, hpj⟩
      rw [h.eq (hA ha) hpa hi hpi] at ha
      exact absurd ha hiA

/-- A cell that is not replaced is not among the new ones, unless it is empty. -/
theorem Tiles.disjoint_swap (h : Tiles m S) (hA : A ⊆ S) (hB : Refits m A B) (hne : ∀ b ∈ B, ∃ p, m p b) :
    Disjoint (S \ A) B := by
  rw [Finset.disjoint_left]
  intro i hi hiB
  obtain ⟨hiS, hiA⟩ := Finset.mem_sdiff.1 hi
  obtain ⟨p, hp⟩ := hne i hiB
  obtain ⟨a, ha, hpa⟩ := (hB.covers p).2 ⟨i, hiB, hp⟩
  rw [h.eq (hA ha) hpa hiS hp] at ha
  exact hiA ha

/-- Replacing the cells back undoes the replacement. -/
theorem Tiles.swap_swap (h : Tiles m S) (hA : A ⊆ S) (hB : Refits m A B) (hne : ∀ b ∈ B, ∃ p, m p b) :
    (((S \ A) ∪ B) \ B) ∪ A = S := by
  have hdisj := h.disjoint_swap hA hB hne
  rw [Finset.union_sdiff_cancel_right hdisj]
  exact Finset.sdiff_union_of_subset hA

/-- A point outside the replaced cells stays where it is; a point in one of them goes to a
new one. -/
theorem Tiles.swap_cell (h : Tiles m S) (hA : A ⊆ S) (hB : Refits m A B) {p : P} {i j : I} (hi : i ∈ S)
    (hpi : m p i) (hj : j ∈ (S \ A) ∪ B) (hpj : m p j) : (i ∉ A → j = i) ∧ (i ∈ A → j ∈ B) := by
  have hnew := h.swap hA hB
  constructor
  · intro hiA
    exact hnew.eq hj hpj (Finset.mem_union_left _ (Finset.mem_sdiff.2 ⟨hi, hiA⟩)) hpi
  · intro hiA
    obtain ⟨b, hb, hpb⟩ := (hB.covers p).1 ⟨i, hiA, hpi⟩
    rw [hnew.eq hj hpj (Finset.mem_union_right _ hb) hpb]
    exact hb

section After

variable {R N : Finset I}

/-- Cells that are still there can be replaced after others. -/
theorem swap_after (hN : Disjoint N S) (hA : A ⊆ S) (hR : Disjoint A R) :
    A ⊆ (S \ R) ∪ N ∧ (((S \ R) ∪ N) \ A) ∪ B = (S \ (R ∪ A)) ∪ (N ∪ B) := by
  rw [Finset.disjoint_left] at hN hR
  refine ⟨fun i hi => Finset.mem_union_left _ (Finset.mem_sdiff.2 ⟨hA hi, hR hi⟩), ?_⟩
  ext i
  have hNA : i ∈ N → i ∉ A := fun hi hiA => hN hi (hA hiA)
  simp only [Finset.mem_union, Finset.mem_sdiff]
  tauto

/-- Cells of which one is gone are not all there. -/
theorem not_subset_after (hN : Disjoint N S) (hA : A ⊆ S) (hR : ¬Disjoint A R) : ¬A ⊆ (S \ R) ∪ N := by
  intro hsub
  obtain ⟨i, hiA, hiR⟩ := Finset.not_disjoint_iff.1 hR
  rcases Finset.mem_union.1 (hsub hiA) with hi | hi
  · exact (Finset.mem_sdiff.1 hi).2 hiR
  · exact Finset.disjoint_left.1 hN hi (hA hiA)

end After

end Cells
