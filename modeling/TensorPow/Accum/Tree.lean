import Mathlib.Algebra.BigOperators.Group.List.Basic
import Mathlib.Algebra.Order.Ring.Abs
import Mathlib.Algebra.Order.Ring.Int
import Mathlib.Tactic.Linarith
import Mathlib.Tactic.Ring

/-!
# Sums put together in any order

A sum of many terms is computed by adding two partial sums again and again, in an order of the
machine's choice, with an accumulator that holds small numbers exactly and may do anything to
large ones.

* `Tree`: an order of summation.
* `Tree.eval`: the sum the accumulator computes.
* `Tree.eval_of_perm`: it is the exact sum of the terms if as many terms of their size fit the
  accumulator, whatever the order and whatever happens on overflow.
-/

namespace Accum

variable {ι : Type}

/-- In which order the terms are added. -/
inductive Tree (ι : Type) where
  | zero
  | term (i : ι)
  | add (left right : Tree ι)

namespace Tree

/-- The terms that are added. -/
def leaves : Tree ι → List ι
  | zero => []
  | term i => [i]
  | add left right => left.leaves ++ right.leaves

/-- The sum, where `fit` is what the accumulator makes of a number. -/
def eval (fit : ℤ → ℤ) (f : ι → ℤ) : Tree ι → ℤ
  | zero => 0
  | term i => fit (f i)
  | add left right => fit (left.eval fit f + right.eval fit f)

/-- From left to right. -/
def ofList : List ι → Tree ι
  | [] => zero
  | [i] => term i
  | i :: j :: l => add (term i) (ofList (j :: l))

theorem leaves_ofList : ∀ l : List ι, (ofList l).leaves = l
  | [] => rfl
  | [_] => rfl
  | i :: j :: l => by
    show [i] ++ (ofList (j :: l)).leaves = _
    rw [leaves_ofList (j :: l)]
    rfl

variable {fit : ℤ → ℤ} {f : ι → ℤ} {bound limit : ℤ}

theorem abs_sum_le : ∀ l : List ι, (∀ i ∈ l, |f i| ≤ bound) → |(l.map f).sum| ≤ l.length * bound := by
  intro l
  induction l with
  | nil =>
    intro _
    simp
  | cons i l ih =>
    intro h
    have hhead := h i List.mem_cons_self
    have htail := ih fun j hj => h j (List.mem_cons_of_mem _ hj)
    have hsum := abs_add_le (f i) (l.map f).sum
    rw [List.map_cons, List.sum_cons, List.length_cons]
    push_cast
    linarith

/-- No partial sum leaves the accumulator's range. -/
theorem eval_eq (hfit : ∀ z, |z| ≤ limit → fit z = z) (hbound : 0 ≤ bound) (t : Tree ι)
    (hf : ∀ i ∈ t.leaves, |f i| ≤ bound) (hsize : t.leaves.length * bound ≤ limit) :
    t.eval fit f = (t.leaves.map f).sum := by
  induction t with
  | zero => rfl
  | term i =>
    have hi := hf i List.mem_cons_self
    have hone : bound ≤ limit := by
      unfold leaves at hsize
      simpa using hsize
    show fit (f i) = _
    rw [hfit _ (hi.trans hone)]
    simp [leaves]
  | add left right ihl ihr =>
    unfold leaves at hf hsize
    rw [List.length_append] at hsize
    push_cast at hsize
    have hl₀ : (0 : ℤ) ≤ left.leaves.length * bound := mul_nonneg (Int.natCast_nonneg _) hbound
    have hr₀ : (0 : ℤ) ≤ right.leaves.length * bound := mul_nonneg (Int.natCast_nonneg _) hbound
    have hl := ihl (fun i hi => hf i (List.mem_append_left _ hi)) (by linarith)
    have hr := ihr (fun i hi => hf i (List.mem_append_right _ hi)) (by linarith)
    have habs := abs_sum_le (left.leaves ++ right.leaves) hf
    rw [List.length_append] at habs
    push_cast at habs
    show fit (left.eval fit f + right.eval fit f) = _
    rw [hl, hr, ← List.sum_append, ← List.map_append, hfit _ (by linarith)]
    rfl

/-- **Every order gives the exact sum**, if as many terms of their size fit the accumulator. -/
theorem eval_of_perm (hfit : ∀ z, |z| ≤ limit → fit z = z) (hbound : 0 ≤ bound) {t : Tree ι} {l : List ι}
    (hperm : t.leaves.Perm l) (hf : ∀ i ∈ l, |f i| ≤ bound) (hsize : l.length * bound ≤ limit) :
    t.eval fit f = (l.map f).sum := by
  rw [eval_eq hfit hbound t (fun i hi => hf i (hperm.mem_iff.1 hi)) (by rwa [hperm.length_eq])]
  exact (hperm.map f).sum_eq

end Tree

end Accum
