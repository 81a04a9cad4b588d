import Mathlib.Data.List.Basic
import Mathlib.Data.List.Induction

/-!
# Spends that conflict

Transactions come in an order, some of them more than once. Each spends outputs, and every output
has one creator. The first time a transaction comes it is applied, unless an output it spends was
spent by an applied one or was created by one that is passed over.

* `resolve`: the transactions that are applied, and those that are passed over.
* `Extends.conflicts`: a conflict stays one.
* `resolve_skips`: whatever is not applied conflicts.
-/

namespace Conflict

variable {T O I : Type}

/-- What transactions spend, and who they are. -/
structure Rules (T O I : Type) where
  spent : T → List O
  ident : T → I
  creator : O → I

/-- The transactions so far that are applied, and those that are passed over. -/
structure Resolution (T : Type) where
  applied : List T
  skipped : List T
deriving DecidableEq

namespace Resolution

variable {R : Rules T O I} {r r' r'' : Resolution T} {x y : T}

/-- The transaction loses to an applied one, or depends on one that is passed over. -/
def Conflicts (R : Rules T O I) (r : Resolution T) (x : T) : Prop :=
  ∃ o ∈ R.spent x, (∃ a ∈ r.applied, o ∈ R.spent a) ∨ ∃ b ∈ r.skipped, R.ident b = R.creator o

instance [DecidableEq O] [DecidableEq I] (R : Rules T O I) (r : Resolution T) (x : T) : Decidable (r.Conflicts R x) :=
  inferInstanceAs (Decidable (∃ o ∈ R.spent x, (∃ a ∈ r.applied, o ∈ R.spent a) ∨ ∃ b ∈ r.skipped, R.ident b = R.creator o))

/-- A later resolution. -/
structure Extends (r r' : Resolution T) : Prop where
  applied : ∀ x ∈ r.applied, x ∈ r'.applied
  skipped : ∀ x ∈ r.skipped, x ∈ r'.skipped

theorem Extends.refl (r : Resolution T) : r.Extends r := ⟨fun _ h => h, fun _ h => h⟩

theorem Extends.trans (h : r.Extends r') (h' : r'.Extends r'') : r.Extends r'' :=
  ⟨fun x hx => h'.applied x (h.applied x hx), fun x hx => h'.skipped x (h.skipped x hx)⟩

/-- A conflict stays one. -/
theorem Extends.conflicts (h : r.Extends r') (hx : r.Conflicts R x) : r'.Conflicts R x := by
  obtain ⟨o, ho, ⟨a, ha, hoa⟩ | ⟨b, hb, hid⟩⟩ := hx
  · exact ⟨o, ho, Or.inl ⟨a, h.applied a ha, hoa⟩⟩
  · exact ⟨o, ho, Or.inr ⟨b, h.skipped b hb, hid⟩⟩

variable [DecidableEq T] [DecidableEq O] [DecidableEq I]

/-- One transaction. -/
def step (R : Rules T O I) (r : Resolution T) (x : T) : Resolution T :=
  if x ∈ r.applied then r
  else if r.Conflicts R x then { r with skipped := r.skipped ++ [x] }
  else { r with applied := r.applied ++ [x] }

theorem step_applied (hx : x ∈ r.applied) : r.step R x = r := if_pos hx

theorem step_conflicts (hx : x ∉ r.applied) (hc : r.Conflicts R x) :
    r.step R x = { r with skipped := r.skipped ++ [x] } := by
  rw [step, if_neg hx, if_pos hc]

theorem step_apply (hx : x ∉ r.applied) (hc : ¬r.Conflicts R x) :
    r.step R x = { r with applied := r.applied ++ [x] } := by
  rw [step, if_neg hx, if_neg hc]

theorem extends_step (R : Rules T O I) (r : Resolution T) (x : T) : r.Extends (r.step R x) := by
  unfold step
  split
  · exact Extends.refl r
  · split
    · exact ⟨fun _ h => h, fun _ h => List.mem_append_left _ h⟩
    · exact ⟨fun _ h => List.mem_append_left _ h, fun _ h => h⟩

end Resolution

open Resolution

variable [DecidableEq T] [DecidableEq O] [DecidableEq I] {R : Rules T O I} {l : List T} {x : T}

/-- The transactions in the order they come. -/
def resolve (R : Rules T O I) (l : List T) : Resolution T := l.foldl (Resolution.step R) ⟨[], []⟩

theorem resolve_snoc (R : Rules T O I) (l : List T) (x : T) : resolve R (l ++ [x]) = (resolve R l).step R x := by
  rw [resolve, List.foldl_append]
  rfl

theorem extends_append (R : Rules T O I) (l m : List T) : (resolve R l).Extends (resolve R (l ++ m)) := by
  induction m using List.reverseRecOn with
  | nil =>
    rw [List.append_nil]
    exact Extends.refl _
  | append_singleton m x ih =>
    rw [← List.append_assoc, resolve_snoc]
    exact ih.trans (extends_step R _ x)

/-- A resolution puts each transaction of the list in one of its two lists. -/
structure Resolves (R : Rules T O I) (l : List T) (r : Resolution T) : Prop where
  mem_iff : ∀ x, x ∈ l ↔ x ∈ r.applied ∨ x ∈ r.skipped
  conflicts : ∀ x ∈ r.skipped, r.Conflicts R x
  disjoint : ∀ x ∈ r.skipped, x ∉ r.applied

theorem resolves (R : Rules T O I) (l : List T) : Resolves R l (resolve R l) := by
  induction l using List.reverseRecOn with
  | nil => exact ⟨fun x => (by simp [resolve]), fun x hx => (by cases hx), fun x hx => (by cases hx)⟩
  | append_singleton l y ih =>
    have hext := extends_step R (resolve R l) y
    have hold : ∀ x ∈ (resolve R l).skipped, ((resolve R l).step R y).Conflicts R x :=
      fun x hx => hext.conflicts (ih.conflicts x hx)
    rw [resolve_snoc]
    by_cases hy : y ∈ (resolve R l).applied
    · rw [step_applied hy] at hold ⊢
      refine ⟨fun x => ?_, hold, ih.disjoint⟩
      rw [← ih.mem_iff, List.mem_append, List.mem_singleton, or_iff_left_iff_imp]
      rintro rfl
      exact (ih.mem_iff x).2 (Or.inl hy)
    · by_cases hc : (resolve R l).Conflicts R y
      · have hyc := hext.conflicts hc
        rw [step_conflicts hy hc] at hold hyc ⊢
        refine ⟨fun x => ?_, fun x hx => ?_, fun x hx => ?_⟩
        · simp only [List.mem_append, List.mem_singleton, ih.mem_iff]
          tauto
        · rcases List.mem_append.1 hx with hx | hx
          · exact hold x hx
          · rw [List.mem_singleton.1 hx]
            exact hyc
        · rcases List.mem_append.1 hx with hx | hx
          · exact ih.disjoint x hx
          · rw [List.mem_singleton.1 hx]
            exact hy
      · rw [step_apply hy hc] at hold ⊢
        refine ⟨fun x => ?_, hold, fun x hx hmem => ?_⟩
        · simp only [List.mem_append, List.mem_singleton, ih.mem_iff]
          tauto
        · -- one that was passed over conflicts, so it is not applied now either
          rcases List.mem_append.1 hmem with hmem | hmem
          · exact ih.disjoint x hx hmem
          · rw [List.mem_singleton.1 hmem] at hx
            exact hc (ih.conflicts y hx)

/-- **Whatever is not applied conflicts**: it has an output that a different, applied transaction
spends, or whose creator is a transaction of the list that is not applied. -/
theorem resolve_skips (hx : x ∈ l) (hnot : x ∉ (resolve R l).applied) :
    ∃ o ∈ R.spent x, (∃ a ∈ (resolve R l).applied, a ≠ x ∧ o ∈ R.spent a) ∨
      ∃ b ∈ l, R.ident b = R.creator o ∧ b ∉ (resolve R l).applied := by
  have hr := resolves R l
  obtain ⟨o, ho, ⟨a, ha, hoa⟩ | ⟨b, hb, hid⟩⟩ := hr.conflicts x (((hr.mem_iff x).1 hx).resolve_left hnot)
  · refine ⟨o, ho, Or.inl ⟨a, ha, ?_, hoa⟩⟩
    rintro rfl
    exact hnot ha
  · exact ⟨o, ho, Or.inr ⟨b, (hr.mem_iff b).2 (Or.inr hb), hid, hr.disjoint b hb⟩⟩

end Conflict
