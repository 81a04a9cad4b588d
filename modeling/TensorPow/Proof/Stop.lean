import TensorPow.Spec.Reject

/-!
# Computations of the node that do not raise

Rules for showing that a computation returns or rejects its input, but lets no exception
through: `Exn.Post x Q Stop.IsReject`.
-/

namespace TensorPow

/-- A stop that is a rejection. -/
def Stop.IsReject (s : Stop) : Prop := ∃ r, s = .reject r

theorem Stop.isReject (r : Reject) : (Stop.reject r).IsReject := ⟨r, rfl⟩

/-- The exceptions that `rejecting` turns into a rejection. -/
def PyError.IsCaught : PyError → Prop
  | .valueError _ => True
  | .typeError _ => True
  | _ => False

variable {α : Type} {Q : α → Prop}

theorem raising_eq {x : Except PyError α} {a : α} (h : x = .ok a) : raising x = .ok a := by
  rw [h]
  rfl

theorem rejecting_eq {r : Reject} {x : Except PyError α} {a : α} (h : x = .ok a) : rejecting r x = .ok a := by
  rw [h]
  rfl

theorem rejectUnless_post {p : Prop} [Decidable p] (r : Reject) :
    Exn.Post (rejectUnless p r) (fun _ => p) Stop.IsReject := Exn.Post.ensure fun _ => Stop.isReject r

theorem rejecting_post {r : Reject} {x : Except PyError α} (h : Exn.Post x Q PyError.IsCaught) :
    Exn.Post (rejecting r x) Q Stop.IsReject := by
  cases x with
  | ok a => exact Exn.Post.ok h
  | error e => cases e <;> first | exact Exn.Post.error (Stop.isReject r) | exact h.elim

/-! ## Which reasons a computation can reject with -/

/-- If the stop is a rejection, its reason satisfies `R`. -/
def Stop.Only (R : Reject → Prop) (s : Stop) : Prop := ∀ r, s = .reject r → R r

section Only

variable {R : Reject → Prop}

theorem raising_only (x : Except PyError α) : Exn.Post (raising x) (fun a => x = .ok a) (Stop.Only R) := by
  cases x with
  | ok a => exact Exn.Post.ok rfl
  | error e => exact fun r hr => by cases hr

theorem rejectUnless_only {p : Prop} [Decidable p] {r : Reject} (hr : R r) :
    Exn.Post (rejectUnless p r) (fun _ => p) (Stop.Only R) :=
  Exn.Post.ensure fun _ r' hr' => by cases hr'; exact hr

theorem rejecting_only {r : Reject} (hr : R r) (x : Except PyError α) :
    Exn.Post (rejecting r x) (fun a => x = .ok a) (Stop.Only R) := by
  cases x with
  | ok a => exact Exn.Post.ok rfl
  | error e => cases e <;> exact fun r' hr' => by cases hr' <;> exact hr

theorem get_only {r : Reject} (hr : R r) (o : Option α) :
    Exn.Post (Exn.get o (.reject r)) (fun a => o = some a) (Stop.Only R) :=
  Exn.Post.get fun _ r' hr' => by cases hr'; exact hr

theorem noneAs_only {r : Reject} (hr : R r) {x : Except Stop α} (h : Exn.Post x Q (Stop.Only R)) :
    Exn.Post (noneAs r x) Q (Stop.Only R) := by
  cases x with
  | ok a => exact h
  | error s =>
    cases s with
    | none => exact fun r' hr' => by cases hr'; exact hr
    | reject r' => exact h
    | raise e => exact h

theorem stop_only (s : Stop) (hs : ∀ r, s ≠ .reject r) : Exn.Post (.error s : Except Stop α) Q (Stop.Only R) :=
  fun r hr => absurd hr (hs r)

end Only

theorem ensure_caught {p : Prop} [Decidable p] (msg : String) :
    Exn.Post (Exn.ensure p (PyError.valueError msg)) (fun _ => p) PyError.IsCaught :=
  Exn.Post.ensure fun _ => trivial

end TensorPow
