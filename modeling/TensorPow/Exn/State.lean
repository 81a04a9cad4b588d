import Mathlib

/-!
# Computations that may stop and keep their state

`Stateful ε σ α`: the state a computation has reached stays when it stops with an error.

* `Keeps P m a`: from a state in `P` the computation `m` returns `a` and stays in `P`; the
  rules follow the syntax of `m`.
* `Preserves P m`: from a state in `P` the computation `m` stays in `P`, even if it stops.
-/

namespace Exn

variable {ε σ τ α β : Type}

/-- A computation that may stop, over a state that stays. -/
abbrev Stateful (ε σ α : Type) := ExceptT ε (StateM σ) α

namespace Stateful

/-- The result and the state after it. -/
def runOn (m : Stateful ε σ α) (s : σ) : Except ε α × σ := StateT.run (ExceptT.run m) s

/-- A computation that neither reads nor changes the state. -/
def lift (x : Except ε α) : Stateful ε σ α := ExceptT.mk (pure x)

/-- A computation over a part of the state. -/
def zoom (part : σ → τ) (update : σ → τ → σ) (m : Stateful ε τ α) : Stateful ε σ α :=
  ExceptT.mk fun s => ((m.runOn (part s)).1, update s (m.runOn (part s)).2)

@[simp] theorem runOn_pure (a : α) (s : σ) : (pure a : Stateful ε σ α).runOn s = (.ok a, s) := rfl

@[simp] theorem runOn_lift (x : Except ε α) (s : σ) : (lift x : Stateful ε σ α).runOn s = (x, s) := rfl

@[simp] theorem runOn_get (s : σ) : (MonadState.get : Stateful ε σ σ).runOn s = (.ok s, s) := rfl

@[simp] theorem runOn_set (s t : σ) : (set t : Stateful ε σ PUnit).runOn s = (.ok ⟨⟩, t) := rfl

@[simp] theorem runOn_modify (f : σ → σ) (s : σ) : (modify f : Stateful ε σ PUnit).runOn s = (.ok ⟨⟩, f s) := rfl

@[simp] theorem runOn_zoom (part : σ → τ) (update : σ → τ → σ) (m : Stateful ε τ α) (s : σ) :
    (zoom part update m).runOn s = ((m.runOn (part s)).1, update s (m.runOn (part s)).2) := rfl

theorem runOn_bind (m : Stateful ε σ α) (f : α → Stateful ε σ β) (s : σ) :
    (m >>= f).runOn s = match m.runOn s with
      | (.ok a, s') => (f a).runOn s'
      | (.error e, s') => (.error e, s') := by
  unfold runOn
  simp only [ExceptT.run_bind, StateT.run_bind]
  show (match ((ExceptT.run m).run s : Except ε α × σ) with | (x, s') => _) = _
  rcases h : ((ExceptT.run m).run s : Except ε α × σ) with ⟨x, s'⟩
  cases x <;> rfl

end Stateful

/-- From a state in `P` the computation returns `a` and stays in `P`. -/
def Keeps (P : σ → Prop) (m : Stateful ε σ α) (a : α) : Prop := ∀ s, P s → ∃ s', m.runOn s = (.ok a, s') ∧ P s'

namespace Keeps

variable {P : σ → Prop} {m : Stateful ε σ α} {f : α → Stateful ε σ β} {a : α} {b : β}

theorem pure (a : α) : Keeps P (Pure.pure a : Stateful ε σ α) a := fun s hs => ⟨s, rfl, hs⟩

theorem lift {x : Except ε α} (h : x = .ok a) : Keeps P (Stateful.lift x) a := fun s hs => ⟨s, by rw [h]; rfl, hs⟩

theorem bind (hm : Keeps P m a) (hf : Keeps P (f a) b) : Keeps P (m >>= f) b := by
  intro s hs
  obtain ⟨s', hm', hs'⟩ := hm s hs
  obtain ⟨s'', hf', hs''⟩ := hf s' hs'
  refine ⟨s'', ?_, hs''⟩
  rw [Stateful.runOn_bind, hm']
  exact hf'

/-- The result may depend on the state that is read. -/
theorem get_bind {f : σ → Stateful ε σ β} (h : ∀ s, P s → ∃ s', (f s).runOn s = (.ok b, s') ∧ P s') :
    Keeps P (MonadState.get >>= f) b := by
  intro s hs
  rw [Stateful.runOn_bind]
  exact h s hs

theorem zoom {Q : τ → Prop} {part : σ → τ} {update : σ → τ → σ} {m : Stateful ε τ α} (hm : Keeps Q m a)
    (hpart : ∀ s, P s → Q (part s)) (hupdate : ∀ s t, P s → Q t → P (update s t)) :
    Keeps P (Stateful.zoom part update m) a := by
  intro s hs
  obtain ⟨t, hm', ht⟩ := hm (part s) (hpart s hs)
  refine ⟨update s t, ?_, hupdate s t hs ht⟩
  rw [Stateful.runOn_zoom, hm']

theorem mapM {f : α → Stateful ε σ β} {g : α → β} {l : List α} (h : ∀ x ∈ l, Keeps P (f x) (g x)) :
    Keeps P (l.mapM f) (l.map g) := by
  induction l with
  | nil => exact Keeps.pure []
  | cons x l ih =>
    rw [List.mapM_cons, List.map_cons]
    refine (h x List.mem_cons_self).bind ((ih fun y hy => h y (List.mem_cons_of_mem _ hy)).bind ?_)
    exact Keeps.pure _

end Keeps

/-- From a state in `P` the computation stays in `P`, even if it stops. -/
def Preserves (P : σ → Prop) (m : Stateful ε σ α) : Prop := ∀ s, P s → P (m.runOn s).2

namespace Preserves

variable {P : σ → Prop} {m : Stateful ε σ α} {f : α → Stateful ε σ β} {a : α}

theorem of_keeps (hm : Keeps P m a) : Preserves P m := by
  intro s hs
  obtain ⟨s', hrun, hs'⟩ := hm s hs
  rw [hrun]
  exact hs'

theorem lift (x : Except ε α) : Preserves P (Stateful.lift x) := fun _ hs => hs

theorem keeps_bind (hm : Keeps P m a) (hf : Preserves P (f a)) : Preserves P (m >>= f) := by
  intro s hs
  obtain ⟨s', hrun, hs'⟩ := hm s hs
  rw [Stateful.runOn_bind, hrun]
  exact hf s' hs'

theorem lift_bind {x : Except ε α} (h : ∀ a, x = .ok a → Preserves P (f a)) : Preserves P (Stateful.lift x >>= f) := by
  intro s hs
  rw [Stateful.runOn_bind, Stateful.runOn_lift]
  cases hx : x with
  | error e => exact hs
  | ok a => exact h a hx s hs

theorem get_bind {f : σ → Stateful ε σ β} (h : ∀ s, P s → Preserves P (f s)) : Preserves P (MonadState.get >>= f) := by
  intro s hs
  rw [Stateful.runOn_bind]
  exact h s hs s hs

/-- Only the result is thrown away. -/
theorem discard (hm : Preserves P m) : Preserves P (m >>= fun _ => Pure.pure ()) := by
  intro s hs
  have hs' := hm s hs
  rw [Stateful.runOn_bind]
  rcases hrun : m.runOn s with ⟨x, s'⟩
  rw [hrun] at hs'
  cases x <;> exact hs'

end Preserves

end Exn
