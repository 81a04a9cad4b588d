import Mathlib

/-!
# Computations that may stop early

Rules for `Except ε`: inversion of a successful computation, and postconditions.

* `bind_ok`, `pure_ok`, `ensure_ok`: what a successful run tells about its parts.
* `foldlM_inv`: an invariant of a successful loop.
* `Post x Q E`: if `x` returns, its value satisfies `Q`; if it stops, its error
  satisfies `E`. `Post.bind`, `Post.ensure`, `Post.foldlM` follow the syntax.
* `foldlM_congr`, `mapM_congr`: loops whose bodies agree on the items agree.
-/

namespace Exn

variable {ε ε' α β σ : Type}

theorem bind_ok {x : Except ε α} {f : α → Except ε β} {b : β} :
    (x >>= f) = .ok b ↔ ∃ a, x = .ok a ∧ f a = .ok b := by
  cases x with
  | error e => simp [bind, Except.bind]
  | ok a => simp [bind, Except.bind]

@[simp] theorem ok_bind (a : α) (f : α → Except ε β) : ((Except.ok a : Except ε α) >>= f) = f a := rfl

@[simp] theorem error_bind (e : ε) (f : α → Except ε β) :
    ((Except.error e : Except ε α) >>= f) = .error e := rfl

@[simp] theorem pure_ok {a b : α} : ((pure a : Except ε α) = .ok b) ↔ a = b := by
  simp [pure, Except.pure]

/-- Stop with `e` unless the condition holds. -/
def ensure (p : Prop) [Decidable p] (e : ε) : Except ε Unit := if p then .ok () else .error e

@[simp] theorem ensure_ok {p : Prop} [Decidable p] {e : ε} {u : Unit} : ensure p e = .ok u ↔ p := by
  unfold ensure
  split <;> simp_all

theorem ensure_of {p : Prop} [Decidable p] (e : ε) (h : p) : ensure p e = .ok () := if_pos h

theorem ensure_not {p : Prop} [Decidable p] (e : ε) (h : ¬p) : ensure p e = .error e := if_neg h

theorem returns_of_isOk {x : Except ε α} (h : x.isOk = true) : ∃ a, x = .ok a := by
  cases x with
  | ok a => exact ⟨a, rfl⟩
  | error e => cases h

/-- The value of an option, or stop with `e`. -/
def get (o : Option α) (e : ε) : Except ε α := o.elim (.error e) .ok

@[simp] theorem get_ok {o : Option α} {e : ε} {a : α} : get o e = .ok a ↔ o = some a := by
  cases o <;> simp [get]

@[simp] theorem get_some (a : α) (e : ε) : get (some a) e = .ok a := rfl

/-! ## Loops -/

@[simp] theorem foldlM_nil (f : σ → α → Except ε σ) (s : σ) : [].foldlM f s = .ok s := rfl

theorem foldlM_cons_ok {f : σ → α → Except ε σ} {s s' : σ} {a : α} {l : List α} :
    (a :: l).foldlM f s = .ok s' ↔ ∃ s₁, f s a = .ok s₁ ∧ l.foldlM f s₁ = .ok s' := by
  rw [List.foldlM_cons, bind_ok]

theorem foldlM_append_ok {f : σ → α → Except ε σ} {s s' : σ} {l l' : List α} :
    (l ++ l').foldlM f s = .ok s' ↔ ∃ s₁, l.foldlM f s = .ok s₁ ∧ l'.foldlM f s₁ = .ok s' := by
  rw [List.foldlM_append, bind_ok]

/-- An invariant of a successful loop, which may depend on the items done so far. -/
theorem foldlM_inv {f : σ → α → Except ε σ} (P : List α → σ → Prop) {l : List α} {s s' : σ}
    (step : ∀ done a todo t t', l = done ++ a :: todo → P done t → f t a = .ok t' → P (done ++ [a]) t')
    (start : P [] s) (h : l.foldlM f s = .ok s') : P l s' := by
  suffices H : ∀ todo done t, l = done ++ todo → P done t → todo.foldlM f t = .ok s' → P l s' from
    H l [] s rfl start h
  intro todo
  induction todo with
  | nil =>
    intro done t hl hP hf
    rw [foldlM_nil] at hf
    cases hf
    rwa [hl, List.append_nil]
  | cons a todo ih =>
    intro done t hl hP hf
    obtain ⟨t', ht, hf⟩ := foldlM_cons_ok.1 hf
    exact ih (done ++ [a]) t' (by simpa using hl) (step done a todo t t' hl hP ht) hf

/-- A loop whose states are known in advance. -/
theorem foldlM_eq {f : σ → α → Except ε σ} (P : List α → σ) {l : List α}
    (step : ∀ done a todo, l = done ++ a :: todo → f (P done) a = .ok (P (done ++ [a]))) :
    l.foldlM f (P []) = .ok (P l) := by
  suffices H : ∀ todo done, l = done ++ todo → todo.foldlM f (P done) = .ok (P l) from H l [] rfl
  intro todo
  induction todo with
  | nil =>
    intro done hl
    rw [hl, List.append_nil]
    rfl
  | cons a todo ih =>
    intro done hl
    rw [List.foldlM_cons, step done a todo hl]
    exact ih (done ++ [a]) (by simpa using hl)

theorem bind_congr {x x' : Except ε α} {f g : α → Except ε β} (hx : x = x')
    (h : ∀ a, x = .ok a → f a = g a) : (x >>= f) = (x' >>= g) := by
  subst hx
  cases x with
  | error e => rfl
  | ok a => exact h a rfl

/-- Loops whose bodies agree where an invariant holds. -/
theorem foldlM_congr_inv {f g : σ → α → Except ε σ} (P : σ → Prop) {l : List α} {s : σ} (hs : P s)
    (h : ∀ a ∈ l, ∀ s, P s → f s a = g s a ∧ ∀ s', f s a = .ok s' → P s') :
    l.foldlM f s = l.foldlM g s := by
  induction l generalizing s with
  | nil => rfl
  | cons a l ih =>
    obtain ⟨heq, hP⟩ := h a List.mem_cons_self s hs
    rw [List.foldlM_cons, List.foldlM_cons]
    exact bind_congr heq fun s' hs' => ih (hP s' hs') fun b hb => h b (List.mem_cons_of_mem _ hb)

theorem foldlM_congr {f g : σ → α → Except ε σ} {l : List α} (h : ∀ a ∈ l, ∀ s, f s a = g s a) (s : σ) :
    l.foldlM f s = l.foldlM g s := by
  induction l generalizing s with
  | nil => rfl
  | cons a l ih =>
    rw [List.foldlM_cons, List.foldlM_cons, h a List.mem_cons_self]
    congr 1
    funext s'
    exact ih (fun b hb => h b (List.mem_cons_of_mem _ hb)) s'

/-- A loop that collects keys and stops at one it has seen runs to its end on distinct keys. -/
theorem foldlM_fresh {κ : Type} [DecidableEq κ] (key : α → κ) {f : Finset κ → α → Except ε (Finset κ)} {l : List α} {s : Finset κ}
    (hf : ∀ s, ∀ a ∈ l, key a ∉ s → f s a = .ok (insert (key a) s)) (hnodup : (l.map key).Nodup)
    (hfresh : ∀ a ∈ l, key a ∉ s) : ∃ s', l.foldlM f s = .ok s' := by
  induction l generalizing s with
  | nil => exact ⟨s, rfl⟩
  | cons a l ih =>
    rw [List.map_cons, List.nodup_cons] at hnodup
    have hstep := hf s a List.mem_cons_self (hfresh a List.mem_cons_self)
    have hrest : ∀ b ∈ l, key b ∉ insert (key a) s := by
      intro b hb hmem
      rcases Finset.mem_insert.1 hmem with heq | hmem
      · exact hnodup.1 (heq ▸ List.mem_map_of_mem hb)
      · exact hfresh b (List.mem_cons_of_mem _ hb) hmem
    obtain ⟨s', hs'⟩ := ih (fun s b hb => hf s b (List.mem_cons_of_mem _ hb)) hnodup.2 hrest
    exact ⟨s', foldlM_cons_ok.2 ⟨_, hstep, hs'⟩⟩

/-- A loop in a loop is a loop over all the items. -/
theorem foldlM_flatMap {f : α → List β} {g : σ → β → Except ε σ} {l : List α} {s : σ} :
    l.foldlM (fun s a => (f a).foldlM g s) s = (l.flatMap f).foldlM g s := by
  induction l generalizing s with
  | nil => rfl
  | cons a l ih =>
    rw [List.foldlM_cons, List.flatMap_cons, List.foldlM_append]
    exact bind_congr rfl fun s' _ => ih

theorem mapM_congr {f g : α → Except ε β} {l : List α} (h : ∀ a ∈ l, f a = g a) : l.mapM f = l.mapM g := by
  induction l with
  | nil => rfl
  | cons a l ih =>
    rw [List.mapM_cons, List.mapM_cons, h a List.mem_cons_self,
      ih fun b hb => h b (List.mem_cons_of_mem _ hb)]

/-- A `mapM` that succeeds is a `map` of any function giving the same values. -/
theorem mapM_eq_map {f : α → Except ε β} {g : α → β} {l : List α} (h : ∀ a ∈ l, f a = .ok (g a)) :
    l.mapM f = .ok (l.map g) := by
  induction l with
  | nil => rfl
  | cons a l ih =>
    rw [List.mapM_cons, h a List.mem_cons_self, ih fun b hb => h b (List.mem_cons_of_mem _ hb)]
    rfl

theorem mapM_cons_ok {f : α → Except ε β} {a : α} {l : List α} {bs : List β} :
    (a :: l).mapM f = .ok bs ↔ ∃ b bs', f a = .ok b ∧ l.mapM f = .ok bs' ∧ bs = b :: bs' := by
  rw [List.mapM_cons, bind_ok]
  constructor
  · rintro ⟨b, hb, h⟩
    obtain ⟨bs', hbs, h⟩ := bind_ok.1 h
    exact ⟨b, bs', hb, hbs, (pure_ok.1 h).symm⟩
  · rintro ⟨b, bs', hb, hbs, rfl⟩
    exact ⟨b, hb, bind_ok.2 ⟨bs', hbs, rfl⟩⟩

/-- A `mapM` succeeds exactly if every item does. -/
theorem mapM_ok_iff {f : α → Except ε β} {l : List α} {bs : List β} :
    l.mapM f = .ok bs ↔ List.Forall₂ (fun a b => f a = .ok b) l bs := by
  induction l generalizing bs with
  | nil =>
    rw [List.forall₂_nil_left_iff]
    exact ⟨fun h => by cases h; rfl, fun h => by rw [h]; rfl⟩
  | cons a l ih =>
    rw [mapM_cons_ok, List.forall₂_cons_left_iff]
    constructor
    · rintro ⟨b, bs', hb, hbs, rfl⟩
      exact ⟨b, bs', hb, ih.1 hbs, rfl⟩
    · rintro ⟨b, bs', hb, hbs, rfl⟩
      exact ⟨b, bs', hb, ih.2 hbs, rfl⟩

theorem mapM_returns {f : α → Except ε β} {l : List α} (h : ∀ a ∈ l, ∃ b, f a = .ok b) : ∃ bs, l.mapM f = .ok bs := by
  induction l with
  | nil => exact ⟨[], rfl⟩
  | cons a l ih =>
    obtain ⟨b, hb⟩ := h a List.mem_cons_self
    obtain ⟨bs, hbs⟩ := ih fun x hx => h x (List.mem_cons_of_mem _ hx)
    exact ⟨b :: bs, mapM_cons_ok.2 ⟨b, bs, hb, hbs, rfl⟩⟩

/-- Every item of a successful `mapM` has its value in the result, and conversely. -/
theorem mapM_ok_mem {f : α → Except ε β} {l : List α} {bs : List β} (h : l.mapM f = .ok bs) :
    (∀ a ∈ l, ∃ b ∈ bs, f a = .ok b) ∧ ∀ b ∈ bs, ∃ a ∈ l, f a = .ok b := by
  induction l generalizing bs with
  | nil => cases h; simp
  | cons a l ih =>
    obtain ⟨b, bs', hb, hbs, rfl⟩ := mapM_cons_ok.1 h
    obtain ⟨h₁, h₂⟩ := ih hbs
    constructor
    · intro x hx
      rcases List.mem_cons.1 hx with rfl | hx
      · exact ⟨b, List.mem_cons_self, hb⟩
      · obtain ⟨y, hy, hxy⟩ := h₁ x hx
        exact ⟨y, List.mem_cons_of_mem _ hy, hxy⟩
    · intro y hy
      rcases List.mem_cons.1 hy with rfl | hy
      · exact ⟨a, List.mem_cons_self, hb⟩
      · obtain ⟨x, hx, hxy⟩ := h₂ y hy
        exact ⟨x, List.mem_cons_of_mem _ hx, hxy⟩

/-- A successful `mapM` whose values remember their items keeps the items in order. -/
theorem map_mapM_ok {f : α → Except ε β} {g : β → α} (hf : ∀ a b, f a = .ok b → g b = a) {l : List α}
    {bs : List β} (h : l.mapM f = .ok bs) : bs.map g = l := by
  induction l generalizing bs with
  | nil =>
    cases h
    rfl
  | cons a l ih =>
    obtain ⟨b, bs', hb, hbs, rfl⟩ := mapM_cons_ok.1 h
    rw [List.map_cons, hf a b hb, ih hbs]

theorem forM_cons (f : α → Except ε Unit) (a : α) (l : List α) :
    (a :: l).forM f = (f a >>= fun _ => l.forM f) := rfl

theorem forM_ok {f : α → Except ε Unit} {l : List α} {u : Unit} : l.forM f = .ok u ↔ ∀ a ∈ l, f a = .ok () := by
  induction l with
  | nil => exact ⟨fun _ a ha => (by cases ha), fun _ => rfl⟩
  | cons a l ih =>
    rw [forM_cons, bind_ok, List.forall_mem_cons, ← ih]
    exact ⟨fun ⟨⟨⟩, ha, hl⟩ => ⟨ha, hl⟩, fun ⟨ha, hl⟩ => ⟨(), ha, hl⟩⟩

/-- A loop over results that stops at the first error has met none if it succeeds. -/
theorem foldlM_all_ok {f : σ → Except ε' β → Except ε σ} (hf : ∀ s e s', f s (.error e) ≠ .ok s')
    {l : List (Except ε' β)} {s s' : σ} (h : l.foldlM f s = .ok s') : ∃ bs : List β, l = bs.map .ok := by
  induction l generalizing s with
  | nil => exact ⟨[], rfl⟩
  | cons x l ih =>
    obtain ⟨s₁, hs₁, h⟩ := foldlM_cons_ok.1 h
    obtain ⟨bs, rfl⟩ := ih h
    cases x with
    | error e => exact absurd hs₁ (hf s e s₁)
    | ok b => exact ⟨b :: bs, rfl⟩

/-! ## Postconditions -/

/-- If `x` returns, its value satisfies `Q`; if it stops, its error satisfies `E`. -/
def Post (x : Except ε α) (Q : α → Prop) (E : ε → Prop) : Prop :=
  match x with
  | .ok a => Q a
  | .error e => E e

namespace Post

variable {x : Except ε α} {f : α → Except ε β} {P : α → Prop} {Q : β → Prop} {E : ε → Prop}

theorem ok {a : α} (h : P a) : Post (.ok a : Except ε α) P E := h

theorem pure {a : α} (h : P a) : Post (Pure.pure a : Except ε α) P E := h

theorem error {e : ε} (h : E e) : Post (.error e : Except ε α) P E := h

theorem bind (hx : Post x P E) (hf : ∀ a, x = .ok a → P a → Post (f a) Q E) : Post (x >>= f) Q E := by
  cases x with
  | ok a => exact hf a rfl hx
  | error e => exact hx

theorem ensure {p : Prop} [Decidable p] {e : ε} (h : ¬p → E e) :
    Post (Exn.ensure p e) (fun _ => p) E := by
  unfold Exn.ensure
  split
  · assumption
  · exact h ‹_›

theorem get {o : Option α} {e : ε} (h : o = none → E e) : Post (Exn.get o e) (fun a => o = some a) E := by
  cases o with
  | none => exact h rfl
  | some a => rfl

theorem of_ok (h : Post x P E) {a : α} (hx : x = .ok a) : P a := by
  subst hx
  exact h

/-- A computation that cannot stop returns. -/
theorem returns (h : Post x P fun _ => False) : ∃ a, x = .ok a ∧ P a := by
  cases x with
  | ok a => exact ⟨a, rfl, h⟩
  | error e => exact h.elim

theorem mono {P' : α → Prop} {E' : ε → Prop} (h : Post x P E) (hP : ∀ a, P a → P' a)
    (hE : ∀ e, E e → E' e) : Post x P' E' := by
  cases x with
  | ok a => exact hP a h
  | error e => exact hE e h

/-- A loop keeps an invariant that may depend on the items done so far. -/
theorem foldlM {f : σ → α → Except ε σ} (P : List α → σ → Prop) {l : List α} {s : σ}
    (start : P [] s)
    (step : ∀ done a todo t, l = done ++ a :: todo → P done t → Post (f t a) (P (done ++ [a])) E) :
    Post (l.foldlM f s) (P l) E := by
  suffices H : ∀ todo done t, l = done ++ todo → P done t → Post (todo.foldlM f t) (P l) E from
    H l [] s rfl start
  intro todo
  induction todo with
  | nil =>
    intro done t hl hP
    rw [List.append_nil] at hl
    rw [hl]
    exact ok hP
  | cons a todo ih =>
    intro done t hl hP
    rw [List.foldlM_cons]
    exact bind (step done a todo t hl hP) fun t' _ ht => ih (done ++ [a]) t' (by simpa using hl) ht

theorem forM {f : α → Except ε Unit} {l : List α} {R : α → Prop} (h : ∀ a ∈ l, Post (f a) (fun _ => R a) E) :
    Post (l.forM f) (fun _ => ∀ a ∈ l, R a) E := by
  induction l with
  | nil => exact pure fun a ha => by cases ha
  | cons a l ih =>
    rw [forM_cons]
    refine bind (h a List.mem_cons_self) fun _ _ ha => ?_
    refine (ih fun x hx => h x (List.mem_cons_of_mem _ hx)).mono (fun _ hl => ?_) fun _ he => he
    exact List.forall_mem_cons.2 ⟨ha, hl⟩

theorem mapM {f : α → Except ε β} {l : List α} (h : ∀ a ∈ l, Post (f a) Q E) :
    Post (l.mapM f) (fun bs => ∀ b ∈ bs, Q b) E := by
  induction l with
  | nil => exact ok fun b hb => by cases hb
  | cons a l ih =>
    rw [List.mapM_cons]
    refine bind (h a List.mem_cons_self) fun b _ hb => ?_
    refine bind (ih fun x hx => h x (List.mem_cons_of_mem _ hx)) fun bs _ hbs => pure ?_
    intro y hy
    rcases List.mem_cons.1 hy with rfl | hy
    · exact hb
    · exact hbs y hy

end Post

end Exn
