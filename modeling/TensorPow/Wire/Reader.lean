import TensorPow.Exn.Basic
import TensorPow.Wire.Bytes

/-!
# Readers

A reader consumes bytes from the front of its input and may fail.

* `take`, `uint`, `replicate`, `finish`: the primitives of a length-checked reader.
* `Reads p x b`: reading the encoding `b` of `x` returns `x` and leaves the rest.
  `Reads.bind`, `Reads.take`, `Reads.uint`, `Reads.replicate` follow the syntax of `p`;
  `Reads.run_bind` starts a reader that is run to its end.
* `FailsIn E p`: whatever the input, `p` fails only with errors in `E`; the same rules.
* `bind_ok`, `take_ok`, `uint_ok`, `replicate_ok`, `finish_ok`: what a reader that returned has
  read.
-/

namespace Wire

variable {ε α β : Type}

/-- A reader of byte strings. -/
abbrev Reader (ε α : Type) := StateT Bytes (Except ε) α

namespace Reader

/-- The next `n` bytes; stop with `e` when there are fewer. -/
def take (e : ε) (n : ℕ) : Reader ε Bytes := fun b =>
  if n ≤ b.length then .ok (b.take n, b.drop n) else .error e

/-- The next `n` bytes as a string of exactly `n` bytes. -/
def fixed (e : ε) (n : ℕ) : Reader ε (FixedBytes n) := fun b =>
  if h : n ≤ b.length then .ok (⟨b.take n, List.length_take_of_le h⟩, b.drop n) else .error e

/-- A `w`-byte little-endian integer. -/
def uint (e : ε) (w : ℕ) : Reader ε ℕ := do return ofLe (← take e w)

/-- `n` items, one after another. -/
def replicate (p : Reader ε α) : ℕ → Reader ε (List α)
  | 0 => pure []
  | n + 1 => do
    let a ← p
    let as ← replicate p n
    return a :: as

/-- Stop with `e` unless the input is used up. -/
def finish (e : ε) : Reader ε Unit := fun b => if b = [] then .ok ((), []) else .error e

/-- All bytes that are left. -/
def rest : Reader ε Bytes := fun b => .ok (b, [])

/-- A computation that reads nothing. -/
def lift (x : Except ε α) : Reader ε α := fun b => x.map fun a => (a, b)

/-- Read a whole byte string. -/
def parse (p : Reader ε α) (b : Bytes) : Except ε α := (p b).map Prod.fst

end Reader

/-- `p` reads `b` as `x` and leaves what follows. -/
def Reads (p : Reader ε α) (x : α) (b : Bytes) : Prop := ∀ rest, p (b ++ rest) = .ok (x, rest)

namespace Reads

theorem pure (x : α) : Reads (Pure.pure x : Reader ε α) x [] := fun _ => rfl

theorem bind {p : Reader ε α} {f : α → Reader ε β} {x : α} {y : β} {b c : Bytes} (hp : Reads p x b)
    (hf : Reads (f x) y c) : Reads (p >>= f) y (b ++ c) := by
  intro rest
  show StateT.bind p f (b ++ c ++ rest) = _
  rw [StateT.bind, List.append_assoc, hp (c ++ rest)]
  exact hf rest

theorem take (e : ε) {n : ℕ} {b : Bytes} (h : b.length = n) : Reads (Reader.take e n) b b := by
  intro rest
  subst h
  simp [Reader.take]

theorem fixed (e : ε) {n : ℕ} (b : FixedBytes n) : Reads (Reader.fixed e n) b b.bytes := by
  intro rest
  obtain ⟨b, rfl⟩ := b
  simp [Reader.fixed]

theorem uint (e : ε) {w n : ℕ} (h : n < 256 ^ w) : Reads (Reader.uint e w) n (le w n) := by
  have := (Reads.take e (le_length w n)).bind (f := fun b => Pure.pure (ofLe b)) (Reads.pure (ε := ε) _)
  rw [ofLe_le_of_lt h, List.append_nil] at this
  exact this

theorem replicate {p : Reader ε α} {enc : α → Bytes} {l : List α} (h : ∀ x ∈ l, Reads p x (enc x)) :
    Reads (Reader.replicate p l.length) l (l.flatMap enc) := by
  induction l with
  | nil => exact Reads.pure []
  | cons x l ih =>
    rw [List.flatMap_cons]
    refine (h x List.mem_cons_self).bind ?_
    have := (ih fun y hy => h y (List.mem_cons_of_mem _ hy)).bind
      (f := fun as => Pure.pure (x :: as)) (Reads.pure (ε := ε) _)
    rwa [List.append_nil] at this

/-- Items that were encoded one by one are read back one by one. -/
theorem mapM {p : Reader ε α} {enc : α → Except ε Bytes} (hp : ∀ {x b}, enc x = .ok b → Reads p x b) {l : List α}
    {bs : List Bytes} (h : l.mapM enc = .ok bs) : Reads (Reader.replicate p l.length) l bs.flatten := by
  induction l generalizing bs with
  | nil =>
    cases h
    exact pure []
  | cons x l ih =>
    obtain ⟨b, bs', hb, hbs, rfl⟩ := Exn.mapM_cons_ok.1 h
    rw [List.flatten_cons]
    refine (hp hb).bind ?_
    rw [← List.append_nil bs'.flatten]
    exact (ih hbs).bind (pure _)

theorem lift {x : Except ε α} {a : α} (h : x = .ok a) : Reads (Reader.lift x) a [] := by
  intro rest
  rw [h]
  rfl

/-- A reader that ends with the rest of its input reads back a whole encoding. -/
theorem parse_rest {p : Reader ε α} {x : α} {b c : Bytes} (hp : Reads p x b) {f : α → Bytes → β} :
    Reader.parse (do let a ← p; let r ← Reader.rest; return f a r) (b ++ c) = .ok (f x c) := by
  show (StateT.bind p (fun a => StateT.bind Reader.rest fun r => StateT.pure (f a r)) (b ++ c)).map Prod.fst = _
  rw [StateT.bind, hp c]
  rfl

/-- A reader that leaves the rest reads back a whole encoding. -/
theorem parse {p : Reader ε α} {x : α} {b : Bytes} (hp : Reads p x b) (e : ε) :
    Reader.parse (do let a ← p; Reader.finish e; return a) b = .ok x := by
  have h := hp []
  rw [List.append_nil] at h
  show (StateT.bind p (fun a => StateT.bind (Reader.finish e) fun _ => StateT.pure a) b).map Prod.fst = _
  rw [StateT.bind, h]
  rfl

/-- The first read of a reader that is run to its end. -/
theorem run_bind {p : Reader ε α} {f : α → Reader ε β} {x : α} {y : β} {b c r : Bytes} (hp : Reads p x b)
    (hf : f x c = .ok (y, r)) : (p >>= f) (b ++ c) = .ok (y, r) := by
  show StateT.bind p f (b ++ c) = _
  rw [StateT.bind, hp c]
  exact hf

/-- Two values with one encoding are equal. -/
theorem inj {p : Reader ε α} {x y : α} {b : Bytes} (hx : Reads p x b) (hy : Reads p y b) : x = y := by
  have h := (hx []).symm.trans (hy [])
  cases h
  rfl

end Reads

/-- `p` fails only with errors in `E`. -/
def FailsIn (E : ε → Prop) (p : Reader ε α) : Prop := ∀ b e, p b = .error e → E e

namespace FailsIn

variable {E : ε → Prop}

theorem pure (x : α) : FailsIn E (Pure.pure x : Reader ε α) := fun b e h => by cases h

theorem bind {p : Reader ε α} {f : α → Reader ε β} (hp : FailsIn E p) (hf : ∀ x, FailsIn E (f x)) :
    FailsIn E (p >>= f) := by
  intro b e h
  change StateT.bind p f b = _ at h
  unfold StateT.bind at h
  cases hr : p b with
  | error e' =>
    rw [hr] at h
    cases h
    exact hp b e hr
  | ok r =>
    rw [hr] at h
    exact hf r.1 r.2 e h

theorem take {e : ε} (he : E e) (n : ℕ) : FailsIn E (Reader.take e n) := by
  intro b e' h
  unfold Reader.take at h
  split at h
  · cases h
  · cases h
    exact he

theorem fixed {e : ε} (he : E e) (n : ℕ) : FailsIn E (Reader.fixed e n) := by
  intro b e' h
  unfold Reader.fixed at h
  split at h
  · cases h
  · cases h
    exact he

theorem uint {e : ε} (he : E e) (w : ℕ) : FailsIn E (Reader.uint e w) := (take he w).bind fun _ => pure _

theorem replicate {p : Reader ε α} (hp : FailsIn E p) (n : ℕ) : FailsIn E (Reader.replicate p n) := by
  induction n with
  | zero => exact pure []
  | succ n ih => exact hp.bind fun _ => ih.bind fun _ => pure _

theorem finish {e : ε} (he : E e) : FailsIn E (Reader.finish e) := by
  intro b e' h
  unfold Reader.finish at h
  split at h
  · cases h
  · cases h
    exact he

theorem lift {x : Except ε α} (hx : ∀ e, x = .error e → E e) : FailsIn E (Reader.lift x) := by
  intro b e h
  cases x with
  | ok a => cases h
  | error e' =>
    cases h
    exact hx e rfl

theorem parse {p : Reader ε α} (hp : FailsIn E p) {b : Bytes} {e : ε} (h : Reader.parse p b = .error e) : E e := by
  unfold Reader.parse at h
  cases hr : p b with
  | ok r =>
    rw [hr] at h
    cases h
  | error e' =>
    rw [hr] at h
    cases h
    exact hp b e hr

end FailsIn

/-! ## What was read -/

namespace Reader

theorem bind_ok {p : Reader ε α} {f : α → Reader ε β} {b : Bytes} {y : β} {r : Bytes} :
    (p >>= f) b = .ok (y, r) ↔ ∃ x c, p b = .ok (x, c) ∧ f x c = .ok (y, r) := by
  change StateT.bind p f b = _ ↔ _
  unfold StateT.bind
  cases p b with
  | error e =>
    refine ⟨fun h => (by cases h), ?_⟩
    rintro ⟨x, c, h, -⟩
    cases h
  | ok q =>
    refine ⟨fun h => ⟨q.1, q.2, rfl, h⟩, ?_⟩
    rintro ⟨x, c, h, hf⟩
    cases h
    exact hf

theorem pure_ok {x y : α} {b r : Bytes} : (pure x : Reader ε α) b = .ok (y, r) ↔ x = y ∧ b = r := by
  change Except.ok (x, b) = Except.ok (y, r) ↔ _
  rw [Except.ok.injEq, Prod.mk.injEq]

theorem lift_ok {x : Except ε α} {a : α} {b r : Bytes} : lift x b = .ok (a, r) ↔ x = .ok a ∧ b = r := by
  cases x with
  | error e =>
    refine ⟨fun h => (by cases h), ?_⟩
    rintro ⟨h, -⟩
    cases h
  | ok a' =>
    change Except.ok (a', b) = Except.ok (a, r) ↔ _
    rw [Except.ok.injEq, Except.ok.injEq, Prod.mk.injEq]

/-- A check inside a reader takes no bytes. -/
theorem lift_run_bind {x : Except ε α} {a : α} (h : x = .ok a) {f : α → Reader ε β} {b : Bytes}
    {r : Except ε (β × Bytes)} (hf : f a b = r) : (lift x >>= f) b = r := by
  rw [h, ← hf]
  rfl

theorem take_ok {e : ε} {n : ℕ} {b x r : Bytes} (h : take e n b = .ok (x, r)) : x.length = n ∧ b = x ++ r := by
  unfold take at h
  split at h
  · rename_i hn
    cases h
    exact ⟨List.length_take_of_le hn, (List.take_append_drop n b).symm⟩
  · cases h

theorem fixed_ok {e : ε} {n : ℕ} {b r : Bytes} {x : FixedBytes n} (h : fixed e n b = .ok (x, r)) :
    b = x.bytes ++ r := by
  unfold fixed at h
  split at h
  · cases h
    exact (List.take_append_drop n b).symm
  · cases h

theorem uint_ok {e : ε} {w n : ℕ} {b r : Bytes} (h : uint e w b = .ok (n, r)) : b = le w n ++ r := by
  obtain ⟨x, c, hx, hn⟩ := bind_ok.1 h
  obtain ⟨hlen, rfl⟩ := take_ok hx
  obtain ⟨rfl, rfl⟩ := pure_ok.1 hn
  rw [← hlen, le_ofLe]

theorem replicate_ok {p : Reader ε α} {enc : α → Bytes}
    (hp : ∀ {b x r}, p b = .ok (x, r) → b = enc x ++ r) {n : ℕ} {b : Bytes} {l : List α} {r : Bytes}
    (h : replicate p n b = .ok (l, r)) : l.length = n ∧ b = l.flatMap enc ++ r := by
  induction n generalizing b l with
  | zero =>
    cases h
    exact ⟨rfl, rfl⟩
  | succ n ih =>
    obtain ⟨x, c, hx, h⟩ := bind_ok.1 h
    obtain ⟨xs, d, hxs, h⟩ := bind_ok.1 h
    cases h
    obtain ⟨hlen, hc⟩ := ih hxs
    refine ⟨by rw [List.length_cons, hlen], ?_⟩
    rw [hp hx, hc, List.flatMap_cons, List.append_assoc]

theorem uint_lt {e : ε} {w n : ℕ} {b r : Bytes} (h : uint e w b = .ok (n, r)) : n < 256 ^ w := by
  obtain ⟨x, c, hx, hn⟩ := bind_ok.1 h
  obtain ⟨hlen, -⟩ := take_ok hx
  obtain ⟨rfl, -⟩ := pure_ok.1 hn
  rw [← hlen]
  exact ofLe_lt x

theorem finish_ok {e : ε} {b : Bytes} {u : Unit} {r : Bytes} (h : finish e b = .ok (u, r)) : b = [] ∧ r = [] := by
  unfold finish at h
  split at h
  · cases h
    exact ⟨‹_›, rfl⟩
  · cases h

theorem parse_ok {p : Reader ε α} {b : Bytes} {x : α} : parse p b = .ok x ↔ ∃ r, p b = .ok (x, r) := by
  unfold parse
  cases p b with
  | error e =>
    refine ⟨fun h => (by cases h), ?_⟩
    rintro ⟨r, h⟩
    cases h
  | ok q =>
    refine ⟨fun h => ⟨q.2, ?_⟩, ?_⟩
    · cases h
      rfl
    · rintro ⟨r, h⟩
      cases h
      rfl

end Reader

end Wire
