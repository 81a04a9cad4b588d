import Mathlib.Data.List.Basic
import Mathlib.Tactic.Common

/-!
# Reading from a source that delivers in pieces

A source delivers its items in pieces of any size and may fail; a program asks it for an exact
number of items at a time.

* `content`: the items of a source up to its end or its first failure.
* `readExact`: an exact number of items, in as many pieces as it takes.
* `Ask`: a program that reads; `Ask.run` reads from a source and `Ask.parse` from a list.
* `Ask.run_parse`: only the content of a source matters.
-/

namespace Stream

variable {α ε β γ : Type}

/-- What a source delivers next. An empty piece is its end. -/
inductive Arrival (α : Type) where
  | piece (items : List α)
  | failure

/-- The items before the end or the first failure. -/
def content : List (Arrival α) → List α
  | [] => []
  | .failure :: _ => []
  | .piece [] :: _ => []
  | .piece (a :: l) :: rest => a :: l ++ content rest

/-- Exactly `n` items, asking for what is missing until there are enough. -/
def readExact : ℕ → List (Arrival α) → Option (List α) × List (Arrival α)
  | 0, source => (some [], source)
  | _ + 1, [] => (none, [])
  | _ + 1, .failure :: rest => (none, rest)
  | _ + 1, .piece [] :: rest => (none, rest)
  | n + 1, .piece (a :: l) :: rest =>
    if n < l.length then (some (a :: l.take n), .piece (l.drop n) :: rest)
    else
      match readExact (n - l.length) rest with
      | (some more, rest) => (some (a :: l ++ more), rest)
      | (none, rest) => (none, rest)

theorem readExact_of_le : ∀ (source : List (Arrival α)) (n : ℕ), n ≤ (content source).length →
    ∃ rest, readExact n source = (some ((content source).take n), rest) ∧ content rest = (content source).drop n := by
  intro source
  induction source with
  | nil =>
    intro n hn
    obtain rfl : n = 0 := by simpa [content] using hn
    exact ⟨[], rfl, rfl⟩
  | cons arrival rest ih =>
    intro n hn
    rcases n with _ | n
    · exact ⟨arrival :: rest, rfl, rfl⟩
    rcases arrival with items | _
    · rcases items with _ | ⟨a, l⟩
      · simp [content] at hn
      · by_cases hlt : n < l.length
        · -- the piece holds more than is asked for
          refine ⟨.piece (l.drop n) :: rest, ?_, ?_⟩
          · unfold readExact
            rw [if_pos hlt]
            simp [content, List.take_append_of_le_length (Nat.le_of_lt hlt)]
          · obtain ⟨b, l', hdrop⟩ : ∃ b l', l.drop n = b :: l' := by
              rcases h : l.drop n with _ | ⟨b, l'⟩
              · have := congrArg List.length h
                simp at this
                omega
              · exact ⟨b, l', rfl⟩
            simp only [content, List.cons_append, List.drop_succ_cons, List.drop_append_of_le_length (Nat.le_of_lt hlt), hdrop]
        · -- the piece is used up, and the rest of the stream has the rest
          have hrest : n - l.length ≤ (content rest).length := by
            simp [content] at hn
            omega
          obtain ⟨rest', hread, hcontent⟩ := ih (n - l.length) hrest
          refine ⟨rest', ?_, ?_⟩
          · unfold readExact
            rw [if_neg hlt, hread]
            simp [content, List.take_append, List.take_of_length_le (Nat.not_lt.1 hlt)]
          · rw [hcontent]
            simp [content, List.drop_append, List.drop_of_length_le (Nat.not_lt.1 hlt)]
    · simp [content] at hn

theorem readExact_of_lt : ∀ (source : List (Arrival α)) (n : ℕ), (content source).length < n →
    (readExact n source).1 = none := by
  intro source
  induction source with
  | nil =>
    intro n hn
    rcases n with _ | n
    · simp [content] at hn
    · rfl
  | cons arrival rest ih =>
    intro n hn
    rcases n with _ | n
    · simp at hn
    rcases arrival with items | _
    · rcases items with _ | ⟨a, l⟩
      · rfl
      · have hlong : ¬n < l.length := by
          simp [content] at hn
          omega
        have hnone := ih (n - l.length) (by
          simp [content] at hn
          omega)
        unfold readExact
        rw [if_neg hlong]
        rcases hread : readExact (n - l.length) rest with ⟨_ | more, rest'⟩
        · rfl
        · rw [hread] at hnone
          cases hnone
    · rfl

/-- A program that reads an exact number of items at a time. -/
inductive Ask (α ε β : Type) where
  | done (b : β)
  | stop (e : ε)
  | read (n : ℕ) (next : List α → Ask α ε β)

namespace Ask

/-- Sequencing. -/
def bind : Ask α ε β → (β → Ask α ε γ) → Ask α ε γ
  | done b, f => f b
  | stop e, _ => stop e
  | read n next, f => read n fun items => (next items).bind f

instance : Monad (Ask α ε) where
  pure := done
  bind := bind

/-- `n` items. -/
def take (n : ℕ) : Ask α ε (List α) := read n done

/-- Stop unless `p`. -/
def ensure (p : Prop) [Decidable p] (e : ε) : Ask α ε Unit := if p then done () else stop e

/-- Run on a source; `closed` where it ends or fails. -/
def run (closed : ε) : Ask α ε β → List (Arrival α) → Except ε (β × List (Arrival α))
  | done b, source => .ok (b, source)
  | stop e, _ => .error e
  | read n next, source =>
    match readExact n source with
    | (some items, rest) => (next items).run closed rest
    | (none, _) => .error closed

/-- Run on a list. -/
def parse (closed : ε) : Ask α ε β → List α → Except ε (β × List α)
  | done b, l => .ok (b, l)
  | stop e, _ => .error e
  | read n next, l => if n ≤ l.length then (next (l.take n)).parse closed (l.drop n) else .error closed

variable {closed : ε}

/-- **Only the content of a source matters.** -/
theorem run_parse (closed : ε) (p : Ask α ε β) : ∀ source : List (Arrival α),
    (∀ e, p.parse closed (content source) = .error e → p.run closed source = .error e) ∧
      ∀ b l, p.parse closed (content source) = .ok (b, l) →
        ∃ rest, p.run closed source = .ok (b, rest) ∧ content rest = l := by
  induction p with
  | done b =>
    intro source
    refine ⟨fun e h => (by cases h), ?_⟩
    rintro b' l h
    cases h
    exact ⟨source, rfl, rfl⟩
  | stop e =>
    intro source
    refine ⟨fun e' h => ?_, fun b l h => (by cases h)⟩
    cases h
    rfl
  | read n next ih =>
    intro source
    unfold parse run
    by_cases hn : n ≤ (content source).length
    · obtain ⟨rest, hread, hcontent⟩ := readExact_of_le source n hn
      rw [if_pos hn, hread, ← hcontent]
      exact ih _ rest
    · have hnone := readExact_of_lt source n (Nat.not_le.1 hn)
      rw [if_neg hn]
      rcases hread : readExact n source with ⟨_ | items, rest⟩
      · refine ⟨fun e h => ?_, fun b l h => (by cases h)⟩
        cases h
        rfl
      · rw [hread] at hnone
        cases hnone

/-! ## Rules for `parse` -/

@[simp] theorem parse_pure (b : β) (l : List α) : (pure b : Ask α ε β).parse closed l = .ok (b, l) := rfl

theorem parse_bind (p : Ask α ε β) (f : β → Ask α ε γ) : ∀ l : List α,
    (p >>= f).parse closed l = match p.parse closed l with
      | .ok (b, l') => (f b).parse closed l'
      | .error e => .error e := by
  induction p with
  | done b => exact fun _ => rfl
  | stop e => exact fun _ => rfl
  | read n next ih =>
    intro l
    have hread : ∀ next' : List α → Ask α ε β, (read n next').parse closed l =
        if n ≤ l.length then (next' (l.take n)).parse closed (l.drop n) else .error closed := fun _ => rfl
    show (if n ≤ l.length then ((next (l.take n)).bind f).parse closed (l.drop n) else .error closed) = _
    rw [hread]
    by_cases hn : n ≤ l.length
    · rw [if_pos hn, if_pos hn]
      exact ih _ _
    · rw [if_neg hn, if_neg hn]

theorem parse_bind_ok {p : Ask α ε β} {f : β → Ask α ε γ} {l r : List α} {c : γ} :
    (p >>= f).parse closed l = .ok (c, r) ↔ ∃ b l', p.parse closed l = .ok (b, l') ∧ (f b).parse closed l' = .ok (c, r) := by
  rw [parse_bind]
  rcases p.parse closed l with e | ⟨b, l'⟩
  · simp
  · simp

theorem parse_take_ok {n : ℕ} {l items r : List α} :
    (take n : Ask α ε (List α)).parse closed l = .ok (items, r) ↔ items.length = n ∧ l = items ++ r := by
  show (if n ≤ l.length then Except.ok (l.take n, l.drop n) else .error closed) = _ ↔ _
  constructor
  · intro h
    by_cases hn : n ≤ l.length
    · rw [if_pos hn] at h
      cases h
      exact ⟨List.length_take_of_le hn, (List.take_append_drop n l).symm⟩
    · rw [if_neg hn] at h
      cases h
  · rintro ⟨rfl, rfl⟩
    rw [if_pos (by simp), List.take_left, List.drop_left]

theorem parse_ensure_ok {p : Prop} [Decidable p] {e : ε} {l r : List α} {u : Unit} :
    (ensure p e : Ask α ε Unit).parse closed l = .ok (u, r) ↔ p ∧ l = r := by
  unfold ensure
  by_cases hp : p
  · rw [if_pos hp]
    constructor
    · intro h
      cases h
      exact ⟨hp, rfl⟩
    · rintro ⟨-, rfl⟩
      rfl
  · rw [if_neg hp]
    constructor
    · intro h
      cases h
    · rintro ⟨h, -⟩
      exact absurd h hp

theorem parse_pure_ok {b c : β} {l r : List α} :
    (pure b : Ask α ε β).parse closed l = .ok (c, r) ↔ b = c ∧ l = r := by
  rw [parse_pure]
  constructor
  · intro h
    cases h
    exact ⟨rfl, rfl⟩
  · rintro ⟨rfl, rfl⟩
    rfl

/-- A run that returns leaves what a list would have left. -/
theorem run_ok {p : Ask α ε β} {source rest : List (Arrival α)} {b : β} (h : p.run closed source = .ok (b, rest)) :
    p.parse closed (content source) = .ok (b, content rest) := by
  obtain ⟨herror, hok⟩ := run_parse closed p source
  rcases hparse : p.parse closed (content source) with e | ⟨b', l⟩
  · rw [herror e hparse] at h
    cases h
  · obtain ⟨rest', hrun, hcontent⟩ := hok b' l hparse
    rw [hrun] at h
    cases h
    rw [hcontent]

end Ask

end Stream
