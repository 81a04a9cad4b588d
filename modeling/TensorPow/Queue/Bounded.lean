import Mathlib.Data.List.Basic
import Mathlib.Tactic.Common

/-!
# Bounded queues that lose their oldest items

* `push`: an item at the end; a queue that is full loses its first.
* `Account`: how what was published, what was drained and what is pending can come about. An
  item is lost only from the front, and only when the queue is full.
* `Account.push`, `Account.take_drop`: the operations keep accounts.
* `Account.history`: what was published is, in order, what was drained or lost, followed by
  what is pending; behind every lost item as many came as the queue holds.
-/

namespace Queue

variable {α : Type} {max : ℕ} {published drained pending : List α}

/-- An item at the end of a queue that holds `max` items. -/
def push (max : ℕ) (q : List α) (a : α) : List α := (q ++ [a]).drop (q.length + 1 - max)

/-- What was published, what was drained and what is pending. -/
inductive Account (max : ℕ) : List α → List α → List α → Prop
  | start : Account max [] [] []
  /-- there is room for an item -/
  | keep {published drained pending : List α} (a : α) : Account max published drained pending →
      pending.length < max → Account max (published ++ [a]) drained (pending ++ [a])
  /-- the queue is full and loses its oldest item -/
  | lose {published drained pending : List α} (oldest a : α) : Account max published drained (oldest :: pending) →
      pending.length + 1 = max → Account max (published ++ [a]) drained (pending ++ [a])
  /-- some items are drained from the front -/
  | take {published drained pending : List α} (front : List α) : Account max published drained (front ++ pending) →
      Account max published (drained ++ front) pending

namespace Account

theorem length_le (h : Account max published drained pending) : pending.length ≤ max := by
  induction h with
  | start => exact Nat.zero_le _
  | keep a _ hroom _ =>
    rw [List.length_append, List.length_singleton]
    omega
  | lose oldest a _ hfull _ =>
    rw [List.length_append, List.length_singleton]
    omega
  | take front _ ih =>
    rw [List.length_append] at ih
    omega

/-- **Publishing keeps accounts.** -/
theorem push (h : Account max published drained pending) (hmax : 0 < max) (a : α) :
    Account max (published ++ [a]) drained (push max pending a) := by
  have hlen := h.length_le
  unfold Queue.push
  by_cases hroom : pending.length < max
  · rw [Nat.sub_eq_zero_of_le hroom, List.drop_zero]
    exact .keep a h hroom
  · -- a full queue is not empty
    cases pending with
    | nil =>
      rw [List.length_nil] at hroom
      omega
    | cons oldest pending =>
      rw [List.length_cons] at hlen hroom
      have hone : (oldest :: pending).length + 1 - max = 1 := by
        rw [List.length_cons]
        omega
      rw [hone]
      exact .lose oldest a h (by omega)

/-- **Draining keeps accounts.** -/
theorem take_drop (h : Account max published drained pending) (n : ℕ) :
    Account max published (drained ++ pending.take n) (pending.drop n) := by
  refine .take (pending.take n) ?_
  rw [List.take_append_drop]
  exact h

/-- **The history of a queue.** The items that are no longer pending are marked by whether they
were drained. -/
theorem history (h : Account max published drained pending) : ∃ settled : List (α × Bool),
    published = settled.map Prod.fst ++ pending ∧ drained = (settled.filter Prod.snd).map Prod.fst ∧
      ∀ older lost newer, settled = older ++ (lost, false) :: newer → max ≤ newer.length + pending.length := by
  induction h with
  | start =>
    refine ⟨[], rfl, rfl, ?_⟩
    intro older lost newer h
    cases older <;> cases h
  | keep a _ _ ih =>
    obtain ⟨settled, hpublished, hdrained, hlost⟩ := ih
    refine ⟨settled, by rw [hpublished, List.append_assoc], hdrained, ?_⟩
    intro older lost newer hsplit
    have hmax := hlost older lost newer hsplit
    rw [List.length_append]
    omega
  | @lose _ _ pending oldest a _ hfull ih =>
    obtain ⟨settled, hpublished, hdrained, hlost⟩ := ih
    refine ⟨settled ++ [(oldest, false)], ?_, ?_, ?_⟩
    · rw [hpublished]
      simp
    · rw [hdrained]
      simp
    · intro older lost newer hsplit
      rw [List.length_append, List.length_singleton]
      -- the item that is lost now is the last of those that are settled
      rcases List.eq_nil_or_concat newer with rfl | ⟨front, last, rfl⟩
      · omega
      · rw [List.concat_eq_append] at hsplit ⊢
        have hfront : settled = older ++ (lost, false) :: front := by
          rw [← List.cons_append, ← List.append_assoc] at hsplit
          exact (List.append_inj' hsplit rfl).1
        have hmax := hlost older lost front hfront
        rw [List.length_cons] at hmax
        rw [List.length_append, List.length_singleton]
        omega
  | @take _ _ pending front _ ih =>
    obtain ⟨settled, hpublished, hdrained, hlost⟩ := ih
    have hall : (front.map fun a => (a, true)).filter Prod.snd = front.map fun a => (a, true) :=
      List.filter_eq_self.2 fun p hp => by
        obtain ⟨a, -, rfl⟩ := List.mem_map.1 hp
        rfl
    have hfst : (front.map fun a => (a, true)).map Prod.fst = front := by
      rw [List.map_map]
      exact List.map_id _
    refine ⟨settled ++ front.map fun a => (a, true), ?_, ?_, ?_⟩
    · rw [hpublished, List.map_append, hfst, List.append_assoc]
    · rw [hdrained, List.filter_append, List.map_append, hall, hfst]
    · intro older lost newer hsplit
      -- a lost item is not among those drained last
      obtain ⟨rest, hsettled, hrest⟩ : ∃ rest, settled = older ++ (lost, false) :: rest ∧
          newer = rest ++ front.map fun a => (a, true) := by
        rcases List.append_eq_append_iff.1 hsplit with ⟨more, holder, hmore⟩ | ⟨more, hsettled, hmore⟩
        · have hmem : (lost, false) ∈ front.map fun a => (a, true) := by
            rw [hmore]
            exact List.mem_append_right _ List.mem_cons_self
          obtain ⟨a, -, ha⟩ := List.mem_map.1 hmem
          cases ha
        · cases more with
          | nil =>
            have hmem : (lost, false) ∈ front.map fun a => (a, true) := by
              rw [List.nil_append] at hmore
              rw [← hmore]
              exact List.mem_cons_self
            obtain ⟨a, -, ha⟩ := List.mem_map.1 hmem
            cases ha
          | cons first rest =>
            rw [List.cons_append] at hmore
            obtain ⟨rfl, hnewer⟩ := List.cons.inj hmore
            exact ⟨rest, hsettled, hnewer⟩
      have hmax := hlost older lost rest hsettled
      rw [List.length_append] at hmax
      rw [hrest, List.length_append, List.length_map]
      omega

end Account

end Queue
