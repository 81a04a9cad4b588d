import Mathlib

/-!
# Sorting by a key

`sortBy key l` is a stable insertion sort, which evaluates by structural recursion.
`ascending s` lists a finite set in ascending order. A sort by an injective key
depends only on which items there are, not on the order they come in
(`sortBy_perm`).
-/

namespace Sorted

variable {α κ : Type} [LinearOrder κ]

/-- The list, stably sorted by ascending key. -/
def sortBy (key : α → κ) (l : List α) : List α := l.insertionSort fun a b => key a ≤ key b

variable {key : α → κ}

theorem perm_sortBy (key : α → κ) (l : List α) : (sortBy key l).Perm l := List.perm_insertionSort _ l

@[simp] theorem mem_sortBy {l : List α} {a : α} : a ∈ sortBy key l ↔ a ∈ l := (perm_sortBy key l).mem_iff

theorem nodup_sortBy {l : List α} : (sortBy key l).Nodup ↔ l.Nodup := (perm_sortBy key l).nodup_iff

@[simp] theorem length_sortBy (l : List α) : (sortBy key l).length = l.length := (perm_sortBy key l).length_eq

theorem pairwise_sortBy (key : α → κ) (l : List α) : (sortBy key l).Pairwise fun a b => key a ≤ key b :=
  haveI : Std.Total fun a b => key a ≤ key b := ⟨fun a b => le_total (key a) (key b)⟩
  haveI : IsTrans α fun a b => key a ≤ key b := ⟨fun _ _ _ => le_trans⟩
  List.pairwise_insertionSort _ l

/-- Two sorted rearrangements of one list are equal when the key tells its items apart. -/
theorem eq_of_perm_pairwise {l l' : List α} (hinj : ∀ a ∈ l, ∀ b ∈ l, key a = key b → a = b)
    (hp : l.Perm l') (hl : l.Pairwise fun a b => key a ≤ key b)
    (hl' : l'.Pairwise fun a b => key a ≤ key b) : l = l' :=
  hp.eq_of_pairwise
    (fun a b ha hb hab hba => hinj a ha b (hp.mem_iff.2 hb) (le_antisymm hab hba)) hl hl'

theorem sortBy_perm {l l' : List α} (hinj : ∀ a ∈ l, ∀ b ∈ l, key a = key b → a = b) (hp : l.Perm l') :
    sortBy key l = sortBy key l' :=
  eq_of_perm_pairwise (by simpa using hinj) (((perm_sortBy key l).trans hp).trans (perm_sortBy key l').symm)
    (pairwise_sortBy key l) (pairwise_sortBy key l')

/-- A list already in order is left as it is. -/
theorem sortBy_eq_self {l : List α} (h : l.Pairwise fun a b => key a ≤ key b) : sortBy key l = l :=
  h.insertionSort_eq

/-- The place of an item in a strictly sorted list is the number of smaller items. -/
theorem countP_lt_of_getElem? {l : List α} (h : l.Pairwise fun a b => key a < key b) {i : ℕ} {a : α}
    (ha : l[i]? = some a) : l.countP (fun b => key b < key a) = i := by
  induction l generalizing i with
  | nil => cases ha
  | cons x l ih =>
    rw [List.pairwise_cons] at h
    rw [List.countP_cons]
    cases i with
    | zero =>
      rw [List.getElem?_cons_zero, Option.some.injEq] at ha
      subst ha
      have hnone : l.countP (fun b => key b < key x) = 0 := by
        rw [List.countP_eq_zero]
        intro b hb
        simpa using (h.1 b hb).le
      rw [hnone]
      simp
    | succ i =>
      rw [List.getElem?_cons_succ] at ha
      have hlt : key x < key a := h.1 a (List.mem_of_getElem? ha)
      rw [ih h.2 ha]
      simp [hlt]

section Ascending

variable {α : Type} [LinearOrder α]

/-- The elements of a finite set in ascending order. -/
def ascending (s : Finset α) : List α :=
  Quot.liftOn s.1 (sortBy id) fun _ _ h => sortBy_perm (fun _ _ _ _ e => e) h

theorem ascending_toFinset (l : List α) (h : l.Nodup) : ascending l.toFinset = sortBy id l := by
  unfold ascending
  have : l.toFinset.1 = Quot.mk _ l := by
    rw [List.toFinset_val, h.dedup]
    rfl
  rw [this]

theorem exists_nodup_list (s : Finset α) : ∃ l : List α, l.Nodup ∧ l.toFinset = s :=
  ⟨s.toList, s.nodup_toList, s.toList_toFinset⟩

@[simp] theorem mem_ascending {s : Finset α} {a : α} : a ∈ ascending s ↔ a ∈ s := by
  obtain ⟨l, hl, rfl⟩ := exists_nodup_list s
  rw [ascending_toFinset l hl, mem_sortBy, List.mem_toFinset]

theorem nodup_ascending (s : Finset α) : (ascending s).Nodup := by
  obtain ⟨l, hl, rfl⟩ := exists_nodup_list s
  rwa [ascending_toFinset l hl, nodup_sortBy]

@[simp] theorem toFinset_ascending (s : Finset α) : (ascending s).toFinset = s := by
  ext a
  simp

@[simp] theorem length_ascending (s : Finset α) : (ascending s).length = s.card := by
  rw [← List.toFinset_card_of_nodup (nodup_ascending s), toFinset_ascending]

theorem pairwise_ascending (s : Finset α) : (ascending s).Pairwise (· < ·) := by
  obtain ⟨l, hl, rfl⟩ := exists_nodup_list s
  rw [ascending_toFinset l hl]
  exact ((pairwise_sortBy id l).and (nodup_sortBy.2 hl)).imp fun ⟨hle, hne⟩ => lt_of_le_of_ne hle hne

theorem ascending_perm_of_toFinset {l : List α} {s : Finset α} (hl : l.Nodup) (h : l.toFinset = s) :
    (ascending s).Perm l :=
  List.perm_of_nodup_nodup_toFinset_eq (nodup_ascending s) hl (by rw [toFinset_ascending, h])

end Ascending

end Sorted
