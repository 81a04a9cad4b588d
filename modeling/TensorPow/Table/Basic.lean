import Mathlib

/-!
# Finite tables

A table is an extensional ordered map (`Std.ExtTreeMap`) over a linearly ordered
key type: two tables with the same lookups are equal, and `toList` lists the
entries in ascending key order, as an ordered key-value column does.

* `get_insert`, `get_erase`: lookups after one update.
* `get_putAll_of_mem`, `get_eraseAll`: lookups after a list of updates.
* `replace_eq`: putting a list of entries and deleting every other key gives that list.
* `total_insert`, `total_erase`: how a sum over the entries changes.
-/

/-- A finite table from `K` to `V`. -/
abbrev Table (K V : Type) [LinearOrder K] := Std.ExtTreeMap K V compare

namespace Table

variable {K V W : Type} [LinearOrder K]

instance keyTransCmp : Std.TransCmp (compare : K → K → Ordering) := inferInstance

theorem get_insert (t : Table K V) (k a : K) (v : V) :
    (t.insert k v)[a]? = if k = a then some v else t[a]? := by
  rw [Std.ExtTreeMap.getElem?_insert]
  simp only [compare_eq_iff_eq]

theorem get_erase (t : Table K V) (k a : K) :
    (t.erase k)[a]? = if k = a then none else t[a]? := by
  rw [Std.ExtTreeMap.getElem?_erase]
  simp only [compare_eq_iff_eq]

theorem ext_get {t t' : Table K V} (h : ∀ a : K, t[a]? = t'[a]?) : t = t' := Std.ExtTreeMap.ext_getElem? h

theorem get_empty (a : K) : (∅ : Table K V)[a]? = none := by simp

theorem get_map {W : Type} (t : Table K V) (f : V → W) (a : K) :
    (t.map fun _ v => f v : Table K W)[a]? = (t[a]?).map f := Std.ExtTreeMap.getElem?_map

theorem mem_iff {t : Table K V} {k : K} : k ∈ t ↔ ∃ v, t[k]? = some v := by
  rw [Std.ExtTreeMap.mem_iff_isSome_getElem?, Option.isSome_iff_exists]

theorem mem_toList {t : Table K V} {k : K} {v : V} : (k, v) ∈ t.toList ↔ t[k]? = some v :=
  Std.ExtTreeMap.mem_toList_iff_getElem?_eq_some

theorem mem_keys {t : Table K V} {k : K} : k ∈ t.keys ↔ ∃ v, t[k]? = some v := by
  rw [Std.ExtTreeMap.mem_keys, mem_iff]

theorem nodup_toList (t : Table K V) : t.toList.Nodup := by
  have h := t.nodup_keys
  rw [← Std.ExtTreeMap.map_fst_toList_eq_keys] at h
  exact h.of_map

/-- The keys come in strictly ascending order. -/
theorem keys_ascending (t : Table K V) : t.keys.Pairwise (· < ·) := by
  have h := t.ordered_keys
  simpa only [compare_lt_iff_lt] using h

/-! ## Lists of updates -/

/-- Put every pair of the list, later pairs last. -/
def putAll (t : Table K V) (l : List (K × V)) : Table K V :=
  l.foldl (fun t p => t.insert p.1 p.2) t

/-- Delete every key of the list. -/
def eraseAll (t : Table K V) (l : List K) : Table K V :=
  l.foldl (fun t k => t.erase k) t

@[simp] theorem putAll_nil (t : Table K V) : putAll t [] = t := rfl

theorem putAll_cons (t : Table K V) (p : K × V) (l : List (K × V)) :
    putAll t (p :: l) = putAll (t.insert p.1 p.2) l := rfl

theorem get_eraseAll (t : Table K V) (l : List K) (a : K) :
    (eraseAll t l)[a]? = if a ∈ l then none else t[a]? := by
  unfold eraseAll
  induction l generalizing t with
  | nil => simp
  | cons k l ih =>
    rw [List.foldl_cons, ih, get_erase]
    by_cases h : k = a
    · subst h; simp
    · have h' : ¬a = k := fun e => h e.symm
      simp [h, h']

theorem get_putAll_of_notMem (t : Table K V) (l : List (K × V)) {a : K} (h : ∀ v, (a, v) ∉ l) :
    (putAll t l)[a]? = t[a]? := by
  induction l generalizing t with
  | nil => rfl
  | cons p l ih =>
    rw [putAll_cons, ih _ (fun v hv => h v (List.mem_cons_of_mem _ hv)), get_insert, if_neg]
    rintro rfl
    exact h p.2 List.mem_cons_self

theorem get_putAll_of_mem (t : Table K V) {l : List (K × V)} (hl : (l.map Prod.fst).Nodup) {a : K} {v : V}
    (h : (a, v) ∈ l) : (putAll t l)[a]? = some v := by
  induction l generalizing t with
  | nil => simp at h
  | cons p l ih =>
    rw [List.map_cons, List.nodup_cons] at hl
    rw [putAll_cons]
    rcases List.mem_cons.1 h with rfl | h
    · rw [get_putAll_of_notMem, get_insert, if_pos rfl]
      exact fun w hw => hl.1 (List.mem_map.2 ⟨(a, w), hw, rfl⟩)
    · exact ih _ hl.2 h

/-- Lookups after putting every entry of another table. -/
theorem get_putAll_toList (t m : Table K V) (a : K) :
    (putAll t m.toList)[a]? = (m[a]?).or t[a]? := by
  cases h : m[a]? with
  | none =>
    rw [get_putAll_of_notMem _ _ fun v hv => by rw [mem_toList, h] at hv; cases hv]
    rfl
  | some v =>
    rw [get_putAll_of_mem _ _ (mem_toList.2 h)]
    · rfl
    · rw [Std.ExtTreeMap.map_fst_toList_eq_keys]; exact m.nodup_keys

/-- **Replacement.** Putting a list of entries and then deleting every other key of the
old table leaves exactly the list. -/
theorem replace_eq (t : Table K V) {l : List (K × V)} (hl : (l.map Prod.fst).Nodup) {p : K → Bool}
    (hp : ∀ k, p k = true ↔ k ∈ l.map Prod.fst) :
    eraseAll (putAll t l) (t.keys.filter fun k => !p k) = putAll ∅ l := by
  apply ext_get
  intro a
  rw [get_eraseAll]
  by_cases ha : a ∈ l.map Prod.fst
  · obtain ⟨⟨k, v⟩, hv, rfl⟩ := List.mem_map.1 ha
    have hkeep : k ∉ t.keys.filter fun k => !p k := by
      rw [List.mem_filter, (hp k).2 ha]
      simp
    rw [if_neg hkeep, get_putAll_of_mem _ hl hv, get_putAll_of_mem _ hl hv]
  · have hnone : ∀ v, (a, v) ∉ l := fun v hv => ha (List.mem_map.2 ⟨(a, v), hv, rfl⟩)
    rw [get_putAll_of_notMem _ _ hnone, get_putAll_of_notMem _ _ hnone, get_empty]
    split
    · rfl
    · rename_i hk
      by_contra hne
      obtain ⟨v, hv⟩ := Option.ne_none_iff_exists'.1 hne
      refine hk (List.mem_filter.2 ⟨mem_keys.2 ⟨v, hv⟩, ?_⟩)
      rw [Bool.not_eq_true', Bool.eq_false_iff]
      exact fun h => ha ((hp a).1 h)

/-- A table is the list of its entries, put one after another. -/
theorem putAll_toList (m : Table K V) : putAll ∅ m.toList = m := by
  apply ext_get
  intro a
  rw [get_putAll_toList, get_empty, Option.or_none]

theorem nodup_map_fst (m : Table K V) : (m.toList.map Prod.fst).Nodup := by
  rw [Std.ExtTreeMap.map_fst_toList_eq_keys]
  exact m.nodup_keys

/-- Replacing a whole table by another. -/
theorem replace_table_eq (t m : Table K V) :
    eraseAll (putAll t m.toList) (t.keys.filter fun k => !m.contains k) = m := by
  rw [replace_eq t m.nodup_map_fst, putAll_toList]
  intro k
  rw [Std.ExtTreeMap.map_fst_toList_eq_keys, ← Std.ExtTreeMap.mem_iff_contains, Std.ExtTreeMap.mem_keys]

/-- Distinct keys of a table are at most as many as its entries. -/
theorem length_le_size (t : Table K V) {l : List K} (hl : l.Nodup) (h : ∀ k ∈ l, ∃ v, t[k]? = some v) :
    l.length ≤ t.size := by
  rw [← Std.ExtTreeMap.length_keys]
  exact (List.subperm_of_subset hl fun k hk => mem_keys.2 (h k hk)).length_le

/-! ## Sums over the entries -/

/-- The sum of a weight over the entries. -/
def total (f : V → ℕ) (t : Table K V) : ℕ := (t.toList.map fun p => f p.2).sum

@[simp] theorem total_empty (f : V → ℕ) : total f (∅ : Table K V) = 0 := by
  have : (∅ : Table K V).toList = [] := Std.ExtTreeMap.toList_eq_nil_iff.2 rfl
  simp [total, this]

theorem toList_insert_perm (t : Table K V) {k : K} (v : V) (h : t[k]? = none) :
    (t.insert k v).toList.Perm ((k, v) :: t.toList) := by
  rw [List.perm_ext_iff_of_nodup (nodup_toList _)]
  · rintro ⟨a, w⟩
    rw [mem_toList, get_insert, List.mem_cons, mem_toList, Prod.mk.injEq]
    by_cases hk : k = a
    · subst hk; simp [h, eq_comm]
    · have hk' : ¬a = k := fun e => hk e.symm
      simp [hk, hk']
  · rw [List.nodup_cons]
    refine ⟨fun hm => ?_, nodup_toList _⟩
    rw [mem_toList, h] at hm; cases hm

/-- Adding an entry under a new key adds its weight. -/
theorem total_insert (f : V → ℕ) (t : Table K V) {k : K} (v : V) (h : t[k]? = none) :
    total f (t.insert k v) = f v + total f t := by
  unfold total
  rw [((toList_insert_perm t v h).map _).sum_eq]
  simp

/-- Removing an entry removes its weight. -/
theorem total_erase (f : V → ℕ) (t : Table K V) {k : K} {v : V} (h : t[k]? = some v) :
    f v + total f (t.erase k) = total f t := by
  have hback : (t.erase k).insert k v = t := by
    apply ext_get
    intro a
    rw [get_insert, get_erase]
    split
    · subst_vars; exact h.symm
    · rfl
  have hnone : (t.erase k)[k]? = none := by rw [get_erase, if_pos rfl]
  rw [← total_insert f (t.erase k) v hnone, hback]

/-- One entry weighs at most the whole table. -/
theorem le_total (f : V → ℕ) (t : Table K V) {k : K} {v : V} (h : t[k]? = some v) :
    f v ≤ total f t := by
  have := total_erase f t h
  omega

theorem total_putAll (f : V → ℕ) (t : Table K V) (l : List (K × V)) (hl : (l.map Prod.fst).Nodup)
    (ht : ∀ p ∈ l, t[p.1]? = none) : total f (putAll t l) = total f t + (l.map fun p => f p.2).sum := by
  induction l generalizing t with
  | nil => simp
  | cons p l ih =>
    rw [List.map_cons, List.nodup_cons] at hl
    have hrest : ∀ q ∈ l, (t.insert p.1 p.2)[q.1]? = none := by
      intro q hq
      rw [get_insert, if_neg, ht q (List.mem_cons_of_mem _ hq)]
      intro e
      exact hl.1 (List.mem_map.2 ⟨q, hq, e.symm⟩)
    rw [putAll_cons, ih _ hl.2 hrest, total_insert f t _ (ht p List.mem_cons_self), List.map_cons,
      List.sum_cons]
    omega

/-- Distinct keys together weigh at most the whole table. -/
theorem sum_getD_le_total (t : Table K ℕ) {l : List K} (hl : l.Nodup) :
    (l.map fun k => t[k]?.getD 0).sum ≤ total id t := by
  induction l generalizing t with
  | nil => simp
  | cons k l ih =>
    rw [List.nodup_cons] at hl
    rw [List.map_cons, List.sum_cons]
    cases h : t[k]? with
    | none =>
      have := ih t hl.2
      simpa using this
    | some v =>
      have hrest : (l.map fun a => t[a]?.getD 0) = l.map fun a => (t.erase k)[a]?.getD 0 := by
        refine List.map_congr_left fun a ha => ?_
        rw [get_erase, if_neg]
        rintro rfl
        exact hl.1 ha
      have hle := ih (t.erase k) hl.2
      have herase : v + total id (t.erase k) = total id t := total_erase id t h
      rw [hrest, Option.getD_some]
      omega

/-! ## Extension -/

/-- Every entry of `t` is an entry of `t'`. -/
def Ext (t t' : Table K V) : Prop := ∀ (k : K) (v : V), t[k]? = some v → t'[k]? = some v

theorem Ext.refl (t : Table K V) : Ext t t := fun _ _ h => h

theorem Ext.trans {t₁ t₂ t₃ : Table K V} (h : Ext t₁ t₂) (h' : Ext t₂ t₃) : Ext t₁ t₃ :=
  fun k v hk => h' k v (h k v hk)

theorem Ext.insert (t : Table K V) {k : K} (v : V) (h : t[k]? = none) : Ext t (t.insert k v) := by
  intro a w ha
  rw [get_insert, if_neg, ha]
  rintro rfl
  rw [h] at ha; cases ha

end Table
