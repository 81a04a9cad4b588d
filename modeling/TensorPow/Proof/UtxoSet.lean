import TensorPow.Spec.Utxo

/-!
# The UTXO set as a map

What `add` and `remove` do to lookups and to the sum of the amounts, for one entry and
for a list of entries.

* `addAll_ok`: a list of additions that succeeds.
* `addAll_returns`: when a list of additions succeeds.
* `removeAll_ok`: a list of removals that succeeds.
* `ofList_entries`: the copy `UTXOSet(utxo_set.utxos())` is the set itself.
-/

namespace TensorPow

namespace UTXOSet

variable {C : Crypto} {s s' : UTXOSet C} {u : UTXO} {o : Outpoint}

@[simp] theorem get_none : (empty : UTXOSet C).get o = none := Table.get_empty o

theorem ext_get (h : ∀ o, s.get o = s'.get o) : s = s' := ext_utxos (Table.ext_get h)

theorem outpoint_of_get (h : s.get o = some u) : u.outpoint = o := s.outpoint_eq h

/-- The key index has a key exactly when an entry has it. -/
theorem key_eq_none_iff {k : Hash} :
    s.outpointByKey[k]? = none ↔ ∀ o u, s.get o = some u → o.key C ≠ k := by
  constructor
  · intro h o u hu hk
    have := s.key_iff.2 ⟨⟨u, hu⟩, hk⟩
    rw [h] at this
    cases this
  · intro h
    by_contra hne
    obtain ⟨o, ho⟩ := Option.ne_none_iff_exists'.1 hne
    obtain ⟨⟨u, hu⟩, hk⟩ := s.key_iff.1 ho
    exact h o u hu hk

/-- Two entries never share a storage key. -/
theorem key_injOn {o₁ o₂ : Outpoint} {u₁ u₂ : UTXO} (h₁ : s.get o₁ = some u₁) (h₂ : s.get o₂ = some u₂)
    (hk : o₁.key C = o₂.key C) : o₁ = o₂ := by
  have e₁ := s.key_iff.2 ⟨⟨u₁, h₁⟩, hk⟩
  have e₂ := s.key_iff.2 ⟨⟨u₂, h₂⟩, rfl⟩
  exact Option.some.inj (e₁.symm.trans e₂)

/-! ## One entry -/

theorem add_ok_iff : s.add u = .ok s' ↔ s.get u.outpoint = none ∧
    (∀ o v, s.get o = some v → o.key C ≠ u.outpoint.key C) ∧ s'.utxos = s.utxos.insert u.outpoint u := by
  rw [← key_eq_none_iff]
  unfold add
  split
  · rename_i h
    split
    · rename_i hk
      constructor
      · intro e
        cases e
        exact ⟨h, hk, rfl⟩
      · rintro ⟨-, -, e⟩
        rw [Except.ok.injEq]
        exact ext_utxos e.symm
    · rename_i hk
      exact ⟨fun e => (by cases e), fun e => absurd e.2.1 hk⟩
  · rename_i h
    exact ⟨fun e => (by cases e), fun e => absurd e.1 h⟩

theorem get_add (h : s.add u = .ok s') (o : Outpoint) :
    s'.get o = if u.outpoint = o then some u else s.get o := by
  obtain ⟨-, -, hs⟩ := add_ok_iff.1 h
  rw [get, hs, Table.get_insert]
  by_cases ho : u.outpoint = o
  · rw [if_pos ho, if_pos ho]
  · rw [if_neg ho, if_neg ho]
    rfl

theorem total_add (h : s.add u = .ok s') : s'.totalMatoms = s.totalMatoms + u.amountMatoms := by
  obtain ⟨hnone, -, hs⟩ := add_ok_iff.1 h
  rw [totalMatoms, hs, Table.total_insert _ _ _ hnone]
  exact Nat.add_comm _ _

theorem remove_ok_iff : s.remove o = .ok s' ↔ (∃ u, s.get o = some u) ∧ s'.utxos = s.utxos.erase o := by
  unfold remove
  split
  · rename_i u hu
    constructor
    · intro e
      cases e
      exact ⟨⟨u, hu⟩, rfl⟩
    · rintro ⟨-, e⟩
      rw [Except.ok.injEq]
      exact ext_utxos e.symm
  · rename_i hnone
    refine ⟨fun e => (by cases e), ?_⟩
    rintro ⟨⟨u, hu⟩, -⟩
    cases hnone.symm.trans hu

theorem get_remove {p : Outpoint} (h : s.remove p = .ok s') (o : Outpoint) :
    s'.get o = if p = o then none else s.get o := by
  obtain ⟨-, hs⟩ := remove_ok_iff.1 h
  rw [get, hs, Table.get_erase]
  by_cases ho : p = o
  · rw [if_pos ho, if_pos ho]
  · rw [if_neg ho, if_neg ho]
    rfl

theorem total_remove (hu : s.get o = some u) (h : s.remove o = .ok s') :
    s'.totalMatoms + u.amountMatoms = s.totalMatoms := by
  obtain ⟨-, hs⟩ := remove_ok_iff.1 h
  rw [totalMatoms, hs, Nat.add_comm]
  exact Table.total_erase (fun u => u.amountMatoms) s.utxos hu

/-! ## Lists of entries -/

/-- The outpoints were new and pairwise distinct, and the set has grown by the entries. -/
theorem addAll_ok {l : List UTXO} (h : l.foldlM add s = .ok s') :
    (l.map fun u => u.outpoint).Nodup ∧ (∀ u ∈ l, s.get u.outpoint = none) ∧
      (∀ u ∈ l, s'.get u.outpoint = some u) ∧
      (∀ o, o ∉ l.map (fun u => u.outpoint) → s'.get o = s.get o) ∧
      s'.totalMatoms = s.totalMatoms + (l.map fun u => u.amountMatoms).sum := by
  induction l generalizing s with
  | nil =>
    cases h
    simp
  | cons u l ih =>
    obtain ⟨s₁, hadd, hrest⟩ := Exn.foldlM_cons_ok.1 h
    obtain ⟨hnodup, hfresh, hget, hother, htotal⟩ := ih hrest
    have hone := get_add hadd
    have hnew : ∀ v ∈ l, u.outpoint ≠ v.outpoint := by
      intro v hv e
      have := hfresh v hv
      rw [hone, if_pos e] at this
      cases this
    have hnotMem : u.outpoint ∉ l.map fun u => u.outpoint := by
      rw [List.mem_map]
      rintro ⟨v, hv, e⟩
      exact hnew v hv e.symm
    refine ⟨by rw [List.map_cons, List.nodup_cons]; exact ⟨hnotMem, hnodup⟩, ?_, ?_, ?_, ?_⟩
    · intro v hv
      rcases List.mem_cons.1 hv with rfl | hv
      · exact (add_ok_iff.1 hadd).1
      · have := hfresh v hv
        rwa [hone, if_neg (hnew v hv)] at this
    · intro v hv
      rcases List.mem_cons.1 hv with rfl | hv
      · rw [hother _ hnotMem, hone, if_pos rfl]
      · exact hget v hv
    · intro o ho
      rw [List.map_cons, List.mem_cons, not_or] at ho
      rw [hother o ho.2, hone, if_neg (Ne.symm ho.1)]
    · rw [htotal, total_add hadd, List.map_cons, List.sum_cons, Nat.add_assoc]

/-- New and pairwise distinct outpoints can be added if no two outpoints at hand share a
storage key. -/
theorem addAll_returns {l : List UTXO} (hnodup : (l.map fun u => u.outpoint).Nodup)
    (hfresh : ∀ u ∈ l, s.get u.outpoint = none) {S : Set Outpoint} (hinj : Set.InjOn (Outpoint.key C) S)
    (hs : ∀ o u, s.get o = some u → o ∈ S) (hl : ∀ u ∈ l, u.outpoint ∈ S) :
    ∃ s', l.foldlM add s = .ok s' := by
  induction l generalizing s with
  | nil => exact ⟨s, rfl⟩
  | cons u l ih =>
    rw [List.map_cons, List.nodup_cons] at hnodup
    have hu : u.outpoint ∈ S := hl u List.mem_cons_self
    -- two outpoints with one key would be a collision
    have hkey : s.outpointByKey[u.outpoint.key C]? = none := by
      rw [key_eq_none_iff]
      intro o v hv e
      have := hinj (hs o v hv) hu e
      rw [this, hfresh u List.mem_cons_self] at hv
      cases hv
    have hnone : s.utxos[u.outpoint]? = none := hfresh u List.mem_cons_self
    have hadd : s.add u = .ok (s.insertNew u hnone hkey) := by
      rw [add, dif_pos hnone, dif_pos hkey]
    have hone := get_add hadd
    obtain ⟨s', hs'⟩ := ih hnodup.2
      (by
        intro v hv
        rw [hone, if_neg, hfresh v (List.mem_cons_of_mem _ hv)]
        intro e
        exact hnodup.1 (List.mem_map.2 ⟨v, hv, e.symm⟩))
      (by
        intro o v hv
        rw [hone] at hv
        split at hv
        · rename_i e
          exact e ▸ hu
        · exact hs o v hv)
      fun v hv => hl v (List.mem_cons_of_mem _ hv)
    exact ⟨s', Exn.foldlM_cons_ok.2 ⟨_, hadd, hs'⟩⟩

/-- The outpoints were present and pairwise distinct, and the set has shrunk by them. -/
theorem removeAll_ok {l : List Outpoint} (h : l.foldlM remove s = .ok s') :
    l.Nodup ∧ (∀ o ∈ l, ∃ u, s.get o = some u) ∧ (∀ o ∈ l, s'.get o = none) ∧
      (∀ o, o ∉ l → s'.get o = s.get o) ∧
      s'.totalMatoms + (l.map fun o => ((s.get o).map fun u => u.amountMatoms).getD 0).sum = s.totalMatoms := by
  induction l generalizing s with
  | nil =>
    cases h
    simp
  | cons p l ih =>
    obtain ⟨s₁, hrem, hrest⟩ := Exn.foldlM_cons_ok.1 h
    obtain ⟨hnodup, hpresent, hgone, hother, htotal⟩ := ih hrest
    obtain ⟨⟨u, hu⟩, -⟩ := remove_ok_iff.1 hrem
    have hone := get_remove hrem
    -- a second removal of the same outpoint would have failed
    have hnot : p ∉ l := by
      intro hp
      obtain ⟨v, hv⟩ := hpresent p hp
      rw [hone, if_pos rfl] at hv
      cases hv
    have hne : ∀ o ∈ l, p ≠ o := fun o ho e => hnot (e ▸ ho)
    refine ⟨List.nodup_cons.2 ⟨hnot, hnodup⟩, ?_, ?_, ?_, ?_⟩
    · intro o ho
      rcases List.mem_cons.1 ho with rfl | ho
      · exact ⟨u, hu⟩
      · obtain ⟨v, hv⟩ := hpresent o ho
        rw [hone, if_neg (hne o ho)] at hv
        exact ⟨v, hv⟩
    · intro o ho
      rcases List.mem_cons.1 ho with rfl | ho
      · rw [hother _ hnot, hone, if_pos rfl]
      · exact hgone o ho
    · intro o ho
      rw [List.mem_cons, not_or] at ho
      rw [hother o ho.2, hone, if_neg (Ne.symm ho.1)]
    · have hmap : (l.map fun o => ((s₁.get o).map fun u => u.amountMatoms).getD 0) =
          l.map fun o => ((s.get o).map fun u => u.amountMatoms).getD 0 := by
        refine List.map_congr_left fun o ho => ?_
        rw [hone, if_neg (hne o ho)]
      have hp := total_remove hu hrem
      rw [hmap] at htotal
      rw [List.map_cons, List.sum_cons, hu, Option.map_some, Option.getD_some]
      omega

/-- Present and pairwise distinct outpoints can be removed. -/
theorem removeAll_returns {l : List Outpoint} (hnodup : l.Nodup) (hpresent : ∀ o ∈ l, ∃ u, s.get o = some u) :
    ∃ s', l.foldlM remove s = .ok s' := by
  induction l generalizing s with
  | nil => exact ⟨s, rfl⟩
  | cons p l ih =>
    rw [List.nodup_cons] at hnodup
    obtain ⟨u, hu⟩ := hpresent p List.mem_cons_self
    have hrem : s.remove p = .ok (s.eraseOld p u hu) := by
      unfold remove
      split
      · rename_i v hv
        cases hu.symm.trans hv
        rfl
      · rename_i hnone
        cases hnone.symm.trans hu
    obtain ⟨s', hs'⟩ := ih (s := s.eraseOld p u hu) hnodup.2 (by
      intro o ho
      obtain ⟨v, hv⟩ := hpresent o (List.mem_cons_of_mem _ ho)
      refine ⟨v, ?_⟩
      rw [get_remove hrem, if_neg, hv]
      rintro rfl
      exact hnodup.1 ho)
    exact ⟨s', Exn.foldlM_cons_ok.2 ⟨_, hrem, hs'⟩⟩

theorem mem_entries : u ∈ s.entries ↔ s.get u.outpoint = some u := by
  unfold entries
  rw [List.mem_map]
  constructor
  · rintro ⟨⟨o, v⟩, hv, rfl⟩
    have hv := Table.mem_toList.1 hv
    cases s.outpoint_eq hv
    exact hv
  · intro h
    exact ⟨(u.outpoint, u), Table.mem_toList.2 h, rfl⟩

theorem nodup_entries : (s.entries.map fun u => u.outpoint).Nodup := by
  have hkeys : s.entries.map (fun u => u.outpoint) = s.utxos.keys := by
    rw [← Std.ExtTreeMap.map_fst_toList_eq_keys, entries, List.map_map]
    refine List.map_congr_left ?_
    rintro ⟨o, v⟩ hv
    exact s.outpoint_eq (Table.mem_toList.1 hv)
  rw [hkeys]
  exact s.utxos.nodup_keys

/-- Adding the entries of a set in any order gives the set. -/
theorem ofList_members {l : List UTXO} (hnodup : (l.map fun u => u.outpoint).Nodup)
    (hmem : ∀ u, u ∈ l ↔ s.get u.outpoint = some u) : ofList l = .ok s := by
  have hinj : Set.InjOn (Outpoint.key C) {o | ∃ u, s.get o = some u} := by
    rintro o₁ ⟨u₁, h₁⟩ o₂ ⟨u₂, h₂⟩ hk
    exact key_injOn h₁ h₂ hk
  obtain ⟨t, ht⟩ := addAll_returns (s := (empty : UTXOSet C)) hnodup (fun _ _ => get_none) hinj
    (fun o u hu => by rw [get_none] at hu; cases hu) (fun u hu => ⟨u, (hmem u).1 hu⟩)
  obtain ⟨-, -, hget, hother, -⟩ := addAll_ok ht
  have hts : t = s := by
    refine ext_get fun o => ?_
    cases hs : s.get o with
    | some u =>
      have ho := outpoint_of_get hs
      subst ho
      exact hget u ((hmem u).2 hs)
    | none =>
      rw [hother o ?_, get_none]
      rintro ho
      obtain ⟨u, hu, rfl⟩ := List.mem_map.1 ho
      rw [(hmem u).1 hu] at hs
      cases hs
  rw [ofList, ht, hts]

/-- The copy `UTXOSet(utxo_set.utxos())` is the set itself. -/
theorem ofList_entries (s : UTXOSet C) : ofList s.entries = .ok s :=
  ofList_members s.nodup_entries fun _ => mem_entries

end UTXOSet

end TensorPow
