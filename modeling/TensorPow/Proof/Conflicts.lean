import TensorPow.Conflict.Basic
import TensorPow.Proof.Conservation

/-!
# Which spends of an anchor are applied

* `CoveredSpend`, `coveredSpends`: the spends of the covered fruits, in canonical order;
  `applyAnchorFruits` is one loop over them (`applyAnchorFruits_spends`).
* `appliedTxs`: the transactions that are applied.
* `SkipsOnlyConflicts`: every transaction that is not applied lost to an applied one, or
  depends on one that is not applied.
* `Misread`: a transaction without a conflict depends on a repeated one. The loop is the
  resolution of the conflicts alone exactly where there is none (`applied_iff`).
-/

namespace TensorPow

open Wire Sorted

variable {C : Crypto}

namespace Node

/-! ## One loop over the spends -/

/-- A spend of a covered fruit. -/
structure CoveredSpend (C : Crypto) where
  fruitHash : Hash
  fruit : Fruit C
  tx : Transaction

/-- The spends of a stored fruit, in order. -/
def spendsOf (n : Node C) (fruitHash : Hash) : List (CoveredSpend C) :=
  match n.loadFruit fruitHash with
  | none => []
  | some fruit =>
    match fruitTxs fruit with
    | .ok txs => txs.tail.map fun tx => ⟨fruitHash, fruit, tx⟩
    | .error _ => []

/-- The spends of the covered fruits in canonical order. -/
def coveredSpends (n : Node C) (covered : List Hash) : Except Stop (List (CoveredSpend C)) := do
  let ordered ← n.canonicalCoveredFruitOrder covered
  return ordered.flatMap n.spendsOf

/-- One step of the loop. -/
def applySpend (shardTree : ShardTree) (feeFloors : Table ℕ ℕ) (height : ℕ) (s : FruitsRun C)
    (p : CoveredSpend C) : Except Stop (FruitsRun C) :=
  applyFruitTx shardTree (feeFloors[p.fruit.header.shardId]?.getD 0) height p.fruitHash p.fruit s p.tx

/-- Where the loop starts. -/
def FruitsRun.start (staged : UTXOSet C) : FruitsRun C := ⟨staged, ∅, [], ∅, ∅, ∅⟩

variable {n : Node C} {shardTree : ShardTree} {feeFloors : Table ℕ ℕ} {height : ℕ}
  {s s' t : FruitsRun C} {spends : List (CoveredSpend C)} {p : CoveredSpend C}

/-- A split of a longer list ends it, or splits the list. -/
theorem split_snoc {α : Type} {before l r : List α} {a b : α} (h : before ++ [a] = l ++ b :: r) :
    (l = before ∧ b = a) ∨ ∃ r', before = l ++ b :: r' := by
  rcases List.eq_nil_or_concat r with rfl | ⟨r', q, rfl⟩
  · obtain ⟨rfl, hb⟩ := List.append_inj' h rfl
    cases hb
    exact .inl ⟨rfl, rfl⟩
  · rw [List.concat_eq_append, ← List.cons_append, ← List.append_assoc] at h
    obtain ⟨rfl, -⟩ := List.append_inj' h rfl
    exact .inr ⟨r', rfl⟩

theorem mem_spendsOf {fruitHash : Hash} : p ∈ n.spendsOf fruitHash ↔
    p.fruitHash = fruitHash ∧ n.IsSpend fruitHash p.fruit p.tx := by
  unfold spendsOf IsSpend
  constructor
  · intro hp
    split at hp
    · cases hp
    · rename_i fruit hfruit
      split at hp
      · rename_i txs htxs
        obtain ⟨tx, htx, rfl⟩ := List.mem_map.1 hp
        exact ⟨rfl, hfruit, txs, htxs, htx⟩
      · cases hp
  · rintro ⟨rfl, hfruit, txs, htxs, htx⟩
    simp only [hfruit, htxs, List.mem_map]
    exact ⟨p.tx, htx, rfl⟩

theorem applyFruit_spends {fruitHash : Hash} (h : n.applyFruit shardTree feeFloors height s fruitHash = .ok s') :
    (n.spendsOf fruitHash).foldlM (applySpend shardTree feeFloors height) s = .ok s' := by
  simp only [applyFruit, Exn.bind_ok, Exn.get_ok] at h
  obtain ⟨fruit, hfruit, txs, htxs, h⟩ := h
  unfold spendsOf
  simp only [hfruit, htxs]
  rw [List.foldlM_map]
  exact h

theorem applyFruits_spends {ordered : List Hash}
    (h : ordered.foldlM (n.applyFruit shardTree feeFloors height) s = .ok s') :
    (ordered.flatMap n.spendsOf).foldlM (applySpend shardTree feeFloors height) s = .ok s' := by
  induction ordered generalizing s with
  | nil => exact h
  | cons fruitHash ordered ih =>
    obtain ⟨t, ht, h⟩ := Exn.foldlM_cons_ok.1 h
    rw [List.flatMap_cons, Exn.foldlM_append_ok]
    exact ⟨t, applyFruit_spends ht, ih h⟩

/-- `_apply_anchor_fruits` is one loop over the covered spends. -/
theorem applyAnchorFruits_spends {anchor : Anchor C} {staged : UTXOSet C}
    (h : n.applyAnchorFruits anchor staged shardTree feeFloors height = .ok s') :
    ∃ spends, n.coveredSpends anchor.coveredFruitHashes = .ok spends ∧
      spends.foldlM (applySpend shardTree feeFloors height) (FruitsRun.start staged) = .ok s' ∧
      ∀ p ∈ spends, p.fruitHash ∈ anchor.coveredFruitHashes ∧ n.IsSpend p.fruitHash p.fruit p.tx := by
  obtain ⟨ordered, hordered, h⟩ := Exn.bind_ok.1 h
  rw [noneAs_ok] at hordered
  refine ⟨ordered.flatMap n.spendsOf, Exn.bind_ok.2 ⟨ordered, hordered, rfl⟩, applyFruits_spends h, fun p hp => ?_⟩
  obtain ⟨fruitHash, hmem, hp⟩ := List.mem_flatMap.1 hp
  obtain ⟨rfl, hspend⟩ := mem_spendsOf.1 hp
  have hperm := canonicalCoveredFruitOrder_perm hordered
  exact ⟨by simpa using hperm.mem_iff.1 hmem, hspend⟩

/-! ## Applied and skipped spends -/

instance (s : FruitsRun C) (tx : Transaction) : Decidable (Skipped s tx) :=
  inferInstanceAs (Decidable (∃ o ∈ tx.spent, o ∈ s.spentOutpoints ∨ o.txId ∈ s.skippedTxIds))

/-- The transactions the loop applies, in order. -/
def appliedTxs (shardTree : ShardTree) (feeFloors : Table ℕ ℕ) (height : ℕ) :
    FruitsRun C → List (CoveredSpend C) → List Transaction
  | _, [] => []
  | s, p :: spends =>
    match applySpend shardTree feeFloors height s p with
    | .ok s' =>
      (if Skipped s p.tx then [] else [p.tx]) ++ appliedTxs shardTree feeFloors height s' spends
    | .error _ => []

theorem appliedTxs_cons (h : applySpend shardTree feeFloors height s p = .ok s') :
    appliedTxs shardTree feeFloors height s (p :: spends) =
      (if Skipped s p.tx then [] else [p.tx]) ++ appliedTxs shardTree feeFloors height s' spends := by
  rw [appliedTxs, h]

theorem appliedTxs_append {before after : List (CoveredSpend C)}
    (h : before.foldlM (applySpend shardTree feeFloors height) s = .ok s') :
    appliedTxs shardTree feeFloors height s (before ++ after) =
      appliedTxs shardTree feeFloors height s before ++ appliedTxs shardTree feeFloors height s' after := by
  induction before generalizing s with
  | nil =>
    cases h
    rfl
  | cons p before ih =>
    obtain ⟨t, ht, h⟩ := Exn.foldlM_cons_ok.1 h
    rw [List.cons_append, appliedTxs_cons ht, appliedTxs_cons ht, ih h, List.append_assoc]

/-- What the two sets of the loop hold after a prefix of the spends. -/
structure Sets (shardTree : ShardTree) (feeFloors : Table ℕ ℕ) (height : ℕ) (s₀ : FruitsRun C)
    (before : List (CoveredSpend C)) (s : FruitsRun C) : Prop where
  spent : ∀ o, o ∈ s.spentOutpoints ↔ ∃ a ∈ appliedTxs shardTree feeFloors height s₀ before, o ∈ a.spent
  /-- A skipped id was skipped at some point of the prefix. -/
  skipped : ∀ id, id ∈ s.skippedTxIds ↔ ∃ l p r t, before = l ++ p :: r ∧
    l.foldlM (applySpend shardTree feeFloors height) s₀ = .ok t ∧ Skipped t p.tx ∧ p.tx.txId C = id

theorem sets_of_run {staged : UTXOSet C}
    (h : spends.foldlM (applySpend shardTree feeFloors height) (.start staged) = .ok s) :
    Sets shardTree feeFloors height (.start staged) spends s := by
  induction spends using List.reverseRecOn generalizing s with
  | nil =>
    cases h
    exact ⟨fun o => by simp [FruitsRun.start, appliedTxs], fun id => by simp [FruitsRun.start]⟩
  | append_singleton before p ih =>
    obtain ⟨t, ht, h⟩ := Exn.foldlM_append_ok.1 h
    obtain ⟨s', hs', h⟩ := Exn.foldlM_cons_ok.1 h
    cases h
    have hprev := ih ht
    -- the transactions met in a skipping state: those of the prefix, and perhaps the last
    have hlast : ∀ {id}, (∃ l p' r t', before ++ [p] = l ++ p' :: r ∧
        l.foldlM (applySpend shardTree feeFloors height) (.start staged) = .ok t' ∧ Skipped t' p'.tx ∧
        p'.tx.txId C = id) ↔ id ∈ t.skippedTxIds ∨ (Skipped t p.tx ∧ p.tx.txId C = id) := by
      intro id
      rw [hprev.skipped]
      constructor
      · rintro ⟨l, p', r, t', heq, hl, hskip, hid⟩
        rcases split_snoc heq with ⟨rfl, rfl⟩ | ⟨r', hr'⟩
        · cases ht.symm.trans hl
          exact .inr ⟨hskip, hid⟩
        · exact .inl ⟨l, p', r', t', hr', hl, hskip, hid⟩
      · rintro (⟨l, p', r, t', rfl, hl, hskip, hid⟩ | ⟨hskip, hid⟩)
        · exact ⟨l, p', r ++ [p], t', by simp, hl, hskip, hid⟩
        · exact ⟨before, p, [], t, rfl, ht, hskip, hid⟩
    have happend : appliedTxs shardTree feeFloors height (.start staged) (before ++ [p]) =
        appliedTxs shardTree feeFloors height (.start staged) before ++ appliedTxs shardTree feeFloors height t [p] :=
      appliedTxs_append ht
    rw [appliedTxs_cons hs'] at happend
    rcases applyFruitTx_ok hs' with ⟨hskip, rfl⟩ | ⟨hnot, view, tip, l, staged', -, -, -, rfl⟩
    · rw [if_pos hskip] at happend
      refine ⟨fun o => ?_, fun id => ?_⟩
      · rw [happend]
        simpa [appliedTxs, FruitsRun.skip] using hprev.spent o
      · rw [hlast]
        simp only [FruitsRun.skip, Finset.mem_insert, hskip, true_and]
        rw [or_comm, eq_comm]
    · rw [if_neg hnot] at happend
      refine ⟨fun o => ?_, fun id => ?_⟩
      · rw [happend]
        simp only [FruitsRun.apply, Finset.mem_union, List.mem_toFinset, hprev.spent, appliedTxs, List.append_nil,
          List.mem_append, List.mem_singleton]
        constructor
        · rintro (⟨a, ha, ho⟩ | ho)
          · exact ⟨a, .inl ha, ho⟩
          · exact ⟨p.tx, .inr rfl, ho⟩
        · rintro ⟨a, ha | rfl, ho⟩
          · exact .inl ⟨a, ha, ho⟩
          · exact .inr ho
      · rw [hlast]
        simp [FruitsRun.apply, hnot]

theorem mem_appliedTxs (h : spends.foldlM (applySpend shardTree feeFloors height) s = .ok s') {tx : Transaction} :
    tx ∈ appliedTxs shardTree feeFloors height s spends ↔ ∃ l p r t, spends = l ++ p :: r ∧
      l.foldlM (applySpend shardTree feeFloors height) s = .ok t ∧ ¬Skipped t p.tx ∧ p.tx = tx := by
  constructor
  · intro hmem
    induction spends generalizing s with
    | nil => cases hmem
    | cons p spends ih =>
      obtain ⟨t, ht, h⟩ := Exn.foldlM_cons_ok.1 h
      rw [appliedTxs_cons ht, List.mem_append] at hmem
      rcases hmem with hmem | hmem
      · split at hmem
        · cases hmem
        · rename_i hnot
          exact ⟨[], p, spends, s, rfl, rfl, hnot, (List.mem_singleton.1 hmem).symm⟩
      · obtain ⟨l, q, r, u, rfl, hl, hnot, hq⟩ := ih h hmem
        exact ⟨p :: l, q, r, u, rfl, Exn.foldlM_cons_ok.2 ⟨t, ht, hl⟩, hnot, hq⟩
  · rintro ⟨l, p, r, t, rfl, hl, hnot, rfl⟩
    obtain ⟨t', ht', h⟩ := Exn.foldlM_append_ok.1 h
    cases hl.symm.trans ht'
    obtain ⟨u, hu, -⟩ := Exn.foldlM_cons_ok.1 h
    rw [appliedTxs_append hl, appliedTxs_cons hu, if_neg hnot]
    simp

variable {staged : UTXOSet C} {l r : List (CoveredSpend C)} {q : CoveredSpend C} {tx : Transaction}

/-- Once skipped, always skipped. -/
theorem Skipped.later (hl : l.foldlM (applySpend shardTree feeFloors height) (.start staged) = .ok s)
    (hlr : (l ++ r).foldlM (applySpend shardTree feeFloors height) (.start staged) = .ok t)
    (h : Skipped s tx) : Skipped t tx := by
  obtain ⟨o, ho, hskip⟩ := h
  have hs := sets_of_run hl
  have ht := sets_of_run hlr
  refine ⟨o, ho, hskip.imp (fun h => ?_) fun h => ?_⟩
  · obtain ⟨a, ha, hoa⟩ := (hs.spent o).1 h
    rw [ht.spent, appliedTxs_append hl]
    exact ⟨a, List.mem_append_left _ ha, hoa⟩
  · obtain ⟨l₁, p, r₁, u, rfl, hu, hskip, hid⟩ := (hs.skipped _).1 h
    exact (ht.skipped _).2 ⟨l₁, p, r₁ ++ r, u, by simp, hu, hskip, hid⟩

/-- A transaction that is applied, yet skipped at some point, occurred before that point. -/
theorem occurs_before_skip (hrun : spends.foldlM (applySpend shardTree feeFloors height) (.start staged) = .ok s')
    (hsplit : spends = l ++ q :: r) (hl : l.foldlM (applySpend shardTree feeFloors height) (.start staged) = .ok t)
    (hskip : Skipped t q.tx) (happ : q.tx ∈ appliedTxs shardTree feeFloors height (.start staged) spends) :
    ∃ p ∈ l, p.tx = q.tx := by
  obtain ⟨l', p, r', u, hsplit', hu, hnot, hp⟩ := (mem_appliedTxs hrun).1 happ
  rw [hsplit] at hsplit'
  rcases List.append_eq_append_iff.1 hsplit' with ⟨m, rfl, -⟩ | ⟨m, rfl, hm⟩
  · exact absurd (hp ▸ Skipped.later hl hu hskip) hnot
  · cases m with
    | nil =>
      rw [List.append_nil] at hl
      cases hl.symm.trans hu
      exact absurd (hp ▸ hskip) hnot
    | cons p' m =>
      rw [List.cons_append, List.cons.injEq] at hm
      exact ⟨p', by simp, by rw [← hm.1, hp]⟩

/-! ## When only conflicts are skipped -/

/-- Every covered transaction that is not applied has an input that a different, applied
transaction spends, or that belongs to a covered transaction that is not applied. -/
def SkipsOnlyConflicts (shardTree : ShardTree) (feeFloors : Table ℕ ℕ) (height : ℕ) (staged : UTXOSet C)
    (spends : List (CoveredSpend C)) : Prop :=
  ∀ p ∈ spends, p.tx ∉ appliedTxs shardTree feeFloors height (.start staged) spends →
    ∃ o ∈ p.tx.spent,
      (∃ a ∈ appliedTxs shardTree feeFloors height (.start staged) spends, a ≠ p.tx ∧ o ∈ a.spent) ∨
      ∃ q ∈ spends, q.tx.txId C = o.txId ∧ q.tx ∉ appliedTxs shardTree feeFloors height (.start staged) spends

/-- What an applied transaction spends, a later occurrence of it finds spent. -/
theorem skipped_of_applied (ht : l.foldlM (applySpend shardTree feeFloors height) (.start staged) = .ok t)
    (happ : tx ∈ appliedTxs shardTree feeFloors height (.start staged) l) : Skipped t tx := by
  obtain ⟨before, p, after, u, hsplit, hu, hnot, rfl⟩ := (mem_appliedTxs ht).1 happ
  have hne : p.tx.spent ≠ [] := by
    rw [hsplit] at ht
    obtain ⟨u', hu', h⟩ := Exn.foldlM_append_ok.1 ht
    cases hu.symm.trans hu'
    obtain ⟨v, hv, -⟩ := Exn.foldlM_cons_ok.1 h
    rcases applyFruitTx_ok hv with ⟨hskip, -⟩ | ⟨-, view, tip, l, staged', happlied, -⟩
    · exact absurd hskip hnot
    · exact happlied.spent_ne_nil
  obtain ⟨o, ho⟩ := List.exists_mem_of_ne_nil _ hne
  exact ⟨o, ho, .inl (((sets_of_run ht).spent o).2 ⟨p.tx, happ, ho⟩)⟩

/-- A transaction that is skipped where it comes for the first time is never applied. -/
theorem not_applied_of_skipped (hrun : spends.foldlM (applySpend shardTree feeFloors height) (.start staged) = .ok s')
    (hsplit : spends = l ++ q :: r) (hl : l.foldlM (applySpend shardTree feeFloors height) (.start staged) = .ok t)
    (hskip : Skipped t q.tx) (hfirst : q.tx ∉ l.map CoveredSpend.tx) :
    q.tx ∉ appliedTxs shardTree feeFloors height (.start staged) spends := by
  intro happ
  obtain ⟨p, hp, heq⟩ := occurs_before_skip hrun hsplit hl hskip happ
  exact hfirst (List.mem_map.2 ⟨p, hp, heq⟩)

theorem applied_append (hrun : (l ++ r).foldlM (applySpend shardTree feeFloors height) (.start staged) = .ok t)
    (ha : tx ∈ appliedTxs shardTree feeFloors height (.start staged) l) :
    tx ∈ appliedTxs shardTree feeFloors height (.start staged) (l ++ r) := by
  obtain ⟨u, hu, -⟩ := Exn.foldlM_append_ok.1 hrun
  rw [appliedTxs_append hu]
  exact List.mem_append_left _ ha

/-! ## The conflicts alone -/

section Resolution

variable (C)

/-- What transactions spend, and their ids. -/
def rules : Conflict.Rules Transaction Outpoint Hash where
  spent := Transaction.spent
  ident tx := tx.txId C
  creator o := o.txId

/-- The transactions that are applied, and those that are passed over, if only conflicts decide
and a transaction that was applied is left alone when it comes again. -/
def resolution (txs : List Transaction) : Conflict.Resolution Transaction := Conflict.resolve (rules C) txs

/-- A transaction that comes for the first time, and without a conflict, spends an output of one
that came twice. -/
def MisreadAt (before : List Transaction) (tx : Transaction) : Prop :=
  tx ∉ before ∧ ¬(resolution C before).Conflicts (rules C) tx ∧
    ∃ o ∈ tx.spent, ∃ parent ∈ before, parent.txId C = o.txId ∧ 2 ≤ before.count parent

/-- Some transaction of the list is one that the loop takes for a conflict. -/
def Misread (txs : List Transaction) : Prop :=
  ∃ before tx after, txs = before ++ tx :: after ∧ MisreadAt C before tx

/-- No transaction that first comes with or after `tx` takes an output that `tx` spends, or has
the id of one of them. -/
def Uncontested (before : List Transaction) (tx : Transaction) (after : List Transaction) : Prop :=
  ∀ x ∈ tx :: after, x ∉ before → ∀ o ∈ tx.spent, x.txId C ≠ o.txId ∧ (x ≠ tx → o ∉ x.spent)

variable {C}

instance (before : List Transaction) (tx : Transaction) : Decidable (MisreadAt C before tx) :=
  inferInstanceAs (Decidable (tx ∉ before ∧ ¬(Conflict.resolve (rules C) before).Conflicts (rules C) tx ∧
    ∃ o ∈ tx.spent, ∃ parent ∈ before, parent.txId C = o.txId ∧ 2 ≤ before.count parent))

variable {txs before after : List Transaction}

theorem misread_iff_get : Misread C txs ↔ ∃ i : Fin txs.length, MisreadAt C (txs.take i.val) (txs.get i) := by
  constructor
  · rintro ⟨before, tx, after, rfl, h⟩
    refine ⟨⟨before.length, by simp⟩, ?_⟩
    rw [List.take_left]
    simpa using h
  · rintro ⟨i, h⟩
    refine ⟨txs.take i.val, txs.get i, txs.drop (i.val + 1), ?_, h⟩
    rw [List.get_eq_getElem, ← List.drop_eq_getElem_cons i.isLt, List.take_append_drop]

instance (txs : List Transaction) : Decidable (Misread C txs) := decidable_of_iff _ misread_iff_get.symm

theorem misread_snoc : Misread C (txs ++ [tx]) ↔ Misread C txs ∨ MisreadAt C txs tx := by
  constructor
  · rintro ⟨before, x, after, heq, h⟩
    rcases split_snoc heq with ⟨rfl, rfl⟩ | ⟨after', hsplit⟩
    · exact .inr h
    · exact .inl ⟨before, x, after', hsplit, h⟩
  · rintro (⟨before, x, after, rfl, h⟩ | h)
    · exact ⟨before, x, after ++ [tx], by simp, h⟩
    · exact ⟨txs, tx, [], rfl, h⟩

/-- The first transaction that is misread. -/
theorem exists_first_misread (h : Misread C txs) :
    ∃ before tx after, txs = before ++ tx :: after ∧ ¬Misread C before ∧ MisreadAt C before tx := by
  induction txs using List.reverseRecOn with
  | nil =>
    obtain ⟨before, tx, after, hnil, -⟩ := h
    cases before <;> cases hnil
  | append_singleton txs x ih =>
    by_cases hold : Misread C txs
    · obtain ⟨before, tx, after, rfl, hfirst, hat⟩ := ih hold
      exact ⟨before, tx, after ++ [x], by simp, hfirst, hat⟩
    · exact ⟨txs, x, [], rfl, hold, (misread_snoc.1 h).resolve_left hold⟩

end Resolution

/-- What the loop and the resolution agree on after a prefix of the spends; besides what was passed
over, the loop has skipped whatever came twice. -/
structure Agrees (shardTree : ShardTree) (feeFloors : Table ℕ ℕ) (height : ℕ) (staged : UTXOSet C)
    (l : List (CoveredSpend C)) (t : FruitsRun C) : Prop where
  applied : appliedTxs shardTree feeFloors height (.start staged) l = (resolution C (l.map CoveredSpend.tx)).applied
  skipped : ∀ id, id ∈ t.skippedTxIds ↔ (∃ b ∈ (resolution C (l.map CoveredSpend.tx)).skipped, b.txId C = id) ∨
    ∃ b, b.txId C = id ∧ 2 ≤ (l.map CoveredSpend.tx).count b

/-- Where a transaction is not misread, the loop skips it exactly for a conflict. -/
theorem Agrees.skipped_iff (h : Agrees shardTree feeFloors height staged l t)
    (ht : l.foldlM (applySpend shardTree feeFloors height) (.start staged) = .ok t)
    (hnot : ¬MisreadAt C (l.map CoveredSpend.tx) tx)
    (hnew : tx ∉ (resolution C (l.map CoveredSpend.tx)).applied) :
    Skipped t tx ↔ (resolution C (l.map CoveredSpend.tx)).Conflicts (rules C) tx := by
  have hsets := sets_of_run ht
  have hresolves := Conflict.resolves (rules C) (l.map CoveredSpend.tx)
  constructor
  · rintro ⟨o, ho, hspent | hskipped⟩
    · obtain ⟨a, ha, hoa⟩ := (hsets.spent o).1 hspent
      exact ⟨o, ho, .inl ⟨a, h.applied ▸ ha, hoa⟩⟩
    · rcases (h.skipped _).1 hskipped with ⟨b, hb, hid⟩ | ⟨b, hid, htwo⟩
      · exact ⟨o, ho, .inr ⟨b, hb, hid⟩⟩
      · -- a repeated parent: without a conflict this would be the misread
        by_contra hc
        have hfirst : tx ∉ l.map CoveredSpend.tx := by
          intro hmem
          exact hc (hresolves.conflicts tx (((hresolves.mem_iff tx).1 hmem).resolve_left hnew))
        exact hnot ⟨hfirst, hc, o, ho, b, List.count_pos_iff.1 (by omega), hid, htwo⟩
  · rintro ⟨o, ho, ⟨a, ha, hoa⟩ | ⟨b, hb, hid⟩⟩
    · exact ⟨o, ho, .inl ((hsets.spent o).2 ⟨a, h.applied ▸ ha, hoa⟩)⟩
    · exact ⟨o, ho, .inr ((h.skipped _).2 (.inl ⟨b, hb, hid⟩))⟩

theorem two_le_count_snoc {txs : List Transaction} {b : Transaction} :
    2 ≤ (txs ++ [tx]).count b ↔ 2 ≤ txs.count b ∨ b = tx ∧ tx ∈ txs := by
  rw [List.count_append]
  by_cases hb : b = tx
  · subst hb
    have hmem := List.count_pos_iff (a := b) (l := txs)
    rw [List.count_singleton_self]
    simp only [true_and]
    rw [← hmem]
    omega
  · rw [List.count_singleton, if_neg (by simpa using fun h => hb h.symm)]
    simp [hb]

/-- **Without a misread the loop is the resolution of the conflicts.** -/
theorem agrees_of_run (ht : l.foldlM (applySpend shardTree feeFloors height) (.start staged) = .ok t)
    (hnot : ¬Misread C (l.map CoveredSpend.tx)) : Agrees shardTree feeFloors height staged l t := by
  induction l using List.reverseRecOn generalizing t with
  | nil =>
    cases ht
    exact ⟨rfl, fun id => by simp [FruitsRun.start, resolution, Conflict.resolve]⟩
  | append_singleton l p ih =>
    obtain ⟨u, hu, h⟩ := Exn.foldlM_append_ok.1 ht
    obtain ⟨t', hstep, h⟩ := Exn.foldlM_cons_ok.1 h
    cases h
    rw [List.map_append, List.map_singleton, misread_snoc, not_or] at hnot
    have hprev := ih hu hnot.1
    have happend : appliedTxs shardTree feeFloors height (.start staged) (l ++ [p]) =
        appliedTxs shardTree feeFloors height (.start staged) l ++ (if Skipped u p.tx then [] else [p.tx]) := by
      rw [appliedTxs_append hu, appliedTxs_cons hstep, appliedTxs, List.append_nil]
    have hresolves := Conflict.resolves (rules C) (l.map CoveredSpend.tx)
    have hsnoc : resolution C (l.map CoveredSpend.tx ++ [p.tx]) = (resolution C (l.map CoveredSpend.tx)).step (rules C) p.tx :=
      Conflict.resolve_snoc _ _ _
    -- the ids of a step that skips, and of one that applies
    have hskips (hskip : Skipped u p.tx) (id : Hash) : id ∈ t.skippedTxIds ↔ p.tx.txId C = id ∨ id ∈ u.skippedTxIds := by
      rcases applyFruitTx_ok hstep with ⟨-, rfl⟩ | ⟨hns, -⟩
      · rw [FruitsRun.skip, Finset.mem_insert, eq_comm]
      · exact absurd hskip hns
    by_cases happ : p.tx ∈ (resolution C (l.map CoveredSpend.tx)).applied
    · -- an applied one comes again: both leave it alone, and the loop counts it as skipped
      have hmem : p.tx ∈ l.map CoveredSpend.tx := (hresolves.mem_iff _).2 (.inl happ)
      have hskip := skipped_of_applied hu (hprev.applied ▸ happ)
      constructor
      · rw [happend, if_pos hskip, List.append_nil, List.map_append, List.map_singleton, hsnoc,
          Conflict.Resolution.step_applied happ]
        exact hprev.applied
      · intro id
        rw [hskips hskip, hprev.skipped, List.map_append, List.map_singleton, hsnoc,
          Conflict.Resolution.step_applied happ]
        simp only [two_le_count_snoc, hmem, and_true]
        constructor
        · rintro (hid | hold | ⟨b, hid, htwo⟩)
          · exact .inr ⟨p.tx, hid, .inr rfl⟩
          · exact .inl hold
          · exact .inr ⟨b, hid, .inl htwo⟩
        · rintro (hold | ⟨b, hid, htwo | rfl⟩)
          · exact .inr (.inl hold)
          · exact .inr (.inr ⟨b, hid, htwo⟩)
          · exact .inl hid
    · have hiff := hprev.skipped_iff hu hnot.2 happ
      by_cases hc : (resolution C (l.map CoveredSpend.tx)).Conflicts (rules C) p.tx
      · constructor
        · rw [happend, if_pos (hiff.2 hc), List.append_nil, List.map_append, List.map_singleton, hsnoc,
            Conflict.Resolution.step_conflicts happ hc]
          exact hprev.applied
        · intro id
          rw [hskips (hiff.2 hc), hprev.skipped, List.map_append, List.map_singleton, hsnoc,
            Conflict.Resolution.step_conflicts happ hc]
          simp only [two_le_count_snoc, List.mem_append, List.mem_singleton]
          constructor
          · rintro (hid | ⟨b, hb, hid⟩ | ⟨b, hid, htwo⟩)
            · exact .inl ⟨p.tx, .inr rfl, hid⟩
            · exact .inl ⟨b, .inl hb, hid⟩
            · exact .inr ⟨b, hid, .inl htwo⟩
          · rintro (⟨b, hb | rfl, hid⟩ | ⟨b, hid, htwo | ⟨rfl, -⟩⟩)
            · exact .inr (.inl ⟨b, hb, hid⟩)
            · exact .inl hid
            · exact .inr (.inr ⟨b, hid, htwo⟩)
            · exact .inl hid
      · have hns := mt hiff.1 hc
        have hsame : t.skippedTxIds = u.skippedTxIds := by
          rcases applyFruitTx_ok hstep with ⟨hskip, -⟩ | ⟨-, view, tip, created, staged', -, -, -, rfl⟩
          · exact absurd hskip hns
          · rfl
        -- what came before without being applied conflicts, so this one is new
        have hnew : p.tx ∉ l.map CoveredSpend.tx := by
          intro hmem
          exact hc (hresolves.conflicts _ (((hresolves.mem_iff _).1 hmem).resolve_left happ))
        constructor
        · rw [happend, if_neg hns, List.map_append, List.map_singleton, hsnoc, Conflict.Resolution.step_apply happ hc,
            hprev.applied]
        · intro id
          rw [hsame, hprev.skipped, List.map_append, List.map_singleton, hsnoc, Conflict.Resolution.step_apply happ hc]
          simp only [two_le_count_snoc, hnew, and_false, or_false]

/-- Without a misread only conflicts are skipped. -/
theorem skipsOnlyConflicts_of (hrun : spends.foldlM (applySpend shardTree feeFloors height) (.start staged) = .ok s')
    (hnot : ¬Misread C (spends.map CoveredSpend.tx)) : SkipsOnlyConflicts shardTree feeFloors height staged spends := by
  have hagrees := agrees_of_run hrun hnot
  intro p hp hskip
  rw [hagrees.applied] at hskip ⊢
  obtain ⟨o, ho, hlost | ⟨b, hb, hid, hbn⟩⟩ := Conflict.resolve_skips (R := rules C) (List.mem_map_of_mem hp) hskip
  · exact ⟨o, ho, .inl hlost⟩
  · obtain ⟨q, hq, rfl⟩ := List.mem_map.1 hb
    exact ⟨o, ho, .inr ⟨q, hq, hid, hbn⟩⟩

/-- A transaction that is misread is skipped, and never applied. -/
theorem misread_skipped (hrun : spends.foldlM (applySpend shardTree feeFloors height) (.start staged) = .ok s')
    (hsplit : spends = l ++ q :: r) (hfirst : ¬Misread C (l.map CoveredSpend.tx))
    (hat : MisreadAt C (l.map CoveredSpend.tx) q.tx) :
    q.tx ∉ appliedTxs shardTree feeFloors height (.start staged) spends := by
  obtain ⟨t, ht, -⟩ := Exn.foldlM_append_ok.1 (hsplit ▸ hrun)
  obtain ⟨hnew, -, o, ho, parent, -, hid, htwo⟩ := hat
  have hskip : Skipped t q.tx := ⟨o, ho, .inr (((agrees_of_run ht hfirst).skipped _).2 (.inr ⟨parent, hid, htwo⟩))⟩
  exact not_applied_of_skipped hrun hsplit ht hskip hnew

/-- A split of the transactions is one of the spends. -/
theorem split_spends {before after : List Transaction} (h : spends.map CoveredSpend.tx = before ++ tx :: after) :
    ∃ l q r, spends = l ++ q :: r ∧ l.map CoveredSpend.tx = before ∧ q.tx = tx ∧ r.map CoveredSpend.tx = after := by
  obtain ⟨l, rest, rfl, hl, hrest⟩ := List.map_eq_append_iff.1 h
  obtain ⟨q, r, rfl, hq, hr⟩ := List.map_eq_cons_iff.1 hrest
  exact ⟨l, q, r, rfl, hl, hq, hr⟩

/-- **The loop applies what the resolution applies exactly where nothing is misread.** -/
theorem applied_iff (hrun : spends.foldlM (applySpend shardTree feeFloors height) (.start staged) = .ok s') :
    appliedTxs shardTree feeFloors height (.start staged) spends = (resolution C (spends.map CoveredSpend.tx)).applied ↔
      ¬Misread C (spends.map CoveredSpend.tx) := by
  refine ⟨fun heq hmis => ?_, fun hnot => (agrees_of_run hrun hnot).applied⟩
  obtain ⟨before, tx, after, htxs, hfirst, hat⟩ := exists_first_misread hmis
  obtain ⟨l, q, r, hsplit, rfl, rfl, rfl⟩ := split_spends htxs
  refine misread_skipped hrun hsplit hfirst hat ?_
  -- the resolution applies it where it comes
  have hnew : q.tx ∉ (resolution C (l.map CoveredSpend.tx)).applied :=
    fun h => hat.1 (((Conflict.resolves (rules C) _).mem_iff _).2 (.inl h))
  have happly : q.tx ∈ (resolution C (l.map CoveredSpend.tx ++ [q.tx])).applied := by
    have hsnoc : resolution C (l.map CoveredSpend.tx ++ [q.tx]) = (resolution C (l.map CoveredSpend.tx)).step (rules C) q.tx :=
      Conflict.resolve_snoc _ _ _
    rw [hsnoc, Conflict.Resolution.step_apply hnew hat.2.1]
    exact List.mem_append_right _ (List.mem_singleton.2 rfl)
  rw [heq, htxs, ← List.singleton_append, ← List.append_assoc]
  exact (Conflict.extends_append (rules C) _ _).applied _ happly

/-- Where the first transaction that is misread is not contested later, it is skipped without a
conflict. -/
theorem not_misread_of (hrun : spends.foldlM (applySpend shardTree feeFloors height) (.start staged) = .ok s')
    (hfree : ∀ before tx after, spends.map CoveredSpend.tx = before ++ tx :: after → ¬Misread C before →
      MisreadAt C before tx → Uncontested C before tx after)
    (hskips : SkipsOnlyConflicts shardTree feeFloors height staged spends) : ¬Misread C (spends.map CoveredSpend.tx) := by
  intro hmis
  obtain ⟨before, tx, after, htxs, hfirst, hat⟩ := exists_first_misread hmis
  have hfree := hfree before tx after htxs hfirst hat
  obtain ⟨l, q, r, hsplit, rfl, rfl, rfl⟩ := split_spends htxs
  obtain ⟨t, ht, -⟩ := Exn.foldlM_append_ok.1 (hsplit ▸ hrun)
  have hagrees := agrees_of_run ht hfirst
  have hresolves := Conflict.resolves (rules C) (l.map CoveredSpend.tx)
  have hnc := hat.2.1
  -- a transaction of the prefix keeps the verdict it got there
  have hkeep : ∀ x ∈ l.map CoveredSpend.tx, x ∈ (resolution C (l.map CoveredSpend.tx)).applied ∨
      x ∉ appliedTxs shardTree feeFloors height (.start staged) spends := by
    intro x hx
    by_cases happ : x ∈ (resolution C (l.map CoveredSpend.tx)).applied
    · exact .inl happ
    · right
      obtain ⟨p, hp, rfl⟩ := List.mem_map.1 hx
      have hskipped := ((hresolves.mem_iff _).1 hx).resolve_left happ
      have hskip : Skipped t p.tx := by
        obtain ⟨o, ho, ⟨a, ha, hoa⟩ | ⟨b, hb, hid⟩⟩ := hresolves.conflicts _ hskipped
        · exact ⟨o, ho, .inl (((sets_of_run ht).spent o).2 ⟨a, hagrees.applied ▸ ha, hoa⟩)⟩
        · exact ⟨o, ho, .inr ((hagrees.skipped _).2 (.inl ⟨b, hb, hid⟩))⟩
      intro hmem
      obtain ⟨l', p', r', u, hsplit', hu, hnot, heq⟩ := (mem_appliedTxs hrun).1 hmem
      rw [hsplit] at hsplit'
      rcases List.append_eq_append_iff.1 hsplit' with ⟨m, rfl, -⟩ | ⟨m, rfl, hm⟩
      · exact hnot (heq ▸ Skipped.later ht hu hskip)
      · cases m with
        | nil =>
          rw [List.append_nil] at ht
          cases ht.symm.trans hu
          exact hnot (heq ▸ hskip)
        | cons p'' m =>
          rw [List.cons_append, List.cons.injEq] at hm
          obtain ⟨u', hu', h⟩ := Exn.foldlM_append_ok.1 ht
          cases hu.symm.trans hu'
          have happ' : p.tx ∈ appliedTxs shardTree feeFloors height (.start staged) (l' ++ p'' :: m) :=
            (mem_appliedTxs ht).2 ⟨l', p'', m, u, rfl, hu, hm.1 ▸ hnot, by rw [← hm.1, heq]⟩
          exact happ (hagrees.applied ▸ happ')
  obtain ⟨o, ho, ⟨a, ha, hane, hoa⟩ | ⟨p, hp, hid, hpn⟩⟩ :=
    hskips q (hsplit ▸ by simp) (misread_skipped hrun hsplit hfirst hat)
  · -- the competitor comes later, as the prefix holds no conflict
    have hmem : a ∈ spends.map CoveredSpend.tx := by
      obtain ⟨l', p', r', -, hl', -, -, rfl⟩ := (mem_appliedTxs hrun).1 ha
      exact List.mem_map_of_mem (hl' ▸ by simp)
    have hnew : a ∉ l.map CoveredSpend.tx := by
      intro hold
      rcases hkeep a hold with happ | hnot
      · exact hnc ⟨o, ho, .inl ⟨a, happ, hoa⟩⟩
      · exact hnot ha
    rw [htxs, List.mem_append] at hmem
    exact (hfree a (hmem.resolve_left hnew) hnew o ho).2 hane hoa
  · have hmem : p.tx ∈ spends.map CoveredSpend.tx := List.mem_map_of_mem hp
    have hnew : p.tx ∉ l.map CoveredSpend.tx := by
      intro hold
      have hskipped : p.tx ∈ (resolution C (l.map CoveredSpend.tx)).skipped := by
        refine ((hresolves.mem_iff _).1 hold).resolve_left fun happ => hpn ?_
        rw [hsplit]
        exact applied_append (hsplit ▸ hrun) (hagrees.applied ▸ happ)
      exact hnc ⟨o, ho, .inr ⟨p.tx, hskipped, hid⟩⟩
    rw [htxs, List.mem_append] at hmem
    exact (hfree p.tx (hmem.resolve_left hnew) hnew o ho).1 hid

/-- **When an anchor skips only real conflicts.** It does unless some transaction is misread, and
what it applies is what the conflicts alone leave exactly if none is. Where the first one that is
misread is not contested later, it skips only conflicts exactly if none is. -/
theorem applyAnchorFruits_skips {anchor : Anchor C} {run : FruitsRun C}
    (h : n.applyAnchorFruits anchor staged shardTree feeFloors height = .ok run) :
    ∃ spends, n.coveredSpends anchor.coveredFruitHashes = .ok spends ∧
      (¬Misread C (spends.map CoveredSpend.tx) → SkipsOnlyConflicts shardTree feeFloors height staged spends) ∧
      (appliedTxs shardTree feeFloors height (.start staged) spends = (resolution C (spends.map CoveredSpend.tx)).applied ↔
        ¬Misread C (spends.map CoveredSpend.tx)) ∧
      ((∀ before tx after, spends.map CoveredSpend.tx = before ++ tx :: after → ¬Misread C before →
          MisreadAt C before tx → Uncontested C before tx after) →
        (SkipsOnlyConflicts shardTree feeFloors height staged spends ↔ ¬Misread C (spends.map CoveredSpend.tx))) := by
  obtain ⟨spends, hspends, hrun, -⟩ := applyAnchorFruits_spends h
  exact ⟨spends, hspends, skipsOnlyConflicts_of hrun, applied_iff hrun,
    fun hfree => ⟨not_misread_of hrun hfree, skipsOnlyConflicts_of hrun⟩⟩

instance (spends : List (CoveredSpend C)) : Decidable (SkipsOnlyConflicts shardTree feeFloors height staged spends) :=
  inferInstanceAs (Decidable (∀ p ∈ spends, p.tx ∉ appliedTxs shardTree feeFloors height (.start staged) spends →
    ∃ o ∈ p.tx.spent,
      (∃ a ∈ appliedTxs shardTree feeFloors height (.start staged) spends, a ≠ p.tx ∧ o ∈ a.spent) ∨
      ∃ q ∈ spends, q.tx.txId C = o.txId ∧ q.tx ∉ appliedTxs shardTree feeFloors height (.start staged) spends))

end Node

/-! ## A repeated parent -/

/-- A public key. -/
def sampleKey : Bytes := List.replicate 32 7

/-- What the key owns. -/
def sampleReward : Output :=
  ⟨⟨10, .pkh, 0, 0, (sampleCrypto.domainHash domainAddress sampleKey).bytes⟩, by decide +kernel⟩

/-- The anchor over the first fruit, with a reward. -/
def samplePaying : Anchor sampleCrypto :=
  ⟨sampleAnchor sampleGenesis.blockHash [sampleFruit.blockHash] [sampleFruit.blockHash] [sampleReward] 60000
    genesisParentHash (by decide +kernel), by decide +kernel⟩

/-- A transaction that passes the first output of another one on. -/
def passOn (txId : Hash) : TransactionFields :=
  ⟨0, 0, 0, 0, [⟨⟨⟨txId, 0, Nat.zero_le _⟩, txSequenceFinal, List.replicate 64 0 ++ sampleKey⟩, by rfl⟩], [sampleReward]⟩

/-- A spend of the reward, and a spend of its output. -/
def sampleParent : Transaction :=
  ⟨passOn (anchorRewardId (C := sampleCrypto) samplePaying.blockHash), by decide +kernel⟩

def sampleSpender : Transaction := ⟨passOn (sampleParent.txId sampleCrypto), by decide +kernel⟩

/-- A coinbase that claims `amount`. -/
def coinbaseOf (amount : ℕ)
    (h : (⟨amount, .pkh, 0, 0, (FixedBytes.ofNat 32 5).bytes⟩ : OutputFields).postInit = .ok ()) : TransactionFields :=
  ⟨0, 0, 0, 0, [], [⟨_, h⟩]⟩

def sampleSecondCoinbase : Transaction := ⟨coinbaseOf 2 (by decide +kernel), by decide +kernel⟩

def sampleThirdCoinbase : Transaction := ⟨coinbaseOf 3 (by decide +kernel), by decide +kernel⟩

/-- A fruit with the spend of the reward. -/
def sampleOnce : Fruit sampleCrypto :=
  ⟨⟨⟨sampleFruitHeader sampleFruit.blockHash samplePaying.blockHash
      [sampleSecondCoinbase.toBytes, sampleParent.toBytes] 61000, by decide +kernel⟩,
    [sampleSecondCoinbase.toBytes, sampleParent.toBytes]⟩, by decide +kernel⟩

/-- A fruit with the same spend again, and the spend of its output. -/
def sampleAgain : Fruit sampleCrypto :=
  ⟨⟨⟨sampleFruitHeader sampleOnce.blockHash samplePaying.blockHash
      [sampleThirdCoinbase.toBytes, sampleParent.toBytes, sampleSpender.toBytes] 62000, by decide +kernel⟩,
    [sampleThirdCoinbase.toBytes, sampleParent.toBytes, sampleSpender.toBytes]⟩, by decide +kernel⟩

/-- The anchor over both. -/
def sampleCovering : Anchor sampleCrypto :=
  ⟨sampleAnchor samplePaying.blockHash (sortBy id [sampleOnce.blockHash, sampleAgain.blockHash])
    [sampleAgain.blockHash] [] 90000 genesisParentHash (by decide +kernel), by decide +kernel⟩

/-- The node that has accepted the paying anchor and both fruits. -/
def samplePaid : Node sampleCrypto :=
  run sampleConfig [.anchor sampleGenesis 0 true, .fruit sampleFruit 30000 true, .anchor samplePaying 60000 true,
    .fruit sampleOnce 62000 true, .fruit sampleAgain 62000 true]

/-- The covering anchor is accepted, and the spend of the repeated transaction's output is
skipped though that transaction is applied and nobody else spends its output. -/
theorem applyAnchorFruits_skips_spender :
    (samplePaid.processAnchor sampleConfig sampleCovering 90000 true).1 = .accepted sampleCovering.blockHash ∧
    (do
      let _ ← samplePaid.applyAnchorFruits sampleCovering samplePaid.utxoSet samplePaid.shardTree
        samplePaid.store.feeFloors 2
      let spends ← samplePaid.coveredSpends sampleCovering.coveredFruitHashes
      return (spends.map Node.CoveredSpend.tx,
        Node.appliedTxs samplePaid.shardTree samplePaid.store.feeFloors 2 (.start samplePaid.utxoSet) spends,
        decide (Node.SkipsOnlyConflicts samplePaid.shardTree samplePaid.store.feeFloors 2 samplePaid.utxoSet
          spends))) =
      .ok ([sampleParent, sampleParent, sampleSpender], [sampleParent], false) := by
  decide +kernel

/-- The anchor over the first of the two fruits. -/
def sampleSingle : Anchor sampleCrypto :=
  ⟨sampleAnchor samplePaying.blockHash [sampleOnce.blockHash] [sampleOnce.blockHash] [] 90000 genesisParentHash
    (by decide +kernel), by decide +kernel⟩

/-! ## A repeated parent that loses -/

/-- Another spend of the reward. -/
def sampleRival : Transaction :=
  ⟨{ passOn (anchorRewardId (C := sampleCrypto) samplePaying.blockHash) with lockheight := 1 }, by decide +kernel⟩

def sampleFourthCoinbase : Transaction := ⟨coinbaseOf 4 (by decide +kernel), by decide +kernel⟩

/-- A fruit that passes the reward on in another way. -/
def sampleWinning : Fruit sampleCrypto :=
  ⟨⟨⟨sampleFruitHeader sampleFruit.blockHash samplePaying.blockHash
      [sampleFourthCoinbase.toBytes, sampleRival.toBytes] 61000, by decide +kernel⟩,
    [sampleFourthCoinbase.toBytes, sampleRival.toBytes]⟩, by decide +kernel⟩

/-- After it the first spend of the reward, and then that one again with the spend of its output. -/
def sampleLosing : Fruit sampleCrypto :=
  ⟨⟨⟨sampleFruitHeader sampleWinning.blockHash samplePaying.blockHash
      [sampleSecondCoinbase.toBytes, sampleParent.toBytes] 62000, by decide +kernel⟩,
    [sampleSecondCoinbase.toBytes, sampleParent.toBytes]⟩, by decide +kernel⟩

def sampleLosingAgain : Fruit sampleCrypto :=
  ⟨⟨⟨sampleFruitHeader sampleLosing.blockHash samplePaying.blockHash
      [sampleThirdCoinbase.toBytes, sampleParent.toBytes, sampleSpender.toBytes] 63000, by decide +kernel⟩,
    [sampleThirdCoinbase.toBytes, sampleParent.toBytes, sampleSpender.toBytes]⟩, by decide +kernel⟩

/-- The anchor over the three. -/
def sampleDeciding : Anchor sampleCrypto :=
  ⟨sampleAnchor samplePaying.blockHash
    (sortBy id [sampleWinning.blockHash, sampleLosing.blockHash, sampleLosingAgain.blockHash])
    [sampleLosingAgain.blockHash] [] 90000 genesisParentHash (by decide +kernel), by decide +kernel⟩

/-- The node that has accepted the paying anchor and the three fruits. -/
def sampleContested : Node sampleCrypto :=
  run sampleConfig [.anchor sampleGenesis 0 true, .fruit sampleFruit 30000 true, .anchor samplePaying 60000 true,
    .fruit sampleWinning 63000 true, .fruit sampleLosing 63000 true, .fruit sampleLosingAgain 63000 true]

/-- Two spends of the reward conflict. The one that comes twice has lost, so the spend of its output
is skipped for a conflict. -/
theorem applyAnchorFruits_skips_rivals :
    (sampleContested.processAnchor sampleConfig sampleDeciding 90000 true).1 = .accepted sampleDeciding.blockHash ∧
    ∃ spends, sampleContested.coveredSpends sampleDeciding.coveredFruitHashes = .ok spends ∧
      spends.map Node.CoveredSpend.tx = [sampleRival, sampleParent, sampleParent, sampleSpender] ∧
      Node.SkipsOnlyConflicts sampleContested.shardTree sampleContested.store.feeFloors 2 sampleContested.utxoSet
        spends ∧
      Node.appliedTxs sampleContested.shardTree sampleContested.store.feeFloors 2 (.start sampleContested.utxoSet)
        spends = [sampleRival] := by
  have hrun : (do
      let _ ← sampleContested.applyAnchorFruits sampleDeciding sampleContested.utxoSet sampleContested.shardTree
        sampleContested.store.feeFloors 2
      let spends ← sampleContested.coveredSpends sampleDeciding.coveredFruitHashes
      return spends.map Node.CoveredSpend.tx) = .ok [sampleRival, sampleParent, sampleParent, sampleSpender] := by
    decide +kernel
  obtain ⟨run, hrun, htxs⟩ := Exn.bind_ok.1 hrun
  obtain ⟨spends, hspends, htxs⟩ := Exn.bind_ok.1 htxs
  have htxs : spends.map Node.CoveredSpend.tx = [sampleRival, sampleParent, sampleParent, sampleSpender] :=
    Exn.pure_ok.1 htxs
  obtain ⟨spends', hspends', hskips, happlied, -⟩ := Node.applyAnchorFruits_skips hrun
  cases hspends.symm.trans hspends'
  have hnot : ¬Node.Misread sampleCrypto (spends.map Node.CoveredSpend.tx) := by
    rw [htxs]
    decide +kernel
  have hresolved : (Node.resolution sampleCrypto (spends.map Node.CoveredSpend.tx)).applied = [sampleRival] := by
    rw [htxs]
    decide +kernel
  exact ⟨by decide +kernel, spends, hspends, htxs, hskips hnot, (happlied.2 hnot).trans hresolved⟩

end TensorPow
