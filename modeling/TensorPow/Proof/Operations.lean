import TensorPow.Proof.Partition

/-!
# The shard operations of one anchor

* `Shape`: an operation, its parent, the leaves it takes away and the leaves it adds.
* `Shape.disjoint`: two operations with different parents that both apply to a tree take
  different leaves away, unless one splits a shard that the other merges.
* `RunInv`, `operationRound_ok`, `run_ok`, `run_inv`: what the loop has done so far.
* `applyOperations_iff`: a batch is applied and queued as it should be exactly if it does not
  both split and merge a shard.
-/

namespace TensorPow

open ShardTree Cells

/-! ## Single operations -/

namespace ShardTreeOperation

/-- The leaves that an operation takes away. -/
def removes : ShardTreeOperation → Finset ℕ
  | .split shardId _ => {shardId}
  | .merge siblings _ => {siblings.1, siblings.2}

/-- The leaves that an operation adds. -/
def adds : ShardTreeOperation → Finset ℕ
  | .split shardId _ =>
    match childShardIds shardId with
    | .ok (left, right) => {left, right}
    | .error _ => ∅
  | .merge siblings _ =>
    match parentShardId siblings.1 with
    | .ok parent => {parent}
    | .error _ => ∅

/-- The operation replaces a shard by its children, or the children by the shard. -/
inductive Shape : ShardTreeOperation → ℕ → Prop
  | split {s left right : ℕ} (hv : requireShardId s = .ok ()) (h : Children s left right) : Shape (.split s hv) s
  | merge {s left right : ℕ} (hv : requireSiblingShards (left, right) = .ok (left, right)) (h : Children s left right) :
    Shape (.merge (left, right) hv) s

end ShardTreeOperation

open ShardTreeOperation

theorem ShardTree.Children.unique {s left right left' right' : ℕ} (h : Children s left right) (h' : Children s left' right') :
    left = left' ∧ right = right' := by
  rw [h.left_eq, h.right_eq, h'.left_eq, h'.right_eq]
  exact ⟨rfl, rfl⟩

theorem ShardTree.Children.childShardIds {s left right : ℕ} (h : Children s left right) :
    childShardIds s = .ok (left, right) := by
  obtain ⟨l, r, hchildren, hc⟩ := childShardIds_eq h.canonical h.depth
  obtain ⟨rfl, rfl⟩ := hc.unique h
  exact hchildren

/-- Either child gives back the parent. -/
theorem ShardTree.Children.parent_of {s left right x : ℕ} (h : Children s left right) (hx : x = left ∨ x = right) :
    parentShardId x = .ok s := by
  rcases hx with rfl | rfl
  · exact h.parent
  · obtain ⟨hrd, hrp, hright⟩ := h.right_fields
    obtain ⟨-, -, hpath⟩ := requireShardId_ok.1 h.canonical
    have hle := h.depth.le
    unfold parentShardId
    rw [decodeShardId_eq hright, Exn.ok_bind]
    dsimp only
    rw [hrd, hrp, Exn.ensure_of _ (by omega), Exn.ok_bind, Nat.add_sub_cancel, Nat.add_mod_right,
      Nat.mod_eq_of_lt hpath, encodeShardId_eq hle hpath, shardId_eq]

theorem adds_split {s left right : ℕ} (hv : requireShardId s = .ok ()) (h : Children s left right) :
    (ShardTreeOperation.split s hv).adds = {left, right} := by
  show (match childShardIds s with | .ok (left, right) => {left, right} | .error _ => ∅) = ({left, right} : Finset ℕ)
  rw [h.childShardIds]

theorem adds_merge {s left right : ℕ} (hv : requireSiblingShards (left, right) = .ok (left, right))
    (h : Children s left right) : (ShardTreeOperation.merge (left, right) hv).adds = {s} := by
  show (match parentShardId left with | .ok parent => {parent} | .error _ => ∅) = ({s} : Finset ℕ)
  rw [h.parent]

/-- An operation that applies to a tree has a shape. -/
theorem exists_shape {t t' : ShardTree} {op : ShardTreeOperation} (h : applyOperation t op = .ok t') :
    ∃ p, Shape op p := by
  cases op with
  | split s hv =>
    simp only [applyOperation, applySplit, Exn.bind_ok] at h
    obtain ⟨-, -, -, -, ⟨left, right⟩, hchildren, -⟩ := h
    have hdepth : shardDepth s < shardMaxDepth := by
      simp only [childShardIds, decodeShardId, Exn.bind_ok, Exn.ensure_ok, Exn.pure_ok] at hchildren
      obtain ⟨⟨d, p⟩, ⟨-, -, hfields⟩, -, hdepth, -⟩ := hchildren
      cases hfields
      exact hdepth
    obtain ⟨l, r, -, hc⟩ := childShardIds_eq hv hdepth
    exact ⟨s, .split hv hc⟩
  | merge siblings hv =>
    obtain ⟨left, right⟩ := siblings
    obtain ⟨p, hc, -⟩ := requireSiblingShards_ok hv
    exact ⟨p, .merge hv hc⟩

namespace ShardTreeOperation.Shape

variable {op op' : ShardTreeOperation} {p p' : ℕ} {t t' : ShardTree}

theorem parent (h : Shape op p) : operationParent op = .ok p := by
  cases h with
  | split hv hc => rfl
  | merge hv hc => exact hc.parent

theorem refits (h : Shape op p) : Refits (fun r s => leafMatches r s = true) op.removes op.adds ∧
    ∀ b ∈ op.adds, requireShardId b = .ok () := by
  cases h with
  | split hv hc =>
    rw [adds_split hv hc]
    exact ⟨hc.refits, fun b hb => (hc.nonempty b hb).1⟩
  | merge hv hc =>
    rw [adds_merge hv hc]
    refine ⟨hc.refits_back, fun b hb => ?_⟩
    rw [Finset.mem_singleton.1 hb]
    exact hc.canonical

/-- **What an operation does** where it applies. -/
theorem apply (h : Shape op p) (hsub : op.removes ⊆ t.leafSet) :
    ∃ t', applyOperation t op = .ok t' ∧ t'.leafSet = (t.leafSet \ op.removes) ∪ op.adds := by
  obtain ⟨hfit, hcanonical⟩ := h.refits
  obtain ⟨t', hmake, hset, -⟩ := t.exists_swap hsub hcanonical hfit
  refine ⟨t', ?_, hset⟩
  cases h with
  | split hv hc =>
    rw [adds_split hv hc] at hmake
    show t.applySplit p = _
    rw [applySplit_eq (hsub (Finset.mem_singleton_self p)) hc]
    exact hmake
  | merge hv hc =>
    rw [adds_merge hv hc] at hmake
    show t.applyMerge _ = _
    rw [applyMerge_eq hc hv (hsub (by simp [removes])) (hsub (by simp [removes]))]
    exact hmake

/-- An operation applies only where the leaves it takes away are. -/
theorem apply_inv (h : Shape op p) (happly : applyOperation t op = .ok t') : op.removes ⊆ t.leafSet := by
  cases h with
  | split hv hc =>
    simp only [applyOperation, applySplit, Exn.bind_ok, Exn.ensure_ok] at happly
    obtain ⟨-, -, -, hmem, -⟩ := happly
    exact Finset.singleton_subset_iff.2 hmem
  | merge hv hc =>
    simp only [applyOperation, applyMerge, hv, Exn.ok_bind, Exn.bind_ok, Exn.ensure_ok] at happly
    obtain ⟨-, ⟨hl, hr⟩, -⟩ := happly
    intro x hx
    simp only [removes, Finset.mem_insert, Finset.mem_singleton] at hx
    rcases hx with rfl | rfl
    · exact hl
    · exact hr

/-- What an operation adds is not there before. -/
theorem fresh (h : Shape op p) (hsub : op.removes ⊆ t.leafSet) : Disjoint op.adds t.leafSet := by
  obtain ⟨hfit, hcanonical⟩ := h.refits
  obtain ⟨-, hpart⟩ := t.isPartition
  have hout : Disjoint (t.leafSet \ op.removes) op.adds :=
    hpart.tiles.disjoint_swap hsub hfit fun b hb => ⟨_, leafMatches_path (hcanonical b hb)⟩
  -- the leaves lost and gained have other depths
  have hin : Disjoint op.removes op.adds := by
    rw [Finset.disjoint_left]
    intro x hx hxadds
    cases h with
    | split hv hc =>
      rw [adds_split hv hc, Finset.mem_insert, Finset.mem_singleton] at hxadds
      rw [Finset.mem_singleton.1 hx] at hxadds
      have hl := hc.left_fields.1
      have hr := hc.right_fields.1
      rcases hxadds with heq | heq
      · rw [← heq] at hl
        omega
      · rw [← heq] at hr
        omega
    | merge hv hc =>
      rw [adds_merge hv hc, Finset.mem_singleton] at hxadds
      simp only [removes, Finset.mem_insert, Finset.mem_singleton] at hx
      have hl := hc.left_fields.1
      have hr := hc.right_fields.1
      rcases hx with heq | heq
      · rw [← heq, hxadds] at hl
        omega
      · rw [← heq, hxadds] at hr
        omega
  rw [Finset.disjoint_left] at hout hin ⊢
  intro x hx hxS
  by_cases hrem : x ∈ op.removes
  · exact hin hrem hx
  · exact hout (Finset.mem_sdiff.2 ⟨hxS, hrem⟩) hx

/-- Operations with one parent that apply to one tree take the same leaves away. -/
theorem same (h : Shape op p) (h' : Shape op' p) (hsub : op.removes ⊆ t.leafSet) (hsub' : op'.removes ⊆ t.leafSet) :
    op.removes = op'.removes := by
  -- a leaf and its children are not leaves of one tree
  have hno : ∀ {left right : ℕ}, Children p left right → p ∈ t.leafSet → left ∉ t.leafSet := by
    intro left right hc hp hleft
    have hfresh := (Shape.split hc.canonical hc).fresh (Finset.singleton_subset_iff.2 hp)
    rw [adds_split hc.canonical hc, Finset.disjoint_left] at hfresh
    exact hfresh (Finset.mem_insert_self _ _) hleft
  cases h with
  | split hv hc =>
    cases h' with
    | split hv' hc' => rfl
    | merge hv' hc' =>
      exact absurd (hsub' (Finset.mem_insert_self _ _)) (hno hc' (hsub (Finset.mem_singleton_self _)))
  | merge hv hc =>
    cases h' with
    | split hv' hc' =>
      exact absurd (hsub (Finset.mem_insert_self _ _)) (hno hc (hsub' (Finset.mem_singleton_self _)))
    | merge hv' hc' =>
      obtain ⟨rfl, rfl⟩ := hc.unique hc'
      rfl

end ShardTreeOperation.Shape

/-- Some operation splits a shard that another one merges. -/
def Conflicting (operations : List ShardTreeOperation) : Prop :=
  ∃ s hs q hq, ShardTreeOperation.split s hs ∈ operations ∧ ShardTreeOperation.merge q hq ∈ operations ∧
    (s = q.1 ∨ s = q.2)

/-- **Operations with different parents** take different leaves away, unless they are in
conflict. -/
theorem disjoint_removes {op op' : ShardTreeOperation} {p p' : ℕ} (h : Shape op p) (h' : Shape op' p') (hne : p ≠ p')
    {operations : List ShardTreeOperation} (hop : op ∈ operations) (hop' : op' ∈ operations)
    (hno : ¬Conflicting operations) : Disjoint op.removes op'.removes := by
  rw [Finset.disjoint_left]
  intro x hx hx'
  cases h with
  | split hv hc =>
    have hxp : x = p := Finset.mem_singleton.1 hx
    cases h' with
    | split hv' hc' => exact hne (hxp.symm.trans (Finset.mem_singleton.1 hx'))
    | merge hv' hc' =>
      simp only [removes, Finset.mem_insert, Finset.mem_singleton] at hx'
      rw [hxp] at hx'
      exact hno ⟨_, _, _, _, hop, hop', hx'⟩
  | merge hv hc =>
    simp only [removes, Finset.mem_insert, Finset.mem_singleton] at hx
    cases h' with
    | split hv' hc' =>
      rw [Finset.mem_singleton.1 hx'] at hx
      exact hno ⟨_, _, _, _, hop', hop, hx⟩
    | merge hv' hc' =>
      simp only [removes, Finset.mem_insert, Finset.mem_singleton] at hx'
      have hp := hc.parent_of hx
      rw [hc'.parent_of hx'] at hp
      exact hne (Except.ok.inj hp).symm

/-! ## The loop -/

/-- What the loop has done after some operations: `R` are the leaves taken away, `N` those
added. -/
structure RunInv (t : ShardTree) (done : List ShardTreeOperation) (s : ShardTreeUpdate × Finset ℕ)
    (R N : Finset ℕ) : Prop where
  leaves : s.1.tree.leafSet = (t.leafSet \ R) ∪ N
  fresh : Disjoint N t.leafSet
  removed : ∀ i, i ∈ R ↔ ∃ o ∈ s.1.applied, i ∈ o.removes
  added : ∀ i, i ∈ N ↔ ∃ o ∈ s.1.applied, i ∈ o.adds
  used : ∀ p, p ∈ s.2 ↔ ∃ o ∈ s.1.applied, operationParent o = .ok p
  perm : (s.1.applied ++ s.1.queued).Perm done
  order : s.1.applied.Sublist done
  queued : ∀ o ∈ s.1.queued, ∃ o' ∈ s.1.applied, operationParent o' = operationParent o
  apart : s.1.applied.Pairwise fun a b => Disjoint a.removes b.removes

section Run

variable {t : ShardTree} {done : List ShardTreeOperation} {s s' : ShardTreeUpdate × Finset ℕ} {R N : Finset ℕ}
  {op : ShardTreeOperation}

theorem RunInv.init (t : ShardTree) : RunInv t [] (⟨t, [], []⟩, ∅) ∅ ∅ := by
  constructor <;> simp

/-- One round: the operation is queued, or it is applied where nothing it takes away is gone. -/
theorem operationRound_ok (h : RunInv t done s R N) {p : ℕ} (hshape : Shape op p) (hsub : op.removes ⊆ t.leafSet)
    (hfree : p ∉ s.2 → Disjoint op.removes R) :
    ∃ s' R' N', operationRound s op = .ok s' ∧ RunInv t (done ++ [op]) s' R' N' := by
  unfold operationRound
  rw [hshape.parent, Exn.ok_bind]
  by_cases hused : p ∈ s.2
  · -- the parent was used: the operation is queued and nothing else changes
    rw [if_pos hused]
    obtain ⟨o', ho', hparent⟩ := (h.used p).1 hused
    refine ⟨_, R, N, rfl, ⟨h.leaves, h.fresh, h.removed, h.added, h.used, ?_, ?_, ?_, h.apart⟩⟩
    · dsimp only
      rw [← List.append_assoc]
      exact h.perm.append_right [op]
    · exact h.order.trans (List.sublist_append_left _ _)
    · intro o ho
      rcases List.mem_append.1 ho with ho | ho
      · exact h.queued o ho
      · rw [List.mem_singleton.1 ho]
        exact ⟨o', ho', hparent.trans hshape.parent.symm⟩
  · -- a new parent: the leaves it takes away are still there
    rw [if_neg hused]
    have hdisj := hfree hused
    obtain ⟨hsub', hset⟩ := swap_after (B := op.adds) h.fresh hsub hdisj
    rw [← h.leaves] at hsub' hset
    obtain ⟨tree, happly, hleaves⟩ := hshape.apply hsub'
    rw [happly, Exn.ok_bind]
    have hmem : ∀ {P : ShardTreeOperation → Prop},
        (∃ o ∈ s.1.applied ++ [op], P o) ↔ (∃ o ∈ s.1.applied, P o) ∨ P op := by
      intro P
      simp only [List.mem_append, List.mem_singleton, or_and_right, exists_or, exists_eq_left]
    refine ⟨_, R ∪ op.removes, N ∪ op.adds, rfl, ⟨hleaves.trans hset, ?_, ?_, ?_, ?_, ?_, ?_, ?_, ?_⟩⟩
    · exact Finset.disjoint_union_left.2 ⟨h.fresh, hshape.fresh hsub⟩
    · intro i
      rw [Finset.mem_union, h.removed, hmem]
    · intro i
      rw [Finset.mem_union, h.added, hmem]
    · intro q
      rw [Finset.mem_insert, h.used, hmem, hshape.parent, Except.ok.injEq, or_comm, eq_comm]
    · dsimp only
      rw [List.append_assoc]
      refine (List.Perm.append_left _ List.perm_append_comm).trans ?_
      rw [← List.append_assoc]
      exact h.perm.append_right [op]
    · exact h.order.append (List.Sublist.refl _)
    · intro o ho
      obtain ⟨o', ho', hparent⟩ := h.queued o ho
      exact ⟨o', List.mem_append_left _ ho', hparent⟩
    · refine List.pairwise_append.2 ⟨h.apart, List.pairwise_singleton _ _, fun a ha b hb => ?_⟩
      rw [List.mem_singleton.1 hb, Finset.disjoint_left]
      intro i hia hib
      exact Finset.disjoint_left.1 hdisj hib ((h.removed i).2 ⟨a, ha, hia⟩)

/-- A round that returns took nothing away that was gone. -/
theorem operationRound_free (h : RunInv t done s R N) {p : ℕ} (hshape : Shape op p) (hsub : op.removes ⊆ t.leafSet)
    (hround : operationRound s op = .ok s') (hused : p ∉ s.2) : Disjoint op.removes R := by
  unfold operationRound at hround
  rw [hshape.parent, Exn.ok_bind, if_neg hused] at hround
  obtain ⟨tree, happly, -⟩ := Exn.bind_ok.1 hround
  by_contra hgone
  have hleft := hshape.apply_inv happly
  rw [h.leaves] at hleft
  exact not_subset_after h.fresh hsub hgone hleft

end Run

/-- The operations all apply to the tree on their own. -/
def AllApply (t : ShardTree) (operations : List ShardTreeOperation) : Prop :=
  ∀ op ∈ operations, ∃ t', applyOperation t op = .ok t'

section Batch

variable {t : ShardTree} {operations : List ShardTreeOperation}

theorem AllApply.shape (h : AllApply t operations) {op : ShardTreeOperation} (hop : op ∈ operations) :
    ∃ p, Shape op p ∧ op.removes ⊆ t.leafSet := by
  obtain ⟨t', happly⟩ := h op hop
  obtain ⟨p, hshape⟩ := exists_shape happly
  exact ⟨p, hshape, hshape.apply_inv happly⟩

/-- **The loop returns** if the operations are not in conflict. -/
theorem run_ok (happly : AllApply t operations) (hno : ¬Conflicting operations) :
    ∃ s R N, operations.foldlM operationRound (⟨t, [], []⟩, ∅) = .ok s ∧ RunInv t operations s R N := by
  have hrun : ∀ todo done : List ShardTreeOperation, done ++ todo = operations → ∀ s R N, RunInv t done s R N →
      ∃ s' R' N', todo.foldlM operationRound s = .ok s' ∧ RunInv t operations s' R' N' := by
    intro todo
    induction todo with
    | nil =>
      intro done hsplit s R N h
      rw [List.append_nil] at hsplit
      exact ⟨s, R, N, rfl, hsplit ▸ h⟩
    | cons op todo ih =>
      intro done hsplit s R N h
      have hop : op ∈ operations := by
        rw [← hsplit]
        simp
      obtain ⟨p, hshape, hsub⟩ := happly.shape hop
      -- an earlier operation on other leaves: two that share one would conflict
      have hfree : p ∉ s.2 → Disjoint op.removes R := by
        intro hnew
        rw [Finset.disjoint_left]
        intro i hi hiR
        obtain ⟨o, ho, hio⟩ := (h.removed i).1 hiR
        have hoin : o ∈ operations := by
          rw [← hsplit]
          exact List.mem_append_left _ (h.order.subset ho)
        obtain ⟨q, hq, -⟩ := happly.shape hoin
        have hne : p ≠ q := by
          rintro rfl
          exact hnew ((h.used p).2 ⟨o, ho, hq.parent⟩)
        exact Finset.disjoint_left.1 (disjoint_removes hshape hq hne hop hoin hno) hi hio
      obtain ⟨s₁, R₁, N₁, hround, h₁⟩ := operationRound_ok h hshape hsub hfree
      obtain ⟨s₂, R₂, N₂, hrest, h₂⟩ := ih (done ++ [op]) (by rw [List.append_assoc]; exact hsplit) s₁ R₁ N₁ h₁
      refine ⟨s₂, R₂, N₂, ?_, h₂⟩
      rw [List.foldlM_cons, hround]
      exact hrest
  exact hrun operations [] rfl _ ∅ ∅ (RunInv.init t)

/-- A loop that returns has kept its invariant. -/
theorem run_inv (happly : AllApply t operations) {s : ShardTreeUpdate × Finset ℕ}
    (hrun : operations.foldlM operationRound (⟨t, [], []⟩, ∅) = .ok s) : ∃ R N, RunInv t operations s R N := by
  have hgo : ∀ todo done : List ShardTreeOperation, done ++ todo = operations → ∀ s₀ R N, RunInv t done s₀ R N →
      todo.foldlM operationRound s₀ = .ok s → ∃ R' N', RunInv t operations s R' N' := by
    intro todo
    induction todo with
    | nil =>
      intro done hsplit s₀ R N h hfold
      cases hfold
      rw [List.append_nil] at hsplit
      exact ⟨R, N, hsplit ▸ h⟩
    | cons op todo ih =>
      intro done hsplit s₀ R N h hfold
      rw [List.foldlM_cons] at hfold
      obtain ⟨s₁, hround, hrest⟩ := Exn.bind_ok.1 hfold
      have hop : op ∈ operations := by
        rw [← hsplit]
        simp
      obtain ⟨p, hshape, hsub⟩ := happly.shape hop
      obtain ⟨s₁', R₁, N₁, hround', h₁⟩ := operationRound_ok h hshape hsub (operationRound_free h hshape hsub hround)
      rw [hround, Except.ok.injEq] at hround'
      subst hround'
      exact ih (done ++ [op]) (by rw [List.append_assoc]; exact hsplit) s₁ R₁ N₁ h₁ hrest
  exact hgo operations [] rfl _ ∅ ∅ (RunInv.init t) hrun

/-- Where the loop returns, no shard was both split and merged. -/
theorem not_conflicting (happly : AllApply t operations) {s : ShardTreeUpdate × Finset ℕ} {R N : Finset ℕ}
    (h : RunInv t operations s R N) : ¬Conflicting operations := by
  -- every operation has an applied one that takes the same leaves away
  have hrep : ∀ op ∈ operations, ∃ o ∈ s.1.applied, operationParent o = operationParent op ∧ o.removes = op.removes := by
    intro op hop
    have hcases := List.mem_append.1 (h.perm.mem_iff.2 hop)
    rcases hcases with happlied | hqueued
    · exact ⟨op, happlied, rfl, rfl⟩
    · obtain ⟨o, ho, hparent⟩ := h.queued op hqueued
      obtain ⟨p, hshape, hsub⟩ := happly.shape hop
      obtain ⟨q, hq, hsubq⟩ := happly.shape (h.order.subset ho)
      have hpq : q = p := by
        rw [hq.parent, hshape.parent] at hparent
        exact Except.ok.inj hparent
      subst hpq
      exact ⟨o, ho, hparent, hq.same hshape hsubq hsub⟩
  rintro ⟨x, hx, q, hq, hsplit, hmerge, hmem⟩
  obtain ⟨o₁, ho₁, hparent₁, hremoves₁⟩ := hrep _ hsplit
  obtain ⟨o₂, ho₂, hparent₂, hremoves₂⟩ := hrep _ hmerge
  have hin₁ : x ∈ o₁.removes := by
    rw [hremoves₁]
    exact Finset.mem_singleton_self x
  have hin₂ : x ∈ o₂.removes := by
    rw [hremoves₂]
    simpa [removes] using hmem
  have hne : o₁ ≠ o₂ := by
    rintro rfl
    obtain ⟨p, hshape, -⟩ := happly.shape hmerge
    cases hshape with
    | merge hv hc =>
      have hself : x = p := by
        have heq := hparent₁.symm.trans hparent₂
        exact Except.ok.inj (heq.trans hc.parent)
      have hl := hc.left_fields.1
      have hr := hc.right_fields.1
      rcases hmem with hmem | hmem
      · dsimp only at hmem
        rw [← hmem, hself] at hl
        omega
      · dsimp only at hmem
        rw [← hmem, hself] at hr
        omega
  have hsymm : Std.Symm fun a b : ShardTreeOperation => Disjoint a.removes b.removes := ⟨fun _ _ hab => hab.symm⟩
  have happart : Disjoint o₁.removes o₂.removes := h.apart.forall ho₁ ho₂ hne
  exact Finset.disjoint_left.1 happart hin₁ hin₂

/-- A tree is determined by the set of its leaves. -/
theorem ShardTree.leafSet_inj {t t' : ShardTree} (h : t.leafSet = t'.leafSet) : t = t' := by
  have hmake := t.make_leafSet
  rw [h, t'.make_leafSet] at hmake
  exact (Except.ok.inj hmake).symm

/-- Operations with different parents are all applied. -/
theorem all_applied {s : ShardTreeUpdate × Finset ℕ} {R N : Finset ℕ} (h : RunInv t operations s R N)
    (hparents : operations.Pairwise fun a b => operationParent a ≠ operationParent b) :
    s.1.applied = operations ∧ s.1.queued = [] := by
  have hsymm : Std.Symm fun a b => operationParent a ≠ operationParent b := ⟨fun _ _ hab => hab.symm⟩
  have hpairs : (s.1.applied ++ s.1.queued).Pairwise fun a b => operationParent a ≠ operationParent b :=
    (h.perm.pairwise_iff fun hab => hab.symm).2 hparents
  have hqueued : s.1.queued = [] := by
    rw [List.eq_nil_iff_forall_not_mem]
    intro o ho
    obtain ⟨o', ho', hparent⟩ := h.queued o ho
    exact (List.pairwise_append.1 hpairs).2.2 o' ho' o ho hparent
  have hperm := h.perm
  rw [hqueued, List.append_nil] at hperm
  exact ⟨h.order.eq_of_length hperm.length_eq, hqueued⟩

end Batch

/-- **The operations of one anchor.** Let operations that apply to a tree on their own come
as a batch. The batch returns, applies and queues every operation, and, if their parents are
different, applies them all and to the same tree in every order, exactly if it does not split
a shard that it also merges. -/
theorem applyOperations_iff (t : ShardTree) (operations : List ShardTreeOperation)
    (happly : ∀ op ∈ operations, ∃ t', applyOperation t op = .ok t') :
    (∃ u, applyOperations t operations = .ok u ∧ (u.applied ++ u.queued).Perm operations ∧
      (operations.Pairwise (fun a b => operationParent a ≠ operationParent b) →
        u.applied = operations ∧ u.queued = [] ∧
        ∀ operations', operations'.Perm operations →
          ∃ u', applyOperations t operations' = .ok u' ∧ u'.tree = u.tree)) ↔
      ¬Conflicting operations := by
  constructor
  · rintro ⟨u, hrun, -⟩
    unfold applyOperations at hrun
    obtain ⟨s, hfold, -⟩ := Exn.bind_ok.1 hrun
    obtain ⟨R, N, hinv⟩ := run_inv happly hfold
    exact not_conflicting happly hinv
  · intro hno
    obtain ⟨s, R, N, hfold, hinv⟩ := run_ok happly hno
    refine ⟨s.1, ?_, hinv.perm, fun hparents => ?_⟩
    · unfold applyOperations
      rw [hfold]
      rfl
    · obtain ⟨happlied, hqueued⟩ := all_applied hinv hparents
      refine ⟨happlied, hqueued, fun operations' hperm => ?_⟩
      have happly' : AllApply t operations' := fun op hop => happly op (hperm.mem_iff.1 hop)
      have hno' : ¬Conflicting operations' := by
        rintro ⟨x, hx, q, hq, hsplit, hmerge, hmem⟩
        exact hno ⟨x, hx, q, hq, hperm.mem_iff.1 hsplit, hperm.mem_iff.1 hmerge, hmem⟩
      obtain ⟨s', R', N', hfold', hinv'⟩ := run_ok happly' hno'
      obtain ⟨happlied', -⟩ := all_applied hinv' ((hperm.pairwise_iff fun hab => hab.symm).2 hparents)
      refine ⟨s'.1, ?_, ?_⟩
      · unfold applyOperations
        rw [hfold']
        rfl
      · -- both trees have lost and gained the same leaves
        have hR : R' = R := by
          ext i
          rw [hinv'.removed, hinv.removed, happlied, happlied']
          simp only [hperm.mem_iff]
        have hN : N' = N := by
          ext i
          rw [hinv'.added, hinv.added, happlied, happlied']
          simp only [hperm.mem_iff]
        apply ShardTree.leafSet_inj
        rw [hinv'.leaves, hinv.leaves, hR, hN]

/-- The tree with two leaves. -/
def twoLeaves : ShardTree := ⟨[2 ^ 16, 2 ^ 16 + 1], by decide +kernel⟩

/-- Split the first leaf. -/
def splitFirst : ShardTreeOperation := .split (2 ^ 16) (by decide +kernel)

/-- Split the second leaf. -/
def splitSecond : ShardTreeOperation := .split (2 ^ 16 + 1) (by decide +kernel)

/-- Merge both leaves. -/
def mergeBoth : ShardTreeOperation := .merge (2 ^ 16, 2 ^ 16 + 1) (by decide +kernel)

/-- Two splits are applied in either order, to one tree. -/
theorem applyOperations_iff_splits : ∃ u u', applyOperations twoLeaves [splitFirst, splitSecond] = .ok u ∧
    applyOperations twoLeaves [splitSecond, splitFirst] = .ok u' ∧ u'.tree = u.tree := by
  have happly : ∀ op ∈ [splitFirst, splitSecond], ∃ t', applyOperation twoLeaves op = .ok t' := by
    have h : ∀ op ∈ [splitFirst, splitSecond], (applyOperation twoLeaves op).isOk = true := by decide +kernel
    intro op hop
    have hok := h op hop
    cases hresult : applyOperation twoLeaves op with
    | ok t' => exact ⟨t', rfl⟩
    | error e =>
      rw [hresult] at hok
      cases hok
  have hno : ¬Conflicting [splitFirst, splitSecond] := by
    rintro ⟨x, hx, q, hq, -, hmerge, -⟩
    simp [splitFirst, splitSecond] at hmerge
  obtain ⟨u, hrun, -, hall⟩ := (applyOperations_iff twoLeaves [splitFirst, splitSecond] happly).2 hno
  obtain ⟨-, -, horders⟩ := hall (by decide +kernel)
  obtain ⟨u', hrun', htree⟩ := horders [splitSecond, splitFirst] (List.Perm.swap _ _ _)
  exact ⟨u, u', hrun, hrun', htree⟩

/-- A split and a merge of the same leaf, with different parents, both apply to the tree, but
the batch fails. -/
theorem applyOperations_splitMerge : operationParent splitFirst ≠ operationParent mergeBoth ∧
    (applyOperation twoLeaves splitFirst).isOk = true ∧ (applyOperation twoLeaves mergeBoth).isOk = true ∧
    applyOperations twoLeaves [splitFirst, mergeBoth] = .error (.valueError "siblings must both be leaves") := by
  decide +kernel

end TensorPow
