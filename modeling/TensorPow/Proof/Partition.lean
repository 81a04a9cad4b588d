import TensorPow.Cells.Basic
import TensorPow.Proof.Routing
import TensorPow.Spec.Reshard

/-!
# Shard trees are partitions

* `validateLeafPartition_iff`: the checks of the constructor hold exactly of the ascending
  lists of canonical ids whose cells tile the paths.
* `Children.refits`, `Children.refits_back`: a leaf covers what its children cover.
* `shardTree_partition`: routing, splitting and merging on every tree.
-/

namespace TensorPow

open Wire Sorted Cells

namespace ShardTree

/-! ## Shard ids -/

/-- A canonical shard id of a depth and a path. -/
theorem shardId_fields {depth path : ℕ} (hdepth : depth ≤ shardMaxDepth) (hpath : path < 2 ^ depth) :
    shardDepth (depth * 2 ^ 16 + path) = depth ∧ shardPath (depth * 2 ^ 16 + path) = path ∧
      requireShardId (depth * 2 ^ 16 + path) = .ok () := by
  have hlt : path < 2 ^ 16 := lt_of_lt_of_le hpath (Nat.pow_le_pow_right (by decide) hdepth)
  have hd : shardDepth (depth * 2 ^ 16 + path) = depth := by
    unfold shardDepth
    omega
  have hp : shardPath (depth * 2 ^ 16 + path) = path := by
    unfold shardPath
    omega
  refine ⟨hd, hp, requireShardId_ok.2 ⟨?_, ?_, ?_⟩⟩
  · unfold shardMaxDepth at hdepth
    unfold u32Max
    omega
  · rw [hd]
    exact hdepth
  · rw [hd, hp]
    exact hpath

theorem shardId_eq (s : ℕ) : shardDepth s * 2 ^ 16 + shardPath s = s := by
  unfold shardDepth shardPath
  omega

theorem encodeShardId_eq {depth path : ℕ} (hdepth : depth ≤ shardMaxDepth) (hpath : path < 2 ^ depth) :
    encodeShardId depth path = .ok (depth * 2 ^ 16 + path) := by
  unfold encodeShardId
  rw [Exn.ensure_of _ hdepth, Exn.ok_bind, Exn.ensure_of _ hpath]
  rfl

theorem decodeShardId_eq {s : ℕ} (hs : requireShardId s = .ok ()) :
    decodeShardId s = .ok (shardDepth s, shardPath s) := by
  unfold decodeShardId
  rw [hs]
  rfl

/-- A leaf matches a route as soon as it matches its low bits. -/
theorem leafMatches_mod {s : ℕ} (hs : requireShardId s = .ok ()) (r : ℕ) :
    leafMatches (r % 2 ^ shardMaxDepth) s = leafMatches r s := by
  obtain ⟨-, hdepth, -⟩ := requireShardId_ok.1 hs
  unfold leafMatches
  rw [Nat.mod_mod_of_dvd _ (Nat.pow_dvd_pow 2 hdepth)]

/-- A canonical leaf matches its own path. -/
theorem leafMatches_path {s : ℕ} (hs : requireShardId s = .ok ()) : leafMatches (shardPath s) s = true := by
  obtain ⟨-, -, hpath⟩ := requireShardId_ok.1 hs
  unfold leafMatches
  rw [Nat.mod_eq_of_lt hpath, decide_eq_true_eq]

/-! ## The checks of the constructor -/

/-- Canonical ids whose cells tile the routes. -/
structure IsPartition (S : Finset ℕ) : Prop where
  canonical : ∀ s ∈ S, requireShardId s = .ok ()
  tiles : Tiles (fun r s => leafMatches r s = true) S

theorem IsPartition.of_low {S : Finset ℕ} (hS : ∀ s ∈ S, requireShardId s = .ok ())
    (h : ∀ r < 2 ^ shardMaxDepth, ∃! s, s ∈ S ∧ leafMatches r s = true) : IsPartition S := by
  refine ⟨hS, fun r => ?_⟩
  obtain ⟨s, ⟨hs, hmatch⟩, hunique⟩ := h (r % 2 ^ shardMaxDepth) (Nat.mod_lt _ (by positivity))
  rw [leafMatches_mod (hS s hs)] at hmatch
  refine ⟨s, ⟨hs, hmatch⟩, fun s' hs' => hunique s' ⟨hs'.1, ?_⟩⟩
  rw [leafMatches_mod (hS s' hs'.1)]
  exact hs'.2

/-- No ancestor of a leaf of a partition is a leaf. -/
theorem IsPartition.ancestor {S : Finset ℕ} (h : IsPartition S) {s : ℕ} (hs : s ∈ S) {d : ℕ} (hd : d < shardDepth s) :
    d * 2 ^ 16 + shardPath s % 2 ^ d ∉ S := by
  intro hmem
  obtain ⟨-, hdepth, -⟩ := requireShardId_ok.1 (h.canonical s hs)
  obtain ⟨hd', hp', -⟩ := shardId_fields (hd.le.trans hdepth) (Nat.mod_lt (shardPath s) (by positivity : 0 < 2 ^ d))
  have hmatch : leafMatches (shardPath s) (d * 2 ^ 16 + shardPath s % 2 ^ d) = true := by
    unfold leafMatches
    rw [hd', hp', decide_eq_true_eq]
  have heq := h.tiles.eq hmem hmatch hs (leafMatches_path (h.canonical s hs))
  rw [heq] at hd'
  omega

/-- The loop of `_validate_leaf_partition` on the leaves of a partition. -/
theorem coverLeaf_eq {S : Finset ℕ} (h : IsPartition S) {done : List ℕ} {s : ℕ} (hdone : done.toFinset ⊆ S)
    (hs : s ∈ S) (k : ℕ) :
    coverLeaf (done.toFinset, k) s = .ok ((done ++ [s]).toFinset, k + 2 ^ (shardMaxDepth - shardDepth s)) := by
  have hcanonical := h.canonical s hs
  obtain ⟨-, hdepth, -⟩ := requireShardId_ok.1 hcanonical
  unfold coverLeaf
  rw [decodeShardId_eq hcanonical, Exn.ok_bind]
  dsimp only
  have hloop : (List.range (shardDepth s)).forM (fun ancestorDepth => do
      let ancestor ← encodeShardId ancestorDepth (shardPath s % 2 ^ ancestorDepth)
      Exn.ensure (ancestor ∉ done.toFinset) (PyError.valueError "leaf shard_ids overlap")) = .ok () := by
    refine Exn.forM_ok.2 fun d hd => ?_
    have hd := List.mem_range.1 hd
    rw [encodeShardId_eq (hd.le.trans hdepth) (Nat.mod_lt _ (by positivity)), Exn.ok_bind]
    exact Exn.ensure_of _ fun hmem => h.ancestor hs hd (hdone hmem)
  rw [hloop, Exn.ok_bind]
  have hinsert : insert s done.toFinset = (done ++ [s]).toFinset := by
    ext x
    simp
  rw [hinsert]
  rfl

/-- The cells of a partition have as many paths as there are. -/
theorem IsPartition.coverage {S : Finset ℕ} (h : IsPartition S) :
    ∑ s ∈ S, 2 ^ (shardMaxDepth - shardDepth s) = 2 ^ shardMaxDepth := by
  have hdisj : ∀ s ∈ S, ∀ t ∈ S, s ≠ t → Disjoint (cell s) (cell t) := by
    intro s hs t ht hne
    rw [Finset.disjoint_left]
    intro r hr hr'
    exact hne (h.tiles.eq hs (Finset.mem_filter.1 hr).2 ht (Finset.mem_filter.1 hr').2)
  have hunion : S.biUnion cell = Finset.range (2 ^ shardMaxDepth) := by
    ext r
    rw [Finset.mem_biUnion]
    constructor
    · rintro ⟨s, -, hr⟩
      exact (Finset.mem_filter.1 hr).1
    · intro hr
      obtain ⟨s, ⟨hs, hmatch⟩, -⟩ := h.tiles r
      exact ⟨s, hs, Finset.mem_filter.2 ⟨hr, hmatch⟩⟩
  calc ∑ s ∈ S, 2 ^ (shardMaxDepth - shardDepth s) = ∑ s ∈ S, (cell s).card :=
        Finset.sum_congr rfl fun s hs => (card_cell (h.canonical s hs)).symm
    _ = (S.biUnion cell).card := (Finset.card_biUnion hdisj).symm
    _ = 2 ^ shardMaxDepth := by rw [hunion, Finset.card_range]

/-- The leaves of a tree are ascending and partition the paths. -/
theorem isPartition (t : ShardTree) : t.leafShardIds.Pairwise (· < ·) ∧ IsPartition t.leafSet := by
  have hvalid := t.valid
  simp only [validateLeafPartition, Exn.bind_ok, Exn.ensure_ok] at hvalid
  obtain ⟨-, -, -, -, -, -, ⟨seen, coverage⟩, hfold, -⟩ := hvalid
  have hasc := t.leaves_ascending
  obtain ⟨hcanonical, hcover⟩ := t.cover
  -- the loop refuses a leaf that shares a route with a lesser one
  have hdisj : ∀ s ∈ t.leafShardIds, ∀ s' ∈ t.leafShardIds, s < s' → Disjoint (cell s) (cell s') := by
    intro s hs s' hs' hlt
    obtain ⟨done, todo, hsplit⟩ := List.append_of_mem hs'
    rw [hsplit] at hfold hs hasc
    obtain ⟨acc, hdone, hrest⟩ := Exn.foldlM_append_ok.1 hfold
    obtain ⟨acc', hstep, -⟩ := Exn.foldlM_cons_ok.1 hrest
    obtain ⟨-, hanc, -⟩ := coverLeaf_ok hstep
    have hseen : acc.1 = done.toFinset := by
      refine Exn.foldlM_inv (fun done (acc : Finset ℕ × ℕ) => acc.1 = done.toFinset) (fun done s todo acc acc' _ h hstep => ?_) rfl hdone
      obtain ⟨-, -, rfl⟩ := coverLeaf_ok hstep
      ext x
      simp [h]
    have hmem : s ∈ done := by
      rcases List.mem_append.1 hs with hs | hs
      · exact hs
      · have hle : s' ≤ s := by
          rcases List.mem_cons.1 hs with rfl | hs
          · exact le_rfl
          · exact (List.rel_of_pairwise_cons (List.pairwise_append.1 hasc).2.1 hs).le
        omega
    refine disjoint_cell hlt fun d hd heq => hanc d hd ?_
    rw [heq, hseen]
    exact List.mem_toFinset.2 hmem
  refine ⟨hasc, IsPartition.of_low (fun s hs => hcanonical s (List.mem_toFinset.1 hs)) fun r hr => ?_⟩
  have hr' : r ∈ t.leafShardIds.toFinset.biUnion cell := by
    rw [hcover]
    exact Finset.mem_range.2 hr
  obtain ⟨s, hs, hrs⟩ := Finset.mem_biUnion.1 hr'
  refine ⟨s, ⟨hs, (Finset.mem_filter.1 hrs).2⟩, ?_⟩
  rintro s' ⟨hs', hmatch⟩
  have hrs' : r ∈ cell s' := Finset.mem_filter.2 ⟨Finset.mem_range.2 hr, hmatch⟩
  rcases Nat.lt_trichotomy s' s with hlt | heq | hlt
  · exact absurd hrs (Finset.disjoint_left.1 (hdisj s' (List.mem_toFinset.1 hs') s (List.mem_toFinset.1 hs) hlt) hrs')
  · exact heq
  · exact absurd hrs' (Finset.disjoint_left.1 (hdisj s (List.mem_toFinset.1 hs) s' (List.mem_toFinset.1 hs') hlt) hrs)

/-- **What the constructor accepts.** -/
theorem validateLeafPartition_iff {l : List ℕ} :
    validateLeafPartition l = .ok () ↔ l.Pairwise (· < ·) ∧ IsPartition l.toFinset := by
  constructor
  · intro h
    exact isPartition ⟨l, h⟩
  · rintro ⟨hasc, h⟩
    have hne : l ≠ [] := by
      rintro rfl
      obtain ⟨s, ⟨hs, -⟩, -⟩ := h.tiles 0
      cases hs
    have hfold : l.foldlM coverLeaf (∅, 0) = .ok (l.toFinset, (l.map fun s => 2 ^ (shardMaxDepth - shardDepth s)).sum) := by
      refine Exn.foldlM_eq (fun done => (done.toFinset, (done.map fun s => 2 ^ (shardMaxDepth - shardDepth s)).sum))
        fun done s todo hl => ?_
      have hdone : done.toFinset ⊆ l.toFinset := by
        intro x hx
        rw [hl]
        simp [List.mem_toFinset.1 hx]
      have hs : s ∈ l.toFinset := by
        rw [hl]
        simp
      rw [coverLeaf_eq h hdone hs, List.map_append, List.sum_append]
      simp
    have hnodup : l.Nodup := hasc.imp fun hlt => ne_of_lt hlt
    have hsum : (l.map fun s => 2 ^ (shardMaxDepth - shardDepth s)).sum = 2 ^ shardMaxDepth := by
      rw [← h.coverage, List.sum_toFinset _ hnodup]
    have hsorted : sortBy id l = l := sortBy_eq_self (hasc.imp le_of_lt)
    unfold validateLeafPartition
    rw [Exn.ensure_of _ hne, Exn.ok_bind, Exn.ensure_of _ hsorted, Exn.ok_bind, Exn.ensure_of _ hnodup, Exn.ok_bind,
      hfold, Exn.ok_bind]
    exact Exn.ensure_of _ hsum

theorem make_iff {l : List ℕ} {t : ShardTree} : make l = .ok t ↔ t.leafShardIds = l := by
  unfold make
  split
  · rename_i h
    constructor
    · intro ht
      cases ht
      rfl
    · rintro rfl
      rfl
  · rename_i e he
    constructor
    · intro ht
      cases ht
    · rintro rfl
      rw [t.valid] at he
      cases he

/-! ## Routing -/

theorem routeTx_iff {t : ShardTree} {txHash : Hash} {s : ℕ} :
    t.routeTx txHash = .ok s ↔ s ∈ t.leafSet ∧ leafMatches txHash.toNat s = true := by
  obtain ⟨-, hpart⟩ := t.isPartition
  constructor
  · intro h
    have hfind := Exn.get_ok.1 h
    exact ⟨List.mem_toFinset.2 (List.mem_of_find?_eq_some hfind), List.find?_some hfind⟩
  · rintro ⟨hs, hmatch⟩
    obtain ⟨s', hs'⟩ := t.routeTx_returns txHash
    have hfind := Exn.get_ok.1 hs'
    have hmem : s' ∈ t.leafSet := List.mem_toFinset.2 (List.mem_of_find?_eq_some hfind)
    rw [hpart.tiles.eq hs hmatch hmem (List.find?_some hfind)]
    exact hs'

/-- A tree with other leaves in the place of some. -/
theorem exists_swap (t : ShardTree) {A B : Finset ℕ} (hA : A ⊆ t.leafSet) (hB : ∀ b ∈ B, requireShardId b = .ok ())
    (hfit : Refits (fun r s => leafMatches r s = true) A B) :
    ∃ t', make (ascending ((t.leafSet \ A) ∪ B)) = .ok t' ∧ t'.leafSet = (t.leafSet \ A) ∪ B ∧
      ∀ txHash s s', t.routeTx txHash = .ok s → t'.routeTx txHash = .ok s' → (s ∉ A → s' = s) ∧ (s ∈ A → s' ∈ B) := by
  obtain ⟨-, hpart⟩ := t.isPartition
  have hnew : IsPartition ((t.leafSet \ A) ∪ B) := by
    refine ⟨fun s hs => ?_, hpart.tiles.swap hA hfit⟩
    rcases Finset.mem_union.1 hs with hs | hs
    · exact hpart.canonical s (Finset.mem_sdiff.1 hs).1
    · exact hB s hs
  have hvalid : validateLeafPartition (ascending ((t.leafSet \ A) ∪ B)) = .ok () := by
    refine validateLeafPartition_iff.2 ⟨?_, ?_⟩
    · exact pairwise_ascending _
    · rw [toFinset_ascending]
      exact hnew
  have hset : (⟨_, hvalid⟩ : ShardTree).leafSet = (t.leafSet \ A) ∪ B := toFinset_ascending _
  refine ⟨⟨_, hvalid⟩, make_iff.2 rfl, hset, fun txHash s s' hs hs' => ?_⟩
  obtain ⟨hmem, hmatch⟩ := routeTx_iff.1 hs
  obtain ⟨hmem', hmatch'⟩ := routeTx_iff.1 hs'
  rw [hset] at hmem'
  exact hpart.tiles.swap_cell hA hfit hmem hmatch hmem' hmatch'

theorem make_leafSet (t : ShardTree) : make (ascending t.leafSet) = .ok t := by
  obtain ⟨hasc, -⟩ := t.isPartition
  have hsorted : sortBy id t.leafShardIds = t.leafShardIds := sortBy_eq_self (hasc.imp le_of_lt)
  refine make_iff.2 ?_
  rw [leafSet, ascending_toFinset _ (hasc.imp fun hlt => ne_of_lt hlt), hsorted]

/-! ## Parents and children -/

/-- The two halves of a cell. -/
theorem matches_halves {d p r : ℕ} (hp : p < 2 ^ d) :
    (p = r % 2 ^ d ↔ p = r % 2 ^ (d + 1) ∨ p + 2 ^ d = r % 2 ^ (d + 1)) ∧
      ¬(p = r % 2 ^ (d + 1) ∧ p + 2 ^ d = r % 2 ^ (d + 1)) := by
  have hpow : r % 2 ^ (d + 1) = r % 2 ^ d + 2 ^ d * (r / 2 ^ d % 2) := Nat.mod_pow_succ
  have hlt : r % 2 ^ d < 2 ^ d := Nat.mod_lt _ (by positivity)
  rcases Nat.mod_two_eq_zero_or_one (r / 2 ^ d) with h | h
  · rw [h] at hpow
    omega
  · rw [h] at hpow
    omega

/-- The children of a leaf above the greatest depth. -/
structure Children (s left right : ℕ) : Prop where
  depth : shardDepth s < shardMaxDepth
  canonical : requireShardId s = .ok ()
  left_eq : left = (shardDepth s + 1) * 2 ^ 16 + shardPath s
  right_eq : right = (shardDepth s + 1) * 2 ^ 16 + (shardPath s + 2 ^ shardDepth s)

namespace Children

variable {s left right : ℕ}

theorem left_fields (h : Children s left right) : shardDepth left = shardDepth s + 1 ∧ shardPath left = shardPath s ∧
    requireShardId left = .ok () := by
  obtain ⟨-, -, hpath⟩ := requireShardId_ok.1 h.canonical
  rw [h.left_eq]
  refine shardId_fields h.depth ?_
  rw [pow_succ]
  omega

theorem right_fields (h : Children s left right) : shardDepth right = shardDepth s + 1 ∧
    shardPath right = shardPath s + 2 ^ shardDepth s ∧ requireShardId right = .ok () := by
  obtain ⟨-, -, hpath⟩ := requireShardId_ok.1 h.canonical
  rw [h.right_eq]
  refine shardId_fields h.depth ?_
  rw [pow_succ]
  omega

theorem left_lt_right (h : Children s left right) : left < right := by
  have hpos : 0 < 2 ^ shardDepth s := by positivity
  rw [h.left_eq, h.right_eq]
  omega

/-- A leaf covers what its children cover. -/
theorem refits (h : Children s left right) : Refits (fun r s => leafMatches r s = true) {s} {left, right} := by
  obtain ⟨hld, hlp, -⟩ := h.left_fields
  obtain ⟨hrd, hrp, -⟩ := h.right_fields
  obtain ⟨-, -, hpath⟩ := requireShardId_ok.1 h.canonical
  have hhalves : ∀ r, (leafMatches r s = true ↔ leafMatches r left = true ∨ leafMatches r right = true) ∧
      ¬(leafMatches r left = true ∧ leafMatches r right = true) := by
    intro r
    unfold leafMatches
    rw [hld, hlp, hrd, hrp]
    simp only [decide_eq_true_eq]
    exact matches_halves hpath
  refine ⟨fun r => ?_, fun r b hb b' hb' hm hm' => ?_⟩
  · simp only [Finset.mem_singleton, exists_eq_left, Finset.mem_insert, exists_eq_or_imp]
    exact (hhalves r).1
  · simp only [Finset.mem_insert, Finset.mem_singleton] at hb hb'
    rcases hb with rfl | rfl
    · rcases hb' with rfl | rfl
      · rfl
      · exact absurd ⟨hm, hm'⟩ (hhalves r).2
    · rcases hb' with rfl | rfl
      · exact absurd ⟨hm', hm⟩ (hhalves r).2
      · rfl

/-- The children cover what the leaf covers. -/
theorem refits_back (h : Children s left right) : Refits (fun r s => leafMatches r s = true) {left, right} {s} := by
  refine ⟨fun r => (h.refits.covers r).symm, fun r b hb b' hb' _ _ => ?_⟩
  rw [Finset.mem_singleton.1 hb, Finset.mem_singleton.1 hb']

end Children

theorem childShardIds_eq {s : ℕ} (hs : requireShardId s = .ok ()) (hdepth : shardDepth s < shardMaxDepth) :
    ∃ left right, childShardIds s = .ok (left, right) ∧ Children s left right := by
  obtain ⟨-, -, hpath⟩ := requireShardId_ok.1 hs
  have hor : shardPath s ||| 2 ^ shardDepth s = shardPath s + 2 ^ shardDepth s := by
    have hadd := Nat.two_pow_add_eq_or_of_lt hpath 1
    rw [Nat.mul_one] at hadd
    rw [Nat.or_comm, ← hadd, Nat.add_comm]
  refine ⟨_, _, ?_, hdepth, hs, rfl, rfl⟩
  unfold childShardIds
  rw [decodeShardId_eq hs, Exn.ok_bind]
  dsimp only
  rw [Exn.ensure_of _ hdepth, Exn.ok_bind, encodeShardId_eq hdepth (by rw [pow_succ]; omega), Exn.ok_bind, hor,
    encodeShardId_eq hdepth (by rw [pow_succ]; omega)]
  rfl

theorem Children.parent {s left right : ℕ} (h : Children s left right) : parentShardId left = .ok s := by
  obtain ⟨hld, hlp, hleft⟩ := h.left_fields
  obtain ⟨-, -, hpath⟩ := requireShardId_ok.1 h.canonical
  have hle := h.depth.le
  unfold parentShardId
  rw [decodeShardId_eq hleft, Exn.ok_bind]
  dsimp only
  rw [hld, hlp, Exn.ensure_of _ (by omega), Exn.ok_bind, Nat.add_sub_cancel, Nat.mod_eq_of_lt hpath,
    encodeShardId_eq hle hpath, shardId_eq]

/-- Siblings are the children of one leaf, in either order. -/
theorem requireSiblingShards_ok {l r : ℕ} {q : ℕ × ℕ} (h : requireSiblingShards (l, r) = .ok q) :
    ∃ s, Children s q.1 q.2 ∧ (q = (l, r) ∨ q = (r, l)) := by
  unfold requireSiblingShards at h
  simp only [decodeShardId, Exn.bind_ok, Exn.ensure_ok, Exn.pure_ok] at h
  obtain ⟨⟨ld, lp⟩, ⟨⟨⟩, hl, hlfields⟩, ⟨rd, rp⟩, ⟨⟨⟩, hr, hrfields⟩, ⟨⟩, hne, ⟨⟩, hdepth, ⟨⟩, hpos, ⟨⟩, hshare, ⟨⟩,
    hopposite, rfl⟩ := h
  cases hlfields
  cases hrfields
  dsimp only at hne hdepth hpos hshare hopposite
  obtain ⟨-, hlmax, hlpath⟩ := requireShardId_ok.1 hl
  obtain ⟨d, hd⟩ : ∃ d, shardDepth l = d + 1 := ⟨shardDepth l - 1, by omega⟩
  rw [hd] at hlmax
  rw [← hdepth, hd, Nat.add_sub_cancel] at hopposite
  rw [hd, Nat.add_sub_cancel] at hshare
  have hpart : shardPath l % 2 ^ d < 2 ^ d := Nat.mod_lt _ (by positivity)
  have hlsplit := Nat.div_add_mod (shardPath l) (2 ^ d)
  have hrsplit := Nat.div_add_mod (shardPath r) (2 ^ d)
  obtain ⟨hsd, hsp, hs⟩ := shardId_fields (Nat.le_of_succ_le hlmax) hpart
  have hlid := shardId_eq l
  have hrid := shardId_eq r
  rw [hd] at hlid
  rw [← hdepth, hd] at hrid
  -- one of the two has the upper half
  have hcases : shardPath l / 2 ^ d = 0 ∧ shardPath r / 2 ^ d = 1 ∨ shardPath l / 2 ^ d = 1 ∧ shardPath r / 2 ^ d = 0 := by
    have h₀ : (0 : ℕ) ∈ ({shardPath l / 2 ^ d, shardPath r / 2 ^ d} : Finset ℕ) := by
      rw [hopposite]
      simp
    have h₁ : (1 : ℕ) ∈ ({shardPath l / 2 ^ d, shardPath r / 2 ^ d} : Finset ℕ) := by
      rw [hopposite]
      simp
    simp only [Finset.mem_insert, Finset.mem_singleton] at h₀ h₁
    omega
  refine ⟨d * 2 ^ 16 + shardPath l % 2 ^ d, ?_⟩
  rcases hcases with ⟨hl0, hr1⟩ | ⟨hl1, hr0⟩
  · rw [hl0, Nat.mul_zero, Nat.zero_add] at hlsplit
    rw [hr1, Nat.mul_one, ← hshare] at hrsplit
    have hlt : l < r := by
      have hpos : 0 < 2 ^ d := by positivity
      omega
    rw [min_eq_left hlt.le, max_eq_right hlt.le]
    refine ⟨⟨by omega, hs, ?_, ?_⟩, .inl rfl⟩
    · rw [hsd, hsp]
      omega
    · rw [hsd, hsp]
      omega
  · rw [hl1, Nat.mul_one] at hlsplit
    rw [hr0, Nat.mul_zero, Nat.zero_add, ← hshare] at hrsplit
    have hlt : r < l := by
      have hpos : 0 < 2 ^ d := by positivity
      omega
    rw [min_eq_right hlt.le, max_eq_left hlt.le]
    refine ⟨⟨by omega, hs, ?_, ?_⟩, .inr rfl⟩
    · rw [hsd, hsp]
      omega
    · rw [hsd, hsp]
      omega

theorem Children.siblings {s left right : ℕ} (h : Children s left right) :
    requireSiblingShards (left, right) = .ok (left, right) ∧ requireSiblingShards (right, left) = .ok (left, right) := by
  obtain ⟨hld, hlp, hleft⟩ := h.left_fields
  obtain ⟨hrd, hrp, hright⟩ := h.right_fields
  obtain ⟨-, -, hpath⟩ := requireShardId_ok.1 h.canonical
  have hlt := h.left_lt_right
  have hpos : 0 < 2 ^ shardDepth s := by positivity
  have hlow : shardPath s % 2 ^ shardDepth s = (shardPath s + 2 ^ shardDepth s) % 2 ^ shardDepth s := by
    rw [Nat.add_mod_right]
  have hzero : shardPath s / 2 ^ shardDepth s = 0 := Nat.div_eq_of_lt hpath
  have hone : (shardPath s + 2 ^ shardDepth s) / 2 ^ shardDepth s = 1 := by
    rw [Nat.add_div_right _ hpos, hzero]
  constructor
  · unfold requireSiblingShards
    dsimp only
    rw [decodeShardId_eq hleft, Exn.ok_bind, decodeShardId_eq hright, Exn.ok_bind]
    dsimp only
    rw [hld, hlp, hrd, hrp, Nat.add_sub_cancel, hzero, hone, Exn.ensure_of _ hlt.ne, Exn.ok_bind, Exn.ensure_of _ rfl,
      Exn.ok_bind, Exn.ensure_of _ (Nat.succ_ne_zero _), Exn.ok_bind, Exn.ensure_of _ hlow, Exn.ok_bind,
      Exn.ensure_of _ rfl, Exn.ok_bind, min_eq_left hlt.le, max_eq_right hlt.le]
    rfl
  · unfold requireSiblingShards
    dsimp only
    rw [decodeShardId_eq hright, Exn.ok_bind, decodeShardId_eq hleft, Exn.ok_bind]
    dsimp only
    rw [hld, hlp, hrd, hrp, Nat.add_sub_cancel, hzero, hone, Exn.ensure_of _ hlt.ne', Exn.ok_bind, Exn.ensure_of _ rfl,
      Exn.ok_bind, Exn.ensure_of _ (Nat.succ_ne_zero _), Exn.ok_bind, Exn.ensure_of _ hlow.symm, Exn.ok_bind,
      Exn.ensure_of _ (Finset.pair_comm 1 0), Exn.ok_bind, min_eq_right hlt.le, max_eq_left hlt.le]
    rfl

/-! ## Splitting and merging -/

theorem applySplit_eq {t : ShardTree} {s left right : ℕ} (hs : s ∈ t.leafSet) (h : Children s left right) :
    t.applySplit s = make (ascending ((t.leafSet \ {s}) ∪ {left, right})) := by
  obtain ⟨l, r, hchildren, hc⟩ := childShardIds_eq h.canonical h.depth
  rw [hc.left_eq, ← h.left_eq, hc.right_eq, ← h.right_eq] at hchildren
  unfold applySplit
  rw [h.canonical, Exn.ok_bind, Exn.ensure_of _ hs, Exn.ok_bind, hchildren]
  rfl

theorem applyMerge_eq {t : ShardTree} {s left right : ℕ} {siblings : ℕ × ℕ} (h : Children s left right)
    (hsib : requireSiblingShards siblings = .ok (left, right)) (hl : left ∈ t.leafSet) (hr : right ∈ t.leafSet) :
    t.applyMerge siblings = make (ascending ((t.leafSet \ {left, right}) ∪ {s})) := by
  unfold applyMerge
  rw [hsib, Exn.ok_bind]
  dsimp only
  rw [Exn.ensure_of _ ⟨hl, hr⟩, Exn.ok_bind, h.parent]
  rfl

theorem Children.nonempty {s left right : ℕ} (h : Children s left right) :
    ∀ b ∈ ({left, right} : Finset ℕ), requireShardId b = .ok () ∧ ∃ r, leafMatches r b = true := by
  have hb : ∀ b ∈ ({left, right} : Finset ℕ), requireShardId b = .ok () := by
    intro b hb
    simp only [Finset.mem_insert, Finset.mem_singleton] at hb
    rcases hb with rfl | rfl
    · exact h.left_fields.2.2
    · exact h.right_fields.2.2
  exact fun b hmem => ⟨hb b hmem, _, leafMatches_path (hb b hmem)⟩

theorem split_leaf (t : ShardTree) {s : ℕ} (hs : s ∈ t.leafSet) (hdepth : shardDepth s < shardMaxDepth) :
    ∃ t' left right, childShardIds s = .ok (left, right) ∧ t.applySplit s = .ok t' ∧
      t'.applyMerge (left, right) = .ok t ∧ t'.applyMerge (right, left) = .ok t ∧
      ∀ txHash x y, t.routeTx txHash = .ok x → t'.routeTx txHash = .ok y →
        (x ≠ s → y = x) ∧ (x = s → y = left ∨ y = right) := by
  obtain ⟨-, hpart⟩ := t.isPartition
  obtain ⟨left, right, hchildren, h⟩ := childShardIds_eq (hpart.canonical s hs) hdepth
  have hsub : {s} ⊆ t.leafSet := Finset.singleton_subset_iff.2 hs
  obtain ⟨t', hmake, hset, hroute⟩ := t.exists_swap hsub (fun b hb => (h.nonempty b hb).1) h.refits
  have hback : ∀ siblings, requireSiblingShards siblings = .ok (left, right) → t'.applyMerge siblings = .ok t := by
    intro siblings hsib
    have hl : left ∈ t'.leafSet := by
      rw [hset]
      simp
    have hr : right ∈ t'.leafSet := by
      rw [hset]
      simp
    rw [applyMerge_eq h hsib hl hr]
    have hundo := hpart.tiles.swap_swap hsub h.refits fun b hb => (h.nonempty b hb).2
    rw [← hset] at hundo
    rw [hundo, make_leafSet]
  refine ⟨t', left, right, hchildren, by rw [applySplit_eq hs h, hmake], hback _ h.siblings.1, hback _ h.siblings.2, ?_⟩
  intro txHash x y hx hy
  obtain ⟨hother, hsplit⟩ := hroute txHash x y hx hy
  refine ⟨fun hne => hother (by rwa [Finset.mem_singleton]), fun heq => ?_⟩
  have hmem := hsplit (Finset.mem_singleton.2 heq)
  simpa using hmem

theorem merge_siblings (t : ShardTree) {siblings q : ℕ × ℕ} (hsib : requireSiblingShards siblings = .ok q)
    (hl : siblings.1 ∈ t.leafSet) (hr : siblings.2 ∈ t.leafSet) :
    ∃ t' parent, parentShardId q.1 = .ok parent ∧ t.applyMerge siblings = .ok t' ∧ t'.applySplit parent = .ok t ∧
      ∀ txHash x y, t.routeTx txHash = .ok x → t'.routeTx txHash = .ok y →
        (x ≠ siblings.1 → x ≠ siblings.2 → y = x) ∧ (x = siblings.1 ∨ x = siblings.2 → y = parent) := by
  obtain ⟨-, hpart⟩ := t.isPartition
  obtain ⟨parent, h, hq⟩ := requireSiblingShards_ok hsib
  have hpair : ({q.1, q.2} : Finset ℕ) = {siblings.1, siblings.2} := by
    rcases hq with rfl | rfl
    · rfl
    · exact Finset.pair_comm _ _
  have hsub : {q.1, q.2} ⊆ t.leafSet := by
    rw [hpair]
    intro x hx
    simp only [Finset.mem_insert, Finset.mem_singleton] at hx
    rcases hx with rfl | rfl
    · exact hl
    · exact hr
  have hparent : ∀ b ∈ ({parent} : Finset ℕ), requireShardId b = .ok () := by
    intro b hb
    rw [Finset.mem_singleton.1 hb]
    exact h.canonical
  obtain ⟨t', hmake, hset, hroute⟩ := t.exists_swap hsub hparent h.refits_back
  refine ⟨t', parent, h.parent, ?_, ?_, fun txHash x y hx hy => ?_⟩
  · rw [applyMerge_eq h hsib (hsub (by simp)) (hsub (by simp)), hmake]
  · have hmem : parent ∈ t'.leafSet := by
      rw [hset]
      simp
    have hundo := hpart.tiles.swap_swap hsub h.refits_back fun b hb => ⟨_, leafMatches_path (hparent b hb)⟩
    rw [← hset] at hundo
    rw [applySplit_eq hmem h, hundo, make_leafSet]
  · obtain ⟨hother, hmerged⟩ := hroute txHash x y hx hy
    rw [hpair] at hother hmerged
    simp only [Finset.mem_insert, Finset.mem_singleton, not_or] at hother hmerged
    exact ⟨fun h₁ h₂ => hother ⟨h₁, h₂⟩, hmerged⟩

end ShardTree

/-- **Shard trees are partitions of the low-bit paths.** The constructor accepts exactly the
ascending lists of canonical ids in which every path lies under one id; on every tree each
hash is routed to the one leaf it matches; splitting a leaf and merging siblings return
trees, undo each other and reroute only what was routed to the leaves they replace. -/
theorem shardTree_partition :
    (∀ l : List ℕ, (∃ t, ShardTree.make l = .ok t) ↔
      l.Pairwise (· < ·) ∧ (∀ s ∈ l, requireShardId s = .ok ()) ∧
      ∀ path < 2 ^ shardMaxDepth, ∃! s, s ∈ l ∧ shardPath s = path % 2 ^ shardDepth s) ∧
    (∀ (t : ShardTree) (txHash : Hash), ∃ s ∈ t.leafShardIds, t.routeTx txHash = .ok s ∧
      ∀ x ∈ t.leafShardIds, shardPath x = txHash.toNat % 2 ^ shardDepth x ↔ x = s) ∧
    (∀ (t : ShardTree), ∀ s ∈ t.leafShardIds, shardDepth s < shardMaxDepth →
      ∃ t' left right, childShardIds s = .ok (left, right) ∧ t.applySplit s = .ok t' ∧
        t'.applyMerge (left, right) = .ok t ∧ t'.applyMerge (right, left) = .ok t ∧
        ∀ txHash x y, t.routeTx txHash = .ok x → t'.routeTx txHash = .ok y →
          (x ≠ s → y = x) ∧ (x = s → y = left ∨ y = right)) ∧
    (∀ (t : ShardTree) (siblings q : ℕ × ℕ), requireSiblingShards siblings = .ok q →
      siblings.1 ∈ t.leafShardIds → siblings.2 ∈ t.leafShardIds →
      ∃ t' parent, parentShardId q.1 = .ok parent ∧ t.applyMerge siblings = .ok t' ∧ t'.applySplit parent = .ok t ∧
        ∀ txHash x y, t.routeTx txHash = .ok x → t'.routeTx txHash = .ok y →
          (x ≠ siblings.1 → x ≠ siblings.2 → y = x) ∧ (x = siblings.1 ∨ x = siblings.2 → y = parent)) := by
  refine ⟨fun l => ?_, fun t txHash => ?_, fun t s hs hdepth => ?_, fun t siblings q hsib hl hr => ?_⟩
  · have hmake : (∃ t, ShardTree.make l = .ok t) ↔ validateLeafPartition l = .ok () := by
      constructor
      · rintro ⟨t, ht⟩
        rw [← ShardTree.make_iff.1 ht]
        exact t.valid
      · intro h
        exact ⟨⟨l, h⟩, ShardTree.make_iff.2 rfl⟩
    rw [hmake, ShardTree.validateLeafPartition_iff]
    refine and_congr_right fun hasc => ?_
    constructor
    · intro h
      refine ⟨fun s hs => h.canonical s (List.mem_toFinset.2 hs), fun path _ => ?_⟩
      simpa [ShardTree.leafMatches] using h.tiles path
    · rintro ⟨hcanonical, hpaths⟩
      refine ShardTree.IsPartition.of_low (fun s hs => hcanonical s (List.mem_toFinset.1 hs)) fun path hpath => ?_
      simpa [ShardTree.leafMatches] using hpaths path hpath
  · obtain ⟨s, hs⟩ := t.routeTx_returns txHash
    obtain ⟨hmem, hmatch⟩ := ShardTree.routeTx_iff.1 hs
    refine ⟨s, List.mem_toFinset.1 hmem, hs, fun x hx => ?_⟩
    constructor
    · intro hpath
      refine t.isPartition.2.tiles.eq (List.mem_toFinset.2 hx) ?_ hmem hmatch
      rw [ShardTree.leafMatches, decide_eq_true_eq]
      exact hpath
    · rintro rfl
      exact of_decide_eq_true hmatch
  · exact t.split_leaf (List.mem_toFinset.2 hs) hdepth
  · exact t.merge_siblings hsib (List.mem_toFinset.2 hl) (List.mem_toFinset.2 hr)

end TensorPow
