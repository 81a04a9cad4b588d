import TensorPow.Proof.Commitment

/-!
# Proofs against the UTXO root

* `climbFrom_eq`: the verifier's loop is the walk of the sparse tree.
* `inclusionProof_keeps`, `nonInclusionProof_keeps`: what the two builders return.
* `utxoProofs_sound_complete`: for every outpoint the set builds the proof that is due and
  `verify_proof` accepts it; no other proof about the outpoint is accepted.
-/

namespace TensorPow

open Wire Exn CachedSet

variable {C : Crypto}

/-! ## The walk of the verifier -/

/-- The siblings of a proof, by depth. -/
def siblingAt (siblings : List Hash) (i : ℕ) : Hash := siblings.getD i genesisParentHash

theorem climb_eq (key : Hash) (siblings : List Hash) (node : Hash) {i : ℕ} (hi : i < merkleDepthBits) :
    climb C key siblings node i =
      treeDigest C (Sparse.stepInput merkleDepthBits (keyIntOf key) (siblingAt siblings) i node) := by
  unfold climb Sparse.stepInput
  rw [keyBitAt_eq key hi]
  cases Sparse.keyBit merkleDepthBits (keyIntOf key) i <;> rfl

/-- The loop of `verify_proof` climbs the path of the key. -/
theorem climbFrom_eq (key : Hash) (siblings : List Hash) {depth : ℕ} (hle : depth ≤ merkleDepthBits) (node : Hash) :
    climbFrom C key siblings depth node =
      Sparse.walk (treeDigest C) merkleDepthBits (keyIntOf key) (siblingAt siblings) depth node := by
  induction depth generalizing node with
  | zero => rfl
  | succ depth ih =>
    unfold climbFrom
    rw [List.range_succ, List.reverse_append, List.reverse_singleton, List.singleton_append, List.foldl_cons,
      climb_eq key siblings node (by omega)]
    exact ih (by omega) _

theorem requireSiblings_ok {siblings : List Hash} {n : ℕ} :
    requireSiblings siblings n = .ok () ↔ siblings.length = n ∧ siblings.Nodup := by
  unfold requireSiblings
  rw [Exn.bind_ok]
  simp only [Exn.ensure_ok, exists_and_left, exists_const]

theorem InclusionFields.postInit_ok {p : InclusionFields} :
    p.postInit = .ok () ↔ p.utxo.outpoint = p.outpoint ∧ p.siblings.length = merkleDepthBits ∧ p.siblings.Nodup := by
  unfold InclusionFields.postInit
  rw [Exn.bind_ok]
  simp only [Exn.ensure_ok, requireSiblings_ok, exists_and_left, exists_const]

theorem NonInclusionFields.postInit_ok {p : NonInclusionFields} :
    p.postInit = .ok () ↔ p.emptyDepth ≤ merkleDepthBits ∧ p.siblings.length = p.emptyDepth ∧ p.siblings.Nodup := by
  unfold NonInclusionFields.postInit
  rw [Exn.bind_ok]
  simp only [Exn.bind_ok, Exn.ensure_ok, requireUint, requireSiblings_ok, exists_and_left, exists_const]
  refine and_iff_right_of_imp fun h => ?_
  have := h.1
  unfold merkleDepthBits hashLenBytes at this
  unfold u16Max
  omega

theorem InclusionProof.make_ok {f : InclusionFields} (h : f.postInit = .ok ()) : InclusionProof.make f = .ok ⟨f, h⟩ := by
  unfold InclusionProof.make
  split
  · rfl
  · rename_i e he
    rw [h] at he
    cases he

theorem NonInclusionProof.make_ok {f : NonInclusionFields} (h : f.postInit = .ok ()) :
    NonInclusionProof.make f = .ok ⟨f, h⟩ := by
  unfold NonInclusionProof.make
  split
  · rfl
  · rename_i e he
    rw [h] at he
    cases he

/-- The checks of an inclusion proof were made when it was built; what is left is the walk. -/
theorem verifyProof_inclusion {o : Outpoint} {p : InclusionProof} {root : Hash} :
    verifyProof C o (.inclusion p) root = true ↔ p.outpoint = o ∧
      Sparse.walk (treeDigest C) merkleDepthBits (keyIntOf (o.key C)) (siblingAt p.siblings) merkleDepthBits
        (treeDigest C (.leaf (keyIntOf (o.key C)) p.utxo)) = root := by
  obtain ⟨hutxo, hlen, hnodup⟩ := InclusionFields.postInit_ok.1 p.valid
  unfold verifyProof
  by_cases ho : p.outpoint = o
  · subst ho
    rw [if_neg (by simp [UTXOProof.outpoint])]
    dsimp only
    rw [if_neg (by simp [requireSiblings_ok, hlen, hnodup]), if_neg (by simp [hutxo]), climbFrom_eq _ _ le_rfl]
    have hleaf : treeDigest C (.leaf (keyIntOf (p.outpoint.key C)) p.utxo) =
        leafHash C (p.outpoint.key C) (p.utxo.valueHash C) := by
      rw [← hutxo]
      rfl
    simp [hleaf]
  · rw [if_pos (by exact ho)]
    simp [ho]

theorem verifyProof_nonInclusion {o : Outpoint} {p : NonInclusionProof} {root : Hash} :
    verifyProof C o (.nonInclusion p) root = true ↔ p.outpoint = o ∧
      Sparse.walk (treeDigest C) merkleDepthBits (keyIntOf (o.key C)) (siblingAt p.siblings) p.emptyDepth
        (treeDigest C (.empty p.emptyDepth)) = root := by
  obtain ⟨hle, hlen, hnodup⟩ := NonInclusionFields.postInit_ok.1 p.valid
  unfold verifyProof
  by_cases ho : p.outpoint = o
  · subst ho
    rw [if_neg (by simp [UTXOProof.outpoint])]
    dsimp only
    rw [if_neg (by simp [requireSiblings_ok, hlen, hnodup]), if_neg (by simp [hle]), climbFrom_eq _ _ hle]
    have hempty : treeDigest C (.empty p.emptyDepth) = emptyHash C p.emptyDepth := rfl
    simp [hempty]
  · rw [if_pos (by exact ho)]
    simp [ho]

/-! ## The proofs of a set -/

namespace UTXOSet

variable (s : UTXOSet C) (o : Outpoint)

theorem siblingAt_plainSiblings (key : Hash) {depth i : ℕ} (hi : i < depth) :
    siblingAt (plainSiblings s key depth) i =
      Sparse.sibling (treeDigest C) merkleDepthBits s.treeItems (keyIntOf key) i := by
  unfold siblingAt plainSiblings
  rw [List.getD_eq_getElem?_getD, List.getElem?_map, List.getElem?_range hi]
  rfl

/-- Siblings at two depths have different depth tags: an honest proof has no duplicates. -/
theorem nodup_plainSiblings {s : UTXOSet C} (hinj : Set.InjOn C.hashBytes s.rootInputs) (key : Hash) {depth : ℕ}
    (hle : depth ≤ merkleDepthBits) : (plainSiblings s key depth).Nodup := by
  refine List.Nodup.map_on (fun i hi j hj h => ?_) List.nodup_range
  have hi := List.mem_range.1 hi
  have hj := List.mem_range.1 hj
  by_contra hne
  exact Sparse.sibling_ne (treeDigest_injOn hinj) (fun l hl p => top_usable subset_rfl hl p) (by omega) (by omega) hne h

theorem length_plainSiblings (key : Hash) (depth : ℕ) : (plainSiblings s key depth).length = depth := by
  unfold plainSiblings
  rw [List.length_map, List.length_range]

/-- The path of an outpoint down to a depth is occupied. -/
def OccupiedAbove (key : Hash) (depth : ℕ) : Prop :=
  ∀ j < depth, Sparse.Occupied s.treeItems (merkleDepthBits - j) (keyIntOf key / 2 ^ (merkleDepthBits - j))

/-- From a subtree on an occupied path the siblings of the set lead to its root. -/
theorem walk_plainSiblings {key : Hash} {depth : ℕ} (hle : depth ≤ merkleDepthBits) (hocc : s.OccupiedAbove key depth) :
    Sparse.walk (treeDigest C) merkleDepthBits (keyIntOf key) (siblingAt (plainSiblings s key depth)) depth
      (s.plainSubtree (merkleDepthBits - depth) (keyIntOf key / 2 ^ (merkleDepthBits - depth))) = s.plainRoot :=
  Sparse.walk_root (keyIntOf_lt key) hle (fun _ hj => s.siblingAt_plainSiblings key hj) hocc

/-! ### An inclusion proof -/

theorem plainSubtree_member {s : UTXOSet C} {o : Outpoint} {u : UTXO} (hu : s.get o = some u) :
    s.plainSubtree 0 (keyIntOf (o.key C)) = treeDigest C (.leaf (keyIntOf (o.key C)) u) := by
  have ho := outpoint_of_get hu
  subst ho
  unfold plainSubtree Sparse.root
  rw [Sparse.top, get_treeItems.2 ⟨mem_entries.2 hu, rfl⟩]

theorem occupiedAbove_member {s : UTXOSet C} {o : Outpoint} {u : UTXO} (hu : s.get o = some u) (depth : ℕ) :
    s.OccupiedAbove (o.key C) depth := by
  have ho := outpoint_of_get hu
  subst ho
  exact fun j _ => Sparse.occupied_of_get (get_treeItems.2 ⟨mem_entries.2 hu, rfl⟩) _

theorem inclusionProof_keeps {s : UTXOSet C} {o : Outpoint} {u : UTXO} (hu : s.get o = some u)
    (hinj : Set.InjOn C.hashBytes s.rootInputs) :
    ∃ p : InclusionProof, Keeps (Current s) (inclusionProof o) p ∧ p.utxo = u ∧
      verifyProof C o (.inclusion p) s.plainRoot = true := by
  have hvalid : (⟨o, u, plainSiblings s (o.key C) merkleDepthBits⟩ : InclusionFields).postInit = .ok () :=
    InclusionFields.postInit_ok.2 ⟨outpoint_of_get hu, s.length_plainSiblings _ _, nodup_plainSiblings hinj _ le_rfl⟩
  refine ⟨⟨_, hvalid⟩, Keeps.get_bind fun c hc => ?_, rfl, verifyProof_inclusion.2 ⟨rfl, ?_⟩⟩
  · have hget : c.unspent.get o = some u := by rw [hc.unspent, hu]
    rw [hget]
    refine Keeps.bind (Keeps.lift rfl) ((merkleItems_keeps s).bind ((merkleKeyInts_keeps s).bind ?_)) c hc
    exact (onSubtrees_keeps (proofSiblings_keeps s _ le_rfl)).bind (Keeps.lift (InclusionProof.make_ok hvalid))
  · have hwalk := s.walk_plainSiblings le_rfl (occupiedAbove_member hu merkleDepthBits)
    rw [Nat.sub_self, pow_zero, Nat.div_one, plainSubtree_member hu] at hwalk
    exact hwalk

/-! ### A proof of absence -/

theorem rangeForPrefix_path (key : Hash) {depth : ℕ} (hle : depth ≤ merkleDepthBits) :
    ∃ range, rangeForPrefix (sortedKeys s) depth (prefixInt (keyIntOf key) depth) = .ok range ∧
      (range.1 = range.2 ↔
        ¬Sparse.Occupied s.treeItems (merkleDepthBits - depth) (keyIntOf key / 2 ^ (merkleDepthBits - depth))) := by
  have hdepth : merkleDepthBits - (merkleDepthBits - depth) = depth := by omega
  have hrange := rangeForPrefix_ok (sortedKeys s) (Nat.sub_le merkleDepthBits depth)
    (by rw [hdepth]; exact prefix_lt key hle)
  rw [hdepth, ← prefixInt_eq] at hrange
  refine ⟨_, hrange, ?_⟩
  rw [occupied_iff, ← prefixInt_eq, not_not, ← List.length_eq_zero_iff]
  dsimp only
  omega

/-- The loop of `_first_empty_depth` stops at the first depth where the path of the key is
empty, if there is one. -/
theorem firstEmpty_found (key : Hash) {depths : List ℕ} (hle : ∀ d ∈ depths, d ≤ merkleDepthBits)
    (hsorted : depths.Pairwise (· < ·))
    (hempty : ∃ d ∈ depths, ¬Sparse.Occupied s.treeItems (merkleDepthBits - d) (keyIntOf key / 2 ^ (merkleDepthBits - d))) :
    ∃ d ∈ depths, firstEmpty (keyIntOf key) (sortedKeys s) depths = .ok d ∧
      ¬Sparse.Occupied s.treeItems (merkleDepthBits - d) (keyIntOf key / 2 ^ (merkleDepthBits - d)) ∧
      ∀ j ∈ depths, j < d → Sparse.Occupied s.treeItems (merkleDepthBits - j) (keyIntOf key / 2 ^ (merkleDepthBits - j)) := by
  induction depths with
  | nil =>
    obtain ⟨d, hd, -⟩ := hempty
    cases hd
  | cons d depths ih =>
    obtain ⟨hlt, hsorted⟩ := List.pairwise_cons.1 hsorted
    obtain ⟨range, hrange, hiff⟩ := s.rangeForPrefix_path key (hle d List.mem_cons_self)
    by_cases hd : range.1 = range.2
    · refine ⟨d, List.mem_cons_self, ?_, hiff.1 hd, fun j hj hjd => ?_⟩
      · rw [firstEmpty, hrange, Exn.ok_bind, if_pos hd]
        rfl
      · rcases List.mem_cons.1 hj with rfl | hj
        · omega
        · have := hlt j hj
          omega
    · have hocc := not_not.1 (mt hiff.2 hd)
      -- this depth is occupied, so the empty one comes later
      have hempty' : ∃ d ∈ depths,
          ¬Sparse.Occupied s.treeItems (merkleDepthBits - d) (keyIntOf key / 2 ^ (merkleDepthBits - d)) := by
        obtain ⟨e, he, hnot⟩ := hempty
        rcases List.mem_cons.1 he with rfl | he
        · exact absurd hocc hnot
        · exact ⟨e, he, hnot⟩
      obtain ⟨e, he, hfound, hnot, habove⟩ := ih (fun d hd => hle d (List.mem_cons_of_mem _ hd)) hsorted hempty'
      refine ⟨e, List.mem_cons_of_mem _ he, ?_, hnot, fun j hj hje => ?_⟩
      · rw [firstEmpty, hrange, Exn.ok_bind, if_neg hd]
        exact hfound
      · rcases List.mem_cons.1 hj with rfl | hj
        · exact hocc
        · exact habove j hj hje

/-- What is hashed for the keys of an outpoint and of the members. -/
def keyInputs : Set Bytes := {b | ∃ o', (o' = o ∨ ∃ u, s.get o' = some u) ∧ b = domainOutpoint :: o'.toBytes}

/-- The leaf of an absent outpoint is empty. -/
theorem not_occupied_absent {s : UTXOSet C} {o : Outpoint} (ho : s.get o = none)
    (hinj : Set.InjOn C.hashBytes (s.keyInputs o)) : ¬Sparse.Occupied s.treeItems 0 (keyIntOf (o.key C)) := by
  rintro ⟨x, hx, hkey⟩
  obtain ⟨u, hu, rfl⟩ := List.mem_map.1 hx
  rw [pow_zero, Nat.div_one] at hkey
  have hu := mem_entries.1 hu
  have hinput := hinj ⟨u.outpoint, .inr ⟨u, hu⟩, rfl⟩ ⟨o, .inl rfl, rfl⟩ (keyIntOf_inj hkey)
  have hout := Outpoint.toBytes_injective (List.cons.inj hinput).2
  rw [hout, ho] at hu
  cases hu

theorem nonInclusionProof_keeps {s : UTXOSet C} {o : Outpoint} (ho : s.get o = none)
    (hkeys : Set.InjOn C.hashBytes (s.keyInputs o)) (hinj : Set.InjOn C.hashBytes s.rootInputs) :
    ∃ p : NonInclusionProof, Keeps (Current s) (nonInclusionProof o) p ∧
      verifyProof C o (.nonInclusion p) s.plainRoot = true := by
  have hleaf := not_occupied_absent ho hkeys
  have hdepths : ∀ d ∈ List.range (merkleDepthBits + 1), d ≤ merkleDepthBits :=
    fun d hd => Nat.lt_succ_iff.1 (List.mem_range.1 hd)
  obtain ⟨depth, hdepth, hfound, hnot, habove⟩ := s.firstEmpty_found (o.key C) hdepths List.pairwise_lt_range
    ⟨merkleDepthBits, List.mem_range.2 (Nat.lt_succ_self _), by simpa using hleaf⟩
  have hle := hdepths depth hdepth
  have hvalid : (⟨o, depth, plainSiblings s (o.key C) depth⟩ : NonInclusionFields).postInit = .ok () :=
    NonInclusionFields.postInit_ok.2 ⟨hle, s.length_plainSiblings _ _, nodup_plainSiblings hinj _ hle⟩
  refine ⟨⟨_, hvalid⟩, Keeps.get_bind fun c hc => ?_, verifyProof_nonInclusion.2 ⟨rfl, ?_⟩⟩
  · have hget : c.unspent.get o = none := by rw [hc.unspent, ho]
    rw [hget]
    refine Keeps.bind (Keeps.lift rfl) ((merkleItems_keeps s).bind ((merkleKeyInts_keeps s).bind ?_)) c hc
    refine Keeps.bind (Keeps.lift hfound) ?_
    exact (onSubtrees_keeps (proofSiblings_keeps s _ hle)).bind (Keeps.lift (NonInclusionProof.make_ok hvalid))
  · have hwalk := s.walk_plainSiblings hle fun j hj => habove j (List.mem_range.2 (by omega)) hj
    rw [plainSubtree_empty hnot, show merkleDepthBits - (merkleDepthBits - depth) = depth by omega] at hwalk
    exact hwalk

/-! ### Forged proofs -/

/-- A walk to the root of the set, from what hashes to `x`, starts at the subtree of the set. -/
theorem top_of_walk {s : UTXOSet C} {B : Set Bytes} (hB : s.rootInputs ⊆ B) (hinj : Set.InjOn C.hashBytes B)
    {key : Hash} {siblings : List Hash} {depth : ℕ} (hle : depth ≤ merkleDepthBits) {x : Sparse.Input UTXO Hash}
    (hx : x ∈ usable C B)
    (hpath : ∀ b ∈ Sparse.walkInputs (treeDigest C) merkleDepthBits (keyIntOf key) (siblingAt siblings) depth
      (treeDigest C x), treeInput C b ∈ B)
    (h : Sparse.walk (treeDigest C) merkleDepthBits (keyIntOf key) (siblingAt siblings) depth (treeDigest C x) =
      s.plainRoot) :
    Sparse.top (treeDigest C) merkleDepthBits s.treeItems (merkleDepthBits - depth)
      (keyIntOf key / 2 ^ (merkleDepthBits - depth)) = x := by
  have htree := treeDigest_injOn hinj
  have htop : ∀ l ≤ merkleDepthBits, ∀ p, Sparse.top (treeDigest C) merkleDepthBits s.treeItems l p ∈ usable C B :=
    fun l hl p => top_usable hB hl p
  have hnodes : ∀ b ∈ Sparse.walkInputs (treeDigest C) merkleDepthBits (keyIntOf key) (siblingAt siblings) depth
      (treeDigest C x), b ∈ usable C B := by
    intro b hb
    obtain ⟨i, hi, l, r, rfl⟩ := Sparse.mem_walkInputs hb
    exact ⟨hpath _ hb, (Nat.le_of_lt hi).trans hle, fun k u hleaf => by cases hleaf⟩
  have hstart := Sparse.walk_sound htree htop (keyIntOf_lt key) hle hnodes h
  exact (htree hx (htop _ (Nat.sub_le _ _) _) hstart).symm

end UTXOSet

variable (C) in
/-- What `verify_proof` hashes for an inclusion proof: the UTXO, its leaf and the path. -/
def InclusionProof.inputs (p : InclusionProof) : Set Bytes :=
  {b | b = domainUtxo :: p.utxo.toBytes ∨ b = treeInput C (.leaf (keyIntOf (p.outpoint.key C)) p.utxo) ∨
    ∃ x ∈ Sparse.walkInputs (treeDigest C) merkleDepthBits (keyIntOf (p.outpoint.key C)) (siblingAt p.siblings)
      merkleDepthBits (treeDigest C (.leaf (keyIntOf (p.outpoint.key C)) p.utxo)), b = treeInput C x}

variable (C) in
/-- What `verify_proof` hashes for a proof of absence: the empty subtree and the path. -/
def NonInclusionProof.inputs (p : NonInclusionProof) : Set Bytes :=
  {b | b = treeInput C (.empty p.emptyDepth) ∨
    ∃ x ∈ Sparse.walkInputs (treeDigest C) merkleDepthBits (keyIntOf (p.outpoint.key C)) (siblingAt p.siblings)
      p.emptyDepth (treeDigest C (.empty p.emptyDepth)), b = treeInput C x}

namespace UTXOSet

variable {s : UTXOSet C} {o : Outpoint}

theorem stored_of_accepted {p : InclusionProof} (hinj : Set.InjOn C.hashBytes (s.rootInputs ∪ p.inputs C))
    (h : verifyProof C o (.inclusion p) s.plainRoot = true) : s.get o = some p.utxo := by
  obtain ⟨rfl, hwalk⟩ := verifyProof_inclusion.1 h
  obtain ⟨hutxo, -⟩ := InclusionFields.postInit_ok.1 p.valid
  have hleaf : Sparse.Input.leaf (keyIntOf (p.outpoint.key C)) p.utxo ∈ usable C (s.rootInputs ∪ p.inputs C) := by
    refine ⟨.inr (.inr (.inl rfl)), le_rfl, fun k u hku => ?_⟩
    cases hku
    exact ⟨by rw [hutxo], .inr (.inl rfl)⟩
  have htop := top_of_walk Set.subset_union_left hinj le_rfl hleaf (fun b hb => .inr (.inr (.inr ⟨b, hb, rfl⟩))) hwalk
  obtain ⟨-, -, hget⟩ := Sparse.top_eq_leaf _ _ _ htop
  rw [← hutxo]
  exact mem_entries.1 (get_treeItems.1 hget).1

theorem absent_of_accepted {p : NonInclusionProof} (hinj : Set.InjOn C.hashBytes (s.rootInputs ∪ p.inputs C))
    (h : verifyProof C o (.nonInclusion p) s.plainRoot = true) : s.get o = none := by
  obtain ⟨rfl, hwalk⟩ := verifyProof_nonInclusion.1 h
  obtain ⟨hle, -⟩ := NonInclusionFields.postInit_ok.1 p.valid
  have hempty : Sparse.Input.empty p.emptyDepth ∈ usable C (s.rootInputs ∪ p.inputs C) :=
    ⟨.inr (.inl rfl), hle, fun k u hku => by cases hku⟩
  have htop := top_of_walk Set.subset_union_left hinj hle hempty (fun b hb => .inr (.inr ⟨b, hb, rfl⟩)) hwalk
  have hget := Sparse.top_eq_empty _ _ _ _ _ htop
  by_contra hsome
  obtain ⟨u, hu⟩ := Option.ne_none_iff_exists'.1 hsome
  have ho := outpoint_of_get hu
  rw [get_treeItems.2 ⟨mem_entries.2 (ho ▸ hu), by rw [ho]⟩] at hget
  cases hget

end UTXOSet

/-- **UTXO proofs are complete and sound.** After every sequence of calls, where no two of
the byte strings hashed collide: a member has an inclusion proof that `verify_proof`
accepts against `merkle_root`, an absent outpoint a proof of absence; an accepted inclusion
proof carries the stored UTXO, and an accepted proof of absence is about an absent
outpoint. -/
theorem utxoProofs_sound_complete (C : Crypto) (calls : List SetCall) (o : Outpoint) :
    let c := CachedSet.runCalls C calls
    ∃ root, (CachedSet.merkleRoot.runOn c).1 = .ok root ∧
    (∀ u, c.unspent.get o = some u → Set.InjOn C.hashBytes c.unspent.rootInputs →
      ∃ p, ((CachedSet.inclusionProof o).runOn c).1 = .ok p ∧ p.utxo = u ∧ verifyProof C o (.inclusion p) root = true) ∧
    (c.unspent.get o = none → Set.InjOn C.hashBytes (c.unspent.rootInputs ∪ c.unspent.keyInputs o) →
      ∃ p, ((CachedSet.nonInclusionProof o).runOn c).1 = .ok p ∧ verifyProof C o (.nonInclusion p) root = true) ∧
    (∀ p : InclusionProof, Set.InjOn C.hashBytes (c.unspent.rootInputs ∪ p.inputs C) →
      verifyProof C o (.inclusion p) root = true → c.unspent.get o = some p.utxo) ∧
    (∀ p : NonInclusionProof, Set.InjOn C.hashBytes (c.unspent.rootInputs ∪ p.inputs C) →
      verifyProof C o (.nonInclusion p) root = true → c.unspent.get o = none) := by
  intro c
  have hc := CachedSet.runCalls_current (C := C) calls
  refine ⟨c.unspent.plainRoot, ?_, fun u hu hinj => ?_, fun ho hinj => ?_, fun p hinj h => ?_, fun p hinj h => ?_⟩
  · obtain ⟨c', hrun, -⟩ := CachedSet.merkleRoot_keeps _ _ hc
    rw [hrun]
  · obtain ⟨p, hkeeps, hutxo, hverify⟩ := UTXOSet.inclusionProof_keeps hu hinj
    obtain ⟨c', hrun, -⟩ := hkeeps c hc
    exact ⟨p, by rw [hrun], hutxo, hverify⟩
  · obtain ⟨p, hkeeps, hverify⟩ := UTXOSet.nonInclusionProof_keeps ho (hinj.mono Set.subset_union_right)
      (hinj.mono Set.subset_union_left)
    obtain ⟨c', hrun, -⟩ := hkeeps c hc
    exact ⟨p, by rw [hrun], hverify⟩
  · exact UTXOSet.stored_of_accepted hinj h
  · exact UTXOSet.absent_of_accepted hinj h

theorem loneCoin_proof : ∃ root, (CachedSet.merkleRoot.runOn (CachedSet.runCalls headCrypto [.add loneCoin])).1 = .ok root ∧
    ∃ p, ((CachedSet.inclusionProof loneCoin.outpoint).runOn (CachedSet.runCalls headCrypto [.add loneCoin])).1 = .ok p ∧
      p.utxo = loneCoin ∧ verifyProof headCrypto loneCoin.outpoint (.inclusion p) root = true := by
  obtain ⟨root, hroot, hincluded, -⟩ := utxoProofs_sound_complete headCrypto [.add loneCoin] loneCoin.outpoint
  have hmem : loneCoin ∈ (CachedSet.runCalls headCrypto [.add loneCoin]).unspent.entries := by
    rw [entries_lone]
    exact List.mem_singleton_self _
  exact ⟨root, hroot, hincluded loneCoin (UTXOSet.mem_entries.1 hmem)
    ((headHash_injOn loneCoin).mono (rootInputs_lone (.inr entries_lone)))⟩

end TensorPow
